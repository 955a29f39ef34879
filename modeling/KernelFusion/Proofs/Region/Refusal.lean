import KernelFusion.Proofs.Region.Calls

/-!
# Refused calls

Every call checks what it needs before it changes anything, so when it is refused the region is as it was. The one
exception is `replaceNode`, which redirects result after result and erases the node at the end: if one result takes
the place of another, the node may still be read then, and the erasure is refused when uses have been redirected
already.

When no value that takes the place of a result is itself a result of the node, nothing can be refused after the
first redirection: no redirection gives a use back to a result, so all of them are unread in the end
(`replaceNode_run`). What remains are the reasons in `Unfit`.
-/

namespace KernelFusion.Region

variable {g g' : Region} {n : NodeId} {v : ValueId} {node : Node} {values : List ValueId} {e : Error}

/-! ## Calls that check first -/

theorem cautious_addOutput (v : ValueId) : Cautious (addOutput v) g :=
  cautious_get_bind <| cautious_lift_bind fun _ _ => cautious_of_ok rfl

theorem cautious_insertLoad (point : InsertPoint) (field : Field) (type : ElementType) :
    Cautious (insertLoad point field type) g :=
  cautious_get_bind <| cautious_lift_bind fun _ _ => cautious_of_ok rfl

/-- The operands are checked before anything is inserted. -/
theorem cautious_insertApply (point : InsertPoint) (operands : List ValueId) (kernel : Kernel) :
    Cautious (insertApply point operands kernel) g := by
  refine cautious_get_bind (cautious_lift_bind fun place _ => ?_)
  by_cases length : operands.length = kernel.params.length
  · rw [if_pos length]
    exact cautious_lift_bind fun _ _ => cautious_of_ok rfl
  · rw [if_neg length]
    exact cautious_refuse _

/-- The copy is checked like an insertion. -/
theorem cautious_insertCopy (point : InsertPoint) (n : NodeId) : Cautious (insertCopy point n) g := by
  refine cautious_get_bind (cautious_lift_bind fun kind _ => ?_)
  cases kind with
  | load field type => exact cautious_insertLoad point field type
  | apply operands kernel => exact cautious_insertApply point operands kernel

/-- The two values are compared before any use is moved. -/
theorem cautious_redirectUses (source target : ValueId) : Cautious (redirectUses source target) g := by
  refine cautious_get_bind (cautious_lift_bind fun _ _ => ?_)
  by_cases same : source = target
  · rw [if_pos same]
    exact cautious_of_ok rfl
  · rw [if_neg same]
    exact cautious_of_ok rfl

/-- The uses of the results are looked at before the node is taken out. -/
theorem cautious_eraseNode (n : NodeId) : Cautious (eraseNode n) g :=
  cautious_get_bind <| cautious_lift_bind fun _ _ => cautious_lift_bind fun _ _ =>
    cautious_lift_bind fun _ _ => cautious_of_ok rfl

/-! ## Replacing a node by values that are not its results -/

/-- The reasons for which a node cannot be replaced by values that are not its own results. -/
inductive Unfit (g : Region) (n : NodeId) (values : List ValueId) : Error → Prop
  | stale : g.nodes.get? n = none → Unfit g n values (.staleNode n)
  | count {node : Node} : g.nodes.get? n = some node → node.results.length ≠ values.length →
    Unfit g n values (.replacementCountMismatch n node.results.length values.length)
  | value {v : ValueId} : v ∈ values → g.values.get? v = none → Unfit g n values (.staleValue v)
  | type {node : Node} {i : Nat} {source target : ValueId} {type type' : ElementType} :
    g.nodes.get? n = some node → node.results[i]? = some source → values[i]? = some target →
    g.typeOf source = some type → g.typeOf target = some type' → type ≠ type' →
    Unfit g n values (.replaceTypeMismatch source type target type')

theorem results_of_none (absent : g.nodes.get? n = none) : g.results n = .error (.staleNode n) := by
  rw [results, Region.node, absent, orRefuse_none, error_bind]

theorem valueType_of_none (absent : g.values.get? v = none) : g.valueType v = .error (.staleValue v) := by
  rw [valueType, value, absent, orRefuse_none, error_bind]

/-- A replacement that does not pass is one that the region does not have, or one of another type. -/
theorem Consistent.unfit_of_checkReplacement (c : g.Consistent) (found : g.nodes.get? n = some node)
    {i : Nat} {source target : ValueId} (sourceAt : node.results[i]? = some source)
    (targetAt : values[i]? = some target) (failed : g.checkReplacement source target = .error e) :
    g.Unfit n values e := by
  rcases c.get?_result found sourceAt with ⟨type, infoAt⟩
  have sourceType := typeOf_of_get? infoAt
  rw [checkReplacement, valueType_eq_ok_iff.mpr sourceType, ok_bind] at failed
  cases targetInfo : g.values.get? target with
  | none =>
    rw [valueType_of_none targetInfo, error_bind, Except.error.injEq] at failed
    exact failed ▸ .value (List.mem_of_getElem? targetAt) targetInfo
  | some info =>
    have targetType := typeOf_of_get? targetInfo
    rw [valueType_eq_ok_iff.mpr targetType, ok_bind] at failed
    by_cases same : type = info.type
    · rw [if_pos same] at failed
      cases failed
    · rw [if_neg same] at failed
      cases failed
      exact .type found sourceAt targetAt sourceType targetType same

/-- Behind the checks nothing is refused: what they let through is redirected and erased. -/
theorem replaceNode_refused (c : g.Consistent)
    (apart : ∀ node, g.nodes.get? n = some node → ∀ v ∈ values, v ∉ node.results)
    (refused : (replaceNode n values).run g = .error e g') : g' = g ∧ g.Unfit n values e := by
  cases found : g.nodes.get? n with
  | none =>
    rw [replaceNode, run_get_bind, results_of_none found, run_lift_error_bind] at refused
    cases refused
    exact ⟨rfl, .stale found⟩
  | some node =>
    by_cases length : node.results.length = values.length
    case neg =>
      rw [replaceNode, run_get_bind, results_of_get? found, run_lift_ok_bind,
        if_neg length] at refused
      cases refused
      exact ⟨rfl, .count found length⟩
    case pos =>
      cases checks : g.checkReplacements node.results values with
      | ok =>
        have typed := (checkReplacements_eq_ok_iff length).mp checks
        rcases replaceNode_run c found typed (apart node found) with ⟨g₁, ran, -⟩
        rw [ran] at refused
        cases refused
      | error e₁ =>
        rw [run_replaceNode found length, checks, run_lift_error_bind] at refused
        cases refused
        rcases exists_of_checkReplacements_eq_error checks with
          ⟨i, source, target, sourceAt, targetAt, failed⟩
        exact ⟨rfl, c.unfit_of_checkReplacement found sourceAt targetAt failed⟩

/-! ## Refused calls -/

namespace Call

/-- The error of a call that is refused. -/
def refusal (g : Region) : Call → Option Error
  | addInput type => KernelFusion.refusal (Region.addInput type) g
  | addOutput value => KernelFusion.refusal (Region.addOutput value) g
  | insertLoad point field type => KernelFusion.refusal (Region.insertLoad point field type) g
  | insertApply point operands kernel _ =>
    KernelFusion.refusal (Region.insertApply point operands kernel) g
  | insertCopy point n => KernelFusion.refusal (Region.insertCopy point n) g
  | redirectUses source target => KernelFusion.refusal (Region.redirectUses source target) g
  | replaceNode n values => KernelFusion.refusal (Region.replaceNode n values) g
  | eraseNode n => KernelFusion.refusal (Region.eraseNode n) g

/-- If the call replaces a node, it does so by values that are not results of the node. -/
def Apart (g : Region) : Call → Prop
  | replaceNode n values => ∀ node, g.nodes.get? n = some node → ∀ v ∈ values, v ∉ node.results
  | _ => True

/-- A call that is refused leaves the region as it was. -/
theorem leaves_of_refused (call : Call) (c : g.Consistent) (apart : call.Apart g)
    (refused : call.refusal g = some e) : call.leaves g = g := by
  cases call with
  | addInput type => cases refused
  | addOutput value => exact (cautious_addOutput value).stateAfter_eq refused
  | insertLoad point field type => exact (cautious_insertLoad point field type).stateAfter_eq refused
  | insertApply point operands kernel =>
    exact (cautious_insertApply point operands kernel).stateAfter_eq refused
  | insertCopy point n => exact (cautious_insertCopy point n).stateAfter_eq refused
  | redirectUses source target => exact (cautious_redirectUses source target).stateAfter_eq refused
  | replaceNode n values => exact (replaceNode_refused c apart (refusal_eq_some_iff.mp refused)).1
  | eraseNode n => exact (cautious_eraseNode n).stateAfter_eq refused

end Call

/-- Whatever calls made a region, a call that is refused leaves it as it is, unless the call replaces a node by some
of its own results. A node that is to be replaced by other values is unfit for it if the call is refused. -/
theorem made_of_refused (calls : List Call) (call : Call) {e : Error} (apart : call.Apart (made calls))
    (refused : call.refusal (made calls) = some e) :
    made (calls ++ [call]) = made calls ∧
      ∀ n values, call = .replaceNode n values → (made calls).Unfit n values e := by
  have c : (made calls).Consistent := (built_iff.mpr ⟨calls, rfl⟩).consistent
  refine ⟨(made_concat calls call).trans (call.leaves_of_refused c apart refused), ?_⟩
  rintro n values rfl
  exact (replaceNode_refused c apart (refusal_eq_some_iff.mp refused)).2

/-- A load, and an apply that reads its own result. -/
def selfReading : List Call :=
  [.insertLoad .last ⟨"u"⟩ .float64,
    .insertApply .last [⟨0, 0⟩] (.identity .float64) (.identity .float64),
    .redirectUses ⟨0, 0⟩ ⟨1, 0⟩]

/-- In a region with a node that reads itself, a refused replacement changes nothing, and one by another value is not
refused. -/
theorem made_of_refused_selfReading :
    (made selfReading).usesOf ⟨1, 0⟩ = [.operand ⟨1, 0⟩ 0] ∧
      made (selfReading ++ [.replaceNode ⟨1, 0⟩ [⟨9, 0⟩]]) = made selfReading ∧
      (made selfReading).Unfit ⟨1, 0⟩ [⟨9, 0⟩] (.staleValue ⟨9, 0⟩) ∧
      Call.refusal (made selfReading) (.replaceNode ⟨1, 0⟩ [⟨0, 0⟩]) = none := by
  have apart : Call.Apart (made selfReading) (.replaceNode ⟨1, 0⟩ [⟨9, 0⟩]) := by
    rintro node found v member result
    cases found
    cases List.mem_singleton.mp member
    cases List.mem_singleton.mp result
  rcases made_of_refused selfReading (.replaceNode ⟨1, 0⟩ [⟨9, 0⟩]) apart rfl with ⟨same, unfit⟩
  exact ⟨rfl, same, unfit _ _ rfl, rfl⟩

end KernelFusion.Region
