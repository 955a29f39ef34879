import KernelFusion.Proofs.Region.Editing
import KernelFusion.Rewrite.Rule

/-!
# Replacing a node

A node may be replaced by as many values as it has results, when these have the types of the results and
are not results of the node themselves. `replaceNode_run` says that the edit is then not refused and leaves
a consistent region, and `Replaced` what that region is: every site that read a result reads the value put
in its place, and the node and its results are gone. A value takes over the sites of each result that it
stands for, behind its own and in their order (`takenOver`).
-/

namespace KernelFusion

/-! ## Putting values in the place of others -/

/-- Puts each of the targets in the place of the source at the same place of its list. -/
def redirectAll (sources targets : List ValueId) (v : ValueId) : ValueId :=
  ((sources.zip targets).lookup v).getD v

theorem substituteAll_eq_map (sources targets values : List ValueId) :
    substituteAll sources targets values = values.map (redirectAll sources targets) := rfl

section RedirectAll

variable {sources targets : List ValueId} {v w : ValueId}

theorem redirectAll_cons {source target : ValueId} :
    redirectAll (source :: sources) (target :: targets) v =
      if v = source then target else redirectAll sources targets v := by
  rw [redirectAll, List.zip_cons_cons, Table.lookup_cons_eq_ite]
  by_cases same : v = source
  · rw [if_pos same, if_pos same, Option.getD_some]
  · rw [if_neg same, if_neg same, redirectAll]

theorem redirectAll_of_not_mem (absent : v ∉ sources) : redirectAll sources targets v = v := by
  induction sources generalizing targets with
  | nil => rfl
  | cons source rest ih =>
    cases targets with
    | nil => rfl
    | cons target targets =>
      rw [List.mem_cons, not_or] at absent
      rw [redirectAll_cons, if_neg absent.1, ih absent.2]

/-- What is replaced becomes what stands at its place among the targets. -/
theorem redirectAll_getElem? (nodup : sources.Nodup) {i : Nat} (sourceAt : sources[i]? = some v)
    (targetAt : targets[i]? = some w) : redirectAll sources targets v = w := by
  induction sources generalizing targets i with
  | nil => cases sourceAt
  | cons source rest ih =>
    obtain ⟨absent, nodup'⟩ := List.nodup_cons.mp nodup
    cases targets with
    | nil => cases targetAt
    | cons target targets =>
      rw [redirectAll_cons]
      cases i with
      | zero =>
        cases sourceAt
        cases targetAt
        exact if_pos rfl
      | succ i =>
        have inRest : v ∈ rest := List.mem_of_getElem? sourceAt
        have ne : v ≠ source := fun same => absent (same ▸ inRest)
        rw [if_neg ne]
        exact ih nodup' sourceAt targetAt

/-- What is replaced becomes one of the targets. -/
theorem redirectAll_mem (length : sources.length = targets.length) (member : v ∈ sources) :
    redirectAll sources targets v ∈ targets := by
  induction sources generalizing targets with
  | nil => cases member
  | cons source rest ih =>
    cases targets with
    | nil => cases length
    | cons target targets =>
      rw [redirectAll_cons]
      split
      · exact List.mem_cons_self
      case isFalse ne =>
        have inRest := (List.mem_cons.mp member).resolve_left ne
        exact List.mem_cons_of_mem _ (ih (Nat.succ.inj length) inRest)

theorem redirectAll_map_of_mem {f : ValueId → ValueId}
    (member : v ∈ sources) : redirectAll sources (sources.map f) v = f v := by
  induction sources with
  | nil => cases member
  | cons source rest ih =>
    rw [List.map_cons, redirectAll_cons]
    by_cases same : v = source
    · rw [if_pos same, same]
    · rw [if_neg same, ih ((List.mem_cons.mp member).resolve_left same)]

/-- A renaming that fixes all other values puts its values in the place of the given ones. -/
theorem redirectAll_map {f : ValueId → ValueId}
    (fixed : ∀ v, v ∉ sources → f v = v) : redirectAll sources (sources.map f) = f := by
  funext v
  by_cases member : v ∈ sources
  · exact redirectAll_map_of_mem member
  · rw [redirectAll_of_not_mem member, fixed v member]

end RedirectAll

namespace Region

variable {g g' g'' : Region} {n m : NodeId} {v : ValueId} {node : Node}

/-! ## Redirecting one value after another -/

namespace Renamed

/-- Nothing is renamed by the identity. -/
theorem refl (g : Region) : Renamed g g id where
  node m := by
    simp [funext Node.rename_id]
  value := rfl
  order := rfl
  inputs := rfl
  outputs := (List.map_id _).symm

/-- Renaming twice is renaming by the composition. -/
theorem trans {f f' : ValueId → ValueId} (first : Renamed g g' f) (second : Renamed g' g'' f') :
    Renamed g g'' (f' ∘ f) where
  node m := by
    rw [second.node, first.node, Option.map_map]
    exact Option.map_congr fun node _ => Node.rename_rename f f' node
  value := second.value.trans first.value
  order := second.order.trans first.order
  inputs := second.inputs.trans first.inputs
  outputs := by rw [second.outputs, first.outputs, List.map_map]

end Renamed

/-- One value can stand for another. -/
def SameType (g : Region) (source target : ValueId) : Prop :=
  ∃ type, g.typeOf source = some type ∧ g.typeOf target = some type

theorem SameType.trans {u w : ValueId} (first : g.SameType u v) (second : g.SameType v w) :
    g.SameType u w := by
  obtain ⟨type, uType, vType⟩ := first
  obtain ⟨type', vType', wType⟩ := second
  rw [vType, Option.some.injEq] at vType'
  exact ⟨type, uType, vType' ▸ wType⟩

/-- A result is returned by another apply when its expression or another of the same type is returned there in the same
place. -/
theorem Consistent.exists_sameType_result (c : g.Consistent) {operands operands' results : List ValueId}
    {kernel kernel' : Kernel} {results' : List ValueId}
    (found : g.nodes.get? n = some ⟨.apply operands kernel, results⟩)
    (found' : g.nodes.get? m = some ⟨.apply operands' kernel', results'⟩)
    (returns : ∀ i type tree, kernel.Returns i type tree → ∃ tree', kernel'.Returns i type tree')
    {i : Nat} (resultAt : results[i]? = some v) : ∃ w, results'[i]? = some w ∧ g.SameType v w := by
  have fits := c.fits n _ found
  have fits' := c.fits m _ found'
  rcases fits.results i v resultAt with ⟨type, typeAt, infoAt⟩
  rcases (fits.kernel kernel rfl).exists_returns typeAt with ⟨tree, returned⟩
  rcases returns i type tree returned with ⟨tree', returned'⟩
  have typeAt' := (fits'.kernel kernel' rfl).resultType_of_returns returned'
  have lt : i < results'.length := by
    rw [fits'.length_results]
    exact (List.getElem?_eq_some_iff.mp typeAt').1
  have resultAt' := List.getElem?_eq_getElem lt
  exact ⟨results'[i], resultAt', type, typeOf_of_get? infoAt,
    (c.typeOf_result found' resultAt').trans typeAt'⟩

/-- The sites that a value takes over when targets are put in the place of sources. -/
def takenOver (g : Region) (sources targets : List ValueId) (q : ValueId) : List Use :=
  (sources.zip targets).flatMap fun pair => if pair.2 = q then g.usesOf pair.1 else []

theorem takenOver_cons {source target q : ValueId} {sources targets : List ValueId} :
    g.takenOver (source :: sources) (target :: targets) q =
      (if target = q then g.usesOf source else []) ++ g.takenOver sources targets q := by
  rw [takenOver, List.zip_cons_cons, List.flatMap_cons, takenOver]

/-- The sites that are taken over depend on the use lists of the sources only. -/
theorem takenOver_congr {sources targets : List ValueId} {q : ValueId}
    (same : ∀ v ∈ sources, g'.usesOf v = g.usesOf v) :
    g'.takenOver sources targets q = g.takenOver sources targets q := by
  refine List.flatMap_congr fun pair member => ?_
  rw [same pair.1 (List.of_mem_zip member).1]

theorem takenOver_of_not_mem {sources targets : List ValueId} {q : ValueId} (absent : q ∉ targets) :
    g.takenOver sources targets q = [] := by
  refine List.flatMap_eq_nil_iff.mpr fun pair member => if_neg ?_
  intro same
  exact absent (same ▸ (List.of_mem_zip member).2)

/-- A value that stands for one source takes over the sites of that source. -/
theorem takenOver_getElem? {sources targets : List ValueId} {q : ValueId} (nodup : targets.Nodup)
    {i : Nat} (sourceAt : sources[i]? = some v) (targetAt : targets[i]? = some q) :
    g.takenOver sources targets q = g.usesOf v := by
  induction sources generalizing targets i with
  | nil => cases sourceAt
  | cons source rest ih =>
    cases targets with
    | nil => cases targetAt
    | cons target targets =>
      rcases List.nodup_cons.mp nodup with ⟨absent, nodup'⟩
      rw [takenOver_cons]
      cases i with
      | zero =>
        cases sourceAt
        cases targetAt
        rw [if_pos rfl, takenOver_of_not_mem absent, List.append_nil]
      | succ i =>
        have ne : target ≠ q := fun same => absent (same ▸ List.mem_of_getElem? targetAt)
        rw [if_neg ne, List.nil_append]
        exact ih nodup' sourceAt targetAt

/-- Each of the sources has been redirected to the target at its place. -/
structure RedirectedAll (g g' : Region) (sources targets : List ValueId) : Prop
    extends Renamed g g' (redirectAll sources targets) where
  uses : ∀ q, q ∉ sources → g'.usesOf q = g.usesOf q ++ g.takenOver sources targets q

/-- Redirecting several values, one after the other, redirects them all at once, because no target is a source. -/
theorem redirectEach_run (c : g.Consistent) {sources targets : List ValueId}
    (typed : List.Forall₂ g.SameType sources targets) (nodup : sources.Nodup)
    (apart : ∀ v ∈ targets, v ∉ sources) :
    ∃ g', ((sources.zip targets).forM fun (source, target) => redirectUses source target).run g =
        .ok () g' ∧ g'.Consistent ∧ RedirectedAll g g' sources targets := by
  induction sources generalizing g targets with
  | nil => exact ⟨g, rfl, c, .refl g, fun q _ => (List.append_nil _).symm⟩
  | cons source sources ih =>
    obtain ⟨target, targets, head, tail, rfl⟩ := List.forall₂_cons_left_iff.mp typed
    obtain ⟨absent, nodup'⟩ := List.nodup_cons.mp nodup
    obtain ⟨type, sourceType, targetType⟩ := head
    have ne : source ≠ target := by
      rintro rfl
      exact apart source List.mem_cons_self List.mem_cons_self
    have red := redirected_moveUses c ne
    have tail' : List.Forall₂ (g.moveUses source target).SameType sources targets :=
      tail.imp fun v w ⟨type, vType, wType⟩ =>
        ⟨type, by rw [red.typeOf_eq, vType], by rw [red.typeOf_eq, wType]⟩
    obtain ⟨g', ran, c', all⟩ := ih (consistent_moveUses c ne sourceType targetType) tail' nodup'
      fun v member inSources =>
        apart v (List.mem_cons_of_mem _ member) (List.mem_cons_of_mem _ inSources)
    refine ⟨g', ?_, c', ?_, fun q other => ?_⟩
    · rw [List.zip_cons_cons, List.forM]
      exact (run_bind_ok (redirectUses_run sourceType targetType ne)).trans ran
    · have both := red.toRenamed.trans all.toRenamed
      have same : redirectAll sources targets ∘ redirect source target =
          redirectAll (source :: sources) (target :: targets) := by
        funext v
        rw [Function.comp_apply, redirectAll_cons]
        by_cases first : v = source
        · rw [first, redirect_self, if_pos rfl]
          exact redirectAll_of_not_mem fun inSources =>
            apart target List.mem_cons_self (List.mem_cons_of_mem _ inSources)
        · rw [redirect_of_ne first, if_neg first]
      rwa [same] at both
    · -- The first redirection leaves the uses of the other sources alone.
      rw [List.mem_cons, not_or] at other
      have later : ∀ v ∈ sources, (g.moveUses source target).usesOf v = g.usesOf v := by
        intro v member
        have notTarget : v ≠ target := fun same =>
          apart target List.mem_cons_self (List.mem_cons_of_mem _ (same ▸ member))
        rw [red.uses, if_neg notTarget, if_neg (ne_of_mem_of_not_mem member absent)]
      rw [all.uses q other.2, takenOver_congr later, takenOver_cons, ← List.append_assoc, red.uses]
      by_cases isTarget : q = target
      · rw [if_pos isTarget, if_pos isTarget.symm, isTarget]
      · rw [if_neg isTarget, if_neg other.1, if_neg (Ne.symm isTarget), List.append_nil]

/-! ## The region without the node -/

/-- The results of a node were redirected to other values, and the node removed. -/
structure Replaced (g g' : Region) (n : NodeId) (results values : List ValueId) : Prop where
  node : ∀ m, g'.nodes.get? m =
    if m = n then none else (g.nodes.get? m).map (Node.rename (redirectAll results values))
  value : ∀ v, g'.values.get? v = if v ∈ results then none else g.values.get? v
  order : g'.order = g.order.erase n
  inputs : g'.inputs = g.inputs
  outputs : g'.outputs = g.outputs.map (redirectAll results values)
  uses : ∀ q, q ∉ results → g'.usesOf q =
    (g.usesOf q ++ g.takenOver results values q).filter fun site => site.node? ≠ some n

/-- Checks that each of the targets can stand for the source at the same place of its list. -/
def checkReplacements (g : Region) (sources targets : List ValueId) : Except Error Unit :=
  (sources.zip targets).forM fun (source, target) => g.checkReplacement source target

/-- Replacements pass if each value has the type of the one it replaces. -/
theorem checkReplacements_eq_ok_iff {sources targets : List ValueId}
    (length : sources.length = targets.length) :
    g.checkReplacements sources targets = .ok () ↔ List.Forall₂ g.SameType sources targets := by
  rw [checkReplacements, forM_eq_ok_iff, List.forall₂_iff_zip, and_iff_right length]
  constructor
  · intro checked source target member
    exact checkReplacement_eq_ok_iff.mp (checked _ member)
  · rintro typed ⟨source, target⟩ member
    exact checkReplacement_eq_ok_iff.mpr (typed member)

/-- If replacements do not pass, it is for one of them. -/
theorem exists_of_checkReplacements_eq_error {sources targets : List ValueId} {e : Error}
    (failed : g.checkReplacements sources targets = .error e) :
    ∃ (i : Nat) (source target : ValueId), sources[i]? = some source ∧ targets[i]? = some target ∧
      g.checkReplacement source target = .error e := by
  rcases exists_of_forM_eq_error failed with ⟨⟨source, target⟩, member, failedHere⟩
  rcases List.mem_iff_getElem?.mp member with ⟨i, pairAt⟩
  rcases List.getElem?_zip_eq_some.mp pairAt with ⟨sourceAt, targetAt⟩
  exact ⟨i, source, target, sourceAt, targetAt, failedHere⟩

/-- A live node is replaced by as many values as it has results when they pass the checks. -/
theorem run_replaceNode {values : List ValueId} (found : g.nodes.get? n = some node)
    (length : node.results.length = values.length) :
    (replaceNode n values).run g =
      (do
        liftM (g.checkReplacements node.results values)
        (node.results.zip values).forM fun (source, target) => redirectUses source target
        eraseNode n : Edit Unit).run g := by
  have checks : ((node.results.zip values).forM fun (source, target) =>
        (liftM (g.checkReplacement source target) : Edit Unit)).run g =
      (liftM (g.checkReplacements node.results values) : Edit Unit).run g := run_forM_lift
  rw [replaceNode, run_get_bind, results_of_get? found, run_lift_ok_bind, if_pos length]
  dsimp only
  rw [EStateM.run_bind, checks, ← EStateM.run_bind]

/-- Replacing a node by values of the right types succeeds. -/
theorem replaceNode_run (c : g.Consistent) {values : List ValueId}
    (found : g.nodes.get? n = some node)
    (typed : List.Forall₂ g.SameType node.results values)
    (apart : ∀ v ∈ values, v ∉ node.results) :
    ∃ g', (replaceNode n values).run g = .ok () g' ∧ g'.Consistent ∧
      Replaced g g' n node.results values := by
  obtain ⟨g₁, ran, c₁, ren⟩ := redirectEach_run c typed (c.results_nodup found) apart
  have found₁ : g₁.nodes.get? n = some (node.rename (redirectAll node.results values)) := by
    rw [ren.node, found, Option.map_some]
  -- Nothing reads a result any more: the sites that did now read one of the values.
  have unused : ∀ v ∈ node.results, g₁.usesOf v = [] := by
    intro v member
    refine List.eq_nil_iff_forall_not_mem.mpr fun site used => ?_
    have read := (c₁.mem_usesOf v site).mp used
    rw [ren.siteValue_eq, Option.map_eq_some_iff] at read
    obtain ⟨w, -, rfl⟩ := read
    by_cases result : w ∈ node.results
    · exact apart _ (redirectAll_mem typed.length_eq result) member
    · rw [redirectAll_of_not_mem result] at member
      exact result member
  have rem : Removed g₁ (g₁.removeNode (g₁.order.idxOf n) n _) n
      (node.rename (redirectAll node.results values)) := removed_removeNode c₁
  refine ⟨_, ?_, consistent_removeNode c₁ found₁ unused, ?_⟩
  · have checked := (checkReplacements_eq_ok_iff typed.length_eq).mpr typed
    rw [run_replaceNode found typed.length_eq, checked, run_lift_ok_bind, run_bind_ok ran]
    exact eraseNode_run c₁ found₁ unused
  · exact {
      node := fun m => by rw [rem.node, ren.node]
      value := fun v => by rw [rem.value, ren.value]; rfl
      order := by rw [rem.order, ren.order]
      inputs := rem.inputs.trans ren.inputs
      outputs := rem.outputs.trans ren.outputs
      uses := fun q other => by rw [rem.usesOf_eq c₁ found₁, ren.uses q other] }

end Region

end KernelFusion
