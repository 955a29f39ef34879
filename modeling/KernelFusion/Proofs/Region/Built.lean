import KernelFusion.Proofs.Region.Editing
import KernelFusion.Region.Check

/-!
# Regions made by edits

Every edit keeps a region consistent, whether it succeeds or is refused halfway, and so every region that
can be made by edits is consistent (`Built.consistent`). Nothing is asked of the arguments but that a kernel
was made by a draft. Redirecting uses can break the order of production, so a region made by edits need not
be ordered.
-/

namespace KernelFusion.Region

variable {g : Region} {n : NodeId} {v : ValueId} {point : InsertPoint}

/-! ## Inputs and outputs -/

theorem consistent_empty : empty.Consistent where
  nodes := Arena.wellFormed_empty
  values := Arena.wellFormed_empty
  order_nodup := List.nodup_nil
  mem_order n := by simp [empty, Arena.get?_empty]
  length_order := rfl
  positions n := by simp [empty, Table.find?_empty, positionIn]
  fits n node found := by cases found
  defines v info found := by cases found
  inputs i v found := by simp [empty] at found
  outputs v member := by simp [empty] at member
  uses_nodup v := List.nodup_nil
  mem_usesOf v site := by
    cases site <;>
      simp [empty, usesOf, UseIndex.sites, Table.find?_empty, siteValue, Arena.get?_empty]
  uses_bound v := by simp [empty, Table.find?_empty]

/-- The region with one more input. -/
def withInput (g : Region) (type : ElementType) : Region := stateAfter (addInput type) g

/-- An input is one value more. -/
theorem value_withInput (c : g.Consistent) (type : ElementType) (q : ValueId) :
    (g.withInput type).values.get? q =
      if q = g.values.fresh then some ⟨type, .input g.inputs.length⟩ else g.values.get? q :=
  Arena.get?_insert c.values ⟨type, .input g.inputs.length⟩

theorem value_withInput_of_get? (c : g.Consistent) (type : ElementType) {q : ValueId}
    {info : ValueInfo} (found : g.values.get? q = some info) :
    (g.withInput type).values.get? q = some info := by
  rw [value_withInput c, if_neg (Arena.ne_fresh c.values found), found]

theorem typeOf_withInput (c : g.Consistent) (type : ElementType) {q : ValueId}
    {type' : ElementType} (typed : g.typeOf q = some type') :
    (g.withInput type).typeOf q = some type' := by
  rcases typeOf_eq_some_iff.mp typed with ⟨definition, infoAt⟩
  exact typeOf_eq_some_iff.mpr ⟨definition, value_withInput_of_get? c type infoAt⟩

theorem inputAt_withInput (type : ElementType) {i : Nat} {q : ValueId} :
    (g.withInput type).inputs[i]? = some q ↔
      g.inputs[i]? = some q ∨ i = g.inputs.length ∧ q = g.values.fresh := by
  change (g.inputs ++ [g.values.fresh])[i]? = some q ↔ _
  rcases Nat.lt_trichotomy i g.inputs.length with lt | atEnd | gt
  · rw [List.getElem?_append_left lt]
    simp [Nat.ne_of_lt lt]
  · rw [atEnd, List.getElem?_append_right (Nat.le_refl _), List.getElem?_eq_none (Nat.le_refl _)]
    simp [eq_comm]
  · have beyond : (g.inputs ++ [g.values.fresh]).length ≤ i := by
      rw [List.length_append, List.length_singleton]
      omega
    rw [List.getElem?_eq_none beyond, List.getElem?_eq_none (Nat.le_of_lt gt)]
    simp [Nat.ne_of_gt gt]

/-- An input is read nowhere, so only the list of inputs has to be looked at. -/
theorem consistent_addInput (c : g.Consistent) (type : ElementType) :
    (stateAfter (addInput type) g).Consistent := by
  change (g.withInput type).Consistent
  have kept {q : ValueId} {info : ValueInfo} (found : g.values.get? q = some info) :=
    value_withInput_of_get? c type found
  constructor
  case nodes => exact c.nodes
  case values => exact Arena.wellFormed_insert c.values _
  case order_nodup => exact c.order_nodup
  case mem_order => exact c.mem_order
  case length_order => exact c.length_order
  case positions => exact c.positions
  case fits =>
    intro m node found
    exact (c.fits m node found).of_kept (fun _ _ _ => typeOf_withInput c type) fun _ _ _ => kept
  case defines =>
    intro q info found
    rw [value_withInput c] at found
    split at found
    case isTrue new =>
      cases found
      exact (inputAt_withInput type).mpr (.inr ⟨rfl, new⟩)
    case isFalse =>
      exact (c.defines q info found).of_kept (fun i old => (inputAt_withInput type).mpr (.inl old))
        fun m node nodeAt _ => ⟨node, nodeAt, rfl⟩
  case inputs =>
    intro i q inputAt
    rcases (inputAt_withInput type).mp inputAt with old | ⟨rfl, rfl⟩
    · rcases c.inputs i q old with ⟨type', infoAt⟩
      exact ⟨type', kept infoAt⟩
    · exact ⟨type, by rw [value_withInput c, if_pos rfl]⟩
  case outputs =>
    intro q member
    rcases c.outputs q member with ⟨info, infoAt⟩
    exact ⟨info, kept infoAt⟩
  case uses_nodup => exact c.uses_nodup
  case mem_usesOf => exact c.mem_usesOf
  case uses_bound => exact c.uses_bound

/-- The region with one more output. -/
def withOutput (g : Region) (v : ValueId) : Region :=
  { g with
    outputs := g.outputs ++ [v]
    uses := g.uses.add v (.output g.outputs.length) }

/-- An output is one site more, behind those that read the value already. -/
theorem usesOf_withOutput (q : ValueId) :
    (g.withOutput v).usesOf q =
      if q = v then g.usesOf v ++ [.output g.outputs.length] else g.usesOf q :=
  UseIndex.sites_add g.uses v q (.output g.outputs.length)

theorem siteValue_withOutput (site : Use) :
    (g.withOutput v).siteValue site =
      if site = .output g.outputs.length then some v else g.siteValue site := by
  cases site with
  | operand m i => rfl
  | output i =>
    change (g.outputs ++ [v])[i]? = _
    simp only [Use.output.injEq, siteValue]
    rcases Nat.lt_trichotomy i g.outputs.length with lt | atEnd | gt
    · rw [List.getElem?_append_left lt, if_neg (Nat.ne_of_lt lt)]
    · rw [atEnd, List.getElem?_append_right (Nat.le_refl _), Nat.sub_self, List.getElem?_cons_zero,
        if_pos rfl]
    · rw [if_neg (Nat.ne_of_gt gt), List.getElem?_eq_none (Nat.le_of_lt gt),
        List.getElem?_eq_none (by rw [List.length_append]; exact gt)]

/-- No use list has the site of an output that is not there yet. -/
theorem output_not_mem_usesOf (c : g.Consistent) (q : ValueId) :
    Use.output g.outputs.length ∉ g.usesOf q := by
  intro used
  have read := (c.mem_usesOf q _).mp used
  rw [siteValue, List.getElem?_eq_none (Nat.le_refl _)] at read
  cases read

theorem mem_usesOf_withOutput (c : g.Consistent) (q : ValueId) (site : Use) :
    site ∈ (g.withOutput v).usesOf q ↔ (g.withOutput v).siteValue site = some q := by
  have beyond := output_not_mem_usesOf c q
  rw [usesOf_withOutput, siteValue_withOutput]
  by_cases new : site = .output g.outputs.length
  · rw [if_pos new, Option.some.injEq]
    split
    case isTrue same => simp [new, same]
    case isFalse differ => simp [new, beyond, Ne.symm differ]
  · rw [if_neg new, ← c.mem_usesOf]
    split
    case isTrue same => simp [new, same]
    case isFalse => rfl

/-- A live value is made an output. -/
theorem consistent_withOutput (c : g.Consistent) {info : ValueInfo}
    (found : g.values.get? v = some info) : (g.withOutput v).Consistent where
  nodes := c.nodes
  values := c.values
  order_nodup := c.order_nodup
  mem_order := c.mem_order
  length_order := c.length_order
  positions := c.positions
  fits m node nodeAt := (c.fits m node nodeAt).of_kept (fun _ _ _ => id) fun _ _ _ => id
  defines q info' infoAt :=
    (c.defines q info' infoAt).of_kept (fun _ => id) fun m node nodeAt _ => ⟨node, nodeAt, rfl⟩
  inputs := c.inputs
  outputs q member := by
    rcases List.mem_append.mp member with old | new
    · exact c.outputs q old
    · rw [List.mem_singleton.mp new]
      exact ⟨info, found⟩
  uses_nodup q := by
    rw [usesOf_withOutput]
    split
    · rw [← List.concat_eq_append]
      exact (c.uses_nodup v).concat (output_not_mem_usesOf c v)
    · exact c.uses_nodup q
  mem_usesOf := mem_usesOf_withOutput c
  uses_bound := UseIndex.Bound.assign c.uses_bound _ _

/-- An output of a value that the region does not have is refused, and then nothing has changed. -/
theorem consistent_addOutput (c : g.Consistent) (v : ValueId) :
    (stateAfter (addOutput v) g).Consistent := by
  rw [addOutput, stateAfter_get_bind]
  refine stateAfter_lift_bind Consistent c fun info checked => ?_
  exact consistent_withOutput c (value_eq_ok_iff.mp checked)

/-! ## Nodes -/

/-- An insertion that is refused changes nothing, and one that succeeds keeps the region consistent. -/
theorem consistent_insertLoad (c : g.Consistent) (point : InsertPoint) (field : Field)
    (type : ElementType) : (stateAfter (insertLoad point field type) g).Consistent := by
  rw [insertLoad, stateAfter_get_bind]
  refine stateAfter_lift_bind Consistent c fun place resolved => ?_
  change (g.insertNode place (.load field type) (NodeKind.load field type).resultTypes).Consistent
  exact consistent_insertNode c (c.resolve_le resolved) (fun _ kernelEq => by cases kernelEq) .nil

/-- The same for an apply, whose operands have been checked against its kernel. -/
theorem consistent_insertApply (c : g.Consistent) (point : InsertPoint) (operands : List ValueId)
    {kernel : Kernel} (wf : kernel.WellFormed) :
    (stateAfter (insertApply point operands kernel) g).Consistent := by
  rw [insertApply, stateAfter_get_bind]
  refine stateAfter_lift_bind Consistent c fun place resolved => ?_
  by_cases length : operands.length = kernel.params.length
  · rw [if_pos length]
    refine stateAfter_lift_bind Consistent c fun _ checked => ?_
    obtain ⟨typed, -⟩ := (c.checkOperands_eq_ok_iff length).mp checked
    change (g.insertNode place (.apply operands kernel)
      (NodeKind.apply operands kernel).resultTypes).Consistent
    refine consistent_insertNode c (c.resolve_le resolved) (fun _ kernelEq => ?_) typed
    rwa [← Option.some.inj kernelEq]
  · rw [if_neg length]
    exact c

theorem consistent_insertCopy (c : g.Consistent) (point : InsertPoint) (n : NodeId) :
    (stateAfter (insertCopy point n) g).Consistent := by
  rw [insertCopy, stateAfter_get_bind]
  refine stateAfter_lift_bind Consistent c fun kind answered => ?_
  obtain ⟨node, found, kindEq⟩ := bind_eq_ok_iff.mp answered
  rw [pure_eq_ok, Except.ok.injEq] at kindEq
  cases kind with
  | load field type => exact consistent_insertLoad c point field type
  | apply operands kernel =>
    refine consistent_insertApply c point operands ?_
    exact (c.fits n node (node_eq_ok_iff.mp found)).kernel kernel (by rw [kindEq]; rfl)

/-- Redirecting the uses of a value to one of the same type keeps the operands typed. -/
theorem consistent_redirectUses (c : g.Consistent) (source target : ValueId) :
    (stateAfter (redirectUses source target) g).Consistent := by
  rw [redirectUses, stateAfter_get_bind]
  refine stateAfter_lift_bind Consistent c fun _ checked => ?_
  obtain ⟨type, sourceType, targetType⟩ := checkReplacement_eq_ok_iff.mp checked
  by_cases same : source = target
  · rw [if_pos same]
    exact c
  · rw [if_neg same]
    exact consistent_moveUses c same sourceType targetType

/-- A node is erased only if nothing reads its results, so no operand is left without its value. -/
theorem consistent_eraseNode (c : g.Consistent) (n : NodeId) :
    (stateAfter (eraseNode n) g).Consistent := by
  rw [eraseNode, stateAfter_get_bind]
  refine stateAfter_lift_bind Consistent c fun node found => ?_
  refine stateAfter_lift_bind Consistent c fun _ unused => ?_
  refine stateAfter_lift_bind Consistent c fun place positionEq => ?_
  obtain ⟨-, rfl⟩ := c.position_eq_ok_iff.mp positionEq
  exact consistent_removeNode c (node_eq_ok_iff.mp found) (checkUnused_eq_ok_iff.mp unused)

/-- A replacement that is refused halfway has redirected some uses and is consistent all the same. -/
theorem consistent_replaceNode (c : g.Consistent) (n : NodeId) (values : List ValueId) :
    (stateAfter (replaceNode n values) g).Consistent := by
  rw [replaceNode, stateAfter_get_bind]
  refine stateAfter_lift_bind Consistent c fun results _ => ?_
  by_cases length : results.length = values.length
  · rw [if_pos length]
    dsimp only
    refine stateAfter_bind Consistent ?checks fun _ g₁ _ c₁ => ?redirections
    case checks => exact stateAfter_forM Consistent (fun _ _ c' => by rwa [stateAfter_lift]) c
    case redirections =>
      refine stateAfter_bind Consistent ?_ fun _ g₂ _ c₂ => consistent_eraseNode c₂ n
      exact stateAfter_forM Consistent (fun pair _ c' => consistent_redirectUses c' pair.1 pair.2) c₁
  · rw [if_neg length]
    exact c

/-! ## Regions -/

/-- The regions that can be made: by edits one after another, with any arguments, where an edit that is
refused leaves its region behind as well. -/
inductive Built : Region → Prop
  | empty : Built .empty
  | addInput {g : Region} (type : ElementType) : Built g → Built (stateAfter (addInput type) g)
  | addOutput {g : Region} (value : ValueId) : Built g → Built (stateAfter (addOutput value) g)
  | insertLoad {g : Region} (point : InsertPoint) (field : Field) (type : ElementType) :
    Built g → Built (stateAfter (insertLoad point field type) g)
  | insertApply {g : Region} (point : InsertPoint) (operands : List ValueId) {kernel : Kernel} :
    kernel.Built → Built g → Built (stateAfter (insertApply point operands kernel) g)
  | insertCopy {g : Region} (point : InsertPoint) (n : NodeId) :
    Built g → Built (stateAfter (insertCopy point n) g)
  | redirectUses {g : Region} (source target : ValueId) :
    Built g → Built (stateAfter (redirectUses source target) g)
  | replaceNode {g : Region} (n : NodeId) (values : List ValueId) :
    Built g → Built (stateAfter (replaceNode n values) g)
  | eraseNode {g : Region} (n : NodeId) : Built g → Built (stateAfter (eraseNode n) g)

/-- By induction on the calls; each keeps a region consistent, whether it succeeds or fails. -/
theorem Built.consistent (built : g.Built) : g.Consistent := by
  induction built with
  | empty => exact consistent_empty
  | addInput type _ ih => exact consistent_addInput ih type
  | addOutput value _ ih => exact consistent_addOutput ih value
  | insertLoad point field type _ ih => exact consistent_insertLoad ih point field type
  | insertApply point operands kernel _ ih =>
    exact consistent_insertApply ih point operands kernel.wellFormed
  | insertCopy point n _ ih => exact consistent_insertCopy ih point n
  | redirectUses source target _ ih => exact consistent_redirectUses ih source target
  | replaceNode n values _ ih => exact consistent_replaceNode ih n values
  | eraseNode n _ ih => exact consistent_eraseNode ih n

/-! ## A region with a shared load -/

/-- A field that is loaded once and read by two applies, each of which has an output. -/
def sharedField : Region :=
  let g₁ := stateAfter (insertLoad .last ⟨"u"⟩ .float64) .empty
  let g₂ := stateAfter (insertApply .last [⟨0, 0⟩] (.identity .float64)) g₁
  let g₃ := stateAfter (insertApply .last [⟨0, 0⟩] (.identity .float64)) g₂
  let g₄ := stateAfter (addOutput ⟨1, 0⟩) g₃
  stateAfter (addOutput ⟨2, 0⟩) g₄

theorem built_sharedField : sharedField.Built := by
  have g₁ : Built _ := .insertLoad .last ⟨"u"⟩ .float64 .empty
  have g₂ : Built _ := .insertApply .last [⟨0, 0⟩] (.identity .float64) g₁
  have g₃ : Built _ := .insertApply .last [⟨0, 0⟩] (.identity .float64) g₂
  exact .addOutput ⟨2, 0⟩ (.addOutput ⟨1, 0⟩ g₃)

theorem verify_sharedField : sharedField.verify = .ok () := rfl

/-! ## A region with two applies in a row -/

/-- A field that is loaded, read at some offsets by an apply, whose first result is read at further offsets by a second
one; the first result of that is the output. -/
def tandem (first second : List Offset) : Region :=
  let g₁ := stateAfter (insertLoad .last ⟨"u"⟩ .float64) .empty
  let g₂ := stateAfter (insertApply .last [⟨0, 0⟩] (.reading .float64 first)) g₁
  let g₃ := stateAfter (insertApply .last [⟨1, 0⟩] (.reading .float64 second)) g₂
  stateAfter (addOutput ⟨1 + first.length, 0⟩) g₃

theorem built_tandem (first second : List Offset) : (tandem first second).Built := by
  have g₁ : Built _ := .insertLoad .last ⟨"u"⟩ .float64 .empty
  have g₂ : Built _ := .insertApply .last [⟨0, 0⟩] (Kernel.built_reading .float64 first) g₁
  have g₃ : Built _ := .insertApply .last [⟨1, 0⟩] (Kernel.built_reading .float64 second) g₂
  exact .addOutput ⟨1 + first.length, 0⟩ g₃

end KernelFusion.Region
