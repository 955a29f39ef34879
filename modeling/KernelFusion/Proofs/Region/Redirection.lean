import KernelFusion.Proofs.Region.Consistency
import KernelFusion.Proofs.Region.UseSites

/-!
# Redirecting uses

Making every site that reads one value read another goes through the use list of the first, so it is the
same as replacing the value in all operands and outputs exactly when the use list is complete.
`Redirected` says what the region is afterwards, and `consistent_moveUses` that it stays consistent when
the two values have one type.
-/

namespace KernelFusion

/-- Puts `target` in the place of `source`. -/
def redirect (source target v : ValueId) : ValueId := if v = source then target else v

theorem redirect_self (source target : ValueId) : redirect source target source = target :=
  if_pos rfl

theorem redirect_of_ne {source target v : ValueId} (ne : v ≠ source) :
    redirect source target v = v :=
  if_neg ne

/-- What is redirected to a value: the source, if it is the target, and the value itself, unless it is the source. -/
theorem redirect_eq_iff {source target v w : ValueId} :
    redirect source target v = w ↔ v = source ∧ target = w ∨ v ≠ source ∧ v = w := by
  by_cases same : v = source
  · simp [redirect, same]
  · simp [redirect, same]

namespace NodeKind

/-- Replaces every operand, by its place and what it is. -/
def mapOperandsIdx (f : Nat → ValueId → ValueId) : NodeKind → NodeKind
  | .load field type => .load field type
  | .apply operands kernel => .apply (operands.mapIdx f) kernel

theorem mapOperandsIdx_id (kind : NodeKind) : kind.mapOperandsIdx (fun _ v => v) = kind := by
  cases kind with
  | load => rfl
  | apply operands kernel =>
    have same : operands.mapIdx (fun _ v => v) = operands := by
      refine List.ext_getElem? fun i => ?_
      simp
    rw [mapOperandsIdx, same]

theorem mapOperandsIdx_setOperand (kind : NodeKind) (index : Nat) (target : ValueId)
    (f : Nat → ValueId → ValueId) (fixed : ∀ i, f i target = target) :
    (kind.setOperand index target).mapOperandsIdx f =
      kind.mapOperandsIdx fun i v => if i = index then target else f i v := by
  cases kind with
  | load => rfl
  | apply operands kernel =>
    have same : (operands.set index target).mapIdx f =
        operands.mapIdx fun i v => if i = index then target else f i v := by
      refine List.ext_getElem? fun i => ?_
      rw [List.getElem?_mapIdx, List.getElem?_mapIdx, List.getElem?_set]
      by_cases atIndex : index = i
      · subst atIndex
        rw [if_pos rfl]
        by_cases lt : index < operands.length
        · simp [lt, fixed]
        · simp [lt]
      · simp [atIndex, Ne.symm atIndex]
    rw [setOperand, mapOperandsIdx, mapOperandsIdx, same]

end NodeKind

namespace Region

variable {g g' : Region} {m : NodeId} {source target v : ValueId}

/-! ## Setting sites one by one -/

/-- What the operand of a node at a place reads after the given sites were made to read `target`. -/
def setIn (sites : List Use) (target : ValueId) (m : NodeId) (i : Nat) (v : ValueId) : ValueId :=
  if Use.operand m i ∈ sites then target else v

/-- The fields that setting sites leaves alone. -/
structure SameFrame (g g' : Region) : Prop where
  values : g'.values = g.values
  uses : g'.uses = g.uses
  order : g'.order = g.order
  positions : g'.positions = g.positions
  inputs : g'.inputs = g.inputs
  size : g'.nodes.size = g.nodes.size
  nodes : g.nodes.WellFormed → g'.nodes.WellFormed

/-- Setting a site changes neither the order nor the values. -/
theorem sameFrame_setSite (site : Use) : SameFrame g (g.setSite target site) := by
  cases site with
  | operand n index =>
    exact ⟨rfl, rfl, rfl, rfl, rfl, Arena.size_modify _, fun wf => Arena.wellFormed_modify wf _⟩
  | output index => exact ⟨rfl, rfl, rfl, rfl, rfl, rfl, id⟩

theorem sameFrame_foldl_setSite (sites : List Use) :
    SameFrame g (sites.foldl (fun g site => g.setSite target site) g) := by
  induction sites generalizing g with
  | nil => exact ⟨rfl, rfl, rfl, rfl, rfl, rfl, id⟩
  | cons site rest ih =>
    have first : SameFrame g (g.setSite target site) := sameFrame_setSite site
    have later := ih (g := g.setSite target site)
    exact ⟨later.values.trans first.values, later.uses.trans first.uses,
      later.order.trans first.order, later.positions.trans first.positions,
      later.inputs.trans first.inputs, later.size.trans first.size,
      fun wf => later.nodes (first.nodes wf)⟩

/-- Setting sites one by one sets them all at once, node by node. -/
theorem get?_foldl_setSite (sites : List Use) :
    (sites.foldl (fun g site => g.setSite target site) g).nodes.get? m =
      (g.nodes.get? m).map fun node =>
        { node with kind := node.kind.mapOperandsIdx (setIn sites target m) } := by
  induction sites generalizing g with
  | nil =>
    have same (node : Node) :
        { node with kind := node.kind.mapOperandsIdx (setIn [] target m) } = node := by
      have trivial : setIn [] target m = fun _ v => v := by
        funext i v
        simp [setIn]
      rw [trivial, NodeKind.mapOperandsIdx_id]
    simp [same]
  | cons site rest ih =>
    rw [List.foldl_cons, ih]
    -- A site that is no operand of the node leaves the node alone.
    have skip (off : ∀ i, site ≠ .operand m i) :
        setIn (site :: rest) target m = setIn rest target m := by
      funext i v
      simp [setIn, Ne.symm (off i)]
    cases site with
    | output index => rw [skip (by simp)]; rfl
    | operand n index =>
      rw [setSite, Arena.get?_modify]
      by_cases same : m = n
      · subst same
        rw [if_pos rfl, Option.map_map]
        refine Option.map_congr fun node _ => ?_
        -- The other sites may name the same operand again; it is the target by then.
        have fixed (i : Nat) : setIn rest target m i target = target := by simp [setIn]
        have agree : (fun i v => if i = index then target else setIn rest target m i v) =
            setIn (.operand m index :: rest) target m := by
          funext i v
          simp only [setIn, List.mem_cons, Use.operand.injEq, true_and]
          by_cases atIndex : i = index
          · simp [atIndex]
          · simp [atIndex]
        simp only [Function.comp_apply, NodeKind.mapOperandsIdx_setOperand _ _ _ _ fixed, agree]
      · rw [if_neg same, skip (by simp [Ne.symm same])]

/-- The same for the outputs. -/
theorem outputs_foldl_setSite (sites : List Use) :
    (sites.foldl (fun g site => g.setSite target site) g).outputs =
      g.outputs.mapIdx fun i v => if Use.output i ∈ sites then target else v := by
  induction sites generalizing g with
  | nil =>
    refine List.ext_getElem? fun i => ?_
    simp
  | cons site rest ih =>
    rw [List.foldl_cons, ih]
    refine List.ext_getElem? fun i => ?_
    cases site with
    | operand n index => simp [setSite]
    | output index =>
      rw [setSite, List.getElem?_mapIdx, List.getElem?_mapIdx, List.getElem?_set]
      by_cases atIndex : index = i
      · subst atIndex
        by_cases lt : index < g.outputs.length
        · simp [lt]
        · simp [lt]
      · simp [atIndex, Ne.symm atIndex]

/-! ## The region with the uses moved -/

/-- Every site reads what it read up to a renaming of values, and nothing else has changed. -/
structure Renamed (g g' : Region) (f : ValueId → ValueId) : Prop where
  node : ∀ m, g'.nodes.get? m = (g.nodes.get? m).map (Node.rename f)
  value : g'.values = g.values
  order : g'.order = g.order
  inputs : g'.inputs = g.inputs
  outputs : g'.outputs = g.outputs.map f

/-- Every site that read one value reads another. -/
structure Redirected (g g' : Region) (source target : ValueId) : Prop
    extends Renamed g g' (redirect source target) where
  uses : ∀ q, g'.usesOf q = if q = target then g.usesOf target ++ g.usesOf source
    else if q = source then [] else g.usesOf q

/-- A complete use list holds the sites that read the value, so setting them is to redirect it. -/
theorem setIn_usesOf (c : g.Consistent) {node : Node} (found : g.nodes.get? m = some node) {i : Nat}
    (operandAt : node.kind.operands[i]? = some v) :
    setIn (g.usesOf source) target m i v = redirect source target v := by
  have site : Use.operand m i ∈ g.usesOf source ↔ v = source := by
    rw [c.mem_usesOf, siteValue, found, Option.bind_some, operandAt, Option.some.injEq]
  simp only [setIn, redirect, site]

/-- In a consistent region the sites of a value are all its occurrences, so setting them is redirecting the value. -/
theorem mapOperandsIdx_setIn (c : g.Consistent) {node : Node} (found : g.nodes.get? m = some node) :
    node.kind.mapOperandsIdx (setIn (g.usesOf source) target m) =
      node.kind.mapOperands (redirect source target) := by
  rcases node with ⟨kind, results⟩
  cases kind with
  | load => rfl
  | apply operands kernel =>
    have same : operands.mapIdx (setIn (g.usesOf source) target m) =
        operands.map (redirect source target) := by
      refine List.ext_getElem? fun i => ?_
      rw [List.getElem?_mapIdx, List.getElem?_map]
      exact Option.map_congr fun v operandAt => setIn_usesOf c found operandAt
    rw [NodeKind.mapOperandsIdx, NodeKind.mapOperands, same]

/-- The outputs are redirected as well. -/
theorem outputs_moveUses (c : g.Consistent) :
    (g.moveUses source target).outputs = g.outputs.map (redirect source target) := by
  rw [moveUses, outputs_foldl_setSite]
  refine List.ext_getElem? fun i => ?_
  rw [List.getElem?_mapIdx, List.getElem?_map]
  refine Option.map_congr fun v outputAt => ?_
  have site : Use.output i ∈ g.usesOf source ↔ v = source := by
    rw [c.mem_usesOf, siteValue, show g.outputs[i]? = some v from outputAt, Option.some.injEq]
  simp only [redirect, site]

theorem sameFrame_moveUses (g : Region) (source target : ValueId) :
    SameFrame { g with uses := g.uses.move source target } (g.moveUses source target) :=
  sameFrame_foldl_setSite (g.usesOf source)

/-- What moving the uses of a value leaves, table by table. -/
theorem redirected_moveUses (c : g.Consistent) (ne : source ≠ target) :
    Redirected g (g.moveUses source target) source target := by
  have frame := sameFrame_moveUses g source target
  refine ⟨⟨fun m => ?node, frame.values, frame.order, frame.inputs, outputs_moveUses c⟩,
    fun q => ?uses⟩
  case node =>
    rw [moveUses, get?_foldl_setSite]
    refine Option.map_congr fun node found => ?_
    rw [mapOperandsIdx_setIn c found, Node.rename]
  case uses =>
    rw [usesOf, frame.uses]
    exact UseIndex.sites_move ne

namespace Renamed

variable {f : ValueId → ValueId} (ren : Renamed g g' f)

include ren

/-- Redirecting changes no type. -/
theorem typeOf_eq : g'.typeOf v = g.typeOf v := by
  rw [typeOf, typeOf, ren.value]

/-- A site reads the renamed value. -/
theorem siteValue_eq (site : Use) : g'.siteValue site = (g.siteValue site).map f := by
  cases site with
  | operand n i =>
    rw [siteValue, siteValue, ren.node]
    cases g.nodes.get? n with
    | none => rfl
    | some node =>
      simp only [Option.map_some, Option.bind_some, Node.rename, NodeKind.operands_mapOperands,
        List.getElem?_map]
  | output i => rw [siteValue, siteValue, ren.outputs, List.getElem?_map]

/-- A node fits as before when the values that it reads have the types they had. -/
theorem fits (c : g.Consistent) (types : ∀ v, g.typeOf (f v) = g.typeOf v) {node : Node}
    (found : g'.nodes.get? m = some node) : g'.Fits m node := by
  rw [ren.node] at found
  rcases Option.map_eq_some_iff.mp found with ⟨old, oldAt, rfl⟩
  refine (c.fits m old oldAt).rename (fun v _ type typed => ?_) fun v _ info infoAt => ?_
  · rw [ren.typeOf_eq, types, typed]
  · rw [ren.value, infoAt]

theorem defines (c : g.Consistent) {info : ValueInfo} (found : g'.values.get? v = some info) :
    g'.Defines v info.definition := by
  rw [ren.value] at found
  refine (c.defines v info found).of_kept (fun i inputAt => ?_) fun m node nodeAt _ => ?_
  · rw [ren.inputs, inputAt]
  · refine ⟨node.rename f, ?_, rfl⟩
    rw [ren.node, nodeAt, Option.map_some]

end Renamed

namespace Redirected

variable (red : Redirected g g' source target) (c : g.Consistent) (ne : source ≠ target)

include red c ne

/-- The two use lists that are joined have no site in common. -/
theorem uses_nodup : (g'.usesOf v).Nodup := by
  rw [red.uses]
  split
  case isTrue =>
    rw [List.nodup_append']
    refine ⟨c.uses_nodup target, c.uses_nodup source, fun site ofTarget ofSource => ne ?_⟩
    have first := (c.mem_usesOf _ _).mp ofSource
    have second := (c.mem_usesOf _ _).mp ofTarget
    exact Option.some.inj (first.symm.trans second)
  case isFalse =>
    split
    · exact List.nodup_nil
    · exact c.uses_nodup v

/-- The use lists are complete again: those of the two values are joined, the others are what they were. -/
theorem mem_usesOf (site : Use) : site ∈ g'.usesOf v ↔ g'.siteValue site = some v := by
  have read (q : ValueId) := c.mem_usesOf q site
  rw [red.uses, red.siteValue_eq]
  cases value : g.siteValue site with
  | none =>
    have unread (q : ValueId) : site ∉ g.usesOf q := by simp [read, value]
    split
    case isTrue => simp [unread]
    case isFalse =>
      split
      case isTrue => simp
      case isFalse => simp [unread]
  | some q =>
    have isRead (q' : ValueId) : site ∈ g.usesOf q' ↔ q = q' := by simp [read, value]
    rw [Option.map_some, Option.some.injEq, redirect_eq_iff]
    split
    case isTrue isTarget =>
      rw [List.mem_append, isRead, isRead, isTarget]
      grind
    case isFalse notTarget =>
      split
      case isTrue isSource => grind
      case isFalse notSource =>
        rw [isRead]
        grind

end Redirected

/-- A value may stand for another of its type. -/
theorem consistent_moveUses (c : g.Consistent) (ne : source ≠ target)
    {type : ElementType} (sourceType : g.typeOf source = some type)
    (targetType : g.typeOf target = some type) : (g.moveUses source target).Consistent := by
  have red := redirected_moveUses c ne
  have frame := sameFrame_moveUses g source target
  have types (v : ValueId) : g.typeOf (redirect source target v) = g.typeOf v := by
    by_cases same : v = source
    · rw [same, redirect_self, sourceType, targetType]
    · rw [redirect_of_ne same]
  constructor
  case nodes => exact frame.nodes c.nodes
  case values => rw [red.value]; exact c.values
  case order_nodup => rw [red.order]; exact c.order_nodup
  case mem_order =>
    intro m
    rw [red.order, c.mem_order, red.node]
    simp
  case length_order =>
    rw [red.order, c.length_order]
    exact frame.size.symm
  case positions =>
    intro m
    rw [red.order, ← c.positions m]
    exact congrArg (Table.find? · m) frame.positions
  case fits => exact fun m node => red.fits c types
  case defines => exact fun v info => red.defines c
  case inputs =>
    rw [red.inputs, red.value]
    exact c.inputs
  case outputs =>
    intro v member
    rw [red.outputs] at member
    rcases List.mem_map.mp member with ⟨old, oldMember, rfl⟩
    rcases c.outputs old oldMember with ⟨info, infoAt⟩
    rw [red.value]
    exact isSome_of_typeOf ((types old).trans (typeOf_of_get? infoAt))
  case uses_nodup => exact fun v => red.uses_nodup c ne
  case mem_usesOf => exact fun v site => red.mem_usesOf c ne site
  case uses_bound =>
    have bound : UseIndex.Bound g.uses := c.uses_bound
    intro v
    rw [show (g.moveUses source target).uses = _ from frame.uses]
    exact bound.move source target v

end Region

end KernelFusion
