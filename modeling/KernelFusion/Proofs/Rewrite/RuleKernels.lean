import KernelFusion.Proofs.Kernel.Splicing
import KernelFusion.Proofs.Offset
import KernelFusion.Rewrite.Inlining
import KernelFusion.Rewrite.Rerouting

/-!
# The kernels that the rules build

Merging builds the kernel of the consumer with the reads of the producer's results replaced: `mergedRead` says
by what. Rerouting builds the kernel of the consumer with reads in place behind its own results. Both succeed
on kernels that agree with their operands, the first up to a sum of offsets out of range.
-/

namespace KernelFusion

open Draft

variable {producer : NodeId} {kernel consumer : Kernel} {params : List ElementType}
  {places : List Nat} {bindings : List Binding} {draft : Draft} {type : ElementType}

/-- Parameters at the given places have the types of the parameters of a kernel. -/
def Carries (params : List ElementType) (places : List Nat) (types : List ElementType) : Prop :=
  ∀ (i : Nat) (type : ElementType), types[i]? = some type →
    ∃ place, places[i]? = some place ∧ params[place]? = some type

/-! ## Merging -/

/-- What a read of the producer's kernel becomes when a result is read at an offset. -/
def shiftedRead (places : List Nat) (offset : Offset) (read : Access) :
    Except Error (Expr Access) := do
  let param ← orRefuse places[read.param]? (.accessUnknownParameter read.param places.length)
  let offset' ← Offset.lift (read.offset.compose offset)
  return .read ⟨param, offset'⟩

/-- What a result of the producer becomes when it is read at an offset. -/
def inlinedRead (producer : NodeId) (kernel : Kernel) (places : List Nat) (result : Nat)
    (offset : Offset) : Except Error (Expr Access) := do
  let loc ← orRefuse kernel.returns[result]?
    (.returnArityMismatch producer kernel.returns.length (result + 1))
  let tree ← orRefuse (kernel.tree? loc) (.localWithoutResult loc)
  tree.bindM (shiftedRead places offset)

/-- What a read of the consumer's kernel becomes in the merged kernel. -/
def mergedRead (bindings : List Binding) (producer : NodeId) (kernel : Kernel) (places : List Nat)
    (read : Access) : Except Error (Expr Access) := do
  match ← orRefuse bindings[read.param]?
      (.accessUnknownParameter read.param bindings.length) with
  | .param index => return .read ⟨index, read.offset⟩
  | .inlined result => inlinedRead producer kernel places result read.offset

/-- A moved read needs its place and a sum of offsets in range. -/
theorem shiftedRead_eq_ok_iff {offset : Offset} {read : Access} {out : Expr Access} :
    shiftedRead places offset read = .ok out ↔ ∃ place offset', places[read.param]? = some place ∧
      read.offset.add offset = .ok offset' ∧ .read ⟨place, offset'⟩ = out := by
  simp only [shiftedRead, bind_eq_ok_iff, orRefuse_eq_ok_iff, Offset.lift_eq_ok_iff, Offset.compose,
    pure_eq_ok, Except.ok.injEq]
  constructor
  · intro found
    rcases found with ⟨place, placeAt, offset', sum, same⟩
    exact ⟨place, offset', placeAt, sum, same⟩
  · intro found
    rcases found with ⟨place, offset', placeAt, sum, same⟩
    exact ⟨place, placeAt, offset', sum, same⟩

/-- In the place of a read of a result stands what the producer returns, moved. -/
theorem inlinedRead_of_returns (wf : kernel.WellFormed) {result : Nat} {offset : Offset}
    {tree : Expr Access} (returned : kernel.Returns result type tree) :
    inlinedRead producer kernel places result offset = tree.bindM (shiftedRead places offset) := by
  rcases returned with ⟨loc, locAt, -, treeEq⟩
  rw [inlinedRead, locAt, orRefuse_some, ok_bind, wf.tree?_eq (List.mem_of_getElem? locAt), treeEq,
    orRefuse_some, ok_bind]

theorem mergedRead_param {read : Access} {index : Nat}
    (bindingAt : bindings[read.param]? = some (.param index)) :
    mergedRead bindings producer kernel places read = .ok (.read ⟨index, read.offset⟩) := by
  rw [mergedRead, bindingAt, orRefuse_some, ok_bind]
  rfl

theorem mergedRead_inlined {read : Access} {result : Nat}
    (bindingAt : bindings[read.param]? = some (.inlined result)) :
    mergedRead bindings producer kernel places read =
      inlinedRead producer kernel places result read.offset := by
  rw [mergedRead, bindingAt, orRefuse_some, ok_bind]

/-- Moving the accesses of the producer renders its reads in the merged kernel. -/
theorem renders_shiftedRead (carries : Carries params places kernel.params) (offset : Offset) :
    Draft.Renders True (fun read => do
      let param ← orRefuse places[read.param]? (.accessUnknownParameter read.param places.length)
      let offset' ← Offset.lift (read.offset.compose offset)
      Draft.access ⟨param, offset'⟩) (shiftedRead places offset) kernel.params params := by
  intro draft read type typed paramsEq found
  obtain ⟨place, placeAt, typeAt⟩ := carries read.param type found
  dsimp only
  rw [placeAt, orRefuse_some]
  refine yields_lift_bind (yields_lift_bind ?_)
  cases sum : read.offset.compose offset with
  | error fault => exact ⟨trivial, by rw [Offset.eq_addition_of_add_eq_error sum]⟩
  | ok offset' =>
    refine (adds_access typed _ (paramsEq ▸ typeAt)).mono fun loc draft' ⟨extend, holds⟩ =>
      ⟨extend, _, ?_, holds⟩
    exact shiftedRead_eq_ok_iff.mpr ⟨place, offset', placeAt, sum, rfl⟩

/-- Inlining a result adds a local that stands for it. -/
theorem inlineResult_yields (wf : kernel.WellFormed) {result : Nat} {offset : Offset}
    (carries : Carries draft.params places kernel.params) (typed : draft.WellTyped)
    (resultAt : kernel.resultTypes[result]? = some type) :
    Yields True (inlineResult producer kernel places result offset) draft fun loc draft' =>
      draft.Extends draft' ∧
        ∃ tree, inlinedRead producer kernel places result offset = .ok tree ∧
          draft'.Holds loc type tree := by
  refine (splice_yields wf (renders_shiftedRead carries offset) typed).bind
    fun locals draft' ⟨extend, copies⟩ => ?_
  obtain ⟨loc, locAt, typeEq⟩ := exists_left_of_getElem? wf.forall₂_resultTypes resultAt
  obtain ⟨copy, copyAt, type', tree, tree', typeEq', treeEq, replaced, holds⟩ :=
    exists_right_of_getElem? copies locAt
  rw [typeEq, Option.some.injEq] at typeEq'
  subst typeEq'
  rw [copyAt, orRefuse_some]
  refine .of_run (run_lift_ok copy) ⟨extend, tree', ?_, holds⟩
  have returned : kernel.Returns result type tree := ⟨loc, locAt, typeEq, treeEq⟩
  rw [inlinedRead_of_returns wf returned, replaced]

/-- A binding leads to a parameter or a result of the type of the parameter it is for. -/
def Binding.HasType (params : List ElementType) (kernel : Kernel) (type : ElementType) :
    Binding → Prop
  | .param index => params[index]? = some type
  | .inlined result => kernel.resultTypes[result]? = some type

/-- A merged kernel is well formed and computes what the consumer does with the producer inlined, unless a sum of
offsets is out of range. -/
theorem mergedKernel_upToFault (wf : consumer.WellFormed) (wf' : kernel.WellFormed)
    (carries : Carries params places kernel.params)
    (bound : ∀ (i : Nat) (type : ElementType), consumer.params[i]? = some type →
      ∃ binding, bindings[i]? = some binding ∧ Binding.HasType params kernel type binding) :
    UpToFault True (fun merged => merged.WellFormed ∧ merged.params = params ∧
        Kernel.Renders (mergedRead bindings producer kernel places) consumer merged.returns
          merged.draft)
      (mergedKernel consumer bindings producer kernel places params) := by
  have start : WellTyped { params } := Typed.nil
  refine Kernel.build_upToFault ((splice_yields wf ?_ start).mono
    fun locals draft ⟨extend, copies⟩ => ⟨extend, lt_length_of_copies copies, copies⟩)
  rintro draft read type typed rfl found
  obtain ⟨binding, bindingAt, hasType⟩ := bound read.param type found
  dsimp only
  rw [bindingAt, orRefuse_some]
  refine yields_lift_bind ?_
  cases binding with
  | param index =>
    refine (adds_access typed ⟨index, read.offset⟩ hasType).mono
      fun loc draft' ⟨extend, holds⟩ => ⟨extend, _, mergedRead_param bindingAt, holds⟩
  | inlined result =>
    refine (inlineResult_yields wf' carries typed hasType).mono
      fun loc draft' ⟨extend, tree, treeEq, holds⟩ => ⟨extend, tree, ?_, holds⟩
    rw [mergedRead_inlined bindingAt, treeEq]

/-! ## Forwarding -/

/-- A kernel that returns what another returns, and behind it the parameters at the given places, read in
place. -/
def Forwards (kernel forwarding : Kernel) (places : List Nat) : Prop :=
  ∃ own extra, forwarding.returns = own ++ extra ∧
    Kernel.Renders (fun read => .ok (.read read)) kernel own forwarding.draft ∧
    List.Forall₂ (fun place loc => ∃ type, forwarding.params[place]? = some type ∧
      forwarding.draft.Holds loc type (.read ⟨place, .zero⟩)) places extra

namespace Forwards

variable {forwarding : Kernel} (forwards : Forwards kernel forwarding places)

include forwards

theorem length_returns :
    forwarding.returns.length = kernel.returns.length + places.length := by
  obtain ⟨own, extra, split, renders, accesses⟩ := forwards
  rw [split, List.length_append, renders.length_eq, accesses.length_eq]

theorem own {i : Nat} {tree : Expr Access} (returned : kernel.Returns i type tree) :
    forwarding.Returns i type tree := by
  obtain ⟨own, extra, split, renders, -⟩ := forwards
  obtain ⟨copy, tree', copyAt, replaced, typeEq, treeEq⟩ := renders.result returned
  rw [Expr.bindM_read, Except.ok.injEq] at replaced
  refine ⟨copy, ?_, typeEq, replaced ▸ treeEq⟩
  rw [split, List.getElem?_append_left (List.getElem?_eq_some_iff.mp copyAt).1, copyAt]

/-- The last results of a kernel that forwards are what it forwards. -/
theorem extra {k place : Nat} (placeAt : places[k]? = some place) :
    ∃ type, forwarding.params[place]? = some type ∧
      forwarding.Returns (kernel.returns.length + k) type (.read ⟨place, .zero⟩) := by
  obtain ⟨own, extra, split, renders, accesses⟩ := forwards
  obtain ⟨loc, locAt, type, paramAt, typeEq, treeEq⟩ := exists_right_of_getElem? accesses placeAt
  refine ⟨type, paramAt, loc, ?_, typeEq, treeEq⟩
  rw [split, renders.length_eq, List.getElem?_append_right (Nat.le_add_right _ _),
    Nat.add_sub_cancel_left, locAt]

end Forwards

/-- Accessing several parameters adds a local for each. -/
theorem accessAll_yields (typed : draft.WellTyped)
    (defined : ∀ place ∈ places, place < draft.params.length) :
    Yields False (places.mapM fun place => Draft.access ⟨place, .zero⟩) draft
      fun locals draft' => draft.Extends draft' ∧
        List.Forall₂ (fun place loc => ∃ type, draft'.params[place]? = some type ∧
          draft'.Holds loc type (.read ⟨place, .zero⟩)) places locals := by
  induction places generalizing draft with
  | nil => exact .of_run rfl ⟨.refl typed, .nil⟩
  | cons place rest ih =>
    have lt := defined place List.mem_cons_self
    rw [List.mapM_cons]
    refine (adds_access typed ⟨place, .zero⟩ (List.getElem?_eq_getElem lt)).bind
      fun loc draft₁ ⟨extend, holds⟩ => ?_
    refine (ih extend.typed fun place' member => ?_).bind
      fun locals draft₂ ⟨extend', later⟩ => ?_
    · rw [extend.params]
      exact defined place' (List.mem_cons_of_mem _ member)
    · refine .of_run rfl ⟨extend.trans extend', .cons ⟨_, ?_, holds.extend extend'⟩ later⟩
      rw [extend'.params, extend.params]
      exact List.getElem?_eq_getElem lt

/-- Rebuilding a kernel over more parameters does not fail. -/
theorem forwardingKernel_eq_ok (wf : kernel.WellFormed) (params : List ElementType)
    (places : List Nat)
    (extend : ∀ (i : Nat) (type : ElementType), kernel.params[i]? = some type →
      params[i]? = some type)
    (defined : ∀ place ∈ places, place < params.length) :
    ∃ forwarding, Region.forwardingKernel kernel params places = .ok forwarding ∧
      forwarding.WellFormed ∧ forwarding.params = params ∧ Forwards kernel forwarding places := by
  have renders : Draft.Renders False Draft.access (fun read => .ok (.read read)) kernel.params
      params := by
    rintro draft read type typed rfl found
    exact (adds_access typed read (extend read.param type found)).mono fun loc draft' ⟨extend, holds⟩ =>
      ⟨extend, _, rfl, holds⟩
  have start : WellTyped { params } := Typed.nil
  have program : Yields False (do
      let own ← splice kernel Draft.access
      let extra ← places.mapM fun place => Draft.access ⟨place, .zero⟩
      return own ++ extra) { params } fun locals draft =>
        Extends { params } draft ∧ (∀ loc ∈ locals, loc < draft.steps.length) ∧
        ∃ own extra, locals = own ++ extra ∧
          Kernel.Renders (fun read => .ok (.read read)) kernel own draft ∧
          List.Forall₂ (fun place loc => ∃ type, draft.params[place]? = some type ∧
            draft.Holds loc type (.read ⟨place, .zero⟩)) places extra := by
    refine (splice_yields wf renders start).bind fun own draft₁ ⟨extend₁, copies⟩ => ?_
    refine (accessAll_yields extend₁.typed (by rw [extend₁.params]; exact defined)).bind
      fun extra draft₂ ⟨extend₂, accesses⟩ => ?_
    have copies₂ := copies.imp fun _ _ copy => Copies.extend copy extend₂
    refine .of_run rfl ⟨extend₁.trans extend₂, fun loc member => ?_, own, extra, rfl, copies₂,
      accesses⟩
    rcases List.mem_append.mp member with ofOwn | ofExtra
    · exact lt_length_of_copies copies₂ loc ofOwn
    · obtain ⟨_, -, _, -, holds⟩ := exists_left_of_mem accesses ofExtra
      exact lt_length_of_typeAt holds.1
  have built : UpToFault False (fun forwarding => forwarding.WellFormed ∧
      forwarding.params = params ∧ Forwards kernel forwarding places)
      (Region.forwardingKernel kernel params places) := Kernel.build_upToFault program
  cases result : Region.forwardingKernel kernel params places with
  | ok forwarding =>
    rw [result] at built
    exact ⟨forwarding, rfl, built⟩
  | error e =>
    rw [result] at built
    exact built.1.elim

end KernelFusion
