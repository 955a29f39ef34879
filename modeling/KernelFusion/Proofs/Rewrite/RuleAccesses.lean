import KernelFusion.Proofs.Kernel.Additions
import KernelFusion.Proofs.Rewrite.RuleKernels

/-!
# The accesses of the kernels that the rules build

A merged kernel accesses at the offsets of the consumer and at sums of an offset of the consumer with one of the
producer; it takes the sums for all accesses of both, whether results need them or not (`mergedKernel_accesses`).
So if it cannot be built, such a sum is out of range (`mergedKernel_overflow`). When it is built, each access of the
consumer has become one access or all those of the producer, in order, and the other instructions one each
(`mergedKernel_steps`). A forwarding kernel takes no sums.
-/

namespace KernelFusion

open Draft

variable {producer : NodeId} {kernel consumer kernel' : Kernel} {params : List ElementType}
  {places : List Nat} {bindings : List Binding}

theorem Offset.eq_of_lift_eq_error {α : Type} {x : Except Offset.Fault α} {fault : Offset.Fault}
    (failed : Offset.lift x = .error (.arithmetic fault)) : x = .error fault := by
  cases x with
  | ok a => cases failed
  | error fault' =>
    cases failed
    rfl

/-- The accesses of the producer are moved by the offset at which its result is read. -/
theorem touches_inlineResult (producer : NodeId) (kernel : Kernel) (places : List Nat) (result : Nat)
    (offset : Offset) :
    Touches (fun new => ∃ b ∈ kernel.accesses, b.offset.add offset = .ok new.offset)
      (∃ b ∈ kernel.accesses, b.offset.add offset = .error .addition)
      (inlineResult producer kernel places result offset) := by
  unfold inlineResult
  refine touches_bind (touches_splice fun b member => ?_) fun locals => touches_orRefuse nofun
  refine touches_bind (touches_orRefuse nofun) fun place => ?_
  refine touches_lift_bind (fun offset' sum => ?_) fun failed => ?_
  · exact touches_access ⟨b, member, Offset.lift_eq_ok_iff.mp sum⟩
  · exact ⟨b, member, Offset.eq_of_lift_eq_error failed⟩

/-- Merging adds an access of the producer to one of the consumer, which reads a result of the producer. -/
structure Composes (consumer kernel : Kernel) (bindings : List Binding) (j : Nat) (a b : Access) :
    Prop where
  outer : a ∈ consumer.accesses
  bound : bindings[a.param]? = some (.inlined j)
  inner : b ∈ kernel.accesses

/-- An access of a merged kernel is at an offset of the consumer, or at a sum that merging takes. -/
def Merges (consumer kernel : Kernel) (bindings : List Binding) (new : Access) : Prop :=
  (∃ a ∈ consumer.accesses, new.offset = a.offset) ∨
    ∃ j a b, Composes consumer kernel bindings j a b ∧ b.offset.add a.offset = .ok new.offset

/-- A sum that merging takes is out of range. -/
def Overflows (consumer kernel : Kernel) (bindings : List Binding) : Prop :=
  ∃ j a b, Composes consumer kernel bindings j a b ∧ b.offset.add a.offset = .error .addition

/-- The program that merges two kernels adds accesses of the merged kind only, and fails only where a sum of offsets
does. -/
theorem touches_merging (consumer kernel : Kernel) (bindings : List Binding) (producer : NodeId)
    (places : List Nat) :
    Touches (Merges consumer kernel bindings) (Overflows consumer kernel bindings)
      (splice consumer fun read => do
        match ← orRefuse bindings[read.param]?
            (.accessUnknownParameter read.param bindings.length) with
        | .param index => Draft.access ⟨index, read.offset⟩
        | .inlined result => inlineResult producer kernel places result read.offset) := by
  refine touches_splice fun a member => touches_lift_bind (fun binding found => ?_) fun failed => ?_
  · rw [orRefuse_eq_ok_iff] at found
    cases binding with
    | param index => exact touches_access (.inl ⟨a, member, rfl⟩)
    | inlined j =>
      refine (touches_inlineResult producer kernel places j a.offset).mono (fun new moved => ?_)
        fun failed => ?_
      · rcases moved with ⟨b, inner, sum⟩
        exact .inr ⟨j, a, b, ⟨member, found, inner⟩, sum⟩
      · rcases failed with ⟨b, inner, overflow⟩
        exact ⟨j, a, b, ⟨member, found, inner⟩, overflow⟩
  · cases eq_of_orRefuse_eq_error failed

theorem mergedKernel_accesses
    (computed : mergedKernel consumer bindings producer kernel places params = .ok kernel') :
    ∀ new ∈ kernel'.accesses, Merges consumer kernel bindings new :=
  Kernel.accesses_of_build (touches_merging consumer kernel bindings producer places) computed

/-- A merged kernel that is not built names a sum of offsets that is out of range. -/
theorem mergedKernel_overflow (failed : mergedKernel consumer bindings producer kernel places params =
    .error (.arithmetic .addition)) : Overflows consumer kernel bindings :=
  Kernel.fails_of_build (touches_merging consumer kernel bindings producer places) failed

/-! ## The merged kernel exactly -/

/-- An access of the producer, moved by the offset at which its result is read. -/
def Moves (places : List Nat) (offset : Offset) (b new : Access) : Prop :=
  places[b.param]? = some new.param ∧ b.offset.add offset = .ok new.offset

/-- What an access of the consumer has become in a merged kernel. -/
inductive Becomes (kernel : Kernel) (bindings : List Binding) (places : List Nat) (a : Access)
    (new : List Step) : Prop
  | kept {index : Nat} : bindings[a.param]? = some (.param index) →
    accessesOf new = [⟨index, a.offset⟩] → new.length = 1 → Becomes kernel bindings places a new
  | inlined {j : Nat} : bindings[a.param]? = some (.inlined j) →
    List.Forall₂ (Moves places a.offset) kernel.accesses (accessesOf new) →
    new.length = kernel.body.length → Becomes kernel bindings places a new

/-- Replacing every access by one other. -/
theorem forall₂_of_parts {R : Access → Access → Prop} {reads : List Access} {parts : List (List Step)}
    (aligned : List.Forall₂ (fun b part => ∃ new type, R b new ∧ part = [⟨.access new, some type⟩])
      reads parts) :
    List.Forall₂ R reads (parts.flatMap accessesOf) ∧ (parts.map List.length).sum = reads.length := by
  induction aligned with
  | nil => exact ⟨.nil, rfl⟩
  | cons head _ ih =>
    rcases head with ⟨new, type, related, rfl⟩
    rcases ih with ⟨accesses, length⟩
    refine ⟨.cons related accesses, ?_⟩
    rw [List.map_cons, List.sum_cons, length, List.length_singleton, List.length_cons, Nat.add_comm]

/-- Inlining a result appends the whole kernel of the producer, with each access moved. -/
theorem appends_inlineResult (wf : kernel.WellFormed) (producer : NodeId) (places : List Nat)
    (result : Nat) (offset : Offset) :
    Appends (fun new => List.Forall₂ (Moves places offset) kernel.accesses (accessesOf new) ∧
      new.length = kernel.body.length) (inlineResult producer kernel places result offset) := by
  have each : ∀ b ∈ kernel.accesses, Appends
      (fun part => ∃ new type, Moves places offset b new ∧ part = [⟨.access new, some type⟩]) (do
        let param ← orRefuse places[b.param]? (.accessUnknownParameter b.param places.length)
        let offset' ← Offset.lift (b.offset.compose offset)
        Draft.access ⟨param, offset'⟩) := by
    intro b _
    refine appends_lift_bind fun place found => appends_lift_bind fun offset' sum => ?_
    refine (appends_access _).mono fun part added => ?_
    rcases added with ⟨type, added⟩
    have moved : b.offset.add offset = .ok offset' := Offset.lift_eq_ok_iff.mp sum
    exact ⟨⟨place, offset'⟩, type, ⟨orRefuse_eq_ok_iff.mp found, moved⟩, added⟩
  unfold inlineResult
  refine appends_bind_quiet ((appends_splice wf each).mono fun new replaced => ?_) fun _ => quiet_lift _
  rcases replaced with ⟨parts, aligned, accesses, length⟩
  rcases forall₂_of_parts aligned with ⟨moved, sum⟩
  rw [wf.accesses_eq, accesses]
  exact ⟨moved, by omega⟩

/-- The accesses of the consumer have each become what their bindings say; the other instructions stay one each. -/
theorem mergedKernel_steps (wf : consumer.WellFormed) (wf' : kernel.WellFormed)
    (computed : mergedKernel consumer bindings producer kernel places params = .ok kernel') :
    ∃ parts, List.Forall₂ (Becomes kernel bindings places) consumer.accesses parts ∧
      kernel'.accesses = parts.flatMap accessesOf ∧
      kernel'.steps.length + consumer.accesses.length =
        consumer.steps.length + (parts.map List.length).sum := by
  have each : ∀ a ∈ consumer.accesses, Appends (Becomes kernel bindings places a) (do
      match ← orRefuse bindings[a.param]? (.accessUnknownParameter a.param bindings.length) with
      | .param index => Draft.access ⟨index, a.offset⟩
      | .inlined result => inlineResult producer kernel places result a.offset) := by
    intro a _
    refine appends_lift_bind fun binding found => ?_
    rw [orRefuse_eq_ok_iff] at found
    cases binding with
    | param index =>
      refine (appends_access _).mono fun new added => ?_
      rcases added with ⟨type, rfl⟩
      exact .kept found rfl rfl
    | inlined j =>
      exact (appends_inlineResult wf' producer places j a.offset).mono fun new added =>
        .inlined found added.1 added.2
  rcases Kernel.steps_of_build (appends_splice wf each) computed with
    ⟨new, ⟨parts, aligned, accesses, length⟩, accesses', length'⟩
  have whole := wf.length_steps
  rw [← wf.accesses_eq] at aligned length
  exact ⟨parts, aligned, accesses'.trans accesses, by omega⟩

theorem forwardingKernel_accesses
    (computed : Region.forwardingKernel kernel params places = .ok kernel') :
    ∀ new ∈ kernel'.accesses, new ∈ kernel.accesses ∨ new.offset = .zero := by
  have copies : Touches (fun new => new ∈ kernel.accesses ∨ new.offset = .zero) True
      (splice kernel Draft.access) := touches_splice fun read member => touches_access (.inl member)
  have extra : Touches (fun new => new ∈ kernel.accesses ∨ new.offset = .zero) True
      (places.mapM fun place => Draft.access ⟨place, .zero⟩) :=
    touches_mapM fun place _ => touches_access (.inr rfl)
  exact Kernel.accesses_of_build
    (touches_bind copies fun own => touches_bind extra fun extra => touches_pure (own ++ extra))
    computed

end KernelFusion
