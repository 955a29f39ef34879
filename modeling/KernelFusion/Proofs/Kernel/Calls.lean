import KernelFusion.Proofs.Kernel.Additions

/-!
# Kernels made by calls

A draft is asked for accesses, literals, computations and splices, one call after another. A call that is refused
leaves its draft behind, and a splice that is refused in the middle leaves what it has added by then. The caller of
a splice is asked once for each access. What it does to the draft when it is asked is again a list of calls, and what
it answers may be any local, or a refusal; it need not look at what it is asked for, since a list of turns can be
anything that a caller might have done. `Draft.made` is the draft that the calls leave.

The kernels that come of such drafts are the legal ones, and all of them do (`Kernel.finished_iff_legal`).
`Kernel.Legal` says of each instruction by its place what the readers of kernels rely on; that this is the same as
being well formed, which is said by splitting the list of steps, is `Kernel.legal_iff_wellFormed`.
-/

namespace KernelFusion

namespace Draft

variable {draft : Draft}

/-! ## Calls -/

/-- A call to a draft. -/
inductive Call where
  | access (read : Access)
  | constant (literal : Literal)
  | compute (op : Operator) (args : List Local)
  /-- The caller makes a list of calls at each turn and then answers. -/
  | splice (kernel : Kernel) (turns : Nat → List Call) (answers : Nat → Except Error Local)

/-- A caller that counts its turns. -/
def byTurn (turn : Nat → Draft → Draft) (answers : Nat → Except Error Local) :
    Access → StateT Nat Drafting Local := fun _ => do
  let n ← get
  set (n + 1)
  modifyThe Draft (turn n)
  (answers n : Drafting Local)

theorem stateAfter_byTurn (turn : Nat → Draft → Draft) (answers : Nat → Except Error Local)
    (read : Access) (n : Nat) :
    stateAfter ((byTurn turn answers read).run n) draft = turn n draft := by
  change stateAfter (modify (turn n) >>= fun _ => liftM (answers n) >>= fun loc => pure (loc, n + 1))
    draft = turn n draft
  cases answers n <;> rfl

mutual

/-- The draft that a call leaves, whether it succeeds or is refused. -/
def Call.leaves : Call → Draft → Draft
  | .access read, draft => stateAfter (Draft.access read) draft
  | .constant literal, draft => stateAfter (Draft.constant literal) draft
  | .compute op args, draft => stateAfter (Draft.compute op args) draft
  | .splice kernel turns answers, draft =>
    stateAfter ((Draft.splice kernel (byTurn (fun n => made (turns n)) answers)).run 0) draft

/-- The draft that calls leave, one after another. -/
def made : List Call → Draft → Draft
  | [], draft => draft
  | call :: rest, draft => made rest (call.leaves draft)

end

theorem made_concat {calls : List Call} (call : Call) :
    made (calls ++ [call]) draft = call.leaves (made calls draft) := by
  induction calls generalizing draft with
  | nil => rfl
  | cons first rest ih => exact ih

mutual

/-- A draft that was made by adding instructions one by one still is one after any call. -/
theorem Call.built (call : Call) {draft : Draft} (built : draft.Built) : (call.leaves draft).Built := by
  cases call with
  | access read => exact built.access read
  | constant literal => exact built.constant literal
  | compute op args => exact built.compute op args
  | splice kernel turns answers =>
    refine Built.splice (fun read n draft' built' => ?_) kernel built
    rw [stateAfter_byTurn]
    exact built_made (turns n) built'

/-- Whatever calls are made, the draft could have been built, because a call that fails leaves a built draft as well.
-/
theorem built_made (calls : List Call) {draft : Draft} (built : draft.Built) :
    (made calls draft).Built := by
  cases calls with
  | nil => exact built
  | cons call rest =>
    rw [made]
    exact built_made rest (call.built built)

end

/-- A splice that is refused at the second access leaves what its caller has added until then; the local that it was
given for the first access is nowhere in the draft. -/
example : made [.splice (.reading .float64 [.zero, .zero]) (fun _ => [.constant (.bool true)])
      fun n => if n = 0 then .ok 7 else .error .missingReturn] { params := [] } =
    ⟨[], [⟨.const (.bool true), some .bool⟩, ⟨.const (.bool true), some .bool⟩]⟩ := rfl

/-- Any well-typed list of steps is left by the calls that add them one by one. -/
theorem exists_made {params : List ElementType} {steps : List Step} (typed : Typed params steps) :
    ∃ calls, made calls { params } = ⟨params, steps⟩ := by
  induction steps using List.reverseRecOn with
  | nil => exact ⟨[], rfl⟩
  | append_singleton steps step ih =>
    rcases ih typed.left with ⟨calls, left⟩
    cases typed.next with
    | @access read type found =>
      refine ⟨calls ++ [.access read], ?_⟩
      rw [made_concat, left, Call.leaves, stateAfter_ok (access_run found)]
      rfl
    | @const literal =>
      refine ⟨calls ++ [.constant literal], ?_⟩
      rw [made_concat, left, Call.leaves, stateAfter_ok (constant_run literal)]
      rfl
    | @compute op args type arity defined first =>
      have earlier : WellTyped ⟨params, steps⟩ := typed.left
      refine ⟨calls ++ [.compute op args], ?_⟩
      rw [made_concat, left, Call.leaves, stateAfter_ok (compute_run earlier arity defined first)]
      rfl

end Draft

/-! ## Legal kernels -/

namespace Kernel

variable {kernel : Kernel} {i : Nat} {step : Step}

/-- What every instruction of a kernel is, by its place. -/
structure Legal (kernel : Kernel) : Prop where
  last : ∃ operands, kernel.insts.getLast? = some (.ret operands)
  single : kernel.insts.countP Inst.isReturn = 1
  access : ∀ (i : Nat) read type, kernel.steps[i]? = some ⟨.access read, type⟩ →
    read.param < kernel.params.length ∧ type = kernel.params[read.param]?
  const : ∀ (i : Nat) literal type, kernel.steps[i]? = some ⟨.const literal, type⟩ →
    type = some literal.type
  compute : ∀ (i : Nat) op args type, kernel.steps[i]? = some ⟨.compute op args, type⟩ →
    args.length = op.arity ∧ (∀ arg ∈ args, arg < i) ∧
      ∃ first result, args.head? = some first ∧ kernel.localType first = some result ∧
        type = some result
  ret : ∀ (i : Nat) operands type, kernel.steps[i]? = some ⟨.ret operands, type⟩ →
    (∀ loc ∈ operands, loc < i) ∧ type = none
  results : kernel.resultTypes.length = kernel.returns.length

/-- An instruction of a kernel is well typed over those before it, or it is the return at the end. -/
theorem WellFormed.step_cases (wf : kernel.WellFormed) (found : kernel.steps[i]? = some step) :
    StepTyped kernel.params (kernel.steps.take i) step ∧ i < kernel.body.length ∨
      i = kernel.body.length ∧ step = ⟨.ret kernel.returns, none⟩ := by
  have lt := (List.getElem?_eq_some_iff.mp found).1
  rw [wf.length_steps] at lt
  rcases Nat.lt_succ_iff_lt_or_eq.mp lt with inBody | rfl
  · rw [wf.shape, List.getElem?_append_left inBody] at found
    have typed := wf.typed.step_at found
    rw [wf.shape, List.take_append_of_le_length (Nat.le_of_lt inBody)]
    exact .inl ⟨typed, inBody⟩
  · rw [wf.shape, List.getElem?_concat_length, Option.some.injEq] at found
    exact .inr ⟨rfl, found.symm⟩

/-- Each rule for the instructions is read off the well-typed steps. -/
theorem WellFormed.legal (wf : kernel.WellFormed) : kernel.Legal := by
  constructor
  case last =>
    refine ⟨kernel.returns, ?_⟩
    rw [insts, wf.shape]
    simp
  case single =>
    have noReturn : kernel.body.countP (Inst.isReturn ∘ Step.inst) = 0 :=
      List.countP_eq_zero.mpr fun step member => by simp [wf.typed.straight step member]
    rw [insts, wf.shape, List.countP_map, List.countP_append, noReturn, List.countP_singleton]
    rfl
  case access =>
    intro i read type found
    rcases wf.step_cases found with ⟨typed, -⟩ | ⟨-, same⟩
    · cases typed with
      | access paramAt => exact ⟨(List.getElem?_eq_some_iff.mp paramAt).1, paramAt.symm⟩
    · cases same
  case const =>
    intro i literal type found
    rcases wf.step_cases found with ⟨typed, -⟩ | ⟨-, same⟩
    · cases typed with
      | const => rfl
    · cases same
  case compute =>
    intro i op args type found
    rcases wf.step_cases found with ⟨typed, inBody⟩ | ⟨-, same⟩
    · cases typed with
      | compute arity defined first =>
        -- The type of the first argument is the same in the steps before this one and in all steps.
        have length : (kernel.steps.take i).length = i :=
          List.length_take_of_le (Nat.le_of_lt (List.getElem?_eq_some_iff.mp found).1)
        rw [length] at defined
        rcases Option.bind_eq_some_iff.mp first with ⟨loc, head, typeEq⟩
        have kept : typeAt (kernel.steps.take i ++ kernel.steps.drop i) loc = typeAt (kernel.steps.take i) loc :=
          typeAt_append_left (lt_length_of_typeAt typeEq)
        rw [List.take_append_drop, typeEq] at kept
        exact ⟨arity, defined, loc, _, head, kept, rfl⟩
    · cases same
  case ret =>
    intro i operands type found
    rcases wf.step_cases found with ⟨typed, -⟩ | ⟨place, same⟩
    · cases typed
    · cases same
      exact ⟨place ▸ wf.defined, rfl⟩
  case results => exact wf.length_resultTypes

/-- The rules for the instructions make the steps well typed one after another. -/
theorem Legal.wellFormed (legal : kernel.Legal) : kernel.WellFormed := by
  rcases legal.last with ⟨operands, ends⟩
  rw [insts, List.getLast?_map, Option.map_eq_some_iff] at ends
  rcases ends with ⟨⟨_, type⟩, lastStep, rfl⟩
  have split : kernel.steps = kernel.body ++ [⟨.ret operands, type⟩] :=
    (List.dropLast_append_getLast? _ lastStep).symm
  have returned : kernel.returns = operands := by
    rw [returns, lastStep]
  have lastAt : kernel.steps[kernel.body.length]? = some ⟨.ret operands, type⟩ := by
    rw [split, List.getElem?_concat_length]
  rcases legal.ret _ _ _ lastAt with ⟨defined, rfl⟩
  -- The only return is the last step, so the body is straight.
  have noReturn : kernel.body.countP (Inst.isReturn ∘ Step.inst) = 0 := by
    have single := legal.single
    rw [insts, split, List.countP_map, List.countP_append, List.countP_singleton] at single
    exact Nat.succ.inj single
  refine ⟨returned ▸ split, fun earlier step later bodyEq => ?_, returned ▸ defined⟩
  have stepsEq : kernel.steps = earlier ++ step :: (later ++ [⟨.ret operands, none⟩]) := by
    rw [split, bodyEq, List.append_assoc, List.cons_append]
  have found : kernel.steps[earlier.length]? = some step := by
    rw [stepsEq, List.getElem?_append_right (Nat.le_refl _), Nat.sub_self, List.getElem?_cons_zero]
  rcases step with ⟨inst, type⟩
  cases inst with
  | access read =>
    rcases legal.access _ _ _ found with ⟨lt, rfl⟩
    rw [List.getElem?_eq_getElem lt]
    exact .access (List.getElem?_eq_getElem lt)
  | const literal =>
    rw [legal.const _ _ _ found]
    exact .const
  | compute op args =>
    rcases legal.compute _ _ _ _ found with ⟨arity, earlierArgs, first, result, head, typeEq, rfl⟩
    refine .compute arity earlierArgs ?_
    rw [head, Option.bind_some]
    rwa [localType, stepsEq, ← typeAt, typeAt_append_left
      (earlierArgs first (List.mem_of_head? head))] at typeEq
  | ret operands' =>
    have member : (⟨.ret operands', type⟩ : Step) ∈ kernel.body := by simp [bodyEq]
    exact absurd rfl (List.countP_eq_zero.mp noReturn _ member)

theorem legal_iff_wellFormed : kernel.Legal ↔ kernel.WellFormed := ⟨Legal.wellFormed, WellFormed.legal⟩

/-- The kernels that calls to a draft can lead to, whatever the calls are, are the legal ones; a pass-through is
legal too. -/
theorem finished_iff_legal :
    (∀ kernel : Kernel, (∃ params calls returns,
        (Draft.made calls { params }).finish returns = .ok kernel) ↔ kernel.Legal) ∧
      ∀ type, (identity type).Legal := by
  refine ⟨fun kernel => ⟨fun finished => ?_, fun legal => ?_⟩, fun type => ?_⟩
  · rcases finished with ⟨params, calls, returns, finished⟩
    have made : (Draft.made calls { params }).Built := Draft.built_made calls (.new params)
    exact (Built.finish made finished).wellFormed.legal
  · have wf := legal.wellFormed
    rcases Draft.exists_made wf.typed with ⟨calls, made⟩
    refine ⟨kernel.params, calls, kernel.returns, ?_⟩
    have typed : Draft.WellTyped ⟨kernel.params, kernel.body⟩ := wf.typed
    rw [made, Draft.finish_eq_ok typed wf.defined, ← wf.shape]
  · exact (wellFormed_identity type).legal

end Kernel

end KernelFusion
