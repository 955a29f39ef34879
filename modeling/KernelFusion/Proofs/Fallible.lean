import KernelFusion.Error
import KernelFusion.Proofs.Alignment

/-!
# Computations that may fail

How a sequence of computations that may fail comes to its result: in `Except`, and with a state that a
failure leaves behind in `EStateM`. A computation in `Except` that takes part in one with a state leaves
the state alone.
-/

namespace KernelFusion

/-! ## Without a state -/

section Except

variable {ε α β : Type} {x : Except ε α} {f : α → Except ε β}

/-- A sequence of two computations succeeds if both do; this takes a computation that succeeds apart. -/
theorem bind_eq_ok_iff {b : β} : x >>= f = .ok b ↔ ∃ a, x = .ok a ∧ f a = .ok b := by
  cases x with
  | error e => simp [bind, Except.bind]
  | ok a => simp [bind, Except.bind]

/-- A check and what follows it. -/
theorem check_bind_eq_ok_iff {check : Except ε Unit} {next : Unit → Except ε β} {b : β} :
    check >>= next = .ok b ↔ check = .ok () ∧ next () = .ok b := by
  rw [bind_eq_ok_iff]
  constructor
  · rintro ⟨⟨⟩, checked, rest⟩
    exact ⟨checked, rest⟩
  · rintro ⟨checked, rest⟩
    exact ⟨(), checked, rest⟩

@[simp]
theorem ok_bind (a : α) : (Except.ok a : Except ε α) >>= f = f a := rfl

@[simp]
theorem error_bind (e : ε) : (Except.error e : Except ε α) >>= f = .error e := rfl

@[simp]
theorem pure_eq_ok (a : α) : (pure a : Except ε α) = .ok a := rfl

@[simp]
theorem throw_eq_error (e : ε) : (throw e : Except ε α) = .error e := rfl

/-- A test, and what follows it. -/
theorem test_bind_eq_ok_iff {p : Prop} [Decidable p] {e : ε} {y : Except ε β} {next : α → Except ε β}
    {b : β} : (if p then y else throw e >>= next) = .ok b ↔ p ∧ y = .ok b := by
  split
  case isTrue holds => rw [and_iff_right holds]
  case isFalse fails => simp [fails]

/-- A test passes if what it tests holds. -/
theorem test_eq_ok_iff {p : Prop} [Decidable p] {e : ε} :
    (if p then pure () else throw e : Except ε Unit) = .ok () ↔ p := by
  split
  case isTrue holds => simp [holds]
  case isFalse fails => simp [fails]

/-- A traversal succeeds exactly when it does so at every place. -/
theorem mapM_eq_ok_iff {l : List α} {l' : List β} :
    l.mapM f = .ok l' ↔ List.Forall₂ (fun a b => f a = .ok b) l l' := by
  induction l generalizing l' with
  | nil =>
    rw [List.mapM_nil, pure_eq_ok, Except.ok.injEq, List.forall₂_nil_left_iff, eq_comm]
  | cons a rest ih =>
    simp only [List.mapM_cons, bind_eq_ok_iff, pure_eq_ok, Except.ok.injEq,
      List.forall₂_cons_left_iff, ih]
    constructor
    · rintro ⟨b, head, rest', tail, rfl⟩
      exact ⟨b, rest', head, tail, rfl⟩
    · rintro ⟨b, rest', head, tail, rfl⟩
      exact ⟨b, head, rest', tail, rfl⟩

/-- A computation that succeeds for each element of a list succeeds for the list, and the results correspond. -/
theorem exists_mapM_eq_ok {holds : α → β → Prop} {l : List α}
    (each : ∀ a ∈ l, ∃ b, f a = .ok b ∧ holds a b) :
    ∃ l', l.mapM f = .ok l' ∧ List.Forall₂ holds l l' := by
  induction l with
  | nil => exact ⟨[], rfl, .nil⟩
  | cons a rest ih =>
    rw [List.forall_mem_cons] at each
    rcases each with ⟨⟨b, head, related⟩, each⟩
    rcases ih each with ⟨rest', tail, relatedRest⟩
    refine ⟨b :: rest', ?_, .cons related relatedRest⟩
    rw [List.mapM_cons, head, ok_bind, tail, ok_bind, pure_eq_ok]

/-- What follows a computation over a list may rely on what the results have in common with the elements. -/
theorem exists_mapM_bind_eq_ok {γ : Type} {l : List α} {next : List β → Except ε γ} {post : γ → Prop}
    (holds : α → β → Prop) (each : ∀ a ∈ l, ∃ b, f a = .ok b ∧ holds a b)
    (rest : ∀ l', List.Forall₂ holds l l' → ∃ c, next l' = .ok c ∧ post c) :
    ∃ c, l.mapM f >>= next = .ok c ∧ post c := by
  rcases exists_mapM_eq_ok each with ⟨l', traversed, related⟩
  rw [traversed, ok_bind]
  exact rest l' related

/-- A traversal that fails does so at some place. -/
theorem exists_of_mapM_eq_error {l : List α} {e : ε} (failed : l.mapM f = .error e) :
    ∃ a ∈ l, f a = .error e := by
  induction l with
  | nil => cases failed
  | cons a rest ih =>
    rw [List.mapM_cons] at failed
    cases head : f a with
    | error e' =>
      rw [head, error_bind, Except.error.injEq] at failed
      exact ⟨a, List.mem_cons_self, failed ▸ head⟩
    | ok b =>
      rw [head, ok_bind] at failed
      cases tail : rest.mapM f with
      | error e' =>
        rw [tail, error_bind, Except.error.injEq] at failed
        rcases ih (failed ▸ tail) with ⟨a', member, failedAt⟩
        exact ⟨a', List.mem_cons_of_mem a member, failedAt⟩
      | ok rest' =>
        rw [tail, ok_bind, pure_eq_ok] at failed
        cases failed

/-- A loop of checks succeeds exactly when each of them does. -/
theorem forM_eq_ok_iff {check : α → Except ε Unit} {l : List α} :
    l.forM check = .ok () ↔ ∀ a ∈ l, check a = .ok () := by
  induction l with
  | nil => simp [List.forM]
  | cons a rest ih =>
    rw [List.forM, List.forall_mem_cons, ← ih]
    exact check_bind_eq_ok_iff

/-- A loop of checks that fails does so at some element. -/
theorem exists_of_forM_eq_error {check : α → Except ε Unit} {l : List α} {e : ε}
    (failed : l.forM check = .error e) : ∃ a ∈ l, check a = .error e := by
  induction l with
  | nil => cases failed
  | cons a rest ih =>
    rw [List.forM] at failed
    cases head : check a with
    | error e' =>
      rw [head, error_bind, Except.error.injEq] at failed
      exact ⟨a, List.mem_cons_self, failed ▸ head⟩
    | ok =>
      rw [head, ok_bind] at failed
      rcases ih failed with ⟨a', member, failedAt⟩
      exact ⟨a', List.mem_cons_of_mem a member, failedAt⟩

end Except

/-- Options over a list are there together if each is. -/
theorem mapM_eq_some_iff {α β : Type} {f : α → Option β} {l : List α} {l' : List β} :
    l.mapM f = some l' ↔ List.Forall₂ (fun a b => f a = some b) l l' := by
  induction l generalizing l' with
  | nil => simp [eq_comm]
  | cons a rest ih =>
    simp only [List.mapM_cons, Option.bind_eq_bind, Option.bind_eq_some_iff, Option.pure_def,
      Option.some.injEq, List.forall₂_cons_left_iff, ih]
    constructor
    · rintro ⟨b, head, rest', tail, rfl⟩
      exact ⟨b, rest', head, tail, rfl⟩
    · rintro ⟨b, rest', head, tail, rfl⟩
      exact ⟨b, head, rest', tail, rfl⟩

/-- A look-up passes if it finds something. -/
theorem orRefuse_eq_ok_iff {α : Type} {x : Option α} {e : Error} {a : α} :
    orRefuse x e = .ok a ↔ x = some a := by
  cases x <;> simp [orRefuse]

/-- A look-up is refused with the error that it was given. -/
theorem eq_of_orRefuse_eq_error {α : Type} {x : Option α} {e e' : Error}
    (refused : orRefuse x e = .error e') : e' = e := by
  cases x with
  | none => exact (Except.error.inj refused).symm
  | some a => cases refused

@[simp]
theorem orRefuse_some {α : Type} (a : α) (e : Error) : orRefuse (some a) e = .ok a := rfl

@[simp]
theorem orRefuse_none {α : Type} (e : Error) : orRefuse (none : Option α) e = .error e := rfl

/-! ## With a state -/

section EStateM

variable {ε σ α β : Type} {x : EStateM ε σ α} {f : α → EStateM ε σ β} {s s' : σ}

/-- After a first part that succeeds, the second runs from the state that it has left. -/
theorem run_bind_ok {a : α} (h : x.run s = .ok a s') : (x >>= f).run s = (f a).run s' := by
  rw [EStateM.run_bind, h]

/-- After a first part that fails, the second does not run. -/
theorem run_bind_error {e : ε} (h : x.run s = .error e s') : (x >>= f).run s = .error e s' := by
  rw [EStateM.run_bind, h]

/-- A sequence succeeds if the first part does, and the second from the state that it leaves. -/
theorem run_bind_eq_ok_iff {b : β} {s'' : σ} : (x >>= f).run s = .ok b s'' ↔
    ∃ a s', x.run s = .ok a s' ∧ (f a).run s' = .ok b s'' := by
  rw [EStateM.run_bind]
  cases x.run s with
  | ok a s' => simp
  | error e s' => simp

@[simp]
theorem run_lift_ok (a : α) : (liftM (Except.ok a : Except ε α) : EStateM ε σ α).run s = .ok a s :=
  rfl

@[simp]
theorem run_lift_error (e : ε) :
    (liftM (Except.error e : Except ε α) : EStateM ε σ α).run s = .error e s :=
  rfl

@[simp]
theorem run_refuse (e : ε) : (throw e : EStateM ε σ α).run s = .error e s := rfl

@[simp]
theorem run_get_bind {f : σ → EStateM ε σ β} : (get >>= f).run s = (f s).run s := rfl

@[simp]
theorem run_lift_ok_bind {a : α} :
    ((liftM (Except.ok a : Except ε α) : EStateM ε σ α) >>= f).run s = (f a).run s :=
  rfl

@[simp]
theorem run_lift_error_bind {e : ε} :
    ((liftM (Except.error e : Except ε α) : EStateM ε σ α) >>= f).run s = .error e s :=
  rfl

/-- A loop that only checks is a check. -/
theorem run_forM_lift {check : β → Except ε Unit} {l : List β} :
    (l.forM fun b => (liftM (check b) : EStateM ε σ Unit)).run s =
      (liftM (l.forM check) : EStateM ε σ Unit).run s := by
  induction l with
  | nil => rfl
  | cons b rest ih =>
    rw [List.forM, List.forM]
    cases head : check b with
    | error e => exact run_lift_error_bind
    | ok => exact run_lift_ok_bind.trans ih

/-- The state that a computation leaves behind, whether it succeeds or fails. -/
def stateAfter (x : EStateM ε σ α) (s : σ) : σ :=
  match x.run s with
  | .ok _ s' => s'
  | .error _ s' => s'

theorem stateAfter_ok {a : α} (h : x.run s = .ok a s') : stateAfter x s = s' := by
  rw [stateAfter, h]

theorem stateAfter_error {e : ε} (h : x.run s = .error e s') : stateAfter x s = s' := by
  rw [stateAfter, h]

/-- What a computation comes to, without the state that it leaves behind. -/
def answer (x : EStateM ε σ α) (s : σ) : Except ε α :=
  match x.run s with
  | .ok a _ => .ok a
  | .error e _ => .error e

/-- A run is known from its answer and the state that it leaves. -/
theorem run_of_answer {a : α} (h : answer x s = .ok a) : x.run s = .ok a (stateAfter x s) := by
  rw [answer] at h
  cases ran : x.run s with
  | ok b s' =>
    rw [ran] at h
    cases h
    rw [stateAfter_ok ran]
  | error e s' =>
    rw [ran] at h
    cases h

theorem run_of_answer_error {e : ε} (h : answer x s = .error e) :
    x.run s = .error e (stateAfter x s) := by
  rw [answer] at h
  cases ran : x.run s with
  | ok b s' =>
    rw [ran] at h
    cases h
  | error e' s' =>
    rw [ran] at h
    cases h
    rw [stateAfter_error ran]

/-- A computation without state leaves the state alone. -/
theorem run_lift_eq_ok_iff {y : Except ε α} {a : α} :
    (liftM y : EStateM ε σ α).run s = .ok a s' ↔ y = .ok a ∧ s' = s := by
  cases y with
  | ok b => simp [eq_comm]
  | error e => simp

/-- The state after a computation without state is the state before, whether it fails or not. -/
theorem stateAfter_lift (y : Except ε α) : stateAfter (liftM y : EStateM ε σ α) s = s := by
  cases y <;> rfl

/-- A property of states is kept by a sequence of two computations when each keeps it. -/
theorem stateAfter_bind (good : σ → Prop) (first : good (stateAfter x s))
    (next : ∀ a s', x.run s = .ok a s' → good s' → good (stateAfter (f a) s')) :
    good (stateAfter (x >>= f) s) := by
  cases h : x.run s with
  | ok a s' =>
    rw [stateAfter_ok h] at first
    rw [stateAfter, run_bind_ok h]
    exact next a s' h first
  | error e s' =>
    rw [stateAfter_error h] at first
    rwa [stateAfter_error (run_bind_error h)]

/-- A computation on the current state. -/
theorem stateAfter_get_bind {h : σ → EStateM ε σ β} :
    stateAfter (get >>= h) s = stateAfter (h s) s := by
  rw [stateAfter, run_get_bind]
  rfl

/-- A computation that goes on when a check succeeds. -/
theorem stateAfter_lift_bind (good : σ → Prop) {y : Except ε α} (start : good s)
    (next : ∀ a, y = .ok a → good (stateAfter (f a) s)) :
    good (stateAfter (liftM y >>= f) s) := by
  refine stateAfter_bind good (by rwa [stateAfter_lift]) fun a s' ran _ => ?_
  obtain ⟨checked, rfl⟩ := run_lift_eq_ok_iff.mp ran
  exact next a checked

/-- A property of states is kept by a loop when each round keeps it. -/
theorem stateAfter_forM (good : σ → Prop) {step : β → EStateM ε σ PUnit} {l : List β}
    (keeps : ∀ b s, good s → good (stateAfter (step b) s)) (start : good s) :
    good (stateAfter (l.forM step) s) := by
  induction l generalizing s with
  | nil => exact start
  | cons b rest ih =>
    exact stateAfter_bind good (keeps b s start) fun _ s' _ kept => ih kept

/-! ## Refusals -/

/-- The error of a computation that fails. -/
def refusal (x : EStateM ε σ α) (s : σ) : Option ε :=
  match x.run s with
  | .ok .. => none
  | .error e _ => some e

/-- The refusal of a computation is the error with which it ends. -/
theorem refusal_eq_some_iff {e : ε} : refusal x s = some e ↔ x.run s = .error e (stateAfter x s) := by
  unfold refusal stateAfter
  cases x.run s <;> simp

/-- A computation that leaves the state as it was when it fails. -/
def Cautious (x : EStateM ε σ α) (s : σ) : Prop := ∀ e s', x.run s = .error e s' → s' = s

/-- A cautious computation that is refused has changed nothing. -/
theorem Cautious.stateAfter_eq (cautious : Cautious x s) {e : ε} (refused : refusal x s = some e) :
    stateAfter x s = s :=
  cautious e _ (refusal_eq_some_iff.mp refused)

/-- What succeeds is cautious. -/
theorem cautious_of_ok {a : α} (ran : x.run s = .ok a s') : Cautious x s := by
  intro e s'' refused
  rw [ran] at refused
  cases refused

theorem cautious_refuse (e : ε) : Cautious (throw e : EStateM ε σ α) s := by
  intro e' s' refused
  cases refused
  rfl

/-- Reading the state first does no harm to caution. -/
theorem cautious_get_bind {h : σ → EStateM ε σ β} (next : Cautious (h s) s) : Cautious (get >>= h) s :=
  next

/-- What a computation does after a check decides whether it is cautious. -/
theorem cautious_lift_bind {y : Except ε α} (next : ∀ a, y = .ok a → Cautious (f a) s) :
    Cautious (liftM y >>= f) s := by
  intro e s' refused
  cases y with
  | ok a => exact next a rfl e s' refused
  | error e' =>
    cases refused
    rfl

end EStateM

end KernelFusion
