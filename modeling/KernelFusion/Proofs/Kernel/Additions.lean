import KernelFusion.Proofs.Kernel.Accesses
import Mathlib.Algebra.Ring.Nat

/-!
# What a program adds to a draft

`Draft.Touches` bounds the accesses that a program may add. This module says which instructions a program has added
when it succeeds: `Draft.Appends` relates the new steps of the draft to the program, with no assumption about what
the draft held before. A splice has added one step for every instruction of the kernel that is no access, and for
each access what its caller has added, in order (`Draft.appends_splice`).
-/

namespace KernelFusion

/-- Instructions that end no kernel. -/
def Straight (steps : List Step) : Prop := ∀ step ∈ steps, step.inst.isReturn = false

/-- Well-typed steps have no return among them. -/
theorem Typed.straight {params : List ElementType} {steps : List Step} (typed : Typed params steps) :
    Straight steps := by
  intro step member
  rcases List.getElem?_of_mem member with ⟨loc, stepAt⟩
  cases typed.step_at stepAt with
  | access => rfl
  | const => rfl
  | compute => rfl

namespace Draft

variable {α β : Type} {x : Drafting α} {f : α → Drafting β} {adds more whole : List Step → Prop}

/-- When a program succeeds, it has added steps of one kind behind those of the draft. -/
def Appends (adds : List Step → Prop) (x : Drafting α) : Prop :=
  ∀ draft a draft', x.run draft = .ok a draft' → ∃ new, draft'.steps = draft.steps ++ new ∧ adds new

/-- A program that adds nothing when it succeeds. -/
def Quiet (x : Drafting α) : Prop := Appends (· = []) x

/-! ## Programs in general -/

/-- A sequence appends what its parts append, one behind the other. -/
theorem appends_bind (first : Appends adds x) (next : ∀ a, Appends more (f a))
    (both : ∀ new new', adds new → more new' → whole (new ++ new')) : Appends whole (x >>= f) := by
  intro draft b draft' ran
  cases ranFirst : x.run draft with
  | error e draft₁ =>
    rw [run_bind_error ranFirst] at ran
    cases ran
  | ok a draft₁ =>
    rw [run_bind_ok ranFirst] at ran
    rcases first draft a draft₁ ranFirst with ⟨new, stepsEq, added⟩
    rcases next a draft₁ b draft' ran with ⟨new', stepsEq', added'⟩
    exact ⟨new ++ new', by rw [stepsEq', stepsEq, List.append_assoc], both new new' added added'⟩

theorem appends_quiet_bind (first : Quiet x) (next : ∀ a, Appends adds (f a)) :
    Appends adds (x >>= f) := by
  refine appends_bind first next fun new new' nothing added => ?_
  rwa [nothing, List.nil_append]

theorem appends_bind_quiet (first : Appends adds x) (next : ∀ a, Quiet (f a)) :
    Appends adds (x >>= f) := by
  refine appends_bind first next fun new new' added nothing => ?_
  rwa [nothing, List.append_nil]

/-- A computation that does not look at the draft has a result that what follows may rely on. -/
theorem appends_lift_bind {y : Except Error α} (next : ∀ a, y = .ok a → Appends adds (f a)) :
    Appends adds (liftM y >>= f) := by
  intro draft b draft' ran
  cases y with
  | error e =>
    rw [run_lift_error_bind] at ran
    cases ran
  | ok a =>
    rw [run_lift_ok_bind] at ran
    exact next a rfl draft b draft' ran

theorem quiet_lift (y : Except Error α) : Quiet (liftM y : Drafting α) := by
  intro draft a draft' ran
  rw [(run_lift_eq_ok_iff.mp ran).2]
  exact ⟨[], (List.append_nil _).symm, rfl⟩

theorem quiet_get : Quiet (get : Drafting Draft) := by
  intro draft a draft' ran
  cases ran
  exact ⟨[], (List.append_nil _).symm, rfl⟩

/-- What is refused appends nothing, so it appends steps of any kind. -/
theorem appends_refuse (e : Error) : Appends adds (throw e : Drafting α) :=
  fun _ _ _ ran => by cases ran

/-- A refusal ends the program, so what follows it adds nothing. -/
theorem appends_refuse_bind (e : Error) : Appends adds ((throw e : Drafting α) >>= f) :=
  fun _ _ _ ran => by cases ran

/-- What is appended may be described more loosely. -/
theorem Appends.mono (appends : Appends adds x) (weaker : ∀ new, adds new → whole new) :
    Appends whole x := by
  intro draft a draft' ran
  rcases appends draft a draft' ran with ⟨new, stepsEq, added⟩
  exact ⟨new, stepsEq, weaker new added⟩

/-! ## Additions to a draft -/

theorem appends_push (inst : Inst) (type : ElementType) :
    Appends (· = [⟨inst, some type⟩]) (push inst type) := by
  intro draft a draft' ran
  cases ran
  exact ⟨_, rfl, rfl⟩

/-- An access instruction appends that access. -/
theorem appends_access (read : Access) :
    Appends (fun new => ∃ type, new = [⟨.access read, some type⟩]) (access read) := by
  unfold access
  refine appends_quiet_bind quiet_get fun draft => appends_quiet_bind (quiet_lift _) fun type => ?_
  exact (appends_push _ type).mono fun new added => ⟨type, added⟩

/-- One step, which is no access. -/
def Single (new : List Step) : Prop := new.length = 1 ∧ accessesOf new = []

theorem appends_constant (literal : Literal) : Appends Single (constant literal) :=
  (appends_push _ _).mono fun new added => by rw [added]; exact ⟨rfl, rfl⟩

theorem appends_compute (op : Operator) (args : List Local) : Appends Single (compute op args) := by
  unfold compute
  split
  case isTrue =>
    refine appends_quiet_bind quiet_get fun draft => appends_quiet_bind (quiet_lift _) fun types => ?_
    cases types with
    | nil => exact appends_refuse _
    | cons type _ => exact (appends_push _ _).mono fun new added => by rw [added]; exact ⟨rfl, rfl⟩
  case isFalse => exact appends_refuse_bind _

/-! ## Splicing -/

/-- The accesses of some steps have each been replaced by what `spec` says, and the other steps by one step each. -/
def Replaces (spec : Access → List Step → Prop) (steps new : List Step) : Prop :=
  ∃ parts, List.Forall₂ spec (accessesOf steps) parts ∧ accessesOf new = parts.flatMap accessesOf ∧
    new.length + (accessesOf steps).length = steps.length + (parts.map List.length).sum

section Splice

variable {spec : Access → List Step → Prop} {onAccess : Access → Drafting Local} {steps : List Step}

/-- An access in front is replaced by the steps that were added for it. -/
theorem Replaces.cons_access {read : Access} {type : Option ElementType} {part new : List Step}
    (asked : spec read part) (rest : Replaces spec steps new) :
    Replaces spec (⟨.access read, type⟩ :: steps) (part ++ new) := by
  rcases rest with ⟨parts, aligned, accesses, length⟩
  have reads : accessesOf (⟨.access read, type⟩ :: steps) = read :: accessesOf steps := rfl
  refine ⟨part :: parts, ?_, ?_, ?_⟩
  · rw [reads]
    exact .cons asked aligned
  · rw [accessesOf_append, accesses, List.flatMap_cons]
  · rw [reads, List.length_append, List.length_cons, List.length_cons, List.map_cons, List.sum_cons]
    omega

/-- Another instruction in front is replaced by the one step of its copy. -/
theorem Replaces.cons_other {step : Step} {one new : List Step} (other : accessesOf [step] = [])
    (single : Single one) (rest : Replaces spec steps new) :
    Replaces spec (step :: steps) (one ++ new) := by
  rcases rest with ⟨parts, aligned, accesses, length⟩
  have reads : accessesOf (step :: steps) = accessesOf steps := by
    rw [← List.singleton_append, accessesOf_append, other, List.nil_append]
  refine ⟨parts, reads ▸ aligned, ?_, ?_⟩
  · rw [accessesOf_append, single.2, accesses, List.nil_append]
  · rw [reads, List.length_append, single.1, List.length_cons]
    omega

/-- By induction on the steps to copy, of which the return comes last and adds nothing. -/
theorem appends_spliceSteps (straight : Straight steps)
    (each : ∀ read ∈ accessesOf steps, Appends (spec read) (onAccess read)) (copies operands : List Local) :
    Appends (Replaces spec steps) (spliceSteps onAccess copies (steps ++ [⟨.ret operands, none⟩])) := by
  induction steps generalizing copies with
  | nil =>
    exact Appends.mono (quiet_lift _) fun new nothing => ⟨[], .nil, by rw [nothing]; rfl, by rw [nothing]; rfl⟩
  | cons step rest ih =>
    unfold Straight at straight
    rw [List.forall_mem_cons] at straight
    rcases step with ⟨inst, type⟩
    rw [List.cons_append, spliceSteps]
    cases inst with
    | access read =>
      have reads : accessesOf (⟨.access read, type⟩ :: rest) = read :: accessesOf rest := rfl
      rw [reads, List.forall_mem_cons] at each
      exact appends_bind each.1 (fun loc => ih straight.2 each.2 _) fun _ _ => .cons_access
    | const literal =>
      exact appends_bind (appends_constant literal) (fun loc => ih straight.2 each _)
        fun _ _ => .cons_other rfl
    | compute op args =>
      refine appends_quiet_bind (quiet_lift _) fun args' => ?_
      exact appends_bind (appends_compute op args') (fun loc => ih straight.2 each _)
        fun _ _ => .cons_other rfl
    | ret => cases straight.1

/-- A splice appends the copies of all instructions but the return, with what the caller adds in place of the
accesses. -/
theorem appends_splice {kernel : Kernel} (wf : kernel.WellFormed)
    (each : ∀ read ∈ kernel.accesses, Appends (spec read) (onAccess read)) :
    Appends (Replaces spec kernel.body) (splice kernel onAccess) := by
  rw [wf.accesses_eq] at each
  rw [splice, wf.shape]
  exact appends_spliceSteps wf.typed.straight each [] kernel.returns

end Splice

end Draft

/-- A kernel built by a program holds what the program adds, and a return. -/
theorem Kernel.steps_of_build {params : List ElementType} {program : Drafting (List Local)}
    {adds : List Step → Prop} {kernel : Kernel} (appends : Draft.Appends adds program)
    (built : build params program = .ok kernel) :
    ∃ new, adds new ∧ kernel.accesses = accessesOf new ∧ kernel.steps.length = new.length + 1 := by
  unfold build at built
  cases ran : program.run { params } with
  | error e draft =>
    rw [ran] at built
    cases built
  | ok returns draft =>
    rw [ran] at built
    rcases bind_eq_ok_iff.mp built with ⟨types, -, finished⟩
    rw [pure_eq_ok, Except.ok.injEq] at finished
    subst finished
    rcases appends _ _ _ ran with ⟨new, stepsEq, added⟩
    rw [List.nil_append] at stepsEq
    subst stepsEq
    refine ⟨draft.steps, added, ?_, List.length_append⟩
    exact (accessesOf_append draft.steps _).trans (List.append_nil _)

end KernelFusion
