import KernelFusion.Proofs.Kernel.Typing

/-!
# The accesses of a kernel

A result of a kernel reads nothing but what the kernel accesses (`Kernel.Returns.mem_accesses`). The converse does
not hold: a kernel may access what none of its results needs.

A program on a draft adds accesses, and may fail by a sum of offsets out of range. `Draft.Touches` bounds both. It
is known of a splice from what is known of the program that is run for each access (`Draft.touches_splice`), with no
assumption about the kernel or the draft.
-/

namespace KernelFusion

/-! ## Which accesses are needed -/

variable {steps : List Step} {loc : Local} {tree : Expr Access} {read : Access}

/-- What an expression reads, an instruction accesses. -/
theorem mem_of_treeAt? (treeEq : treeAt? steps loc = some tree) (member : read ∈ tree.reads) :
    ∃ type, ⟨.access read, type⟩ ∈ steps := by
  refine treeAt?_induct (motive := fun tree => ∀ read ∈ tree.reads, ∃ type, ⟨.access read, type⟩ ∈ steps)
    (fun read type found => ?access) (fun literal => ?const)
    (fun op args type trees found length each => ?compute) treeEq read member
  case access =>
    rw [Expr.reads, List.forall_mem_singleton]
    exact ⟨type, found⟩
  case const =>
    rw [Expr.reads]
    exact List.forall_mem_nil _
  case compute =>
    intro read member
    rw [Expr.reads, Expr.mem_readsOfArgs] at member
    rcases member with ⟨arg, isArg, member⟩
    exact each arg isArg read member

/-- The accesses of a list of steps in order. -/
def accessesOf (steps : List Step) : List Access := (⟨[], steps⟩ : Kernel).accesses

theorem accessesOf_append (steps more : List Step) :
    accessesOf (steps ++ more) = accessesOf steps ++ accessesOf more :=
  List.filterMap_append

theorem accessesOf_concat_access (steps : List Step) (read : Access) (type : Option ElementType) :
    accessesOf (steps ++ [⟨.access read, type⟩]) = accessesOf steps ++ [read] :=
  accessesOf_append steps _

theorem accessesOf_concat_const (steps : List Step) (literal : Literal) (type : Option ElementType) :
    accessesOf (steps ++ [⟨.const literal, type⟩]) = accessesOf steps :=
  (accessesOf_append steps _).trans (List.append_nil _)

theorem accessesOf_concat_compute (steps : List Step) (op : Operator) (args : List Local)
    (type : Option ElementType) : accessesOf (steps ++ [⟨.compute op args, type⟩]) = accessesOf steps :=
  (accessesOf_append steps _).trans (List.append_nil _)

namespace Kernel

variable {kernel : Kernel} {i : Nat} {type : ElementType}

/-- The return of a kernel accesses nothing. -/
theorem WellFormed.accesses_eq (wf : kernel.WellFormed) : kernel.accesses = accessesOf kernel.body := by
  have all : kernel.accesses = accessesOf kernel.steps := rfl
  rw [all, wf.shape, accessesOf_append]
  exact List.append_nil _

/-- The accesses of a kernel are those of its access instructions. -/
theorem mem_accesses_iff : read ∈ kernel.accesses ↔ ∃ type, ⟨.access read, type⟩ ∈ kernel.steps := by
  rw [accesses, List.mem_filterMap]
  constructor
  · intro found
    rcases found with ⟨⟨inst, type⟩, member, isAccess⟩
    cases inst with
    | access read' => exact ⟨type, Option.some.inj isAccess ▸ member⟩
    | const => cases isAccess
    | compute => cases isAccess
    | ret => cases isAccess
  · intro found
    rcases found with ⟨type, member⟩
    exact ⟨_, member, rfl⟩

/-- The results of a kernel read nothing but what the kernel accesses. -/
theorem Returns.mem_accesses (wf : kernel.WellFormed) (returned : kernel.Returns i type tree)
    (member : read ∈ tree.reads) : read ∈ kernel.accesses := by
  rcases returned with ⟨loc, -, -, treeEq⟩
  rcases mem_of_treeAt? treeEq member with ⟨type', found⟩
  refine mem_accesses_iff.mpr ⟨type', ?_⟩
  rw [wf.shape]
  exact List.mem_append_left _ found

/-- A result of a kernel needs an access. -/
def Needs (kernel : Kernel) (i : Nat) (read : Access) : Prop :=
  ∃ type tree, kernel.Returns i type tree ∧ read ∈ tree.reads

/-- Every access reads a parameter. -/
theorem WellFormed.param_at (wf : kernel.WellFormed) (member : read ∈ kernel.accesses) :
    ∃ type, kernel.params[read.param]? = some type := by
  rcases mem_accesses_iff.mp member with ⟨type, found⟩
  rw [wf.shape] at found
  rcases List.mem_append.mp found with inBody | isReturn
  · rcases List.getElem?_of_mem inBody with ⟨loc, stepAt⟩
    cases wf.typed.step_at stepAt with
    | access paramAt => exact ⟨_, paramAt⟩
  · cases List.mem_singleton.mp isReturn

end Kernel

/-! ## Which accesses a program adds -/

namespace Draft

variable {α β : Type} {x : Drafting α} {f : α → Drafting β} {draft : Draft}
  {adds : Access → Prop} {fails : Prop}

/-- The accesses of a draft in order. -/
def accesses (draft : Draft) : List Access := Kernel.accesses ⟨draft.params, draft.steps⟩

/-- A program adds accesses of one kind only, and fails by a sum of offsets only in one case. -/
def Touches (adds : Access → Prop) (fails : Prop) (x : Drafting α) : Prop :=
  ∀ draft, match x.run draft with
    | .ok _ draft' => ∀ read ∈ draft'.accesses, read ∈ draft.accesses ∨ adds read
    | .error e _ => e = .arithmetic .addition → fails

/-- A program that touches little touches more in the weaker sense. -/
theorem Touches.mono {adds' : Access → Prop} {fails' : Prop} (touches : Touches adds fails x)
    (more : ∀ read, adds read → adds' read) (also : fails → fails') : Touches adds' fails' x := by
  intro draft
  have before := touches draft
  cases ran : x.run draft with
  | ok a draft' =>
    rw [ran] at before
    exact fun read member => (before read member).imp_right (more read)
  | error e draft' =>
    rw [ran] at before
    exact fun same => also (before same)

theorem touches_pure (a : α) : Touches adds fails (pure a : Drafting α) :=
  fun _ _ member => .inl member

/-- A sequence touches what its parts touch. -/
theorem touches_bind (first : Touches adds fails x) (next : ∀ a, Touches adds fails (f a)) :
    Touches adds fails (x >>= f) := by
  intro draft
  have ofFirst := first draft
  cases ran : x.run draft with
  | error e draft' =>
    rw [ran] at ofFirst
    rw [run_bind_error ran]
    exact ofFirst
  | ok a draft' =>
    rw [ran] at ofFirst
    rw [run_bind_ok ran]
    have ofNext := next a draft'
    cases ran' : (f a).run draft' with
    | error e draft'' =>
      rw [ran'] at ofNext
      exact ofNext
    | ok b draft'' =>
      rw [ran'] at ofNext
      intro read member
      rcases ofNext read member with earlier | new
      · exact ofFirst read earlier
      · exact .inr new

/-- A list of programs touches what each of them touches. -/
theorem touches_mapM {items : List α} {f : α → Drafting β}
    (each : ∀ a ∈ items, Touches adds fails (f a)) : Touches adds fails (items.mapM f) := by
  induction items with
  | nil => exact touches_pure []
  | cons a rest ih =>
    rw [List.forall_mem_cons] at each
    rw [List.mapM_cons]
    exact touches_bind each.1 fun b => touches_bind (ih each.2) fun bs => touches_pure (b :: bs)

/-- A computation that does not look at the draft. -/
theorem touches_lift {y : Except Error α} (only : y = .error (.arithmetic .addition) → fails) :
    Touches adds fails (liftM y : Drafting α) := by
  intro draft
  cases y with
  | ok a =>
    rw [run_lift_ok]
    exact fun read member => .inl member
  | error e =>
    rw [run_lift_error]
    exact fun same => only (same ▸ rfl)

/-- A computation without a draft adds no accesses; it counts only for the sum of offsets that it may form. -/
theorem touches_lift_bind {y : Except Error α} (next : ∀ a, y = .ok a → Touches adds fails (f a))
    (only : y = .error (.arithmetic .addition) → fails) : Touches adds fails (liftM y >>= f) := by
  intro draft
  cases y with
  | ok a =>
    rw [run_lift_ok_bind]
    exact next a rfl draft
  | error e =>
    rw [run_lift_error_bind]
    exact fun same => only (same ▸ rfl)

theorem touches_push {inst : Inst} {type : ElementType}
    (only : ∀ read, inst = .access read → adds read) : Touches adds fails (push inst type) := by
  intro draft read member
  rcases Kernel.mem_accesses_iff.mp member with ⟨type', found⟩
  rcases List.mem_append.mp found with old | new
  · exact .inl (Kernel.mem_accesses_iff.mpr ⟨type', old⟩)
  · exact .inr (only read (congrArg Step.inst (List.mem_singleton.mp new)).symm)

theorem touches_get : Touches adds fails (get : Drafting Draft) :=
  fun _ _ member => .inl member

theorem touches_refuse {e : Error} (other : e ≠ .arithmetic .addition) :
    Touches adds fails (throw e : Drafting α) :=
  fun _ same => absurd same other

/-- A refusal ends the program, so what follows it does not matter. -/
theorem touches_refuse_bind {e : Error} (other : e ≠ .arithmetic .addition) :
    Touches adds fails ((throw e : Drafting α) >>= f) :=
  fun _ same => absurd same other

theorem touches_orRefuse {y : Option α} {e : Error} (other : e ≠ .arithmetic .addition) :
    Touches adds fails (liftM (orRefuse y e) : Drafting α) :=
  touches_lift fun refused => absurd (eq_of_orRefuse_eq_error refused).symm other

/-- An access instruction adds the access that it makes. -/
theorem touches_access {read : Access} (only : adds read) : Touches adds fails (access read) := by
  unfold access
  refine touches_bind touches_get fun draft => touches_bind (touches_orRefuse nofun) fun type => ?_
  refine touches_push fun read' same => ?_
  cases same
  exact only

theorem touches_constant (literal : Literal) : Touches adds fails (constant literal) :=
  touches_push nofun

/-- No local is refused for a sum of offsets. -/
theorem localTypes_ne {inst : Nat} {locs : List Local} :
    draft.localTypes inst locs ≠ .error (.arithmetic .addition) := by
  intro failed
  rcases exists_of_mapM_eq_error failed with ⟨loc, -, failed⟩
  unfold localType at failed
  split at failed
  · cases eq_of_orRefuse_eq_error failed
  · cases failed

theorem copiesOf_ne {copies locs : List Local} :
    copiesOf copies locs ≠ .error (.arithmetic .addition) := by
  intro failed
  rcases exists_of_mapM_eq_error failed with ⟨loc, -, failed⟩
  cases eq_of_orRefuse_eq_error failed

/-- An operation adds no access, and its checks form no sum of offsets. -/
theorem touches_compute (op : Operator) (args : List Local) :
    Touches adds fails (compute op args) := by
  unfold compute
  split
  case isTrue =>
    refine touches_bind touches_get fun draft => ?_
    refine touches_bind (touches_lift fun failed => absurd failed localTypes_ne) fun types => ?_
    cases types with
    | nil => exact touches_refuse nofun
    | cons type _ => exact touches_push nofun
  case isFalse => exact touches_refuse_bind nofun

/-- Copying steps touches what the caller does for their accesses. -/
theorem touches_spliceSteps {onAccess : Access → Drafting Local} {steps : List Step}
    (each : ∀ read type, ⟨.access read, type⟩ ∈ steps → Touches adds fails (onAccess read))
    (copies : List Local) : Touches adds fails (spliceSteps onAccess copies steps) := by
  induction steps generalizing copies with
  | nil => exact touches_refuse nofun
  | cons step rest ih =>
    have later (loc : Local) : Touches adds fails (spliceSteps onAccess (copies ++ [loc]) rest) :=
      ih (fun read type member => each read type (List.mem_cons_of_mem _ member)) _
    rcases step with ⟨inst, type⟩
    rw [spliceSteps]
    cases inst with
    | access read => exact touches_bind (each read type List.mem_cons_self) later
    | const literal => exact touches_bind (touches_constant literal) later
    | compute op args =>
      refine touches_bind (touches_lift fun failed => absurd failed copiesOf_ne) fun args' => ?_
      exact touches_bind (touches_compute op args') later
    | ret operands => exact touches_lift fun failed => absurd failed copiesOf_ne

/-- A splice touches what is touched for the accesses of the kernel. -/
theorem touches_splice {kernel : Kernel} {onAccess : Access → Drafting Local}
    (each : ∀ read ∈ kernel.accesses, Touches adds fails (onAccess read)) :
    Touches adds fails (splice kernel onAccess) :=
  touches_spliceSteps (fun read type member => each read (Kernel.mem_accesses_iff.mpr ⟨type, member⟩))
    []

end Draft

/-! ## Kernels built by a program -/

namespace Kernel

variable {params : List ElementType} {program : Drafting (List Local)} {adds : Access → Prop}
  {fails : Prop} {kernel : Kernel}

/-- A kernel built by a program has no accesses but those that the program adds. -/
theorem accesses_of_build (touches : Draft.Touches adds fails program)
    (built : build params program = .ok kernel) : ∀ read ∈ kernel.accesses, adds read := by
  have ofProgram := touches { params }
  unfold build at built
  cases ran : program.run { params } with
  | error e draft =>
    rw [ran] at built
    cases built
  | ok returns draft =>
    rw [ran] at built ofProgram
    rcases bind_eq_ok_iff.mp built with ⟨types, -, finished⟩
    rw [pure_eq_ok, Except.ok.injEq] at finished
    subst finished
    intro read member
    rcases mem_accesses_iff.mp member with ⟨type, found⟩
    rcases List.mem_append.mp found with inDraft | isReturn
    · rcases ofProgram read (mem_accesses_iff.mpr ⟨type, inDraft⟩) with old | new
      · cases old
      · exact new
    · cases List.mem_singleton.mp isReturn

/-- A kernel whose program fails only in one case fails to be built only in that case. -/
theorem fails_of_build (touches : Draft.Touches adds fails program)
    (failed : build params program = .error (.arithmetic .addition)) : fails := by
  have ofProgram := touches { params }
  unfold build at failed
  cases ran : program.run { params } with
  | error e draft =>
    rw [ran] at failed ofProgram
    exact ofProgram (Except.error.inj failed)
  | ok returns draft =>
    rw [ran] at failed
    dsimp only at failed
    unfold Draft.finish at failed
    cases checked : draft.localTypes draft.steps.length returns with
    | error e =>
      rw [checked, error_bind, Except.error.injEq] at failed
      exact absurd (failed ▸ checked) Draft.localTypes_ne
    | ok types =>
      rw [checked, ok_bind, pure_eq_ok] at failed
      cases failed

end Kernel

end KernelFusion
