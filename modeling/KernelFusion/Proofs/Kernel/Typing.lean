import KernelFusion.Kernel.Draft
import KernelFusion.Proofs.Expr.Replacement
import KernelFusion.Proofs.Fallible
import KernelFusion.Proofs.Kernel.Unfolding

/-!
# Well-typed kernels

A list of steps is well typed over some parameters when every access reads a parameter that exists, every
computation has as many arguments as its operator takes, all of them earlier instructions, and each step is
recorded with the type that this gives it. A kernel is well formed when it is a well-typed list with one
return of earlier locals behind it.

The operations of a draft succeed exactly on what keeps the draft well typed; `access_run`, `constant_run`
and `compute_run` give their results. A kernel that was built by them is well formed
(`Kernel.Built.wellFormed`). In a well-typed list every local has a type and an expression.
-/

namespace KernelFusion

/-- The type of a local of a list of steps, if it has a result. -/
def typeAt (steps : List Step) (loc : Local) : Option ElementType := steps[loc]?.bind Step.type

/-- A step that may follow the given ones over the given parameters. -/
inductive StepTyped (params : List ElementType) (earlier : List Step) : Step → Prop
  | access {read : Access} {type : ElementType} :
    params[read.param]? = some type → StepTyped params earlier ⟨.access read, some type⟩
  | const {literal : Literal} : StepTyped params earlier ⟨.const literal, some literal.type⟩
  | compute {op : Operator} {args : List Local} {type : ElementType} :
    args.length = op.arity → (∀ arg ∈ args, arg < earlier.length) →
    args.head?.bind (typeAt earlier) = some type →
    StepTyped params earlier ⟨.compute op args, some type⟩

/-- Every step is typed over the parameters and the steps before it. -/
def Typed (params : List ElementType) (steps : List Step) : Prop :=
  ∀ earlier step later, steps = earlier ++ step :: later → StepTyped params earlier step

variable {params : List ElementType} {steps more : List Step} {step : Step} {loc : Local}

/-- The type of a local does not depend on what comes behind it. -/
theorem typeAt_append_left (lt : loc < steps.length) :
    typeAt (steps ++ more) loc = typeAt steps loc := by
  rw [typeAt, typeAt, List.getElem?_append_left lt]

theorem lt_length_of_typeAt {type : ElementType} (found : typeAt steps loc = some type) :
    loc < steps.length := by
  by_contra beyond
  rw [typeAt, List.getElem?_eq_none (Nat.le_of_not_lt beyond)] at found
  cases found

namespace Typed

theorem nil : Typed params [] := by
  intro earlier step later split
  simp at split

theorem left (typed : Typed params (steps ++ more)) : Typed params steps := by
  intro earlier step later split
  exact typed earlier step (later ++ more) (by rw [split, List.append_assoc, List.cons_append])

/-- A step behind well-typed ones is well typed over them. -/
theorem next (typed : Typed params (steps ++ step :: more)) : StepTyped params steps step :=
  typed steps step more rfl

/-- One more well-typed step. -/
theorem concat (typed : Typed params steps) (new : StepTyped params steps step) :
    Typed params (steps ++ [step]) := by
  intro earlier step' later split
  rcases List.eq_nil_or_concat' later with rfl | ⟨front, last, rfl⟩
  · obtain ⟨rfl, same⟩ := List.append_inj' split rfl
    cases same
    exact new
  · rw [← List.cons_append, ← List.append_assoc] at split
    exact typed earlier step' front (List.append_inj' split rfl).1

/-- Each of some well-typed steps is well typed over those before it. -/
theorem step_at (typed : Typed params steps) (found : steps[loc]? = some step) :
    StepTyped params (steps.take loc) step := by
  obtain ⟨lt, rfl⟩ := List.getElem?_eq_some_iff.mp found
  refine typed (steps.take loc) _ (steps.drop (loc + 1)) ?_
  rw [← List.drop_eq_getElem_cons lt, List.take_append_drop]

/-- Every well-typed step before the return has a result. -/
theorem exists_type (typed : Typed params steps) (lt : loc < steps.length) :
    ∃ type, typeAt steps loc = some type := by
  have found : steps[loc]? = some steps[loc] := List.getElem?_eq_getElem lt
  rw [typeAt, found, Option.bind_some]
  generalize steps[loc] = step at found
  cases typed.step_at found with
  | access => exact ⟨_, rfl⟩
  | const => exact ⟨_, rfl⟩
  | compute => exact ⟨_, rfl⟩

/-- Every local of a well-typed list stands for an expression. -/
theorem exists_tree (typed : Typed params steps) (lt : loc < steps.length) :
    ∃ tree, treeAt? steps loc = some tree := by
  induction steps using List.reverseRecOn generalizing loc with
  | nil => cases lt
  | append_singleton steps step ih =>
    rw [List.length_append, List.length_singleton] at lt
    rcases Nat.lt_succ_iff_lt_or_eq.mp lt with before | rfl
    · rw [treeAt?_append_left before]
      exact ih typed.left before
    · rw [treeAt?_concat]
      cases typed.next with
      | access => exact ⟨_, rfl⟩
      | const => exact ⟨_, rfl⟩
      | @compute op args type arity defined first =>
        have found (args : List Local) (defined : ∀ arg ∈ args, arg < steps.length) :
            ∃ trees, args.mapM (treeAt? steps) = some trees := by
          induction args with
          | nil => exact ⟨[], rfl⟩
          | cons arg rest ihArgs =>
            rw [List.forall_mem_cons] at defined
            obtain ⟨tree, treeEq⟩ := ih typed.left defined.1
            obtain ⟨trees, treesEq⟩ := ihArgs defined.2
            exact ⟨tree :: trees, mapM_eq_some_iff.mpr (.cons treeEq (mapM_eq_some_iff.mp treesEq))⟩
        obtain ⟨trees, treesEq⟩ := found args defined
        exact ⟨.compute op trees, by rw [tree?_compute, treesEq, Option.map_some]⟩

/-- Every local of a well-typed list stands for a saturated expression. -/
theorem saturated (typed : Typed params steps) {tree : Expr Access}
    (treeEq : treeAt? steps loc = some tree) : tree.Saturated := by
  refine treeAt?_induct (fun read type _ => .read) (fun literal => .const)
    (fun op args type trees found length each => ?_) treeEq
  rcases List.getElem?_of_mem found with ⟨place, stepAt⟩
  cases typed.step_at stepAt with
  | compute arity => exact .compute (length ▸ arity) each

end Typed

/-! ## Drafts -/

namespace Draft

/-- The steps of the draft are well typed over its parameters. -/
def WellTyped (draft : Draft) : Prop := Typed draft.params draft.steps

/-- A draft that came from another by adding instructions. -/
structure Extends (draft draft' : Draft) : Prop where
  params : draft'.params = draft.params
  steps : draft.steps <+: draft'.steps
  typed : draft'.WellTyped

theorem Extends.refl {draft : Draft} (typed : draft.WellTyped) : draft.Extends draft :=
  ⟨rfl, List.prefix_refl _, typed⟩

/-- What extends an extension extends. -/
theorem Extends.trans {first second third : Draft} (one : first.Extends second)
    (two : second.Extends third) : first.Extends third :=
  ⟨two.params.trans one.params, one.steps.trans two.steps, two.typed⟩

/-- A local of a draft has a type and stands for an expression. -/
def Holds (draft : Draft) (loc : Local) (type : ElementType) (tree : Expr Access) : Prop :=
  typeAt draft.steps loc = some type ∧ treeAt? draft.steps loc = some tree

/-- Adding instructions changes nothing about the locals that are there. -/
theorem Holds.extend {draft draft' : Draft} {type : ElementType} {tree : Expr Access}
    (holds : draft.Holds loc type tree) (extend : draft.Extends draft') :
    draft'.Holds loc type tree := by
  obtain ⟨more, split⟩ := extend.steps
  have lt := lt_length_of_typeAt holds.1
  refine ⟨?_, ?_⟩
  · rw [← split, typeAt_append_left lt, holds.1]
  · rw [← split, treeAt?_append_left lt, holds.2]

variable {draft : Draft}

/-- The draft with one more step. -/
def snoc (draft : Draft) (step : Step) : Draft := { draft with steps := draft.steps ++ [step] }

/-- One well-typed instruction more extends a draft. -/
theorem extends_snoc (typed : draft.WellTyped) (new : StepTyped draft.params draft.steps step) :
    draft.Extends (draft.snoc step) :=
  ⟨rfl, List.prefix_append _ _, typed.concat new⟩

theorem typeAt_snoc (draft : Draft) (step : Step) :
    typeAt (draft.snoc step).steps draft.steps.length = step.type := by
  simp [snoc, typeAt]

/-- A new step stands for what it makes of the ones before it. -/
theorem holds_snoc {type : ElementType} {tree : Expr Access} (typeEq : step.type = some type)
    (treeEq : step.inst.tree? (treesOf draft.steps) = some tree) :
    (draft.snoc step).Holds draft.steps.length type tree :=
  ⟨by rw [typeAt_snoc, typeEq], by rw [snoc, treeAt?_concat, treeEq]⟩

/-- Accessing a parameter that is there succeeds and adds the access with the type of the parameter. -/
theorem access_run {read : Access} {type : ElementType}
    (found : draft.params[read.param]? = some type) :
    (access read).run draft = .ok draft.steps.length (draft.snoc ⟨.access read, some type⟩) := by
  unfold access
  rw [run_get_bind, found, orRefuse_some, run_lift_ok_bind]
  rfl

theorem constant_run (literal : Literal) :
    (constant literal).run draft =
      .ok draft.steps.length (draft.snoc ⟨.const literal, some literal.type⟩) := rfl

/-- The type of a local is found if the local comes before the instruction and has a result. -/
theorem localType_eq_ok_iff {inst : Nat} {type : ElementType} :
    draft.localType inst loc = .ok type ↔ loc < inst ∧ typeAt draft.steps loc = some type := by
  unfold localType
  split
  · rw [orRefuse_eq_ok_iff, ← typeAt]
    simp [*]
  · simp [*]

/-- The locals that a well-typed draft has may all be referred to. -/
theorem localTypes_eq_ok (typed : draft.WellTyped) {locs : List Local}
    (defined : ∀ arg ∈ locs, arg < draft.steps.length) :
    ∃ types, draft.localTypes draft.steps.length locs = .ok types := by
  induction locs with
  | nil => exact ⟨[], rfl⟩
  | cons loc rest ih =>
    obtain ⟨types, rest_ok⟩ := ih fun arg member => defined arg (List.mem_cons_of_mem _ member)
    have lt := defined loc List.mem_cons_self
    obtain ⟨type, found⟩ := typed.exists_type lt
    refine ⟨type :: types, mapM_eq_ok_iff.mpr (.cons ?_ (mapM_eq_ok_iff.mp rest_ok))⟩
    exact localType_eq_ok_iff.mpr ⟨lt, found⟩

theorem lt_of_localTypes_eq_ok {inst : Nat} {locs : List Local} {types : List ElementType}
    (checked : draft.localTypes inst locs = .ok types) : ∀ loc ∈ locs, loc < inst := by
  intro loc member
  obtain ⟨type, -, found⟩ := exists_right_of_mem (mapM_eq_ok_iff.mp checked) member
  exact (localType_eq_ok_iff.mp found).1

theorem head?_of_localTypes_eq_ok {inst : Nat} {locs : List Local} {types : List ElementType}
    (checked : draft.localTypes inst locs = .ok types) :
    types.head? = locs.head?.bind (typeAt draft.steps) := by
  cases mapM_eq_ok_iff.mp checked with
  | nil => rfl
  | cons head _ => rw [List.head?_cons, List.head?_cons, Option.bind_some,
      (localType_eq_ok_iff.mp head).2]

/-- An operation with the right number of arguments, all defined, succeeds and has the type of the first. -/
theorem compute_run (typed : draft.WellTyped) {op : Operator} {args : List Local}
    {type : ElementType} (arity : args.length = op.arity)
    (defined : ∀ arg ∈ args, arg < draft.steps.length)
    (first : args.head?.bind (typeAt draft.steps) = some type) :
    (compute op args).run draft =
      .ok draft.steps.length (draft.snoc ⟨.compute op args, some type⟩) := by
  obtain ⟨types, types_ok⟩ := localTypes_eq_ok typed defined
  have head := head?_of_localTypes_eq_ok types_ok
  rw [first] at head
  cases types with
  | nil => cases head
  | cons type' rest =>
    rw [List.head?_cons, Option.some.injEq] at head
    subst head
    unfold compute
    rw [if_pos arity]
    dsimp only
    rw [run_get_bind, types_ok, run_lift_ok_bind]
    rfl

/-- A draft is finished by a return of defined locals. -/
theorem finish_eq_ok (typed : draft.WellTyped) {returns : List Local}
    (defined : ∀ loc ∈ returns, loc < draft.steps.length) :
    draft.finish returns = .ok ⟨draft.params, draft.steps ++ [⟨.ret returns, none⟩]⟩ := by
  obtain ⟨types, types_ok⟩ := localTypes_eq_ok typed defined
  rw [finish, types_ok, ok_bind, pure_eq_ok]

/-- The drafts that can be made: instructions are added one by one, and an addition that is refused
leaves its draft behind as well. -/
inductive Built : Draft → Prop
  | new (params : List ElementType) : Built { params }
  | access {draft : Draft} (read : Access) :
    Built draft → Built (stateAfter (access read) draft)
  | constant {draft : Draft} (literal : Literal) :
    Built draft → Built (stateAfter (constant literal) draft)
  | compute {draft : Draft} (op : Operator) (args : List Local) :
    Built draft → Built (stateAfter (compute op args) draft)

section Splice

variable {σ : Type} {s : σ} {good : Draft → Prop}

theorem stateAfter_run_lift {α : Type} (x : Drafting α) :
    stateAfter ((liftM x : StateT σ Drafting α).run s) draft = stateAfter x draft := by
  have first : (liftM x : StateT σ Drafting α).run s = x >>= fun a => pure (a, s) := rfl
  rw [first]
  cases ran : x.run draft with
  | ok a draft' => rw [stateAfter_ok ran, stateAfter, run_bind_ok ran]; rfl
  | error e draft' => rw [stateAfter_error ran, stateAfter_error (run_bind_error ran)]

/-- A property of drafts that both parts keep, a sequence of programs with a state of their own keeps. -/
theorem stateAfter_run_bind {α β : Type} {x : StateT σ Drafting α} {f : α → StateT σ Drafting β}
    (first : good (stateAfter (x.run s) draft))
    (next : ∀ a s' draft', good draft' → good (stateAfter ((f a).run s') draft')) :
    good (stateAfter ((x >>= f).run s) draft) :=
  stateAfter_bind good first fun out draft' _ kept => next out.1 out.2 draft' kept

variable {onAccess : Access → StateT σ Drafting Local}
  (constant : ∀ literal draft, good draft → good (stateAfter (constant literal) draft))
  (compute : ∀ op args draft, good draft → good (stateAfter (compute op args) draft))
  (adds : ∀ read s draft, good draft → good (stateAfter ((onAccess read).run s) draft))

include constant compute adds

/-- A property of drafts that each addition keeps, and the caller, is kept by copying steps. -/
theorem stateAfter_spliceSteps (steps : List Step) (copies : List Local) {draft : Draft}
    (start : good draft) : good (stateAfter ((spliceSteps onAccess copies steps).run s) draft) := by
  induction steps generalizing copies s draft with
  | nil => exact start
  | cons step rest ih =>
    rw [spliceSteps]
    cases step.inst with
    | access read => exact stateAfter_run_bind (adds read s draft start) fun loc s' draft' => ih _
    | const literal =>
      refine stateAfter_run_bind ?_ fun loc s' draft' => ih _
      rw [stateAfter_run_lift]
      exact constant literal draft start
    | compute op args =>
      refine stateAfter_run_bind ?_ fun args' s' draft' start' =>
        stateAfter_run_bind ?_ fun loc s'' draft'' => ih _
      · rwa [stateAfter_run_lift, stateAfter_lift]
      · rw [stateAfter_run_lift]
        exact compute op args' draft' start'
    | ret operands => rwa [stateAfter_run_lift, stateAfter_lift]

/-- A property that every addition keeps is kept by a splice, whether it succeeds or fails. -/
theorem stateAfter_splice (kernel : Kernel) {draft : Draft} (start : good draft) :
    good (stateAfter ((splice kernel onAccess).run s) draft) :=
  stateAfter_spliceSteps constant compute adds kernel.steps [] start

end Splice

/-- Splicing makes no drafts but these, when the caller adds to them by the same operations. -/
theorem Built.splice {σ : Type} {s : σ} {onAccess : Access → StateT σ Drafting Local}
    (adds : ∀ (read : Access) (s : σ) (draft : Draft), draft.Built →
      (stateAfter ((onAccess read).run s) draft).Built)
    (kernel : Kernel) (built : draft.Built) :
    (stateAfter ((splice kernel onAccess).run s) draft).Built :=
  stateAfter_splice (fun literal _ built => built.constant literal)
    (fun op args _ built => built.compute op args) adds kernel built

/-- Asking for an access adds it, or changes nothing. -/
theorem extends_access (typed : draft.WellTyped) (read : Access) :
    draft.Extends (stateAfter (access read) draft) := by
  cases found : draft.params[read.param]? with
  | some type =>
    rw [stateAfter_ok (access_run found)]
    exact extends_snoc typed (.access found)
  | none =>
    have refused : (access read).run draft =
        .error (.accessUnknownParameter read.param draft.params.length) draft := by
      unfold access
      rw [run_get_bind, found, orRefuse_none, run_lift_error_bind]
    rw [stateAfter_error refused]
    exact .refl typed

theorem extends_constant (typed : draft.WellTyped) (literal : Literal) :
    draft.Extends (stateAfter (constant literal) draft) := by
  rw [stateAfter_ok (constant_run literal)]
  exact extends_snoc typed .const

/-- Asking for a computation adds it, or changes nothing. -/
theorem extends_compute (typed : draft.WellTyped) (op : Operator) (args : List Local) :
    draft.Extends (stateAfter (compute op args) draft) := by
  by_cases arity : args.length = op.arity
  case neg =>
    have refused : (compute op args).run draft =
        .error (.computeArity op op.arity args.length) draft := by
      unfold compute
      rw [if_neg arity, run_bind_error (run_refuse _)]
    rw [stateAfter_error refused]
    exact .refl typed
  case pos =>
    cases checked : draft.localTypes draft.steps.length args with
    | error e =>
      have refused : (compute op args).run draft = .error e draft := by
        unfold compute
        rw [if_pos arity]
        dsimp only
        rw [run_get_bind, checked, run_lift_error_bind]
      rw [stateAfter_error refused]
      exact .refl typed
    | ok types =>
      have head := head?_of_localTypes_eq_ok checked
      have defined := lt_of_localTypes_eq_ok checked
      cases types with
      | nil =>
        have aligned := (mapM_eq_ok_iff.mp checked).length_eq
        have positive := op.arity_pos
        rw [← arity, aligned] at positive
        cases positive
      | cons type rest =>
        rw [List.head?_cons] at head
        rw [stateAfter_ok (compute_run typed arity defined head.symm)]
        exact extends_snoc typed (.compute arity defined head.symm)

/-- Whatever is added by calls is well typed. -/
theorem Built.wellTyped (built : draft.Built) : draft.WellTyped := by
  induction built with
  | new => exact .nil
  | access read _ ih => exact (extends_access ih read).typed
  | constant literal _ ih => exact (extends_constant ih literal).typed
  | compute op args _ ih => exact (extends_compute ih op args).typed

end Draft

/-! ## Kernels -/

namespace Kernel

/-- The steps of a kernel without the return. -/
def body (kernel : Kernel) : List Step := kernel.steps.dropLast

/-- A well-typed list of steps with one return of earlier locals behind it. -/
structure WellFormed (kernel : Kernel) : Prop where
  shape : kernel.steps = kernel.body ++ [⟨.ret kernel.returns, none⟩]
  typed : Typed kernel.params kernel.body
  defined : ∀ loc ∈ kernel.returns, loc < kernel.body.length

theorem WellFormed.length_steps {kernel : Kernel} (wf : kernel.WellFormed) :
    kernel.steps.length = kernel.body.length + 1 :=
  (congrArg List.length wf.shape).trans List.length_append

/-- Well-typed steps with a return of locals of theirs make a kernel. -/
theorem wellFormed_mk {operands : List Local} (typed : Typed params steps)
    (defined : ∀ loc ∈ operands, loc < steps.length) :
    (⟨params, steps ++ [⟨.ret operands, none⟩]⟩ : Kernel).WellFormed where
  shape := by simp [body, returns]
  typed := by simpa [body] using typed
  defined := by simpa [body, returns] using defined

theorem wellFormed_identity (type : ElementType) : (identity type).WellFormed := by
  have typed : Typed [type] [⟨.access ⟨0, .zero⟩, some type⟩] := Typed.nil.concat (.access rfl)
  exact wellFormed_mk typed (by simp)

/-- The kernels that can be made: by finishing a draft, or as a pass-through. -/
inductive Built : Kernel → Prop
  | identity (type : ElementType) : Built (.identity type)
  | finish {draft : Draft} {returns : List Local} {kernel : Kernel} :
    draft.Built → draft.finish returns = .ok kernel → Built kernel

/-- Every kernel that is built is well formed. -/
theorem Built.wellFormed {kernel : Kernel} (built : kernel.Built) : kernel.WellFormed := by
  cases built with
  | identity type => exact wellFormed_identity type
  | @finish draft returns _ made finished =>
    obtain ⟨types, checked, finished⟩ := bind_eq_ok_iff.mp finished
    rw [← Except.ok.inj finished]
    exact wellFormed_mk made.wellTyped (Draft.lt_of_localTypes_eq_ok checked)

variable {kernel : Kernel}

/-- A result of a kernel, with its type and the expression it stands for. -/
def Returns (kernel : Kernel) (i : Nat) (type : ElementType) (tree : Expr Access) : Prop :=
  ∃ loc, kernel.returns[i]? = some loc ∧ typeAt kernel.body loc = some type ∧
    treeAt? kernel.body loc = some tree

/-- Looking up the type of a returned local, the return itself does not matter. -/
theorem WellFormed.localType_eq (wf : kernel.WellFormed) {loc : Local}
    (member : loc ∈ kernel.returns) : kernel.localType loc = typeAt kernel.body loc := by
  rw [localType, wf.shape, ← typeAt, typeAt_append_left (wf.defined loc member)]

theorem WellFormed.tree?_eq (wf : kernel.WellFormed) {loc : Local}
    (member : loc ∈ kernel.returns) : kernel.tree? loc = treeAt? kernel.body loc := by
  rw [tree?, wf.shape, treeAt?_append_left (wf.defined loc member)]

/-- A well-formed kernel has a result type for every local that it returns. -/
theorem WellFormed.forall₂_resultTypes (wf : kernel.WellFormed) :
    List.Forall₂ (fun loc type => typeAt kernel.body loc = some type) kernel.returns
      kernel.resultTypes := by
  have general (locs : List Local) (part : ∀ loc ∈ locs, loc ∈ kernel.returns) :
      List.Forall₂ (fun loc type => typeAt kernel.body loc = some type) locs
        (locs.filterMap kernel.localType) := by
    induction locs with
    | nil => exact .nil
    | cons loc rest ih =>
      have member := part loc List.mem_cons_self
      obtain ⟨type, found⟩ := wf.typed.exists_type (wf.defined loc member)
      rw [List.filterMap_cons_some ((wf.localType_eq member).trans found)]
      exact .cons found (ih fun loc' inRest => part loc' (List.mem_cons_of_mem _ inRest))
  exact general kernel.returns fun _ member => member

theorem WellFormed.length_resultTypes (wf : kernel.WellFormed) :
    kernel.resultTypes.length = kernel.returns.length :=
  wf.forall₂_resultTypes.length_eq.symm

/-- A result that has a type stands for an expression. -/
theorem WellFormed.exists_returns (wf : kernel.WellFormed) {i : Nat} {type : ElementType}
    (resultAt : kernel.resultTypes[i]? = some type) : ∃ tree, kernel.Returns i type tree := by
  obtain ⟨loc, locAt, typeEq⟩ := exists_left_of_getElem? wf.forall₂_resultTypes resultAt
  obtain ⟨tree, treeEq⟩ := wf.typed.exists_tree (wf.defined loc (List.mem_of_getElem? locAt))
  exact ⟨tree, loc, locAt, typeEq, treeEq⟩

/-- The type of a result is listed among the result types. -/
theorem WellFormed.resultType_of_returns (wf : kernel.WellFormed) {i : Nat} {type : ElementType}
    {tree : Expr Access} (returned : kernel.Returns i type tree) :
    kernel.resultTypes[i]? = some type := by
  obtain ⟨loc, locAt, typeEq, -⟩ := returned
  obtain ⟨type', typeAt', typeEq'⟩ := exists_right_of_getElem? wf.forall₂_resultTypes locAt
  rw [typeAt', ← typeEq', typeEq]

/-- Operations in a result have as many arguments as they take. -/
theorem WellFormed.saturated (wf : kernel.WellFormed) {i : Nat} {type : ElementType}
    {tree : Expr Access} (returned : kernel.Returns i type tree) : tree.Saturated := by
  rcases returned with ⟨loc, -, -, treeEq⟩
  exact wf.typed.saturated treeEq

/-! ## Kernels that only read -/

/-- The kernel that returns its one parameter as read at each of the given offsets. -/
def reading (type : ElementType) (offsets : List Offset) : Kernel where
  params := [type]
  steps := offsets.map (fun offset => ⟨.access ⟨0, offset⟩, some type⟩) ++
    [⟨.ret (List.range offsets.length), none⟩]

theorem built_reading (type : ElementType) (offsets : List Offset) :
    (reading type offsets).Built := by
  have made : Draft.Built
      ⟨[type], offsets.map fun offset => ⟨.access ⟨0, offset⟩, some type⟩⟩ := by
    induction offsets using List.reverseRecOn with
    | nil => exact .new [type]
    | append_singleton offsets offset ih =>
      have added := ih.access ⟨0, offset⟩
      rw [stateAfter_ok (Draft.access_run rfl)] at added
      rwa [List.map_append]
  refine .finish made (Draft.finish_eq_ok made.wellTyped fun loc member => ?_)
  rw [List.length_map]
  exact List.mem_range.mp member

end Kernel

end KernelFusion
