import KernelFusion.Proofs.Expr.Replacement
import KernelFusion.Proofs.Kernel.Typing

/-!
# Splicing is substitution

Splicing copies a kernel into a draft with each access replaced by what the caller adds for it. When the
caller's additions have the type of the parameter and stand for `image read`, the copies of the returned
locals have the types of the originals and stand for the original expressions with `image` put in for the
reads (`splice_yields`). A kernel built from such a program is well formed, and returns what the program
gave (`build_yields`).

Additions may fail in one way, by a sum of offsets out of range, and only where such sums are taken; `Yields`
says what holds of a program, up to such a fault if there can be one.
-/

namespace KernelFusion

/-- What a computation comes to when the only error it may end in is a sum of offsets out of range, and this
only if there are faults at all. -/
def UpToFault {α : Type} (faults : Prop) (post : α → Prop) : Except Error α → Prop
  | .ok a => post a
  | .error e => faults ∧ e = .arithmetic .addition

namespace Draft

variable {α β : Type} {faults : Prop} {draft : Draft} {x : Drafting α} {f : α → Drafting β}

/-- A program on a draft gives a result that satisfies `post`, up to a fault. -/
def Yields (faults : Prop) (x : Drafting α) (draft : Draft) (post : α → Draft → Prop) : Prop :=
  match x.run draft with
  | .ok a draft' => post a draft'
  | .error e _ => faults ∧ e = .arithmetic .addition

theorem Yields.of_run {post : α → Draft → Prop} {a : α} {draft' : Draft}
    (run : x.run draft = .ok a draft') (holds : post a draft') : Yields faults x draft post := by
  rw [Yields, run]
  exact holds

/-- A sequence yields what its second part does after everything that the first may leave. -/
theorem Yields.bind {mid : α → Draft → Prop} {post : β → Draft → Prop}
    (first : Yields faults x draft mid) (next : ∀ a draft', mid a draft' → Yields faults (f a) draft' post) :
    Yields faults (x >>= f) draft post := by
  unfold Yields at first ⊢
  cases run : x.run draft with
  | ok a draft' =>
    rw [run] at first
    rw [run_bind_ok run]
    exact next a draft' first
  | error e draft' =>
    rw [run] at first
    rw [run_bind_error run]
    exact first

theorem Yields.mono {mid post : α → Draft → Prop} (first : Yields faults x draft mid)
    (weaker : ∀ a draft', mid a draft' → post a draft') : Yields faults x draft post := by
  unfold Yields at first ⊢
  cases run : x.run draft with
  | ok a draft' =>
    rw [run] at first
    exact weaker a draft' first
  | error e draft' =>
    rw [run] at first
    exact first

/-- A computation that does not look at the draft as part of a program. -/
theorem yields_lift_bind {post : β → Draft → Prop} {y : Except Error α}
    (holds : UpToFault faults (fun a => Yields faults (f a) draft post) y) :
    Yields faults (liftM y >>= f) draft post := by
  cases y with
  | ok a =>
    rw [Yields, run_lift_ok_bind]
    exact holds
  | error e =>
    rw [Yields, run_lift_error_bind]
    exact holds

/-! ## Additions to a draft -/

/-- An addition to a draft that gives a local of the given type and expression. -/
def Adds (faults : Prop) (x : Drafting Local) (draft : Draft) (type : ElementType) (tree : Expr Access) : Prop :=
  Yields faults x draft fun loc draft' => draft.Extends draft' ∧ draft'.Holds loc type tree

/-- An access of a parameter stands for that access. -/
theorem adds_access (typed : draft.WellTyped) (read : Access) {type : ElementType}
    (found : draft.params[read.param]? = some type) :
    Adds faults (access read) draft type (.read read) :=
  .of_run (access_run found) ⟨extends_snoc typed (.access found), holds_snoc rfl rfl⟩

theorem adds_constant (typed : draft.WellTyped) (literal : Literal) :
    Adds faults (constant literal) draft literal.type (.const literal) :=
  .of_run (constant_run literal) ⟨extends_snoc typed .const, holds_snoc rfl rfl⟩

/-- An operation on locals stands for the operation on what these stand for. -/
theorem adds_compute (typed : draft.WellTyped) {op : Operator} {args : List Local}
    {type : ElementType} {trees : List (Expr Access)} (arity : args.length = op.arity)
    (found : List.Forall₂ (fun arg tree => treeAt? draft.steps arg = some tree) args trees)
    (defined : ∀ arg ∈ args, arg < draft.steps.length)
    (first : args.head?.bind (typeAt draft.steps) = some type) :
    Adds faults (compute op args) draft type (.compute op trees) := by
  refine .of_run (compute_run typed arity defined first)
    ⟨extends_snoc typed (.compute arity defined first), holds_snoc rfl ?_⟩
  rw [tree?_compute, mapM_eq_some_iff.mpr found, Option.map_some]

/-! ## Copies of locals -/

variable {image : Access → Except Error (Expr Access)} {original : List Step}

/-- A local of the draft is a copy of a local of the original steps: it has the same type and stands for
the same expression, up to what `image` puts in for the reads. -/
def Copies (image : Access → Except Error (Expr Access)) (original : List Step) (draft : Draft)
    (loc copy : Local) : Prop :=
  ∃ type tree tree', typeAt original loc = some type ∧ treeAt? original loc = some tree ∧
    tree.bindM image = .ok tree' ∧ draft.Holds copy type tree'

/-- Copies stay copies when the draft grows. -/
theorem Copies.extend {draft' : Draft} {loc copy : Local}
    (copies : Copies image original draft loc copy) (extend : draft.Extends draft') :
    Copies image original draft' loc copy := by
  obtain ⟨type, tree, tree', typeEq, treeEq, replaced, holds⟩ := copies
  exact ⟨type, tree, tree', typeEq, treeEq, replaced, holds.extend extend⟩

theorem Copies.append {more : List Step} {loc copy : Local}
    (copies : Copies image original draft loc copy) :
    Copies image (original ++ more) draft loc copy := by
  obtain ⟨type, tree, tree', typeEq, treeEq, replaced, holds⟩ := copies
  have lt := lt_length_of_typeAt typeEq
  exact ⟨type, tree, tree', by rw [typeAt_append_left lt, typeEq],
    by rw [treeAt?_append_left lt, treeEq], replaced, holds⟩

/-- Every local of the original steps has its copy. -/
def Copied (image : Access → Except Error (Expr Access)) (original : List Step) (draft : Draft)
    (copies : List Local) : Prop :=
  copies.length = original.length ∧
    ∀ (loc : Nat) (copy : Local), copies[loc]? = some copy → Copies image original draft loc copy

theorem Copied.concat {draft' : Draft} {copies : List Local} {step : Step} {copy : Local}
    (copied : Copied image original draft copies) (extend : draft.Extends draft')
    (new : Copies image (original ++ [step]) draft' original.length copy) :
    Copied image (original ++ [step]) draft' (copies ++ [copy]) := by
  refine ⟨by simp [copied.1], fun loc copy' found => ?_⟩
  rcases Nat.lt_or_ge loc copies.length with lt | ge
  · rw [List.getElem?_append_left lt] at found
    exact ((copied.2 loc copy' found).extend extend).append
  · rw [List.getElem?_append_right ge, List.getElem?_singleton] at found
    split at found
    case isTrue last =>
      cases found
      have atEnd : loc = original.length := by
        have length := copied.1
        omega
      rwa [atEnd]
    case isFalse => cases found

/-- The copies of locals that are there are found. -/
theorem Copied.copiesOf {copies locs : List Local} (copied : Copied image original draft copies)
    (defined : ∀ loc ∈ locs, loc < original.length) :
    ∃ locs', Draft.copiesOf copies locs = .ok locs' ∧
      List.Forall₂ (Copies image original draft) locs locs' := by
  induction locs with
  | nil => exact ⟨[], rfl, .nil⟩
  | cons loc rest ih =>
    obtain ⟨rest', rest_ok, related⟩ := ih fun loc' member =>
      defined loc' (List.mem_cons_of_mem _ member)
    have lt : loc < copies.length := by
      rw [copied.1]
      exact defined loc List.mem_cons_self
    have found := List.getElem?_eq_getElem lt
    refine ⟨copies[loc] :: rest', ?_, .cons (copied.2 loc _ found) related⟩
    rw [Draft.copiesOf] at rest_ok ⊢
    rw [List.mapM_cons, found, orRefuse_some, ok_bind, rest_ok, ok_bind, pure_eq_ok]

/-- The arguments of a computation and their copies stand for expressions that `image` relates. -/
theorem trees_of_copies {args args' : List Local}
    (copies : List.Forall₂ (Copies image original draft) args args') :
    ∃ trees trees', List.Forall₂ (fun arg tree => treeAt? original arg = some tree) args trees ∧
      List.Forall₂ (fun arg tree => treeAt? draft.steps arg = some tree) args' trees' ∧
      Expr.bindArgs image trees = .ok trees' := by
  induction copies with
  | nil => exact ⟨[], [], .nil, .nil, rfl⟩
  | cons head _ ih =>
    obtain ⟨trees, trees', found, found', replaced⟩ := ih
    obtain ⟨type, tree, tree', -, treeEq, headReplaced, holds⟩ := head
    refine ⟨tree :: trees, tree' :: trees', .cons treeEq found, .cons holds.2 found', ?_⟩
    rw [Expr.bindArgs, headReplaced, ok_bind, replaced, ok_bind, pure_eq_ok]

/-! ## Splicing -/

/-- What a caller adds for an access has the type of the parameter and stands for `image`. -/
def Renders (faults : Prop) (onAccess : Access → Drafting Local) (image : Access → Except Error (Expr Access))
    (params target : List ElementType) : Prop :=
  ∀ (draft : Draft) (read : Access) (type : ElementType), draft.WellTyped →
    draft.params = target → params[read.param]? = some type →
    Yields faults (onAccess read) draft fun loc draft' =>
      draft.Extends draft' ∧ ∃ tree, image read = .ok tree ∧ draft'.Holds loc type tree

variable {onAccess : Access → Drafting Local} {params : List ElementType}

/-- An operation is copied by the operation on the copies of its arguments. -/
theorem copies_compute {op : Operator} {args args' : List Local} {type : ElementType}
    (typed : draft.WellTyped) (arity : args.length = op.arity)
    (first : args.head?.bind (typeAt original) = some type)
    (copies : List.Forall₂ (Copies image original draft) args args') :
    Yields faults (compute op args') draft fun loc draft' => draft.Extends draft' ∧
      Copies image (original ++ [⟨.compute op args, some type⟩]) draft' original.length loc := by
  obtain ⟨trees, trees', found, found', replaced⟩ := trees_of_copies copies
  have arity' : args'.length = op.arity := copies.length_eq.symm.trans arity
  have defined' : ∀ arg ∈ args', arg < draft.steps.length := by
    intro arg member
    obtain ⟨_, -, _, _, _, -, -, -, holds⟩ := exists_left_of_mem copies member
    exact lt_length_of_typeAt holds.1
  have first' : args'.head?.bind (typeAt draft.steps) = some type := by
    cases copies with
    | nil => cases first
    | cons head _ =>
      obtain ⟨type', _, _, typeEq, -, -, holds⟩ := head
      rw [List.head?_cons, Option.bind_some] at first ⊢
      rw [← first, typeEq, holds.1]
  refine (adds_compute typed arity' found' defined' first').mono fun loc draft' ⟨extend, holds⟩ =>
    ⟨extend, type, .compute op trees, .compute op trees', ?_, ?_, ?_, holds⟩
  · simp [typeAt]
  · rw [treeAt?_concat, tree?_compute, mapM_eq_some_iff.mpr found, Option.map_some]
  · rw [Expr.bindM, replaced, ok_bind, pure_eq_ok]

theorem copies_leaf {step : Step} {type : ElementType} {tree tree' : Expr Access} {loc : Local}
    (typeEq : step.type = some type) (treeEq : step.inst.tree? (treesOf original) = some tree)
    (replaced : tree.bindM image = .ok tree') (holds : draft.Holds loc type tree') :
    Copies image (original ++ [step]) draft original.length loc :=
  ⟨type, tree, tree', by simp [typeAt, typeEq], by rw [treeAt?_concat, treeEq], replaced, holds⟩

/-- The remaining steps of a kernel are copied behind the copies of the first ones. -/
theorem spliceSteps_yields (renders : Renders faults onAccess image params draft.params)
    {rest : List Step} {operands copies : List Local} (typed : draft.WellTyped)
    (source : Typed params (original ++ rest))
    (defined : ∀ loc ∈ operands, loc < (original ++ rest).length)
    (copied : Copied image original draft copies) :
    Yields faults (spliceSteps onAccess copies (rest ++ [⟨.ret operands, none⟩])) draft
      fun locs draft' => draft.Extends draft' ∧
        List.Forall₂ (Copies image (original ++ rest) draft') operands locs := by
  induction rest generalizing original draft copies with
  | nil =>
    rw [List.append_nil] at defined ⊢
    obtain ⟨locs, found, related⟩ := copied.copiesOf defined
    rw [List.nil_append, spliceSteps]
    dsimp only
    rw [found]
    exact .of_run (run_lift_ok locs) ⟨.refl typed, related⟩
  | cons step rest ih =>
    rw [List.append_cons original step rest] at source defined
    -- Whatever the step becomes, the others follow it in the extended draft.
    have follow (loc : Local) (draft' : Draft) (extend : draft.Extends draft')
        (new : Copies image (original ++ [step]) draft' original.length loc) :
        Yields faults (spliceSteps onAccess (copies ++ [loc]) (rest ++ [⟨.ret operands, none⟩])) draft'
          fun locs draft'' => draft.Extends draft'' ∧
            List.Forall₂ (Copies image (original ++ step :: rest) draft'') operands locs := by
      rw [List.append_cons original step rest]
      refine (ih (extend.params ▸ renders) extend.typed source defined
        (copied.concat extend new)).mono ?_
      exact fun locs draft'' later => ⟨extend.trans later.1, later.2⟩
    rw [List.cons_append, spliceSteps]
    cases source.left.next with
    | @access read type found =>
      refine (renders draft read type typed rfl found).bind ?_
      rintro loc draft' ⟨extend, tree, imageEq, holds⟩
      exact follow loc draft' extend (copies_leaf rfl rfl (by rwa [Expr.bindM]) holds)
    | @const literal =>
      refine (adds_constant typed literal).bind ?_
      rintro loc draft' ⟨extend, holds⟩
      exact follow loc draft' extend (copies_leaf rfl rfl (by rw [Expr.bindM]) holds)
    | @compute op args type arity argsDefined first =>
      obtain ⟨args', found, related⟩ := copied.copiesOf argsDefined
      dsimp only
      rw [found]
      have fetched : Yields faults (liftM (Except.ok args' : Except Error (List Local))) draft
          fun locs draft' => locs = args' ∧ draft' = draft := .of_run (run_lift_ok args') ⟨rfl, rfl⟩
      refine fetched.bind fun _ _ same => ?_
      rw [same.1, same.2]
      exact (copies_compute typed arity first related).bind
        fun loc draft' added => follow loc draft' added.1 added.2

/-- The copies of the returned locals, at the end of a splice. -/
theorem splice_yields {kernel : Kernel} (wf : kernel.WellFormed)
    (renders : Renders faults onAccess image kernel.params draft.params) (typed : draft.WellTyped) :
    Yields faults (splice kernel onAccess) draft fun locs draft' => draft.Extends draft' ∧
      List.Forall₂ (Copies image kernel.body draft') kernel.returns locs := by
  have start : Copied image [] draft [] := ⟨rfl, fun loc copy found => by cases found⟩
  have copied := spliceSteps_yields renders typed wf.typed wf.defined start
  rw [splice, wf.shape]
  exact copied

/-- Copies are locals that the draft has. -/
theorem lt_length_of_copies {locs copies : List Local}
    (related : List.Forall₂ (Copies image original draft) locs copies) :
    ∀ copy ∈ copies, copy < draft.steps.length := by
  intro copy member
  obtain ⟨_, -, _, _, _, -, -, -, holds⟩ := exists_left_of_mem related member
  exact lt_length_of_typeAt holds.1

end Draft

namespace Kernel

/-- The steps of a kernel without the return, as a draft. -/
def draft (kernel : Kernel) : Draft := ⟨kernel.params, kernel.body⟩

/-- A kernel built by a program is well formed and returns what the program gives. -/
theorem build_upToFault {faults : Prop} {params : List ElementType} {program : Drafting (List Local)}
    {post : List Local → Draft → Prop}
    (yields : Draft.Yields faults program { params } fun locs draft =>
      Draft.Extends { params } draft ∧ (∀ loc ∈ locs, loc < draft.steps.length) ∧ post locs draft) :
    UpToFault faults (fun kernel => kernel.WellFormed ∧ kernel.params = params ∧
      post kernel.returns kernel.draft) (build params program) := by
  unfold Draft.Yields at yields
  unfold build
  cases run : program.run { params } with
  | error e draft =>
    rw [run] at yields
    exact yields
  | ok locs draft =>
    rw [run] at yields
    obtain ⟨extend, defined, holds⟩ := yields
    dsimp only
    rw [Draft.finish_eq_ok extend.typed defined]
    refine ⟨wellFormed_mk extend.typed defined, extend.params, ?_⟩
    simpa [Kernel.draft, body, returns] using holds

/-- The results of one kernel are those of another up to what `image` puts in for the reads. -/
def Renders (image : Access → Except Error (Expr Access)) (kernel : Kernel) (returns : List Local)
    (draft : Draft) : Prop :=
  List.Forall₂ (Draft.Copies image kernel.body draft) kernel.returns returns

/-- Each result is rendered by the one at its place. -/
theorem Renders.result {image : Access → Except Error (Expr Access)} {kernel : Kernel}
    {returns : List Local} {draft : Draft}
    (renders : Renders image kernel returns draft) {i : Nat} {type : ElementType}
    {tree : Expr Access} (returned : kernel.Returns i type tree) :
    ∃ copy tree', returns[i]? = some copy ∧ tree.bindM image = .ok tree' ∧
      draft.Holds copy type tree' := by
  obtain ⟨loc, locAt, typeEq, treeEq⟩ := returned
  obtain ⟨copy, copyAt, type', tree', tree'', typeEq', treeEq', replaced, holds⟩ :=
    exists_right_of_getElem? renders locAt
  rw [typeEq, Option.some.injEq] at typeEq'
  rw [treeEq, Option.some.injEq] at treeEq'
  rw [typeEq', treeEq']
  exact ⟨copy, tree'', copyAt, replaced, holds⟩

/-- A kernel whose results render those of another. -/
theorem Renders.returns {image : Access → Except Error (Expr Access)} {kernel kernel' : Kernel}
    (renders : Renders image kernel kernel'.returns kernel'.draft) {i : Nat}
    {type : ElementType} {tree : Expr Access} (returned : kernel.Returns i type tree) :
    ∃ tree', tree.bindM image = .ok tree' ∧ kernel'.Returns i type tree' := by
  obtain ⟨copy, tree', copyAt, replaced, holds⟩ := renders.result returned
  exact ⟨tree', replaced, copy, copyAt, holds.1, holds.2⟩

end Kernel

end KernelFusion
