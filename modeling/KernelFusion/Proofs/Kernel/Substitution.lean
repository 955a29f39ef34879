import KernelFusion.Proofs.Kernel.Accesses
import KernelFusion.Proofs.Kernel.Splicing

/-!
# Splicing for a caller with a state

`Draft.splice` asks its caller what each access becomes. The caller may add any number of instructions before it
answers, and it may keep a state of its own, so that it answers differently when the same access comes again; what
a local of the kernel becomes depends on the instruction and not on the access alone. `Kernel.numbered` tells
equal accesses apart: in it, the access that comes `n`-th reads the parameter `n`.

A caller is only ever asked in states that its earlier answers have led to (`Draft.Called`). When it answers there
with a local of the right type (`Draft.Answers`), the splice succeeds, has asked once for every access, and each
local it returns stands for the original expression with the answers in place of the accesses
(`Draft.splice_substitutes`).
-/

namespace KernelFusion

/-! ## Telling accesses apart -/

/-- A step whose access, if it is one, is to the parameter of the given number. -/
def Step.numbered (n : Nat) (step : Step) : Step :=
  match step.inst with
  | .access read => { step with inst := .access { read with param := n } }
  | _ => step

/-- Steps in which each access is to a parameter of its own, numbered from `n`. -/
def numberedFrom (n : Nat) : List Step → List Step
  | [] => []
  | step :: rest => step.numbered n :: numberedFrom (n + (accessesOf [step]).length) rest

/-- The kernel in which each access is to a parameter of its own, numbered in order. -/
def Kernel.numbered (kernel : Kernel) : Kernel := { kernel with steps := numberedFrom 0 kernel.steps }

/-- What stands for a numbered access, when the accesses become the given expressions. -/
def inPlaceOf (trees : List (Expr Access)) (read : Access) : Except Error (Expr Access) :=
  orRefuse trees[read.param]? (.accessUnknownParameter read.param trees.length)

variable {params : List ElementType} {steps original : List Step} {step : Step} {loc : Local}

theorem numberedFrom_concat (n : Nat) (steps : List Step) (step : Step) :
    numberedFrom n (steps ++ [step]) =
      numberedFrom n steps ++ [step.numbered (n + (accessesOf steps).length)] := by
  induction steps generalizing n with
  | nil => rfl
  | cons first rest ih =>
    have length : (accessesOf (first :: rest)).length =
        (accessesOf [first]).length + (accessesOf rest).length := by
      rw [← List.length_append, ← accessesOf_append, List.singleton_append]
    rw [List.cons_append, numberedFrom, ih, length, Nat.add_assoc]
    rfl

theorem length_numberedFrom (n : Nat) (steps : List Step) :
    (numberedFrom n steps).length = steps.length := by
  induction steps generalizing n with
  | nil => rfl
  | cons first rest ih => rw [numberedFrom, List.length_cons, ih, List.length_cons]

theorem Step.numbered_type (n : Nat) (step : Step) : (step.numbered n).type = step.type := by
  rcases step with ⟨inst, type⟩
  cases inst <;> rfl

/-- Numbering the accesses leaves the types alone. -/
theorem typeAt_numberedFrom (n : Nat) (steps : List Step) (loc : Local) :
    typeAt (numberedFrom n steps) loc = typeAt steps loc := by
  induction steps generalizing n loc with
  | nil => rfl
  | cons first rest ih =>
    cases loc with
    | zero => exact Step.numbered_type n first
    | succ loc => exact ih _ loc

/-! ## Answers that are there already stay what they are -/

/-- What stands in place of a numbered access does not change when more expressions come behind. -/
theorem inPlaceOf_append {trees : List (Expr Access)} {read : Access} {out : Expr Access}
    (more : List (Expr Access)) (found : inPlaceOf trees read = .ok out) :
    inPlaceOf (trees ++ more) read = .ok out := by
  rw [inPlaceOf, orRefuse_eq_ok_iff] at found ⊢
  rw [List.getElem?_append_left (List.getElem?_eq_some_iff.mp found).1, found]

theorem inPlaceOf_last (trees : List (Expr Access)) (tree : Expr Access) (offset : Offset) :
    inPlaceOf (trees ++ [tree]) ⟨trees.length, offset⟩ = .ok tree := by
  rw [inPlaceOf, orRefuse_eq_ok_iff, List.getElem?_append_right (Nat.le_refl _), Nat.sub_self,
    List.getElem?_cons_zero]

namespace Draft

variable {draft draft' : Draft} {trees : List (Expr Access)} {copies : List Local}

/-- Copies stay copies when the caller answers more accesses. -/
theorem Copies.answer {copy : Local} (copies : Copies (inPlaceOf trees) original draft loc copy)
    (more : List (Expr Access)) : Copies (inPlaceOf (trees ++ more)) original draft loc copy := by
  rcases copies with ⟨type, tree, tree', typeEq, treeEq, replaced, holds⟩
  have replaced' := Expr.bindM_mono (fun read out => inPlaceOf_append more) replaced
  exact ⟨type, tree, tree', typeEq, treeEq, replaced', holds⟩

theorem Copied.answer (copied : Copied (inPlaceOf trees) original draft copies)
    (more : List (Expr Access)) : Copied (inPlaceOf (trees ++ more)) original draft copies :=
  ⟨copied.1, fun loc copy found => (copied.2 loc copy found).answer more⟩

/-- Numbering the accesses and putting them back in place changes nothing. -/
theorem copies_numbered (typed : Typed params steps) (lt : loc < steps.length) :
    Copies (inPlaceOf ((accessesOf steps).map .read)) (numberedFrom 0 steps) ⟨params, steps⟩ loc loc := by
  induction steps using List.reverseRecOn generalizing loc with
  | nil => cases lt
  | append_singleton steps step ih =>
    have extend : Extends ⟨params, steps⟩ ⟨params, steps ++ [step]⟩ := extends_snoc typed.left typed.next
    rw [numberedFrom_concat, Nat.zero_add, accessesOf_append, List.map_append]
    rw [List.length_append, List.length_singleton] at lt
    rcases Nat.lt_succ_iff_lt_or_eq.mp lt with before | rfl
    · exact (((ih typed.left before).answer _).extend extend).append
    -- The new step makes of its arguments what it did before, as these come back in place.
    have last : Copies
        (inPlaceOf ((accessesOf steps).map .read ++ (accessesOf [step]).map .read))
        (numberedFrom 0 steps ++ [step.numbered (accessesOf steps).length]) ⟨params, steps ++ [step]⟩
        (numberedFrom 0 steps).length steps.length := by
      cases typed.next with
      | @access read type found =>
        have replaced : (Expr.read ⟨(accessesOf steps).length, read.offset⟩).bindM
            (inPlaceOf ((accessesOf steps).map .read ++ [.read read])) = .ok (.read read) := by
          rw [Expr.bindM, ← List.length_map (f := Expr.read), inPlaceOf_last]
        have holds : (snoc ⟨params, steps⟩ ⟨.access read, some type⟩).Holds steps.length type
            (.read read) := holds_snoc rfl rfl
        exact copies_leaf rfl rfl replaced holds
      | @const literal =>
        have holds : (snoc ⟨params, steps⟩ ⟨.const literal, some literal.type⟩).Holds steps.length
            literal.type (.const literal) := holds_snoc rfl rfl
        exact copies_leaf rfl rfl (by rw [Expr.bindM]) holds
      | @compute op args type arity defined first =>
        have related := List.forall₂_same.mpr fun arg member => ih typed.left (defined arg member)
        have first' : args.head?.bind (typeAt (numberedFrom 0 steps)) = some type := by
          rwa [funext (typeAt_numberedFrom 0 steps)]
        have earlier : WellTyped ⟨params, steps⟩ := typed.left
        have computed : Yields False (compute op args) ⟨params, steps⟩ _ :=
          copies_compute earlier arity first' related
        rw [Yields, compute_run earlier arity defined first] at computed
        exact computed.2.answer []
    rwa [length_numberedFrom] at last

/-! ## Growing a draft -/

/-- A draft grows when instructions are added to it one by one; an addition that is refused changes nothing. -/
inductive Grows (draft : Draft) : Draft → Prop
  | refl : Grows draft draft
  | access {draft' : Draft} (read : Access) :
    Grows draft draft' → Grows draft (stateAfter (access read) draft')
  | constant {draft' : Draft} (literal : Literal) :
    Grows draft draft' → Grows draft (stateAfter (constant literal) draft')
  | compute {draft' : Draft} (op : Operator) (args : List Local) :
    Grows draft draft' → Grows draft (stateAfter (compute op args) draft')

theorem Grows.trans {draft'' : Draft} (first : draft.Grows draft') (second : draft'.Grows draft'') :
    draft.Grows draft'' := by
  induction second with
  | refl => exact first
  | access read _ ih => exact ih.access read
  | constant literal _ ih => exact ih.constant literal
  | compute op args _ ih => exact ih.compute op args

/-- A draft that grows keeps its parameters and instructions, and stays well typed. -/
theorem Grows.extends (grows : draft.Grows draft') (typed : draft.WellTyped) :
    draft.Extends draft' := by
  induction grows with
  | refl => exact .refl typed
  | access read _ ih => exact ih.trans (extends_access ih.typed read)
  | constant literal _ ih => exact ih.trans (extends_constant ih.typed literal)
  | compute op args _ ih => exact ih.trans (extends_compute ih.typed op args)

/-- A splice is a growth when what the caller does is, so one splice may be made in answer to another. -/
theorem Grows.splice {σ : Type} {s : σ} {onAccess : Access → StateT σ Drafting Local}
    (adds : ∀ read s draft', draft.Grows draft' →
      draft.Grows (stateAfter ((onAccess read).run s) draft'))
    (kernel : Kernel) : draft.Grows (stateAfter ((splice kernel onAccess).run s) draft) :=
  stateAfter_splice (fun literal _ grows => grows.constant literal)
    (fun op args _ grows => grows.compute op args) adds kernel .refl

/-! ## What is asked of the caller -/

variable {σ : Type} {onAccess : Access → StateT σ Drafting Local} {s s' : σ} {kernel : Kernel}

/-- A caller has been asked for some accesses, one after the other, and has given the answers; this has led to its
state and to the draft. Between two questions the draft may grow. -/
inductive Called (onAccess : Access → StateT σ Drafting Local) (s : σ) (draft : Draft) :
    List Access → List Local → σ → Draft → Prop
  | start : Called onAccess s draft [] [] s draft
  | grow {reads : List Access} {answers : List Local} {s' : σ} {draft' draft'' : Draft} :
    Called onAccess s draft reads answers s' draft' → draft'.Grows draft'' →
    Called onAccess s draft reads answers s' draft''
  | ask {reads : List Access} {answers : List Local} {s' s'' : σ} {draft' draft'' : Draft}
    {read : Access} {loc : Local} :
    Called onAccess s draft reads answers s' draft' →
    ((onAccess read).run s').run draft' = .ok (loc, s'') draft'' →
    Called onAccess s draft (reads ++ [read]) (answers ++ [loc]) s'' draft''

/-- Whenever the caller is asked for an access of the kernel, after the accesses before it, it only adds
instructions, and answers with a local of the type of the parameter. -/
def Answers (onAccess : Access → StateT σ Drafting Local) (kernel : Kernel) (s : σ) (draft : Draft) :
    Prop :=
  ∀ earlier read later answers s' draft', kernel.accesses = earlier ++ read :: later →
    Called onAccess s draft earlier answers s' draft' →
    ∃ loc s'' draft'', ((onAccess read).run s').run draft' = .ok (loc, s'') draft'' ∧
      draft'.Grows draft'' ∧
      ∀ type, kernel.params[read.param]? = some type → typeAt draft''.steps loc = some type

/-! ## The invariant -/

theorem run_run_bind {α β : Type} {x : StateT σ Drafting α} {f : α → StateT σ Drafting β} {a : α}
    (ran : (x.run s).run draft = .ok (a, s') draft') :
    ((x >>= f).run s).run draft = ((f a).run s').run draft' :=
  run_bind_ok ran

theorem run_run_lift {α : Type} {x : Drafting α} {a : α} (ran : x.run draft = .ok a draft') :
    ((liftM x : StateT σ Drafting α).run s).run draft = .ok (a, s) draft' :=
  run_bind_ok ran

/-- Without faults, what yields succeeds. -/
theorem exists_run_of_yields {α : Type} {x : Drafting α} {post : α → Draft → Prop}
    (yields : Yields False x draft post) : ∃ a draft', x.run draft = .ok a draft' ∧ post a draft' := by
  unfold Yields at yields
  cases ran : x.run draft with
  | ok a draft' =>
    rw [ran] at yields
    exact ⟨a, draft', rfl, yields⟩
  | error e draft' =>
    rw [ran] at yields
    exact yields.1.elim

/-- There is one answer for each access. -/
theorem Called.length_eq {reads : List Access} {answers : List Local}
    (called : Called onAccess s draft reads answers s' draft') : reads.length = answers.length := by
  induction called with
  | start => rfl
  | grow _ _ ih => exact ih
  | ask _ _ ih => rw [List.length_append, List.length_append, ih, List.length_singleton, List.length_singleton]

/-- What holds when some steps have been copied: the caller has been asked for their accesses, and with what it has
answered in place of the accesses the copies stand for what the originals do. -/
structure Spliced (onAccess : Access → StateT σ Drafting Local) (s : σ) (draft : Draft)
    (original : List Step) (copies answers : List Local) (trees : List (Expr Access)) (s' : σ)
    (draft' : Draft) : Prop where
  grows : draft.Grows draft'
  typed : draft'.WellTyped
  called : Called onAccess s draft (accessesOf original) answers s' draft'
  answered : List.Forall₂ (fun loc tree => ∃ type, draft'.Holds loc type tree) answers trees
  copied : Copied (inPlaceOf trees) (numberedFrom 0 original) draft' copies

section Step

variable {answers : List Local} (spliced : Spliced onAccess s draft original copies answers trees s' draft')

include spliced

theorem Spliced.length_eq : (accessesOf original).length = trees.length :=
  spliced.called.length_eq.trans spliced.answered.length_eq

/-- The answers stand for their expressions in larger drafts as well. -/
theorem Spliced.answered_extend {draft'' : Draft} (extend : draft'.Extends draft'') :
    List.Forall₂ (fun loc tree => ∃ type, draft''.Holds loc type tree) answers trees := by
  refine spliced.answered.imp fun loc tree stands => ?_
  rcases stands with ⟨type, holds⟩
  exact ⟨type, holds.extend extend⟩

/-- Adding a copy that the caller is not asked for. -/
theorem Spliced.add {draft'' : Draft} (grows : draft'.Grows draft'')
    (quiet : accessesOf (original ++ [step]) = accessesOf original)
    (new : Copies (inPlaceOf trees)
      (numberedFrom 0 original ++ [step.numbered (0 + (accessesOf original).length)]) draft''
      (numberedFrom 0 original).length loc) :
    Spliced onAccess s draft (original ++ [step]) (copies ++ [loc]) answers trees s' draft'' := by
  have extend := grows.extends spliced.typed
  refine ⟨spliced.grows.trans grows, extend.typed, ?_, ?_, ?_⟩
  · rw [quiet]
    exact spliced.called.grow grows
  · exact spliced.answered_extend extend
  · rw [numberedFrom_concat]
    exact spliced.copied.concat extend new

/-- Adding the answer of the caller for an access. -/
theorem Spliced.ask {read : Access} {type : ElementType} {s'' : σ} {draft'' : Draft}
    (ran : ((onAccess read).run s').run draft' = .ok (loc, s'') draft'')
    (grows : draft'.Grows draft'') (typeEq : typeAt draft''.steps loc = some type) :
    ∃ tree, Spliced onAccess s draft (original ++ [⟨.access read, some type⟩]) (copies ++ [loc])
      (answers ++ [loc]) (trees ++ [tree]) s'' draft'' := by
  have extend := grows.extends spliced.typed
  rcases Typed.exists_tree extend.typed (lt_length_of_typeAt typeEq) with ⟨tree, treeEq⟩
  have holds : draft''.Holds loc type tree := ⟨typeEq, treeEq⟩
  have replaced : (Expr.read ⟨0 + (accessesOf original).length, read.offset⟩).bindM
      (inPlaceOf (trees ++ [tree])) = .ok tree := by
    rw [Expr.bindM, Nat.zero_add, spliced.length_eq, inPlaceOf_last]
  refine ⟨tree, spliced.grows.trans grows, extend.typed, ?_, ?_, ?_⟩
  · rw [accessesOf_concat_access]
    exact spliced.called.ask ran
  · exact List.rel_append (spliced.answered_extend extend) (.cons ⟨type, holds⟩ .nil)
  · rw [numberedFrom_concat]
    exact (spliced.copied.answer [tree]).concat extend (copies_leaf rfl rfl replaced holds)

/-- The copy of one step, whatever follows it. -/
theorem Spliced.next (typed : StepTyped params original step)
    (answer : ∀ read type, step = ⟨.access read, some type⟩ →
      ∃ loc s'' draft'', ((onAccess read).run s').run draft' = .ok (loc, s'') draft'' ∧
        draft'.Grows draft'' ∧ typeAt draft''.steps loc = some type) (rest : List Step) :
    ∃ loc answers' trees' s'' draft'',
      ((spliceSteps onAccess copies (step :: rest)).run s').run draft' =
        ((spliceSteps onAccess (copies ++ [loc]) rest).run s'').run draft'' ∧
      Spliced onAccess s draft (original ++ [step]) (copies ++ [loc]) answers' trees' s'' draft'' := by
  rw [spliceSteps]
  cases typed with
  | @access read type found =>
    rcases answer read type rfl with ⟨loc, s'', draft'', ran, grows, typeEq⟩
    rcases spliced.ask ran grows typeEq with ⟨tree, later⟩
    exact ⟨loc, _, _, s'', draft'', run_run_bind ran, later⟩
  | @const literal =>
    have ran : (constant literal).run draft' = .ok draft'.steps.length
        (draft'.snoc ⟨.const literal, some literal.type⟩) := constant_run literal
    have grows : draft'.Grows (stateAfter (constant literal) draft') := Grows.refl.constant literal
    rw [stateAfter_ok ran] at grows
    exact ⟨_, answers, trees, s', _, run_run_bind (run_run_lift ran),
      spliced.add grows (accessesOf_concat_const original literal _)
        (copies_leaf rfl rfl (by rw [Expr.bindM]) (holds_snoc rfl rfl))⟩
  | @compute op args type arity defined first =>
    -- The arguments are looked up among the copies, wherever the caller's additions have put these.
    rw [← length_numberedFrom 0] at defined
    rcases spliced.copied.copiesOf defined with ⟨args', found, related⟩
    have first' : args.head?.bind (typeAt (numberedFrom 0 original)) = some type := by
      rwa [funext (typeAt_numberedFrom 0 original)]
    have computed : Yields False (compute op args') draft' _ :=
      copies_compute spliced.typed arity first' related
    rcases exists_run_of_yields computed with ⟨loc, draft'', ran, -, new⟩
    have grows : draft'.Grows (stateAfter (compute op args') draft') := Grows.refl.compute op args'
    rw [stateAfter_ok ran] at grows
    have fetched : (liftM (copiesOf copies args) : Drafting (List Local)).run draft' =
        .ok args' draft' := by rw [found, run_lift_ok]
    exact ⟨loc, answers, trees, s', draft'',
      (run_run_bind (run_run_lift fetched)).trans (run_run_bind (run_run_lift ran)),
      spliced.add grows (accessesOf_concat_compute original op args _) new⟩

end Step

/-- The copies of the remaining steps. -/
theorem Spliced.run (wf : kernel.WellFormed) (obliging : Answers onAccess kernel s draft)
    {rest : List Step} (split : original ++ rest = kernel.body) {answers : List Local}
    (spliced : Spliced onAccess s draft original copies answers trees s' draft') :
    ∃ locs copies' answers' trees' s'' draft'',
      ((spliceSteps onAccess copies (rest ++ [⟨.ret kernel.returns, none⟩])).run s').run draft' =
        .ok (locs, s'') draft'' ∧
      Spliced onAccess s draft kernel.body copies' answers' trees' s'' draft'' ∧
      List.Forall₂ (Copies (inPlaceOf trees') (numberedFrom 0 kernel.body) draft'') kernel.returns locs := by
  -- Each step hands its copy, the state of the caller and the draft on to the next.
  induction rest generalizing original copies answers trees s' draft' with
  | nil =>
    rw [List.append_nil] at split
    subst split
    have defined : ∀ loc ∈ kernel.returns, loc < (numberedFrom 0 kernel.body).length := by
      rw [length_numberedFrom]
      exact wf.defined
    rcases spliced.copied.copiesOf defined with ⟨locs, found, related⟩
    have fetched : (liftM (copiesOf copies kernel.returns) : Drafting (List Local)).run draft' =
        .ok locs draft' := by rw [found, run_lift_ok]
    exact ⟨locs, copies, answers, trees, s', draft', run_run_lift fetched, spliced, related⟩
  | cons step rest ih =>
    rw [List.append_cons] at split
    have typed : StepTyped kernel.params original step := by
      have source := wf.typed
      rw [← split] at source
      exact source.left.next
    have answer : ∀ read type, step = ⟨.access read, some type⟩ →
        ∃ loc s'' draft'', ((onAccess read).run s').run draft' = .ok (loc, s'') draft'' ∧
          draft'.Grows draft'' ∧ typeAt draft''.steps loc = some type := by
      intro read type isAccess
      subst isAccess
      have reads : kernel.accesses = accessesOf original ++ read :: accessesOf rest := by
        rw [wf.accesses_eq, ← split, accessesOf_append, accessesOf_concat_access, List.append_assoc]
        rfl
      rcases obliging _ _ _ _ _ _ reads spliced.called with ⟨loc, s'', draft'', ran, grows, typeEq⟩
      cases typed with
      | access found => exact ⟨loc, s'', draft'', ran, grows, typeEq type found⟩
    rcases spliced.next typed answer (rest ++ [⟨.ret kernel.returns, none⟩]) with
      ⟨loc, answers', trees', s'', draft'', ran, later⟩
    rcases ih split later with ⟨locs, copies', answers'', trees'', s₃, draft₃, ran', whole⟩
    exact ⟨locs, copies', answers'', trees'', s₃, draft₃, ran.trans ran', whole⟩

/-! ## The whole splice -/

/-- A local of a kernel stands for `out` when its accesses become the given expressions, one for each access
instruction in order. -/
def Stands (kernel : Kernel) (trees : List (Expr Access)) (loc : Local) (out : Expr Access) : Prop :=
  ∃ tree original, kernel.numbered.tree? loc = some tree ∧ kernel.tree? loc = some original ∧
    tree.bindM (inPlaceOf (kernel.accesses.map .read)) = .ok original ∧
    tree.bindM (inPlaceOf trees) = .ok out

/-- What a splice leaves. The draft has grown, and the caller was asked once for every access of the kernel; the
returned locals stand for what those of the kernel do, with its answers in place of the accesses. -/
structure Substitutes (onAccess : Access → StateT σ Drafting Local) (kernel : Kernel) (s : σ)
    (draft : Draft) (locs answers : List Local) (s' : σ) (draft' : Draft) : Prop where
  grows : draft.Grows draft'
  params : draft'.params = draft.params
  steps : draft.steps <+: draft'.steps
  called : Called onAccess s draft kernel.accesses answers s' draft'
  length : locs.length = kernel.returns.length
  returned : ∃ trees,
    List.Forall₂ (fun loc tree => treeAt? draft'.steps loc = some tree) answers trees ∧
    ∀ (i : Nat) (loc : Local), kernel.returns[i]? = some loc → ∃ copy type tree,
      locs[i]? = some copy ∧ kernel.resultTypes[i]? = some type ∧
      typeAt draft'.steps copy = some type ∧ treeAt? draft'.steps copy = some tree ∧
      Stands kernel trees loc tree

/-- A copy of a returned local of the numbered kernel stands for what the local does with the answers in place of the
accesses. -/
theorem stands_of_copies (wf : kernel.WellFormed) {copy : Local} (returned : loc ∈ kernel.returns)
    (copies : Copies (inPlaceOf trees) (numberedFrom 0 kernel.body) draft loc copy) :
    ∃ type tree, typeAt kernel.body loc = some type ∧ draft.Holds copy type tree ∧
      Stands kernel trees loc tree := by
  have lt := wf.defined loc returned
  have numbered : kernel.numbered.tree? loc = treeAt? (numberedFrom 0 kernel.body) loc := by
    have all : kernel.numbered.tree? loc = treeAt? (numberedFrom 0 kernel.steps) loc := rfl
    rw [all, wf.shape, numberedFrom_concat, treeAt?_append_left (by rwa [length_numberedFrom])]
  rcases copies with ⟨type, tree, tree', typeEq, treeEq, replaced, holds⟩
  rcases copies_numbered wf.typed lt with ⟨_, tree₁, original, -, treeEq₁, replaced₁, holds₁⟩
  rw [treeEq, Option.some.injEq] at treeEq₁
  rw [← treeEq₁, ← wf.accesses_eq] at replaced₁
  rw [typeAt_numberedFrom] at typeEq
  exact ⟨type, tree', typeEq, holds, tree, original, numbered.trans treeEq,
    (wf.tree?_eq returned).trans holds₁.2, replaced₁, replaced⟩

/-- Splicing is substitution, for a caller that keeps a state and adds what it likes before it answers. -/
theorem splice_substitutes (made : kernel.Built) (built : draft.Built)
    (obliging : Answers onAccess kernel s draft) :
    ∃ locs answers s' draft', ((splice kernel onAccess).run s).run draft = .ok (locs, s') draft' ∧
      Substitutes onAccess kernel s draft locs answers s' draft' := by
  have wf := made.wellFormed
  have start : Spliced onAccess s draft [] [] [] [] s draft :=
    ⟨.refl, built.wellTyped, .start, .nil, rfl, fun loc copy found => by cases found⟩
  rcases start.run wf obliging (List.nil_append kernel.body) with
    ⟨locs, _, answers, trees, s', draft', ran, spliced, related⟩
  rw [← wf.shape] at ran
  have extend := spliced.grows.extends built.wellTyped
  have called := spliced.called
  rw [← wf.accesses_eq] at called
  refine ⟨locs, answers, s', draft', ran, spliced.grows, extend.params, extend.steps, called,
    related.length_eq.symm, trees, ?_, fun i loc returnAt => ?_⟩
  · refine spliced.answered.imp fun answer tree stands => ?_
    rcases stands with ⟨type, holds⟩
    exact holds.2
  · rcases exists_right_of_getElem? related returnAt with ⟨copy, copyAt, copies⟩
    rcases exists_right_of_getElem? wf.forall₂_resultTypes returnAt with ⟨type, typeAt, typeEq⟩
    rcases stands_of_copies wf (List.mem_of_getElem? returnAt) copies with
      ⟨type', tree, typeEq', holds, stands⟩
    rw [typeEq, Option.some.injEq] at typeEq'
    exact ⟨copy, type, tree, copyAt, typeAt, typeEq' ▸ holds.1, holds.2, stands⟩

/-- A caller that answers the accesses with one parameter after the other, whatever they are to. -/
def inTurn (read : Access) : StateT Nat Drafting Local := do
  let n ← get
  set (n + 1)
  access { read with param := n }

theorem inTurn_run (read : Access) (n : Nat) (draft : Draft) :
    ((inTurn read).run n).run draft =
      ((access { read with param := n } >>= fun loc => pure (loc, n + 1) : Drafting _)).run draft :=
  rfl

/-- The caller that takes one parameter after the other has taken as many as it was asked for. -/
theorem Called.of_inTurn {params : List ElementType} {reads : List Access} {answers : List Local} {n : Nat}
    (called : Called inTurn 0 { params } reads answers n draft) :
    draft.params = params ∧ draft.WellTyped ∧ n = reads.length := by
  induction called with
  | start => exact ⟨rfl, .nil, rfl⟩
  | grow _ grows ih =>
    have extend := grows.extends ih.2.1
    exact ⟨extend.params.trans ih.1, extend.typed, ih.2.2⟩
  | @ask reads answers n n' draft' draft'' read loc _ ran ih =>
    have extend := extends_access ih.2.1 { read with param := n }
    rw [inTurn_run] at ran
    cases added : (access { read with param := n }).run draft' with
    | error e draft₁ =>
      rw [run_bind_error added] at ran
      cases ran
    | ok loc' draft₁ =>
      rw [stateAfter_ok added] at extend
      rw [run_bind_ok added] at ran
      cases ran
      exact ⟨extend.params.trans ih.1, extend.typed, by rw [ih.2.2, List.length_append]; rfl⟩

/-- As long as there are parameters left, it answers. -/
theorem answers_inTurn {params : List ElementType} {type : ElementType}
    (enough : ∀ n : Nat, n < kernel.accesses.length → params[n]? = some type)
    (same : ∀ (param : Nat) (type' : ElementType), kernel.params[param]? = some type' → type' = type) :
    Answers inTurn kernel 0 { params } := by
  intro earlier read later answers n draft' split called
  rcases called.of_inTurn with ⟨paramsEq, typed, count⟩
  have lt : n < kernel.accesses.length := by
    rw [split, List.length_append, List.length_cons, count]
    omega
  have found : draft'.params[n]? = some type := paramsEq ▸ enough n lt
  have ran : (access { read with param := n }).run draft' = _ := access_run found
  refine ⟨draft'.steps.length, n + 1, draft'.snoc ⟨.access { read with param := n }, some type⟩,
    ?_, ?_, ?_⟩
  · rw [inTurn_run, run_bind_ok ran]
    rfl
  · have grows : draft'.Grows (stateAfter (access { read with param := n }) draft') := Grows.refl.access _
    rwa [stateAfter_ok ran] at grows
  · intro type' found'
    rw [typeAt_snoc, same _ type' found']

/-- Two equal accesses become two different parameters. -/
theorem splice_substitutes_inTurn :
    (Kernel.reading .float64 [.zero, .zero]).Built ∧ Built { params := [.float64, .float64] } ∧
      Answers inTurn (.reading .float64 [.zero, .zero]) 0 { params := [.float64, .float64] } ∧
      ∃ locs answers n draft',
        ((splice (.reading .float64 [.zero, .zero]) inTurn).run 0).run { params := [.float64, .float64] } =
          .ok (locs, n) draft' ∧
        Substitutes inTurn (.reading .float64 [.zero, .zero]) 0 { params := [.float64, .float64] } locs
          answers n draft' := by
  have made : (Kernel.reading .float64 [.zero, .zero]).Built := Kernel.built_reading _ _
  have built : Built { params := [.float64, .float64] } := .new _
  have obliging : Answers inTurn (.reading .float64 [.zero, .zero]) 0
      { params := [.float64, .float64] } := by
    have enough : ∀ n : Nat, n < 2 → [ElementType.float64, .float64][n]? = some .float64 := by decide
    refine answers_inTurn enough fun param type found => ?_
    rcases List.mem_of_getElem? found with _ | ⟨_, ⟨⟩⟩
    rfl
  exact ⟨made, built, obliging, splice_substitutes made built obliging⟩

end Draft

end KernelFusion
