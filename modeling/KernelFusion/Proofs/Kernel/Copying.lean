import KernelFusion.Proofs.Kernel.Accesses
import KernelFusion.Proofs.Offset

/-!
# Copying a kernel

A caller of a splice that answers every access with one access makes a copy: the accesses are moved, all other
instructions stay, and every local keeps its number, since one instruction is added for each (`Kernel.build_moved`).
No instruction changes its type, for the parameters that are read instead have the same types.

So a copy is determined by what it does to the accesses. To renumber the parameters and to move the offsets twice is
to do it once by the composed map and the sum, as long as the sums are in range (`Kernel.copy_functorial`).
-/

namespace KernelFusion

/-! ## Moving accesses -/

/-- The access with its parameter renumbered and its offset moved. An offset that would leave the range stays. -/
def Access.moved (f : Nat → Nat) (shift : Offset) (read : Access) : Access :=
  ⟨f read.param, (read.offset.compose shift).toOption.getD read.offset⟩

theorem Access.moved_of_compose {f : Nat → Nat} {shift offset : Offset} {read : Access}
    (sum : read.offset.compose shift = .ok offset) : read.moved f shift = ⟨f read.param, offset⟩ := by
  rw [moved, sum]
  rfl

/-- Moving twice is moving by the composed renumbering and the sum of the shifts. -/
theorem Access.moved_moved {f g : Nat → Nat} {s t st inner outer : Offset} {read : Access}
    (first : read.offset.compose s = .ok inner) (second : inner.compose t = .ok outer)
    (both : s.compose t = .ok st) : (read.moved f s).moved g t = read.moved (g ∘ f) st := by
  have later : (⟨f read.param, inner⟩ : Access).offset.compose t = .ok outer := second
  have sum : read.offset.compose st = .ok outer := Offset.add_group first both second
  rw [moved_of_compose first, moved_of_compose later, moved_of_compose sum]
  rfl

/-- The instruction, moved if it is an access. -/
def Inst.moved (move : Access → Access) : Inst → Inst
  | .access read => .access (move read)
  | inst => inst

/-- The step with its instruction moved. -/
def Step.moved (move : Access → Access) (step : Step) : Step := ⟨step.inst.moved move, step.type⟩

/-- The kernel over other parameters, with its accesses moved. -/
def Kernel.moved (params : List ElementType) (move : Access → Access) (kernel : Kernel) : Kernel :=
  ⟨params, kernel.steps.map (Step.moved move)⟩

variable {params params' : List ElementType} {move move' : Access → Access} {steps : List Step}
  {reads : List Access}

/-- The parameters that are read after a move have the types of those that were read before. -/
def Suits (params params' : List ElementType) (move : Access → Access) (reads : List Access) : Prop :=
  ∀ read ∈ reads, ∀ type, params[read.param]? = some type → params'[(move read).param]? = some type

theorem typeAt_moved : typeAt (steps.map (Step.moved move)) = typeAt steps := by
  funext loc
  rw [typeAt, typeAt, List.getElem?_map]
  cases steps[loc]? <;> rfl

/-- A moved instruction is well typed, since the parameter it reads has the same type. -/
theorem StepTyped.moved {step : Step} (typed : StepTyped params steps step)
    (suits : Suits params params' move (accessesOf [step])) :
    StepTyped params' (steps.map (Step.moved move)) (step.moved move) := by
  cases typed with
  | @access read type found => exact .access (suits read List.mem_cons_self type found)
  | const => exact .const
  | compute arity defined first =>
    refine .compute arity (by rwa [List.length_map]) ?_
    rwa [typeAt_moved]

/-- Moving keeps a list well typed. -/
theorem Typed.moved (typed : Typed params steps) (suits : Suits params params' move (accessesOf steps)) :
    Typed params' (steps.map (Step.moved move)) := by
  induction steps using List.reverseRecOn with
  | nil => exact .nil
  | append_singleton steps step ih =>
    rw [accessesOf_append] at suits
    have earlier := ih typed.left fun read member => suits read (List.mem_append_left _ member)
    rw [List.map_append, List.map_singleton]
    exact earlier.concat (typed.next.moved fun read member => suits read (List.mem_append_right _ member))

namespace Draft

variable {onAccess : Access → Drafting Local} {original rest : List Step} {returns : List Local}

theorem copiesOf_range {n : Nat} {locs : List Local} (defined : ∀ loc ∈ locs, loc < n) :
    copiesOf (List.range n) locs = .ok locs := by
  refine mapM_eq_ok_iff.mpr (List.forall₂_same.mpr fun loc member => ?_)
  rw [List.getElem?_range (defined loc member), orRefuse_some]

/-- When the first steps have been moved into a draft, one by one, each local stands for itself, and so it is when the
next step has been. -/
theorem spliceSteps_moved_cons {step : Step} (typed : Typed params (original ++ [step]))
    (suits : Suits params params' move (accessesOf (original ++ [step])))
    (moves : ∀ read ∈ accessesOf [step], ∀ draft,
      (onAccess read).run draft = (access (move read)).run draft) :
    (spliceSteps onAccess (List.range original.length) (step :: rest)).run
        ⟨params', original.map (Step.moved move)⟩ =
      (spliceSteps onAccess (List.range (original ++ [step]).length) rest).run
        ⟨params', (original ++ [step]).map (Step.moved move)⟩ := by
  rw [accessesOf_append] at suits
  have earlier : WellTyped ⟨params', original.map (Step.moved move)⟩ :=
    typed.left.moved fun read member => suits read (List.mem_append_left _ member)
  have new : StepTyped params' (original.map (Step.moved move)) (step.moved move) :=
    typed.next.moved fun read member => suits read (List.mem_append_right _ member)
  have copies : List.range (original ++ [step]).length =
      List.range original.length ++ [(original.map (Step.moved move)).length] := by
    rw [List.length_append, List.length_singleton, List.range_succ, List.length_map]
  rw [copies, List.map_append, List.map_singleton, spliceSteps]
  cases typed.next with
  | @access read type found =>
    cases new with
    | access found' => exact run_bind_ok ((moves read List.mem_cons_self _).trans (access_run found'))
  | const => exact run_bind_ok (constant_run _)
  | @compute op args type arity defined first =>
    cases new with
    | compute _ defined' first' =>
      have fetched : (liftM (copiesOf (List.range original.length) args) : Drafting (List Local)).run
          ⟨params', original.map (Step.moved move)⟩ = .ok args ⟨params', original.map (Step.moved move)⟩ := by
        rw [copiesOf_range defined, run_lift_ok]
      exact (run_bind_ok fetched).trans (run_bind_ok (compute_run earlier arity defined' first'))

/-- By induction on what is left to copy: the draft is always the moved part of the steps that are done. -/
theorem spliceSteps_moved (original rest : List Step) (typed : Typed params (original ++ rest))
    (suits : Suits params params' move (accessesOf (original ++ rest)))
    (moves : ∀ read ∈ accessesOf rest, ∀ draft,
      (onAccess read).run draft = (access (move read)).run draft)
    (defined : ∀ loc ∈ returns, loc < (original ++ rest).length) :
    (spliceSteps onAccess (List.range original.length) (rest ++ [⟨.ret returns, none⟩])).run
        ⟨params', original.map (Step.moved move)⟩ =
      .ok returns ⟨params', (original ++ rest).map (Step.moved move)⟩ := by
  induction rest generalizing original with
  | nil =>
    rw [List.append_nil] at defined ⊢
    rw [List.nil_append, spliceSteps]
    dsimp only
    rw [copiesOf_range defined]
    rfl
  | cons step rest ih =>
    have split : original ++ step :: rest = (original ++ [step]) ++ rest := List.append_cons _ _ _
    have splitReads : accessesOf (step :: rest) = accessesOf [step] ++ accessesOf rest :=
      accessesOf_append [step] rest
    rw [split] at typed suits defined ⊢
    rw [splitReads] at moves
    have suits' := accessesOf_append (original ++ [step]) rest ▸ suits
    rw [List.cons_append, spliceSteps_moved_cons typed.left
      (fun read member => suits' read (List.mem_append_left _ member))
      fun read member => moves read (List.mem_append_left _ member)]
    exact ih _ typed suits (fun read member => moves read (List.mem_append_right _ member)) defined

end Draft

/-! ## Copies -/

namespace Kernel

variable {kernel : Kernel}

/-- A moved kernel, spelled out. -/
theorem WellFormed.moved_eq (wf : kernel.WellFormed) : kernel.moved params move =
    ⟨params, kernel.body.map (Step.moved move) ++ [⟨.ret kernel.returns, none⟩]⟩ := by
  rw [Kernel.moved, wf.shape, List.map_append, List.map_singleton]
  rfl

/-- A move that suits the parameters gives a kernel again. -/
theorem WellFormed.moved (wf : kernel.WellFormed)
    (suits : Suits kernel.params params move kernel.accesses) :
    (kernel.moved params move).WellFormed := by
  rw [wf.accesses_eq] at suits
  rw [wf.moved_eq]
  refine wellFormed_mk (wf.typed.moved suits) fun loc member => ?_
  rw [List.length_map]
  exact wf.defined loc member

theorem accesses_moved : (kernel.moved params move).accesses = kernel.accesses.map move := by
  rw [accesses, Kernel.moved, List.filterMap_map, accesses, List.map_filterMap]
  refine List.filterMap_congr fun step _ => ?_
  rcases step with ⟨inst, type⟩
  cases inst <;> rfl

theorem moved_moved : (kernel.moved params move).moved params' move' =
    kernel.moved params' (move' ∘ move) := by
  rw [Kernel.moved, Kernel.moved, Kernel.moved, List.map_map]
  refine congrArg _ (List.map_congr_left fun step _ => ?_)
  rcases step with ⟨inst, type⟩
  cases inst <;> rfl

theorem moved_id : kernel.moved kernel.params id = kernel := by
  have same : ∀ step ∈ kernel.steps, Step.moved id step = step := by
    intro step _
    rcases step with ⟨inst, type⟩
    cases inst <;> rfl
  rw [Kernel.moved, List.map_congr_left same, List.map_id']

/-- Moves that agree on the accesses of a kernel make the same of it. -/
theorem moved_congr (same : ∀ read ∈ kernel.accesses, move read = move' read) :
    kernel.moved params move = kernel.moved params move' := by
  refine congrArg _ (List.map_congr_left fun step member => ?_)
  rcases step with ⟨inst, type⟩
  cases inst with
  | access read =>
    rw [Step.moved, Inst.moved, same read (mem_accesses_iff.mpr ⟨type, member⟩)]
    rfl
  | const => rfl
  | compute => rfl
  | ret => rfl

/-- A splice whose caller adds one access for each leaves the kernel with its accesses moved. -/
theorem build_moved {onAccess : Access → Drafting Local} (wf : kernel.WellFormed)
    (suits : Suits kernel.params params move kernel.accesses)
    (moves : ∀ read ∈ kernel.accesses, ∀ draft,
      (onAccess read).run draft = (Draft.access (move read)).run draft) :
    Kernel.build params (Draft.splice kernel onAccess) = .ok (kernel.moved params move) := by
  rw [wf.accesses_eq] at suits moves
  have typed : Draft.WellTyped ⟨params, kernel.body.map (Step.moved move)⟩ := wf.typed.moved suits
  have ran : (Draft.splice kernel onAccess).run { params } =
      .ok kernel.returns ⟨params, kernel.body.map (Step.moved move)⟩ := by
    have copied : (Draft.spliceSteps onAccess [] (kernel.body ++ [⟨.ret kernel.returns, none⟩])).run
        ⟨params, []⟩ = .ok kernel.returns ⟨params, kernel.body.map (Step.moved move)⟩ :=
      Draft.spliceSteps_moved [] kernel.body wf.typed suits moves wf.defined
    rwa [← wf.shape] at copied
  rw [Kernel.build, ran, wf.moved_eq]
  refine Draft.finish_eq_ok typed fun loc member => ?_
  rw [List.length_map]
  exact wf.defined loc member

/-- Copies a kernel over other parameters, with its own parameters renumbered and its offsets moved. -/
def copy (params : List ElementType) (f : Nat → Nat) (shift : Offset) (kernel : Kernel) :
    Except Error Kernel :=
  Kernel.build params <| Draft.splice kernel fun read => do
    let offset ← Offset.lift (read.offset.compose shift)
    Draft.access ⟨f read.param, offset⟩

/-- Every parameter has the type of the one it is renumbered to. -/
def Renumbers (params params' : List ElementType) (f : Nat → Nat) : Prop :=
  ∀ (i : Nat) (type : ElementType), params[i]? = some type → params'[f i]? = some type

/-- Copying a kernel comes to moving its accesses, if all sums of offsets are in range. -/
theorem copy_eq {f : Nat → Nat} {shift : Offset} (wf : kernel.WellFormed)
    (renumbers : Renumbers kernel.params params f)
    (sums : ∀ read ∈ kernel.accesses, ∃ offset, read.offset.compose shift = .ok offset) :
    kernel.copy params f shift = .ok (kernel.moved params (Access.moved f shift)) := by
  refine build_moved wf (fun read member type paramAt => renumbers _ type paramAt) fun read member draft => ?_
  rcases sums read member with ⟨offset, sum⟩
  rw [sum, Access.moved_of_compose sum, Offset.lift, run_lift_ok_bind]

/-- Copying as it stands gives the kernel again, and copying twice is copying once. -/
theorem copy_functorial (built : kernel.Built) :
    Kernel.build kernel.params (Draft.splice kernel Draft.access) = .ok kernel ∧
      ∀ (params params' : List ElementType) (f g : Nat → Nat) (s t st : Offset),
        Renumbers kernel.params params f → Renumbers params params' g → s.compose t = .ok st →
        (∀ read ∈ kernel.accesses, ∃ inner outer,
          read.offset.compose s = .ok inner ∧ inner.compose t = .ok outer) →
        ∃ first second, kernel.copy params f s = .ok first ∧ first.copy params' g t = .ok second ∧
          kernel.copy params' (g ∘ f) st = .ok second := by
  have wf := built.wellFormed
  refine ⟨?same, fun params params' f g s t st renumbersF renumbersG sum sums => ?twice⟩
  case same =>
    have suits : Suits kernel.params kernel.params id kernel.accesses := fun read _ type => id
    exact (build_moved wf suits fun read _ draft => rfl).trans (congrArg Except.ok moved_id)
  case twice =>
    have wf' : (kernel.moved params (Access.moved f s)).WellFormed :=
      wf.moved fun read _ type paramAt => renumbersF _ type paramAt
    have first := copy_eq wf renumbersF fun read member => by
      rcases sums read member with ⟨inner, -, sumS, -⟩
      exact ⟨inner, sumS⟩
    have second := copy_eq wf' renumbersG fun read member => by
      rw [accesses_moved] at member
      rcases List.mem_map.mp member with ⟨read', member', rfl⟩
      rcases sums read' member' with ⟨inner, outer, sumS, sumT⟩
      rw [Access.moved_of_compose sumS]
      exact ⟨outer, sumT⟩
    have renumbers : Renumbers kernel.params params' (g ∘ f) := fun i type paramAt =>
      renumbersG _ type (renumbersF i type paramAt)
    have once := copy_eq wf renumbers fun read member => by
      rcases sums read member with ⟨inner, outer, sumS, sumT⟩
      exact ⟨outer, Offset.add_group sumS sum sumT⟩
    refine ⟨_, _, first, second, ?_⟩
    rw [once, moved_moved]
    refine congrArg Except.ok (moved_congr fun read member => ?_)
    rcases sums read member with ⟨inner, outer, sumS, sumT⟩
    exact (Access.moved_moved sumS sumT sum).symm

/-- A kernel that reads one step ahead, copied over a second parameter, moved along `j`, and from there back over the
first one, moved along `i`. -/
theorem copy_functorial_reading :
    (reading .float64 [⟨1, 0, 0⟩]).Built ∧
      Renumbers [.float64] [.int64, .float64] (· + 1) ∧
      Renumbers [.int64, .float64] [.float64, .int64] (1 - ·) ∧
      (⟨0, 2, 0⟩ : Offset).compose ⟨1, 0, 0⟩ = .ok ⟨1, 2, 0⟩ ∧
      ∃ first second,
        (reading .float64 [⟨1, 0, 0⟩]).copy [.int64, .float64] (· + 1) ⟨0, 2, 0⟩ = .ok first ∧
        first.copy [.float64, .int64] (1 - ·) ⟨1, 0, 0⟩ = .ok second ∧
        (reading .float64 [⟨1, 0, 0⟩]).copy [.float64, .int64] ((1 - ·) ∘ (· + 1)) ⟨1, 2, 0⟩ =
          .ok second := by
  have built := built_reading .float64 [⟨1, 0, 0⟩]
  have forth : Renumbers [.float64] [.int64, .float64] (· + 1) := fun i type paramAt => paramAt
  have back : Renumbers [.int64, .float64] [.float64, .int64] (1 - ·) := by
    intro i type paramAt
    match i with
    | 0 => exact paramAt
    | 1 => exact paramAt
    | i + 2 => cases paramAt
  refine ⟨built, forth, back, rfl, ?_⟩
  refine (copy_functorial built).2 _ _ _ _ _ _ _ forth back rfl fun read member => ?_
  rw [show read = ⟨0, ⟨1, 0, 0⟩⟩ from List.mem_singleton.mp member]
  exact ⟨⟨1, 2, 0⟩, ⟨2, 2, 0⟩, rfl, rfl⟩

end Kernel

end KernelFusion
