import KernelFusion.Proofs.Rewrite.Offers
import KernelFusion.Proofs.Rewrite.Pending

/-!
# Sequences of calls on a driver

A driver is called to put nodes on its agenda and to make visits, in any order, and between the calls the region may
be edited in whatever way. A call that fails leaves what it has done so far, and the calls go on from there. A `Ledger`
enters what the calls did: the moves of the agenda, the nodes of the region that were visited, and the offers that
were made to patterns.

Whatever the patterns do, the books balance (`Ledger.Balanced`): the agenda tracks its moves, so no node is lost and
none waits twice, nodes are taken off in turn, and the tally counts what was entered (`Driver.ledger_balanced`).
-/

namespace KernelFusion

variable {σ : Type}

/-! ## What is counted -/

/-- The number of rewrites by a rule. -/
def Tally.ofRule (t : Tally) : Rule → Nat
  | .rootIntroduction => t.roots
  | .outputRerouting => t.rerouted
  | .producerInlining => t.inlined

/-- Counting a rewrite raises the number of its rule by one. -/
theorem Tally.ofRule_record (t : Tally) (rule rule' : Rule) :
    (t.record rule).ofRule rule' = t.ofRule rule' + if rule = rule' then 1 else 0 := by
  cases rule <;> cases rule' <;> rfl

namespace Offer

/-- Whether the pattern rewrote. -/
def rewrote (o : Offer σ) : Bool :=
  match o.answer with
  | .ok (.rewritten _) => true
  | _ => false

/-- The number of rewrites of a rule among offers. -/
def rewritesOf (rule : Rule) (offers : List (Offer σ)) : Nat :=
  offers.countP fun o => o.rewrote && o.pattern.rule = rule

/-- The nodes that the last of the offers brought in. -/
def created (offers : List (Offer σ)) : List NodeId :=
  match offers.getLast? with
  | some ⟨_, _, .ok (.rewritten created)⟩ => created
  | _ => []

theorem rewritesOf_append (rule : Rule) (offers offers' : List (Offer σ)) :
    rewritesOf rule (offers ++ offers') = rewritesOf rule offers + rewritesOf rule offers' :=
  List.countP_append

theorem rewritesOf_of_none {offers : List (Offer σ)} (none : ∀ o ∈ offers, o.rewrote = false)
    (rule : Rule) : rewritesOf rule offers = 0 := by
  refine List.countP_eq_zero.mpr fun o member => ?_
  rw [none o member]
  exact Bool.false_ne_true

/-- Each rewrite is by one of the three rules. -/
theorem countP_rewrote (offers : List (Offer σ)) : offers.countP rewrote =
    rewritesOf .rootIntroduction offers + rewritesOf .outputRerouting offers +
      rewritesOf .producerInlining offers := by
  induction offers with
  | nil => rfl
  | cons o rest ih =>
    have one : [o].countP rewrote = rewritesOf .rootIntroduction [o] +
        rewritesOf .outputRerouting [o] + rewritesOf .producerInlining [o] := by
      cases rewrites : o.rewrote <;> cases by_ : o.pattern.rule <;>
        simp [rewritesOf, rewrites, by_]
    rw [← List.singleton_append, List.countP_append, one, ih]
    simp only [rewritesOf_append]
    omega

end Offer

namespace Driver

variable {d : Driver σ} {s : Session σ} {n : NodeId} {p : Pattern σ} {ps : List (Pattern σ)}
  {made : List (Offer σ)} {created : List NodeId} {rule : Rule}
  {found : Except Failure (Option (Pattern σ × List NodeId))}

namespace Asked

theorem getLast?_eq (asked : Asked n ps made (.ok (some (p, created)))) :
    made.getLast? = some ⟨p, n, .ok (.rewritten created)⟩ := by
  generalize result : (.ok (some (p, created)) :
    Except Failure (Option (Pattern σ × List NodeId))) = found at asked
  induction asked with
  | unmatched => cases result
  | refused => cases result
  | rewritten =>
    cases result
    rfl
  | passed asked ih => rw [List.getLast?_cons, ih result, Option.getD_some]

/-- No offer before the last rewrites. -/
theorem rewrote_of_mem_dropLast (asked : Asked n ps made found) :
    ∀ o ∈ made.dropLast, o.rewrote = false := by
  intro o member
  rw [Offer.rewrote, asked.noMatch_of_mem_dropLast o member]

/-- Offers that come to a rewrite have one rewrite among them. -/
theorem rewritesOf_eq_one (asked : Asked n ps made (.ok (some (p, created)))) (rule : Rule) :
    Offer.rewritesOf rule made = if p.rule = rule then 1 else 0 := by
  rw [← List.dropLast_append_getLast? _ asked.getLast?_eq, Offer.rewritesOf_append,
    Offer.rewritesOf_of_none asked.rewrote_of_mem_dropLast, Nat.zero_add]
  simp [Offer.rewritesOf, Offer.rewrote]

/-- Offers that do not come to a rewrite have none among them. -/
theorem rewritesOf_eq_zero (asked : Asked n ps made found) (none : ∀ x, found ≠ .ok (some x))
    (rule : Rule) : Offer.rewritesOf rule made = 0 := by
  refine Offer.rewritesOf_of_none ?_ rule
  induction asked with
  | unmatched => exact List.forall_mem_nil _
  | rewritten => exact absurd rfl (none _)
  | refused => exact List.forall_mem_singleton.mpr rfl
  | passed asked ih => exact List.forall_mem_cons.mpr ⟨rfl, ih none⟩

end Asked

/-! ## Calls and their ledger -/

/-- A call on a driver, with its arguments. -/
inductive Call where
  | mark (n : NodeId)
  | markAll (ns : List NodeId)
  | step
  /-- The caller edits the region. -/
  | edit (change : Region → Region)

/-- What a computation lists, if it does not fail. -/
def listed (x : Except Error (List NodeId)) : List NodeId :=
  match x with
  | .ok ns => ns
  | .error _ => []

/-- The nodes that a visit marks when it succeeds with a rewrite: in program order, those around the nodes that came
in. -/
def marksAfter (made : List (Offer σ)) :
    EStateM.Result Failure (Session σ) (Option Bool) → List NodeId
  | .ok (some true) s => listed (s.region.affected (Offer.created made))
  | _ => []

namespace Call

/-- The session that a call leaves, whether it succeeds or fails. -/
def leaves (d : Driver σ) (s : Session σ) : Call → Session σ
  | mark n => { s with agenda := s.agenda.mark n }
  | markAll ns =>
    match s.agenda.markLive s.region ns with
    | .ok agenda => { s with agenda := agenda }
    | .error _ => s
  | step => stateAfter d.step s
  | edit change => { s with region := change s.region }

/-- The nodes that a call marks. -/
def marks (d : Driver σ) (s : Session σ) : Call → List NodeId
  | mark n => [n]
  | markAll ns => listed (s.region.inProgramOrder ns)
  | step => marksAfter (d.offersIn s) (d.step.run s)
  | edit _ => []

/-- The nodes that a call takes off the agenda. -/
def pops (s : Session σ) : Call → List NodeId
  | step => s.agenda.queue.take 1
  | _ => []

/-- The offers that a call makes. -/
def makes (d : Driver σ) (s : Session σ) : Call → List (Offer σ)
  | step => d.offersIn s
  | _ => []

end Call

/-- A session with what was done in it. -/
structure Ledger (σ : Type) where
  session : Session σ
  moves : List Move := []
  /-- The nodes that were taken off the agenda while the region had them. -/
  visits : List NodeId := []
  offers : List (Offer σ) := []

/-- Enters a call. -/
def Ledger.enter (d : Driver σ) (l : Ledger σ) (call : Call) : Ledger σ where
  session := call.leaves d l.session
  moves := l.moves ++ (call.pops l.session).map .popped ++ (call.marks d l.session).map .marked
  visits := l.visits ++ (call.pops l.session).filter l.session.region.contains
  offers := l.offers ++ call.makes d l.session

/-- The ledger of a sequence of calls. -/
def ledger (d : Driver σ) (s : Session σ) (calls : List Call) : Ledger σ :=
  calls.foldl (Ledger.enter d) { session := s }

theorem ledger_concat (d : Driver σ) (s : Session σ) (calls : List Call) (call : Call) :
    d.ledger s (calls ++ [call]) = (d.ledger s calls).enter d call := by
  rw [ledger, List.foldl_append]
  rfl

/-! ## Balance -/

/-- The agenda tracks its moves, nodes were taken off in turn, and the tally counts what was entered. -/
structure Ledger.Balanced (l : Ledger σ) : Prop where
  tracks : l.session.agenda.Tracks l.moves
  inTurn : InTurn l.moves
  visited : l.session.tally.visited = l.visits.length
  rewritten : ∀ rule, l.session.tally.ofRule rule = Offer.rewritesOf rule l.offers

/-- What a visit leaves after its offers, in figures. -/
structure Figures (agenda : Agenda) (tally : Tally) (made : List (Offer σ))
    (marks : List NodeId) (s : Session σ) : Prop where
  agenda : s.agenda = agenda.markEach marks
  visited : s.tally.visited = tally.visited
  rewritten : ∀ rule, s.tally.ofRule rule = tally.ofRule rule + Offer.rewritesOf rule made

theorem visited_record (t : Tally) (rule : Rule) : (t.record rule).visited = t.visited := by
  cases rule <;> rfl

/-- Whichever way a visit ends, its marks and counts are those of its offers. -/
theorem Ended.figures {agenda : Agenda} {tally : Tally}
    {result : EStateM.Result Failure (Session σ) (Option Bool)}
    (ended : Ended agenda tally found result) (asked : Asked n ps made found)
    (ran : d.step.run s = result) :
    Figures agenda tally made (marksAfter made result) (stateAfter d.step s) := by
  cases ended with
  | unmatched =>
    rw [stateAfter_ok ran]
    exact ⟨rfl, rfl, fun rule => by rw [asked.rewritesOf_eq_zero nofun]; rfl⟩
  | refused =>
    rw [stateAfter_error ran]
    exact ⟨rfl, rfl, fun rule => by rw [asked.rewritesOf_eq_zero nofun]; rfl⟩
  | stopped =>
    rw [stateAfter_error ran]
    refine ⟨rfl, visited_record _ _, fun rule => ?_⟩
    rw [asked.rewritesOf_eq_one, Tally.ofRule_record]
  | rewritten affected =>
    rw [stateAfter_ok ran]
    refine ⟨?_, visited_record _ _, fun rule => ?_⟩
    · rw [marksAfter, Offer.created, asked.getLast?_eq, affected]
      rfl
    · rw [asked.rewritesOf_eq_one, Tally.ofRule_record]

namespace Ledger.Balanced

variable {l : Ledger σ} {call : Call} (balanced : l.Balanced)

include balanced

/-- A call that takes no node off and makes no offers. -/
theorem enter_of_pops_eq_nil (pops : call.pops l.session = []) (makes : call.makes d l.session = [])
    (tally : (call.leaves d l.session).tally = l.session.tally)
    (agenda : (call.leaves d l.session).agenda =
      l.session.agenda.markEach (call.marks d l.session)) : (l.enter d call).Balanced := by
  have moves : (l.enter d call).moves = l.moves ++ (call.marks d l.session).map .marked := by
    rw [enter, pops, List.map_nil, List.append_nil]
  refine ⟨?tracks, ?inTurn, ?visited, fun rule => ?rewritten⟩
  case tracks =>
    rw [moves, enter, agenda]
    exact balanced.tracks.markEach _
  case inTurn =>
    rw [moves]
    exact balanced.inTurn.append_marked _
  case visited => rw [enter, tally, pops, List.filter_nil, List.append_nil, balanced.visited]
  case rewritten => rw [enter, tally, makes, List.append_nil, balanced.rewritten]

/-- A visit that takes a node off. -/
theorem enter_step {agenda : Agenda} (taken : l.session.agenda.next? = some (n, agenda))
    (tally : Tally) (figures : Figures agenda tally (d.offersIn l.session)
      (marksAfter (d.offersIn l.session) (d.step.run l.session)) (stateAfter d.step l.session))
    (visited : tally.visited =
      l.session.tally.visited + ([n].filter l.session.region.contains).length)
    (rewritten : ∀ rule, tally.ofRule rule = l.session.tally.ofRule rule) :
    (l.enter d .step).Balanced := by
  have pops : Call.step.pops l.session = [n] := by
    rw [Call.pops, (Agenda.next?_eq_some_iff.mp taken).1]
    rfl
  have moves : (l.enter d .step).moves = l.moves ++ [.popped n] ++
      (marksAfter (d.offersIn l.session) (d.step.run l.session)).map .marked := by
    rw [enter, pops]
    rfl
  refine ⟨?tracks, ?inTurn, ?visited, fun rule => ?rewritten⟩
  case tracks =>
    rw [moves, enter, Call.leaves, figures.agenda]
    exact (balanced.tracks.next taken).markEach _
  case inTurn =>
    rw [moves]
    refine InTurn.append_marked (inTurn_concat_iff.mpr ⟨balanced.inTurn, fun m same => ?_⟩) _
    cases same
    exact balanced.tracks.due taken
  case visited =>
    rw [enter, Call.leaves, figures.visited, visited, pops, List.length_append, balanced.visited]
  case rewritten =>
    rw [enter, Call.leaves, figures.rewritten, rewritten, balanced.rewritten, Call.makes,
      Offer.rewritesOf_append]

theorem enter_markAll (ns : List NodeId) : (l.enter d (.markAll ns)).Balanced := by
  cases sorting : l.session.region.inProgramOrder ns with
  | ok marks =>
    have marked : l.session.agenda.markLive l.session.region ns =
        .ok (l.session.agenda.markEach marks) := by
      rw [Agenda.markLive, sorting, ok_bind, pure_eq_ok]
    refine balanced.enter_of_pops_eq_nil rfl rfl ?_ ?_
    · rw [Call.leaves, marked]
    · rw [Call.leaves, marked, Call.marks, sorting, listed]
  | error e =>
    have refused : l.session.agenda.markLive l.session.region ns = .error e := by
      rw [Agenda.markLive, sorting, error_bind]
    refine balanced.enter_of_pops_eq_nil rfl rfl ?_ ?_
    · rw [Call.leaves, refused]
    · rw [Call.leaves, refused, Call.marks, sorting, listed]
      rfl

/-- Every call keeps the books in balance. -/
theorem enter (d : Driver σ) (call : Call) : (l.enter d call).Balanced := by
  cases call with
  | mark n => exact balanced.enter_of_pops_eq_nil rfl rfl rfl rfl
  | edit change => exact balanced.enter_of_pops_eq_nil rfl rfl rfl rfl
  | markAll ns => exact balanced.enter_markAll ns
  | step =>
    have turn := d.turn_offersIn l.session
    generalize madeEq : d.offersIn l.session = made at turn
    generalize ran : d.step.run l.session = result at turn
    cases turn with
    | idle idle =>
      refine balanced.enter_of_pops_eq_nil ?_ madeEq ?_ ?_
      · rw [Call.pops, Agenda.next?_eq_none_iff.mp idle]
        rfl
      · rw [Call.leaves, stateAfter_ok ran]
      · rw [Call.leaves, stateAfter_ok ran, Call.marks, ran]
        rfl
    | gone taken absent =>
      refine balanced.enter_step taken l.session.tally ?_ ?_ fun _ => rfl
      · rw [stateAfter_ok ran, madeEq, ran]
        exact ⟨rfl, rfl, fun _ => rfl⟩
      · have gone : l.session.region.contains _ = false := Region.contains_eq_false_iff.mpr absent
        rw [List.filter_cons_of_neg (by rw [gone]; exact Bool.false_ne_true)]
        rfl
    | @offered n agenda node _ _ _ taken live asked ended =>
      refine balanced.enter_step taken (counted l.session.tally) ?_ ?_ fun rule => ?_
      · rw [madeEq, ran]
        exact ended.figures asked ran
      · rw [List.filter_cons_of_pos (Region.contains_eq_true_iff.mpr ⟨node, live⟩)]
        rfl
      · cases rule <;> rfl

end Ledger.Balanced

/-- A call on a driver whose patterns record. -/
theorem Call.leaves_recorded (d : Driver σ) (s : Session σ) (offers : List (Offer σ)) (call : Call) :
    call.leaves d.recorded (s.recall offers) =
      (call.leaves d s).recall (offers ++ call.makes d s) := by
  cases call with
  | mark n => exact congrArg ((mark n).leaves d s).recall (List.append_nil offers).symm
  | edit change => exact congrArg ((edit change).leaves d s).recall (List.append_nil offers).symm
  | markAll ns =>
    have none : (Call.markAll ns).makes d s = [] := rfl
    cases marking : s.agenda.markLive s.region ns with
    | ok agenda =>
      have marking' : (s.recall offers).agenda.markLive (s.recall offers).region ns = .ok agenda :=
        marking
      rw [leaves, marking', leaves, marking, none, List.append_nil]
      rfl
    | error e =>
      have marking' : (s.recall offers).agenda.markLive (s.recall offers).region ns = .error e :=
        marking
      rw [leaves, marking', leaves, marking, none, List.append_nil]
  | step =>
    rw [leaves, stateAfter, d.recorded_step, leaves, stateAfter, makes]
    cases d.step.run s <;> rfl

/-- Calls on patterns that record go as the calls on the patterns themselves, and leave the offers of the ledger in
the record. -/
theorem ledger_recorded (d : Driver σ) (s : Session σ) (calls : List Call) :
    calls.foldl (Call.leaves d.recorded) (s.recall []) =
      (d.ledger s calls).session.recall (d.ledger s calls).offers := by
  induction calls using List.reverseRecOn with
  | nil => rfl
  | append_singleton calls call ih =>
    rw [List.foldl_append, ih, List.foldl_cons, List.foldl_nil, Call.leaves_recorded, ledger_concat]
    rfl

/-! ## What calls mark

The ledger takes the marks of a call from the look-ups that the call makes. Where the region is consistent, as every
region that is built is, these come to what the following two theorems say.
-/

/-- Of the handles that a caller marks, those of nodes that the region has are marked, each once, in program order. -/
theorem Call.marks_markAll (c : s.region.Consistent) (ns : List NodeId) :
    (markAll ns).marks d s = s.region.order.filter fun n => n ∈ ns := by
  rw [marks, c.inProgramOrder_eq, listed]

/-- A visit that rewrites marks the nodes that stand around those that came in, each once, in program order. -/
theorem Call.marks_step {s' : Session σ} (ran : d.step.run s = .ok (some true) s')
    (c : s'.region.Consistent) :
    (step.marks d s).Sublist s'.region.order ∧
      ∀ m, m ∈ step.marks d s ↔
        m ∈ s'.region.order ∧ ∃ n ∈ Offer.created (d.offersIn s), s'.region.Near n m := by
  obtain ⟨around, affected, mem_around⟩ := c.exists_affected (Offer.created (d.offersIn s))
  have marked : step.marks d s = s'.region.order.filter fun m => m ∈ around := by
    rw [marks, ran, marksAfter, affected, listed]
  rw [marked]
  refine ⟨List.filter_sublist, fun m => ?_⟩
  rw [List.mem_filter, decide_eq_true_iff, mem_around]
  refine and_congr_right fun live => exists_congr fun n => and_congr_right fun _ => ?_
  exact and_iff_right_of_imp fun near => c.contains_of_near near live

/-- A sequence of calls on a new driver, whatever its patterns do and the caller does between the calls, keeps the
books in balance: the agenda has the nodes that wait, each once and those that wait longest first, and a node that is
taken off is due; the tally counts the visits of nodes that the region had, and the rewrites of each rule. The offers
that are entered are those that patterns that record see when the same calls are made on them. A node that the region
no longer has is taken off without any other change. -/
theorem ledger_balanced (d : Driver σ) (g : Region) (state : σ) (calls : List Call) :
    let l := d.ledger { region := g, state := state } calls
    l.Balanced ∧ l.session.tally.rewrites = l.offers.countP Offer.rewrote ∧
      calls.foldl (Call.leaves d.recorded) (Session.recall { region := g, state := state } []) =
        l.session.recall l.offers ∧
      ∀ (s : Session σ) (n : NodeId) (rest : List NodeId), s.agenda.queue = n :: rest →
        s.region.contains n = false → ∃ agenda : Agenda, agenda.queue = rest ∧
          d.step.run s = .ok (some false) { s with agenda := agenda } := by
  intro l
  have balanced : l.Balanced := by
    unfold l
    induction calls using List.reverseRecOn with
    | nil => exact ⟨Agenda.tracks_empty, inTurn_nil, rfl, fun rule => by cases rule <;> rfl⟩
    | append_singleton calls call ih =>
      rw [ledger_concat]
      exact ih.enter d call
  refine ⟨balanced, ?rewrites, d.ledger_recorded _ calls, fun s n rest first gone => ?gone⟩
  case rewrites =>
    rw [Offer.countP_rewrote, ← balanced.rewritten, ← balanced.rewritten, ← balanced.rewritten]
    rfl
  case gone =>
    have taken : s.agenda.next? = some (n, ⟨rest, s.agenda.waiting.erase n⟩) :=
      Agenda.next?_eq_some_iff.mpr ⟨first, rfl⟩
    exact ⟨_, rfl, step_of_none taken (Region.contains_eq_false_iff.mp gone)⟩

/-- The agenda of a new driver, with a handle that the region never had. -/
theorem ledger_balanced_sharedField :
    (ledger ⟨({} : Settings).patterns, true⟩
      ({ region := Region.sharedField, state := () } : Session Unit)
      [.markAll [⟨2, 0⟩, ⟨0, 0⟩], .mark ⟨9, 0⟩, .step, .step, .step]).Balanced ∧
    (Agenda.empty.mark ⟨9, 0⟩).queue = [⟨9, 0⟩] ∧ Region.sharedField.contains ⟨9, 0⟩ = false ∧
    ∃ agenda : Agenda, agenda.queue = [] ∧
      (step ⟨({} : Settings).patterns, true⟩).run
        ({ region := Region.sharedField, state := (), agenda := Agenda.empty.mark ⟨9, 0⟩ } :
          Session Unit) =
        .ok (some false) { region := Region.sharedField, state := (), agenda := agenda } := by
  have balanced := ledger_balanced (σ := Unit) ⟨({} : Settings).patterns, true⟩ Region.sharedField ()
    [.markAll [⟨2, 0⟩, ⟨0, 0⟩], .mark ⟨9, 0⟩, .step, .step, .step]
  exact ⟨balanced.1, rfl, rfl, balanced.2.2.2
    { region := Region.sharedField, state := (), agenda := Agenda.empty.mark ⟨9, 0⟩ } ⟨9, 0⟩ [] rfl rfl⟩

end Driver

end KernelFusion
