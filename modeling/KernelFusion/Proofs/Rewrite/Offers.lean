import KernelFusion.Proofs.Rewrite.Visiting

/-!
# The offers that a visit makes

A visit offers a node to patterns, and a pattern is free in what it does: it may refuse a match after it has changed
the region, and name nodes that do not exist. To say which offers are made, the patterns are replaced by ones that
record what they are offered and what they answer, in the state that they share, and otherwise do what they did
(`Pattern.recorded`). A driver with such patterns does what it did before and adds to the record
(`Driver.recorded_step`).

`Driver.Turn` lists the ways in which a visit can end for any patterns and any region, each with the offers that were
made: it is what the rest of the theory knows of a visit by patterns that are not the rules.
-/

namespace KernelFusion

variable {σ : Type}

/-! ## Patterns that record -/

/-- A node was offered to a pattern, which answered. -/
structure Offer (σ : Type) where
  pattern : Pattern σ
  node : NodeId
  answer : Except Error Outcome

/-- What a pattern does, with a record of the offers to it. -/
def Pattern.recorded (p : Pattern σ) : Pattern (σ × List (Offer σ)) where
  rule := p.rule
  benefit := p.benefit
  root := p.root
  attempt n := fun (g, state, offers) =>
    match (p.attempt n).run (g, state) with
    | .ok outcome (g', state') => .ok outcome (g', state', offers ++ [⟨p, n, .ok outcome⟩])
    | .error e (g', state') => .error e (g', state', offers ++ [⟨p, n, .error e⟩])

namespace Pattern

variable {p : Pattern σ} {n : NodeId} {g g' : Region} {state state' : σ} {outcome : Outcome} {e : Error}

/-- An attempt that is recorded answers as the attempt did. -/
theorem recorded_of_ok (ran : (p.attempt n).run (g, state) = .ok outcome (g', state'))
    (offers : List (Offer σ)) : (p.recorded.attempt n).run (g, state, offers) =
      .ok outcome (g', state', offers ++ [⟨p, n, .ok outcome⟩]) := by
  change (match (p.attempt n).run (g, state) with
    | .ok outcome (g', state') => _
    | .error e (g', state') => _) = _
  rw [ran]

theorem recorded_of_error (ran : (p.attempt n).run (g, state) = .error e (g', state'))
    (offers : List (Offer σ)) : (p.recorded.attempt n).run (g, state, offers) =
      .error e (g', state', offers ++ [⟨p, n, .error e⟩]) := by
  change (match (p.attempt n).run (g, state) with
    | .ok outcome (g', state') => _
    | .error e (g', state') => _) = _
  rw [ran]

end Pattern

/-- A driver with a record of the offers to its patterns. -/
def Driver.recorded (d : Driver σ) : Driver (σ × List (Offer σ)) where
  patterns := ⟨d.patterns.patterns.map Pattern.recorded⟩
  verify := d.verify

/-- A session in which offers were recorded. -/
def Session.recall (s : Session σ) (offers : List (Offer σ)) : Session (σ × List (Offer σ)) :=
  ⟨s.region, (s.state, offers), s.agenda, s.tally⟩

/-- A result in a session in which offers were recorded. -/
def recalled {α β : Type} (f : α → β) (offers : List (Offer σ)) :
    EStateM.Result Failure (Session σ) α → EStateM.Result Failure (Session (σ × List (Offer σ))) β
  | .ok a s => .ok (f a) (s.recall offers)
  | .error e s => .error e (s.recall offers)

namespace Driver

variable {d : Driver σ} {s : Session σ} {n : NodeId} {p : Pattern σ} {ps : List (Pattern σ)}
  {offers made : List (Offer σ)} {created : List NodeId} {node : Node} {agenda : Agenda}
  {verify : Bool} {rule : Rule} {tag : NodeTag}

/-! ## Offering a node -/

/-- The offers of a node to patterns in order, and what they come to: offers are made up to the first pattern that
rewrites or refuses. -/
inductive Asked (n : NodeId) : List (Pattern σ) → List (Offer σ) →
    Except Failure (Option (Pattern σ × List NodeId)) → Prop
  | unmatched : Asked n [] [] (.ok none)
  | passed {p : Pattern σ} {rest : List (Pattern σ)} {made : List (Offer σ)}
    {answer : Except Failure (Option (Pattern σ × List NodeId))} : Asked n rest made answer →
    Asked n (p :: rest) (⟨p, n, .ok .noMatch⟩ :: made) answer
  | rewritten {p : Pattern σ} {rest : List (Pattern σ)} {created : List NodeId} :
    Asked n (p :: rest) [⟨p, n, .ok (.rewritten created)⟩] (.ok (some (p, created)))
  | refused {p : Pattern σ} {rest : List (Pattern σ)} {e : Error} :
    Asked n (p :: rest) [⟨p, n, .error e⟩] (.error (.refused e))

theorem attempt_of_ok {outcome : Outcome} {g' : Region} {state' : σ}
    (ran : (p.attempt n).run (s.region, s.state) = .ok outcome (g', state')) :
    (attempt p n).run s = .ok outcome { s with region := g', state := state' } := by
  change attempt p n s = _
  rw [attempt, ran]

theorem attempt_of_error {e : Error} {g' : Region} {state' : σ}
    (ran : (p.attempt n).run (s.region, s.state) = .error e (g', state')) :
    (attempt p n).run s = .error (.refused e) { s with region := g', state := state' } := by
  change attempt p n s = _
  rw [attempt, ran]

/-- What offering a node leaves alone. -/
structure Keeps (s s' : Session σ) : Prop where
  agenda : s'.agenda = s.agenda
  tally : s'.tally = s.tally

/-- The first pattern is asked, and the others only if it does not match. -/
theorem offer_cons : (offer n (p :: ps)).run s =
    match (attempt p n).run s with
    | .ok .noMatch s' => (offer n ps).run s'
    | .ok (.rewritten created) s' => .ok (some (p, created)) s'
    | .error e s' => .error e s' := by
  rw [offer]
  cases ran : (attempt p n).run s with
  | ok outcome s' =>
    rw [run_bind_ok ran]
    cases outcome <;> rfl
  | error e s' => rw [run_bind_error ran]

/-- Patterns that record answer as they did, and the offers that they record are those of `Asked`. -/
theorem asked (n : NodeId) (ps : List (Pattern σ)) (s : Session σ) :
    ∃ made, Asked n ps made (answer (offer n ps) s) ∧ Keeps s (stateAfter (offer n ps) s) ∧
      ∀ offers, (offer n (ps.map Pattern.recorded)).run (s.recall offers) =
        recalled (Option.map fun found => (found.1.recorded, found.2)) (offers ++ made)
          ((offer n ps).run s) := by
  induction ps generalizing s with
  | nil =>
    refine ⟨[], .unmatched, ⟨rfl, rfl⟩, fun offers => ?_⟩
    rw [List.append_nil]
    rfl
  | cons p rest ih =>
    unfold answer stateAfter
    cases ran : (p.attempt n).run (s.region, s.state) with
    | error e after =>
      rw [offer_cons, attempt_of_error ran]
      refine ⟨_, .refused, ⟨rfl, rfl⟩, fun offers => ?_⟩
      rw [List.map_cons, offer_cons, attempt_of_error (Pattern.recorded_of_error ran offers)]
      rfl
    | ok outcome after =>
    rw [offer_cons, attempt_of_ok ran]
    cases outcome with
    | rewritten created =>
      refine ⟨_, .rewritten, ⟨rfl, rfl⟩, fun offers => ?_⟩
      rw [List.map_cons, offer_cons, attempt_of_ok (Pattern.recorded_of_ok ran offers)]
      rfl
    | noMatch =>
      -- The next pattern is asked with the region and the state that this one has left.
      rcases ih { s with region := after.1, state := after.2 } with ⟨made, asked, keeps, recorded⟩
      refine ⟨_, .passed asked, ⟨keeps.agenda, keeps.tally⟩, fun offers => ?_⟩
      rw [List.map_cons, offer_cons, attempt_of_ok (Pattern.recorded_of_ok ran offers),
        List.append_cons offers _ made]
      exact recorded _

/-! ## After a rewrite -/

/-- What a visit does after a rewrite. -/
def conclude (verify : Bool) (rule : Rule) (created : List NodeId) : Run σ (Option Bool) := do
  modify fun s => { s with tally := s.tally.record rule }
  if verify then checkAfter rule
  markAffected created
  return some true

/-- The nodes that a visit puts on the agenda after a rewrite; it can fail instead. -/
def concluded (verify : Bool) (rule : Rule) (created : List NodeId) (g : Region) :
    Except Failure (List NodeId) :=
  match if verify then g.verify else .ok (), g.affected created with
  | .error e, _ => .error (.invalidated rule e)
  | .ok (), .error e => .error (.refused e)
  | .ok (), .ok around => .ok around

theorem affected_of_concluded {g : Region} {around : List NodeId}
    (done : concluded verify rule created g = .ok around) : g.affected created = .ok around := by
  unfold concluded at done
  split at done
  next => cases done
  next => cases done
  next affected => cases done; exact affected

/-- What a visit does after a rewrite, told by what it is going to mark: the rewrite is counted in any case. -/
theorem conclude_run : (conclude verify rule created).run s =
    match concluded verify rule created s.region with
    | .ok around => .ok (some true)
        { s with agenda := s.agenda.markEach around, tally := s.tally.record rule }
    | .error e => .error e { s with tally := s.tally.record rule } := by
  have counting : (modify fun s => { s with tally := s.tally.record rule } : Run σ Unit).run s =
    .ok () { s with tally := s.tally.record rule } := rfl
  unfold conclude concluded
  rw [run_bind_ok counting, checkAfter_run]
  generalize (if verify = true then s.region.verify else .ok ()) = checked
  cases checked with
  | error e => rfl
  | ok =>
    have marking : (markAffected created).run { s with tally := s.tally.record rule } = _ :=
      markAffected_eq
    cases affected : s.region.affected created with
    | error e =>
      rw [affected] at marking
      exact run_bind_error marking
    | ok around =>
      rw [affected] at marking
      exact run_bind_ok marking

/-! ## One visit by any patterns -/

/-- What a visit leaves, where `agenda` and `tally` are those from before the offers: a rewrite is counted even if the
visit fails behind it, and only a visit that succeeds puts nodes on the agenda. -/
inductive Ended (agenda : Agenda) (tally : Tally) : Except Failure (Option (Pattern σ × List NodeId)) →
    EStateM.Result Failure (Session σ) (Option Bool) → Prop
  | unmatched {g' : Region} {state' : σ} :
    Ended agenda tally (.ok none) (.ok (some false) ⟨g', state', agenda, tally⟩)
  | refused {g' : Region} {state' : σ} {e : Failure} :
    Ended agenda tally (.error e) (.error e ⟨g', state', agenda, tally⟩)
  | stopped {g' : Region} {state' : σ} {p : Pattern σ} {created : List NodeId} {e : Failure} :
    Ended agenda tally (.ok (some (p, created))) (.error e ⟨g', state', agenda, tally.record p.rule⟩)
  | rewritten {g' : Region} {state' : σ} {p : Pattern σ} {created marks : List NodeId} :
    g'.affected created = .ok marks → Ended agenda tally (.ok (some (p, created)))
      (.ok (some true) ⟨g', state', agenda.markEach marks, tally.record p.rule⟩)

/-- The ways in which a visit can end, with the offers that it made. -/
inductive Turn (d : Driver σ) (s : Session σ) :
    List (Offer σ) → EStateM.Result Failure (Session σ) (Option Bool) → Prop
  | idle : s.agenda.next? = none → Turn d s [] (.ok none s)
  | gone {n : NodeId} {agenda : Agenda} : s.agenda.next? = some (n, agenda) →
    s.region.nodes.get? n = none → Turn d s [] (.ok (some false) { s with agenda := agenda })
  | offered {n : NodeId} {agenda : Agenda} {node : Node} {made : List (Offer σ)}
    {found : Except Failure (Option (Pattern σ × List NodeId))}
    {result : EStateM.Result Failure (Session σ) (Option Bool)} :
    s.agenda.next? = some (n, agenda) → s.region.nodes.get? n = some node →
    Asked n (d.patterns.forTag node.kind.tag) made found → Ended agenda (counted s.tally) found result →
    Turn d s made result

/-- Patterns that record are asked for the same kinds of nodes. -/
theorem forTag_recorded (d : Driver σ) (tag : NodeTag) :
    d.recorded.patterns.forTag tag = (d.patterns.forTag tag).map Pattern.recorded := by
  change (d.patterns.patterns.map Pattern.recorded).filter _ = _
  rw [List.filter_map]
  rfl

/-- A visit is its offers and what follows a rewrite. -/
theorem visit_run : (d.visit n tag).run s =
    match (offer n (d.patterns.forTag tag)).run s with
    | .ok none s' => .ok (some false) s'
    | .ok (some (p, created)) s' => (conclude d.verify p.rule created).run s'
    | .error e s' => .error e s' := by
  rw [visit]
  cases ran : (offer n (d.patterns.forTag tag)).run s with
  | ok found s' =>
    rw [run_bind_ok ran]
    cases found <;> rfl
  | error e s' => rw [run_bind_error ran]

theorem conclude_recorded : (conclude verify rule created).run (s.recall offers) =
    recalled id offers ((conclude verify rule created).run s) := by
  rw [conclude_run, conclude_run]
  change (match concluded verify rule created s.region with | .ok around => _ | .error e => _) = _
  cases concluded verify rule created s.region <;> rfl

/-- A visit by patterns that record goes as the visit by the patterns themselves. -/
theorem visit_recorded (tag : NodeTag) (made : List (Offer σ))
    (recorded : (offer n ((d.patterns.forTag tag).map Pattern.recorded)).run (s.recall offers) =
      recalled (Option.map fun found => (found.1.recorded, found.2)) made
        ((offer n (d.patterns.forTag tag)).run s)) :
    (d.recorded.visit n tag).run (s.recall offers) = recalled id made ((d.visit n tag).run s) := by
  rw [visit_run, visit_run, forTag_recorded, recorded]
  cases (offer n (d.patterns.forTag tag)).run s with
  | error e s' => rfl
  | ok found s' =>
    cases found with
    | none => rfl
    | some found => exact conclude_recorded

theorem Keeps.eq {s' : Session σ} (keeps : Keeps s s') :
    s' = ⟨s'.region, s'.state, s.agenda, s.tally⟩ :=
  Session.ext rfl rfl keeps.agenda keeps.tally

/-- What a visit comes to, once the node is offered. -/
theorem ended (keeps : Keeps s (stateAfter (offer n (d.patterns.forTag tag)) s)) :
    Ended s.agenda s.tally (answer (offer n (d.patterns.forTag tag)) s) ((d.visit n tag).run s) := by
  rw [visit_run, answer]
  cases ran : (offer n (d.patterns.forTag tag)).run s with
  | error e s' =>
    rw [stateAfter_error ran] at keeps
    rw [keeps.eq]
    exact .refused
  | ok found s' =>
  rw [stateAfter_ok ran] at keeps
  rw [keeps.eq]
  cases found with
  | none => exact .unmatched
  | some found =>
    rcases found with ⟨p, created⟩
    dsimp only
    rw [conclude_run]
    cases done : concluded d.verify p.rule created s'.region with
    | error e => exact .stopped
    | ok around => exact .rewritten (affected_of_concluded done)

/-- A visit ends in one of the ways of `Turn`, and patterns that record make no difference to it. -/
theorem turn (d : Driver σ) (s : Session σ) : ∃ made, d.Turn s made (d.step.run s) ∧
    ∀ offers, d.recorded.step.run (s.recall offers) = recalled id (offers ++ made) (d.step.run s) := by
  cases taken : s.agenda.next? with
  | none =>
    refine ⟨[], step_of_idle (d := d) taken ▸ .idle taken, fun offers => ?_⟩
    rw [step_of_idle taken, List.append_nil]
    exact step_of_idle taken
  | some first =>
  rcases first with ⟨n, agenda⟩
  cases found : s.region.nodes.get? n with
  | none =>
    refine ⟨[], step_of_none (d := d) taken found ▸ .gone taken found, fun offers => ?_⟩
    rw [step_of_none taken found, List.append_nil]
    exact step_of_none taken found
  | some node =>
  rw [step_of_get? taken found]
  rcases asked n (d.patterns.forTag node.kind.tag)
    { s with agenda := agenda, tally := counted s.tally } with ⟨made, asked, keeps, recorded⟩
  refine ⟨made, .offered taken found asked (ended keeps), fun offers => ?_⟩
  exact (step_of_get? (s := s.recall offers) taken found).trans (visit_recorded _ _ (recorded offers))

/-! ## The offers of a visit -/

/-- The offers that a visit makes, as patterns that record them see them. -/
def offersIn (d : Driver σ) (s : Session σ) : List (Offer σ) :=
  (stateAfter d.recorded.step (s.recall [])).state.2

theorem offersIn_eq (recorded : ∀ offers, d.recorded.step.run (s.recall offers) =
    recalled id (offers ++ made) (d.step.run s)) : d.offersIn s = made := by
  rw [offersIn, stateAfter, recorded]
  cases d.step.run s <;> rfl

/-- The offers of a visit are those of one of its ways to end. -/
theorem turn_offersIn (d : Driver σ) (s : Session σ) : d.Turn s (d.offersIn s) (d.step.run s) := by
  rcases d.turn s with ⟨made, turn, recorded⟩
  rwa [offersIn_eq recorded]

/-- A driver whose patterns record does what the driver does, and adds the offers to the record. -/
theorem recorded_step (d : Driver σ) (s : Session σ) (offers : List (Offer σ)) :
    d.recorded.step.run (s.recall offers) =
      recalled id (offers ++ d.offersIn s) (d.step.run s) := by
  rcases d.turn s with ⟨made, -, recorded⟩
  rw [offersIn_eq recorded, recorded]

namespace Asked

variable {result : Except Failure (Option (Pattern σ × List NodeId))}

/-- Patterns are passed over only behind one that rewrites or refuses. -/
theorem exists_unasked (asked : Asked n ps made result) :
    ∃ unasked, ps = made.map Offer.pattern ++ unasked ∧
      (unasked ≠ [] → ∃ last, made.getLast? = some last ∧ last.answer ≠ .ok .noMatch) := by
  induction asked with
  | unmatched => exact ⟨[], rfl, fun some => absurd rfl some⟩
  | rewritten => exact ⟨_, rfl, fun _ => ⟨_, rfl, nofun⟩⟩
  | refused => exact ⟨_, rfl, fun _ => ⟨_, rfl, nofun⟩⟩
  | @passed p rest made answer asked ih =>
    rcases ih with ⟨unasked, split, stops⟩
    refine ⟨unasked, congrArg (p :: ·) split, fun some => ?_⟩
    rcases stops some with ⟨last, isLast, answered⟩
    refine ⟨last, ?_, answered⟩
    rw [List.getLast?_cons, isLast, Option.getD_some]

/-- Only the visited node is offered. -/
theorem node_eq (asked : Asked n ps made result) : ∀ o ∈ made, o.node = n := by
  induction asked with
  | unmatched => exact List.forall_mem_nil _
  | rewritten => exact List.forall_mem_singleton.mpr rfl
  | refused => exact List.forall_mem_singleton.mpr rfl
  | passed asked ih => exact List.forall_mem_cons.mpr ⟨rfl, ih⟩

/-- Only the last answer can be another one than that there is no match. -/
theorem noMatch_of_mem_dropLast (asked : Asked n ps made result) :
    ∀ o ∈ made.dropLast, o.answer = .ok .noMatch := by
  induction asked with
  | unmatched => exact List.forall_mem_nil _
  | rewritten => exact List.forall_mem_nil _
  | refused => exact List.forall_mem_nil _
  | @passed p rest made answer asked ih =>
    cases made with
    | nil => exact List.forall_mem_nil _
    | cons o later =>
      rw [List.dropLast_cons_of_ne_nil (List.cons_ne_nil o later)]
      exact List.forall_mem_cons.mpr ⟨rfl, ih⟩

end Asked

/-- A visit of a node of the region asks the patterns for its kind. -/
theorem Turn.asked {result : EStateM.Result Failure (Session σ) (Option Bool)}
    (turn : d.Turn s made result) (taken : s.agenda.next? = some (n, agenda))
    (found : s.region.nodes.get? n = some node) :
    ∃ a, Asked n (d.patterns.forTag node.kind.tag) made a := by
  cases turn with
  | idle idle => cases taken.symm.trans idle
  | gone taken' absent =>
    cases taken.symm.trans taken'
    cases found.symm.trans absent
  | offered taken' found' asked =>
    cases taken.symm.trans taken'
    cases found.symm.trans found'
    exact ⟨_, asked⟩

/-- Pattern sets hold what was pushed by falling benefit, and of equal benefit in the order of pushing, whether they
were empty at the start or held rules; so the order of pushing matters only within a benefit. A visit of a node offers
it, in the order of the set, to the patterns for its kind up to the first that rewrites or refuses. -/
theorem priority_honoured (settings : Settings) (ps : List (Pattern σ)) :
    (PatternSet.empty.pushAll ps).Prioritises ps ∧
    (settings.patterns.pushAll ps).Prioritises (settings.rules.map Rule.pattern ++ ps) ∧
    (∀ ps' : List (Pattern σ),
      (∀ benefit, PatternSet.ofBenefit benefit ps = PatternSet.ofBenefit benefit ps') →
      PatternSet.empty.pushAll ps = PatternSet.empty.pushAll ps' ∧
        settings.patterns.pushAll ps = settings.patterns.pushAll ps') ∧
    ∀ (d : Driver σ) (s : Session σ) (n : NodeId) (rest : List NodeId) (kind : NodeKind),
      s.agenda.queue = n :: rest → s.region.kind n = .ok kind →
      (∀ offers, d.recorded.step.run (s.recall offers) =
        recalled id (offers ++ d.offersIn s) (d.step.run s)) ∧
      (∃ unasked, d.patterns.patterns.filter (fun p => p.root = kind.tag) =
          (d.offersIn s).map Offer.pattern ++ unasked ∧
        (unasked ≠ [] → ∃ last, (d.offersIn s).getLast? = some last ∧ last.answer ≠ .ok .noMatch)) ∧
      (∀ o ∈ d.offersIn s, o.node = n) ∧
      ∀ o ∈ (d.offersIn s).dropLast, o.answer = .ok .noMatch := by
  have empty : (PatternSet.empty.pushAll ps).Prioritises ps := PatternSet.prioritises_empty.pushAll ps
  have rules : (settings.patterns.pushAll ps).Prioritises (settings.rules.map Rule.pattern ++ ps) :=
    settings.prioritises_patterns.pushAll ps
  refine ⟨empty, rules, fun ps' agree => ⟨?fromEmpty, ?fromRules⟩,
    fun d s n rest kind first live => ?visit⟩
  case fromEmpty => exact empty.eq (PatternSet.prioritises_empty.pushAll ps') agree
  case fromRules =>
    refine rules.eq (settings.prioritises_patterns.pushAll ps') fun benefit => ?_
    rw [PatternSet.ofBenefit_append, agree, PatternSet.ofBenefit_append]
  case visit =>
    have taken : s.agenda.next? = some (n, ⟨rest, s.agenda.waiting.erase n⟩) :=
      Agenda.next?_eq_some_iff.mpr ⟨first, rfl⟩
    rcases Region.kind_eq_ok_iff.mp live with ⟨node, found, rfl⟩
    rcases (d.turn_offersIn s).asked taken found with ⟨result, asked⟩
    exact ⟨d.recorded_step s, asked.exists_unasked, asked.node_eq, asked.noMatch_of_mem_dropLast⟩

/-- Pushed after a pattern of less benefit, two of equal benefit come before it in the order in which they were pushed,
and pushing the first two the other way round gives the same sets. An apply is offered to all but the pattern for
loads. -/
theorem priority_honoured_sharedField :
    let low : Pattern Unit := Rule.rootIntroduction.pattern
    let high : Pattern Unit := Rule.outputRerouting.pattern
    let equal : Pattern Unit := { Rule.producerInlining.pattern with benefit := 2 }
    let d : Driver Unit := ⟨({} : Settings).patterns.pushAll [low, high, equal], true⟩
    let s : Session Unit :=
      { region := Region.sharedField, state := (), agenda := Agenda.empty.mark ⟨1, 0⟩ }
    (PatternSet.empty.pushAll [low, high, equal]).patterns = [high, equal, low] ∧
    (∀ benefit, PatternSet.ofBenefit benefit [low, high, equal] =
      PatternSet.ofBenefit benefit [high, low, equal]) ∧
    PatternSet.empty.pushAll [low, high, equal] = PatternSet.empty.pushAll [high, low, equal] ∧
    ({} : Settings).patterns.pushAll [low, high, equal] =
      ({} : Settings).patterns.pushAll [high, low, equal] ∧
    s.agenda.queue = [⟨1, 0⟩] ∧
    s.region.kind ⟨1, 0⟩ = .ok (.apply [⟨0, 0⟩] (.identity .float64)) ∧
    (d.offersIn s).map (fun o => (o.pattern.rule, o.pattern.benefit)) =
      [(.producerInlining, 3), (.outputRerouting, 2), (.outputRerouting, 2), (.producerInlining, 2)] ∧
    (∀ o ∈ d.offersIn s, o.node = ⟨1, 0⟩) ∧ ∀ o ∈ (d.offersIn s).dropLast, o.answer = .ok .noMatch := by
  intro low high equal d s
  have honoured := priority_honoured (σ := Unit) {} [low, high, equal]
  have agree : ∀ benefit, PatternSet.ofBenefit benefit [low, high, equal] =
      PatternSet.ofBenefit benefit [high, low, equal] := PatternSet.ofBenefit_swap (by decide)
  have sorted : (PatternSet.empty.pushAll [low, high, equal]).patterns = [high, equal, low] := by
    refine PatternSet.eq_of_ofBenefit_eq honoured.1.falling ?_ fun benefit => ?_
    · simp [low, high, equal, Rule.pattern, Rule.benefit]
    · rw [honoured.1.stable, agree]
      exact PatternSet.ofBenefit_cons_congr (PatternSet.ofBenefit_swap (by decide) benefit)
  have same := honoured.2.2.1 _ agree
  have visit := honoured.2.2.2 d s ⟨1, 0⟩ [] (.apply [⟨0, 0⟩] (.identity .float64)) rfl rfl
  exact ⟨sorted, agree, same.1, same.2, rfl, rfl, by decide +kernel, visit.2.2.1, visit.2.2.2⟩

end Driver

end KernelFusion
