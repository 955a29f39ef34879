import KernelFusion.Proofs.Rewrite.Agenda

/-!
# The history of the agenda

A history tells in which order nodes were put on the agenda and taken off it. A node waits from its first mark since
it was last taken off (`Waits`); marks of a node that waits already change nothing. The agenda tracks its history
(`Agenda.Tracks`): its queue has the nodes that wait, in the order of the marks since which they wait, so that the
node that is taken off next is the one that waits longest (`Due`). One lemma for each move says so.
-/

namespace KernelFusion

/-- A node is put on the agenda or taken off it. -/
inductive Move where
  | marked (n : NodeId)
  | popped (n : NodeId)
deriving DecidableEq

variable {moves : List Move} {move move' : Move} {n m : NodeId} {i j : Nat}

theorem getElem?_concat_eq_some_iff :
    (moves ++ [move])[i]? = some move' ↔
      moves[i]? = some move' ∨ i = moves.length ∧ move' = move := by
  rcases Nat.lt_trichotomy i moves.length with before | last | behind
  · rw [List.getElem?_append_left before]
    simp [Nat.ne_of_lt before]
  · subst last
    rw [List.getElem?_concat_length]
    simp [eq_comm]
  · have length : (moves ++ [move]).length ≤ i := by
      rw [List.length_append, List.length_singleton]
      exact behind
    rw [List.getElem?_eq_none length, List.getElem?_eq_none (Nat.le_of_lt behind)]
    simp [Nat.ne_of_gt behind]

theorem lt_of_getElem?_eq_some (found : moves[i]? = some move) : i < moves.length :=
  (List.getElem?_eq_some_iff.mp found).1

/-- What stands at a place stays there. -/
theorem getElem?_concat_of_lt (lt : i < moves.length) :
    (moves ++ [move])[i]? = some move' ↔ moves[i]? = some move' := by
  rw [List.getElem?_append_left lt]

/-- Another move is not of the last kind. -/
theorem getElem?_concat_of_ne (ne : move' ≠ move) :
    (moves ++ [move])[i]? = some move' ↔ moves[i]? = some move' := by
  rw [getElem?_concat_eq_some_iff, or_iff_left fun last => ne last.2]

/-- The node waits since its mark at a place of the history: it was not taken off behind it, and an earlier mark was
followed by taking it off before. -/
structure Waits (moves : List Move) (n : NodeId) (i : Nat) : Prop where
  marked : moves[i]? = some (.marked n)
  kept : ∀ k, i < k → moves[k]? ≠ some (.popped n)
  first : ∀ j < i, moves[j]? = some (.marked n) → ∃ k, j < k ∧ k < i ∧ moves[k]? = some (.popped n)

/-- The node waits, and no node waits longer. -/
def Due (moves : List Move) (n : NodeId) : Prop :=
  ∃ i, Waits moves n i ∧ ∀ m j, Waits moves m j → i ≤ j

theorem Waits.lt (waits : Waits moves n i) : i < moves.length := lt_of_getElem?_eq_some waits.marked

/-- A node that waits has done so since one mark. -/
theorem Waits.unique (left : Waits moves n i) (right : Waits moves n j) : i = j := by
  rcases Nat.lt_trichotomy i j with lt | same | gt
  · rcases right.first i lt left.marked with ⟨k, behind, -, popped⟩
    exact absurd popped (left.kept k behind)
  · exact same
  · rcases left.first j gt right.marked with ⟨k, behind, -, popped⟩
    exact absurd popped (right.kept k behind)

/-- A node that was marked and not taken off since waits. -/
theorem exists_waits (marked : moves[i]? = some (.marked n))
    (kept : ∀ k, i < k → moves[k]? ≠ some (.popped n)) : ∃ j, Waits moves n j := by
  induction i using Nat.strongRecOn with
  | ind i ih =>
    by_cases earlier : ∃ j < i, moves[j]? = some (.marked n) ∧
        ∀ k, j < k → moves[k]? ≠ some (.popped n)
    · rcases earlier with ⟨j, lt, marked', kept'⟩
      exact ih j lt marked' kept'
    · refine ⟨i, marked, kept, fun j lt marked' => ?_⟩
      by_contra none
      refine earlier ⟨j, lt, marked', fun k behind popped => ?_⟩
      rcases Nat.lt_trichotomy k i with before | same | after
      · exact none ⟨k, behind, before, popped⟩
      · subst same
        cases marked.symm.trans popped
      · exact kept k after popped

/-! ## What a move changes -/

/-- A node goes on waiting through every move but its being taken off. -/
theorem Waits.concat (waits : Waits moves m i) (ne : move ≠ .popped m) :
    Waits (moves ++ [move]) m i where
  marked := (getElem?_concat_of_lt waits.lt).mpr waits.marked
  kept k behind := mt (getElem?_concat_of_ne ne.symm).mp (waits.kept k behind)
  first j before earlier := by
    rcases waits.first j before ((getElem?_concat_of_lt (before.trans waits.lt)).mp earlier) with
      ⟨k, after, within, popped⟩
    exact ⟨k, after, within, (getElem?_concat_of_ne ne.symm).mpr popped⟩

/-- What waits before the last move waited without it. -/
theorem Waits.of_concat (waits : Waits (moves ++ [move]) m i) (lt : i < moves.length) :
    Waits moves m i where
  marked := (getElem?_concat_of_lt lt).mp waits.marked
  kept k behind popped := waits.kept k behind
    ((getElem?_concat_of_lt (lt_of_getElem?_eq_some popped)).mpr popped)
  first j before earlier := by
    rcases waits.first j before ((getElem?_concat_of_lt (before.trans lt)).mpr earlier) with
      ⟨k, after, within, popped⟩
    exact ⟨k, after, within, (getElem?_concat_of_lt (within.trans lt)).mp popped⟩

/-- A node that does not wait does so from its mark on. -/
theorem waits_length (idle : ∀ j, ¬ Waits moves n j) :
    Waits (moves ++ [.marked n]) n moves.length where
  marked := List.getElem?_concat_length
  kept k behind popped := by
    rw [getElem?_concat_of_ne Move.noConfusion] at popped
    exact Nat.lt_asymm behind (lt_of_getElem?_eq_some popped)
  first j before earlier := by
    rw [getElem?_concat_of_lt before] at earlier
    by_contra none
    have kept : ∀ k, j < k → moves[k]? ≠ some (.popped n) := fun k behind popped =>
      none ⟨k, behind, lt_of_getElem?_eq_some popped, (getElem?_concat_of_ne Move.noConfusion).mpr popped⟩
    rcases exists_waits earlier kept with ⟨j', waits⟩
    exact idle j' waits

/-- A mark makes a node wait that does not, and changes nothing else. -/
theorem waits_marked_iff : Waits (moves ++ [.marked n]) m i ↔
    Waits moves m i ∨ (m = n ∧ i = moves.length ∧ ∀ j, ¬ Waits moves n j) := by
  constructor
  · intro waits
    rcases getElem?_concat_eq_some_iff.mp waits.marked with marked | ⟨rfl, same⟩
    · exact .inl (waits.of_concat (lt_of_getElem?_eq_some marked))
    · rw [Move.marked.injEq] at same
      subst same
      refine .inr ⟨rfl, rfl, fun j waits' => ?_⟩
      exact Nat.ne_of_lt waits'.lt (Waits.unique (waits'.concat Move.noConfusion) waits)
  · rintro (waits | ⟨rfl, rfl, idle⟩)
    · exact waits.concat Move.noConfusion
    · exact waits_length idle

/-- A node that is taken off waits no longer, and nothing else changes. -/
theorem waits_popped_iff : Waits (moves ++ [.popped n]) m i ↔ m ≠ n ∧ Waits moves m i := by
  constructor
  · intro waits
    have marked := (getElem?_concat_of_ne Move.noConfusion).mp waits.marked
    have lt := lt_of_getElem?_eq_some marked
    refine ⟨?_, waits.of_concat lt⟩
    rintro rfl
    exact waits.kept moves.length lt List.getElem?_concat_length
  · rintro ⟨ne, waits⟩
    exact waits.concat fun same => ne (Move.popped.inj same).symm

/-! ## The agenda and its history -/

namespace Agenda

variable {a a' : Agenda}

/-- The queue has the nodes that wait, those that wait longer before others. -/
structure Tracks (a : Agenda) (moves : List Move) : Prop where
  exact : a.Exact
  mem_queue : ∀ n, n ∈ a.queue ↔ ∃ i, Waits moves n i
  sorted : a.queue.Pairwise fun n m => ∀ i j, Waits moves n i → Waits moves m j → i < j

theorem tracks_empty : empty.Tracks [] := by
  refine ⟨exact_empty, fun n => iff_of_false nofun ?_, .nil⟩
  rintro ⟨i, waits⟩
  exact Nat.not_lt_zero i waits.lt

namespace Tracks

variable (tracks : a.Tracks moves)

include tracks

theorem waits_of_mem (member : m ∈ a.queue) (waits : Waits (moves ++ [.marked n]) m i) :
    Waits moves m i := by
  rcases waits_marked_iff.mp waits with waits | ⟨rfl, -, idle⟩
  · exact waits
  · rcases (tracks.mem_queue m).mp member with ⟨j, since⟩
    exact absurd since (idle j)

/-- A node that waits already goes on waiting since its earlier mark, and any other comes last. -/
theorem mark (n : NodeId) : (a.mark n).Tracks (moves ++ [.marked n]) := by
  refine ⟨tracks.exact.mark n, fun m => ?mem_queue, ?sorted⟩
  case mem_queue =>
    rw [mem_queue_mark tracks.exact.proper, tracks.mem_queue]
    simp only [waits_marked_iff, exists_or]
    refine or_congr_right' fun absent => ⟨?_, fun ⟨i, same, _⟩ => same⟩
    rintro rfl
    exact ⟨_, rfl, rfl, fun j waits => absent ⟨j, waits⟩⟩
  case sorted =>
    have before : a.queue.Pairwise fun m m' => ∀ i j, Waits (moves ++ [.marked n]) m i →
        Waits (moves ++ [.marked n]) m' j → i < j :=
      tracks.sorted.imp_of_mem fun left right less i j waits waits' =>
        less i j (tracks.waits_of_mem left waits) (tracks.waits_of_mem right waits')
    unfold Agenda.mark
    split
    case isTrue => exact before
    case isFalse absent =>
      refine List.pairwise_append.mpr ⟨before, List.pairwise_singleton _ n, ?_⟩
      intro m member m' isNew i j waits waits'
      cases List.mem_singleton.mp isNew
      have lt := (tracks.waits_of_mem member waits).lt
      rcases waits_marked_iff.mp waits' with waits' | ⟨-, rfl, -⟩
      · exact absurd ((tracks.exact.mem_waiting _).mpr ((tracks.mem_queue _).mpr ⟨j, waits'⟩)) absent
      · exact lt

theorem markEach (ns : List NodeId) : (a.markEach ns).Tracks (moves ++ ns.map .marked) := by
  induction ns generalizing a moves with
  | nil =>
    rw [List.map_nil, List.append_nil]
    exact tracks
  | cons n rest ih =>
    rw [List.map_cons, List.append_cons]
    exact ih (tracks.mark n)

/-- The node that is taken off is due. -/
theorem due (taken : a.next? = some (n, a')) : Due moves n := by
  rcases next?_eq_some_iff.mp taken with ⟨queue, -⟩
  have sorted := tracks.sorted
  rw [queue] at sorted
  rcases (tracks.mem_queue n).mp (queue ▸ List.mem_cons_self) with ⟨i, since⟩
  refine ⟨i, since, fun m j waits => ?_⟩
  have member := (tracks.mem_queue m).mpr ⟨j, waits⟩
  rw [queue] at member
  rcases List.mem_cons.mp member with rfl | behind
  · exact Nat.le_of_eq (since.unique waits)
  · exact Nat.le_of_lt (List.rel_of_pairwise_cons sorted behind i j since waits)

/-- The node that is taken off is the one that has waited longest, because the queue is in the order of the marks. -/
theorem next (taken : a.next? = some (n, a')) : a'.Tracks (moves ++ [.popped n]) := by
  rcases next?_eq_some_iff.mp taken with ⟨queue, -⟩
  have sorted := tracks.sorted
  have nodup := tracks.exact.nodup
  rw [queue] at sorted nodup
  refine ⟨tracks.exact.next taken, fun m => ?mem_queue, ?sorted⟩
  case mem_queue =>
    have member := tracks.mem_queue m
    rw [queue, List.mem_cons] at member
    simp only [waits_popped_iff, exists_and_left, ← member]
    constructor
    · intro behind
      exact ⟨fun same => (List.nodup_cons.mp nodup).1 (same ▸ behind), .inr behind⟩
    · intro other
      exact other.2.resolve_left other.1
  case sorted =>
    exact sorted.of_cons.imp fun less i j waits waits' =>
      less i j (waits_popped_iff.mp waits).2 (waits_popped_iff.mp waits').2

end Tracks

end Agenda

/-- Each node that was taken off was due then. -/
def InTurn (moves : List Move) : Prop :=
  ∀ before n after, moves = before ++ .popped n :: after → Due before n

theorem inTurn_nil : InTurn [] := by
  intro before n after split
  cases before <;> cases split

/-- Nodes are taken off in turn if they were before, and the last move takes off one that is due. -/
theorem inTurn_concat_iff : InTurn (moves ++ [move]) ↔
    InTurn moves ∧ ∀ n, move = .popped n → Due moves n := by
  constructor
  · intro inTurn
    refine ⟨fun before n after split => inTurn before n (after ++ [move]) ?_, fun n same => ?_⟩
    · rw [split, List.append_assoc, List.cons_append]
    · exact inTurn moves n [] (same ▸ rfl)
  · rintro ⟨inTurn, last⟩ before n after split
    rcases List.eq_nil_or_concat after with rfl | ⟨after', move', rfl⟩
    · rcases List.append_inj' split rfl with ⟨rfl, same⟩
      exact last n (List.cons.inj same).1
    · rw [List.concat_eq_append, ← List.cons_append, ← List.append_assoc] at split
      exact inTurn before n after' (List.append_inj' split rfl).1

theorem InTurn.append_marked (inTurn : InTurn moves) (ns : List NodeId) :
    InTurn (moves ++ ns.map .marked) := by
  induction ns generalizing moves with
  | nil =>
    rw [List.map_nil, List.append_nil]
    exact inTurn
  | cons n rest ih =>
    rw [List.map_cons, List.append_cons]
    exact ih (inTurn_concat_iff.mpr ⟨inTurn, nofun⟩)

end KernelFusion
