import KernelFusion.Proofs.Rewrite.Application

/-!
# The shape of a rewrite

What the rules have in common when one only asks which node reads which. Some nodes go and others come in; one of
the new nodes takes over for each that went; and the new nodes read, besides each other, what the old ones read
(`Reshaped`).

From this alone it follows that a rule which matches after a rewrite, at a node that is not new and does not read a
new node, has matched there before. So a rewrite makes new matches only at the new nodes and at their readers
(`Rewrote.matches_of_matches`).
-/

namespace KernelFusion.Region

variable {g g' : Region} {n m p : NodeId} {rule : Rule} {gone made created : List NodeId}
  {f : ValueId → ValueId} {heir : NodeId → NodeId}

/-- Nodes went and others came in, one of which takes over for each that went. The new nodes read the nodes that
the old ones read. -/
structure Reshaped (g g' : Region) (gone made : List NodeId) (f : ValueId → ValueId)
    (heir : NodeId → NodeId) : Prop where
  revision : Revision g g' gone made f
  follows : Follows g g' gone f heir
  same : ∀ m, m ∉ gone → heir m = m
  taken : ∀ m ∈ gone, heir m ∈ made
  live : ∀ n ∈ made, ∃ node, g'.nodes.get? n = some node
  lived : ∀ n ∈ gone, ∃ node, g.nodes.get? n = some node
  nodup_made : made.Nodup
  nodup_gone : gone.Nodup
  /-- What a new node reads, an old one has read. -/
  source : ∀ a ∈ made, ∀ m, m ∉ made → g'.Reads a m → ∃ a₀ ∈ gone, g.Reads a₀ m
  /-- What two new nodes read, two old ones have read. -/
  sources : ∀ a ∈ made, ∀ b ∈ made, a ≠ b → ∀ m, m ∉ made → g'.Reads a m → g'.Reads b m →
    ∃ a₀ ∈ gone, ∃ b₀ ∈ gone, a₀ ≠ b₀ ∧ g.Reads a₀ m ∧ g.Reads b₀ m
  /-- What an old node read, a new one reads. -/
  target : ∀ a ∈ gone, ∀ m, m ∉ gone → g.Reads a m → ∃ a' ∈ made, g'.Reads a' m

/-! ## The rules -/

/-- What root introduction leaves, without what is particular to it. -/
theorem Rooted.reshaped {r : Rooting} (rooted : g.Rooted g' r) (sound : g.Sound) :
    g.Reshaped g' [r.load] [r.copy, r.root] r.substitution r.heir where
  revision := rooted.revision
  follows := rooted.follows sound.consistent
  same m remains := if_neg (by simpa using remains)
  taken m member := by
    rw [Rooting.heir, if_pos (List.mem_singleton.mp member)]
    simp
  live n member := by
    rcases List.mem_pair.mp member with rfl | rfl
    · exact ⟨_, rooted.copyAt⟩
    · exact ⟨_, rooted.rootAt⟩
  lived n member := List.mem_singleton.mp member ▸ ⟨_, rooted.loadAt⟩
  nodup_made := by simpa using rooted.between.ne
  nodup_gone := List.nodup_singleton _
  source a member m old reads := by
    rcases List.mem_pair.mp member with rfl | rfl
    · exact absurd reads rooted.not_reads_copy
    · rw [rooted.reads_root_iff] at reads
      simp [reads] at old
  sources a memberA b memberB ne m old readsA readsB := by
    rcases List.mem_pair.mp memberA with rfl | rfl
    · exact absurd readsA rooted.not_reads_copy
    · rw [rooted.reads_root_iff] at readsA
      simp [readsA] at old
  target a member m remains reads := by
    rcases reads with ⟨node, v, found, operand, -⟩
    rw [List.mem_singleton.mp member, rooted.loadAt, Option.some.injEq] at found
    rw [← found] at operand
    cases operand

/-- What rerouting leaves, without what is particular to it. -/
theorem Rerouted.reshaped {r : Rerouting} (rerouted : g.Rerouted g' r) (sound : g.Sound) :
    g.Reshaped g' [r.consumer, r.producer] [r.copy, r.rebuilt] r.substitution r.heir := by
  have c := sound.consistent
  have o := sound.ordered
  have ofCopy {m : NodeId} : g'.Reads r.copy m ↔ g.Reads r.producer m := rerouted.reads_copy_iff c o
  have ofRebuilt {m : NodeId} (old : m ∉ [r.copy, r.rebuilt]) (reads : g'.Reads r.rebuilt m) :
      g.Reads r.consumer m := by
    rcases (rerouted.reads_rebuilt_iff c o).mp reads with same | old
    · simp [same] at old
    · exact old.1
  have apart : r.consumer ≠ r.producer := (o _ _ rerouted.reroutable.reads).ne.symm
  refine ⟨rerouted.revision, rerouted.follows c, fun m remains => if_neg (by simpa using remains),
    ?taken, ?live, ?lived, ?nodup_made, by simpa using apart, ?source, ?sources, ?target⟩
  case lived =>
    intro n member
    rcases List.mem_pair.mp member with rfl | rfl
    · exact ⟨_, rerouted.reroutable.consumerAt⟩
    · exact ⟨_, rerouted.reroutable.producerAt⟩
  case nodup_made => simpa using rerouted.between.ne
  case taken =>
    intro m member
    rw [Rerouting.heir, if_pos (by simpa using member)]
    simp
  case live =>
    intro n member
    rcases List.mem_pair.mp member with rfl | rfl
    · exact ⟨_, rerouted.copyAt⟩
    · exact ⟨_, rerouted.rebuiltAt⟩
  case source =>
    intro a member m old reads
    rcases List.mem_pair.mp member with rfl | rfl
    · exact ⟨r.producer, by simp, ofCopy.mp reads⟩
    · exact ⟨r.consumer, by simp, ofRebuilt old reads⟩
  case sources =>
    intro a memberA b memberB ne m old readsA readsB
    have both (readsCopy : g'.Reads r.copy m) (readsRebuilt : g'.Reads r.rebuilt m) :
        ∃ a₀ ∈ [r.consumer, r.producer], ∃ b₀ ∈ [r.consumer, r.producer], a₀ ≠ b₀ ∧
          g.Reads a₀ m ∧ g.Reads b₀ m :=
      ⟨r.consumer, by simp, r.producer, by simp, apart, ofRebuilt old readsRebuilt,
        ofCopy.mp readsCopy⟩
    rcases List.mem_pair.mp memberA with rfl | rfl
    · have isRebuilt : b = r.rebuilt := (List.mem_pair.mp memberB).resolve_left ne.symm
      exact both readsA (isRebuilt ▸ readsB)
    · have isCopy : b = r.copy := (List.mem_pair.mp memberB).resolve_right ne.symm
      exact both (isCopy ▸ readsB) readsA
  case target =>
    intro a member m remains reads
    rcases List.mem_pair.mp member with rfl | rfl
    · have other : m ≠ r.producer := fun same => remains (by simp [same])
      exact ⟨r.rebuilt, by simp, (rerouted.reads_rebuilt_iff c o).mpr (.inr ⟨reads, other⟩)⟩
    · exact ⟨r.copy, by simp, ofCopy.mpr reads⟩

/-- What inlining leaves, without what is particular to it. -/
theorem Merged.reshaped {r : Inlining} (merged : g.Merged g' r) (sound : g.Sound) :
    g.Reshaped g' [r.consumer, r.producer] [r.merged] r.substitution r.heir := by
  have c := sound.consistent
  have o := sound.ordered
  refine ⟨merged.revision, merged.follows c, fun m remains => if_neg (by simpa using remains),
    ?taken, ?live, ?lived, List.nodup_singleton _, ?nodup_gone, ?source, ?sources, ?target⟩
  case lived =>
    intro n member
    rcases List.mem_pair.mp member with rfl | rfl
    · exact ⟨_, merged.inlinable.consumerAt⟩
    · exact ⟨_, merged.inlinable.producerAt⟩
  case nodup_gone => simpa using (merged.inlinable.producer_first o).ne.symm
  case taken =>
    intro m member
    rw [Inlining.heir, if_pos (by simpa using member)]
    simp
  case live =>
    intro n member
    exact List.mem_singleton.mp member ▸ ⟨_, merged.mergedAt⟩
  case source =>
    intro a member m old reads
    rw [List.mem_singleton.mp member, merged.reads_merged_iff c o] at reads
    rcases reads with reads | reads
    · exact ⟨r.consumer, by simp, reads.1⟩
    · exact ⟨r.producer, by simp, reads⟩
  case sources =>
    intro a memberA b memberB ne
    exact absurd ((List.mem_singleton.mp memberA).trans (List.mem_singleton.mp memberB).symm) ne
  case target =>
    intro a member m remains reads
    refine ⟨r.merged, by simp, (merged.reads_merged_iff c o).mpr ?_⟩
    rcases List.mem_pair.mp member with rfl | rfl
    · exact .inl ⟨reads, fun same => remains (by simp [same])⟩
    · exact .inr reads

/-- Every rewrite takes away the node at which the rule was applied. -/
theorem Rewrote.reshaped (rewrote : g.Rewrote g' rule n created) (sound : g.Sound) :
    ∃ gone f heir, n ∈ gone ∧ g.Reshaped g' gone created f heir := by
  cases rewrote with
  | rooted rooted => exact ⟨_, _, _, List.mem_cons_self, rooted.reshaped sound⟩
  | rerouted rerouted => exact ⟨_, _, _, List.mem_cons_self, rerouted.reshaped sound⟩
  | merged merged => exact ⟨_, _, _, List.mem_cons_self, merged.reshaped sound⟩

/-! ## Nodes that a rewrite leaves alone -/

namespace Reshaped

variable (reshaped : g.Reshaped g' gone made f heir)

include reshaped

/-- A node of the new region is new or has been there. -/
theorem exists_old (live : n ∈ g'.order) (c' : g'.Consistent) (old : n ∉ made) :
    n ∉ gone ∧ ∃ node, g.nodes.get? n = some node := by
  rcases (c'.mem_order n).mp live with ⟨node, found⟩
  exact (reshaped.revision.back n node found).resolve_left old

/-- A node that is still there does what it did, up to the values it reads. -/
theorem tagOf_eq {node : Node} (found : g.nodes.get? n = some node) (remains : n ∉ gone) :
    g'.tagOf n = g.tagOf n := by
  rw [tagOf_of_get? (reshaped.revision.kept n node found remains), tagOf_of_get? found, Node.rename,
    NodeKind.tag_mapOperands]

/-- A node that is neither new nor taken over for is read by the nodes that read it before. -/
theorem reads_old_iff {node : Node} (found : g.nodes.get? n = some node) (remains : n ∉ gone)
    (remains' : m ∉ gone) (old : m ∉ made) : g'.Reads n m ↔ g.Reads n m := by
  rw [reshaped.revision.reads_iff reshaped.follows found remains]
  constructor
  · intro reads
    rcases reads with ⟨m₀, reads, taken⟩
    by_cases member : m₀ ∈ gone
    · exact absurd (taken ▸ reshaped.taken m₀ member) old
    · rwa [← taken, reshaped.same m₀ member]
  · intro reads
    exact ⟨m, reads, reshaped.same m remains'⟩

theorem exports_old_iff (remains : m ∉ gone) (old : m ∉ made) : g'.Exports m ↔ g.Exports m := by
  rw [reshaped.revision.exports_iff reshaped.follows]
  constructor
  · intro exported
    rcases exported with ⟨m₀, exported, taken⟩
    by_cases member : m₀ ∈ gone
    · exact absurd (taken ▸ reshaped.taken m₀ member) old
    · rwa [← taken, reshaped.same m₀ member]
  · intro exported
    exact ⟨m, exported, reshaped.same m remains⟩

/-- The nodes that read an old node are old, or stand for nodes that went and read it. -/
theorem reads_of_reads (sound' : g'.Sound) (remains : m ∉ gone) (old : m ∉ made)
    (reads : g'.Reads n m) :
    n ∉ made ∧ n ∉ gone ∧ g.Reads n m ∨ n ∈ made ∧ ∃ n₀ ∈ gone, g.Reads n₀ m := by
  by_cases member : n ∈ made
  · exact .inr ⟨member, reshaped.source n member m old reads⟩
  · rcases reshaped.exists_old (sound'.consistent.reads_live reads).1 sound'.consistent member with
      ⟨remains', node, found⟩
    exact .inl ⟨member, remains', (reshaped.reads_old_iff found remains' remains old).mp reads⟩

/-- A node that is read goes on being read, if not by its reader then by a node in whose place that stood. -/
theorem exists_reads (sound : g.Sound) (remains : m ∉ gone) (old : m ∉ made)
    (reads : g.Reads n m) : n ∉ gone ∧ g'.Reads n m ∨ n ∈ gone ∧ ∃ n' ∈ made, g'.Reads n' m := by
  by_cases member : n ∈ gone
  · exact .inr ⟨member, reshaped.target n member m remains reads⟩
  · rcases (sound.consistent.mem_order n).mp (sound.consistent.reads_live reads).1 with ⟨node, found⟩
    exact .inl ⟨member, (reshaped.reads_old_iff found member remains old).mpr reads⟩

/-- A rewrite does not give an old node a further reader. -/
theorem shared_of_shared (sound' : g'.Sound) (remains : m ∉ gone) (old : m ∉ made)
    (shared : g'.Shared m) : g.Shared m := by
  rcases shared with ⟨a, b, ne, readsA, readsB⟩
  rcases reshaped.reads_of_reads sound' remains old readsA with
    ⟨oldA, remainsA, formerA⟩ | ⟨madeA, a₀, goneA, formerA⟩
  · rcases reshaped.reads_of_reads sound' remains old readsB with
      ⟨-, -, formerB⟩ | ⟨-, b₀, goneB, formerB⟩
    · exact ⟨a, b, ne, formerA, formerB⟩
    · exact ⟨a, b₀, fun same => remainsA (same ▸ goneB), formerA, formerB⟩
  · rcases reshaped.reads_of_reads sound' remains old readsB with
      ⟨-, remainsB, formerB⟩ | ⟨madeB, -, -, -⟩
    · exact ⟨a₀, b, fun same => remainsB (same ▸ goneA), formerA, formerB⟩
    · rcases reshaped.sources a madeA b madeB ne m old readsA readsB with
        ⟨a₁, -, b₁, -, ne₁, formerA₁, formerB₁⟩
      exact ⟨a₁, b₁, ne₁, formerA₁, formerB₁⟩

/-- An old producer escapes from an old consumer as before. -/
theorem escapes_iff (sound : g.Sound) (sound' : g'.Sound) (remainsP : p ∉ gone) (oldP : p ∉ made)
    (remains : n ∉ gone) (old : n ∉ made) : g'.Escapes p n ↔ g.Escapes p n := by
  rw [Escapes, Escapes, reshaped.exports_old_iff remainsP oldP]
  constructor
  · intro escapes
    rcases escapes with ⟨a, ne, reads⟩ | exported
    · rcases reshaped.reads_of_reads sound' remainsP oldP reads with
        ⟨-, -, former⟩ | ⟨-, a₀, gone, former⟩
      · exact .inl ⟨a, ne, former⟩
      · exact .inl ⟨a₀, fun same => remains (same ▸ gone), former⟩
    · exact .inr exported
  · intro escapes
    rcases escapes with ⟨a, ne, reads⟩ | exported
    · rcases reshaped.exists_reads sound remainsP oldP reads with
        ⟨-, later⟩ | ⟨-, a', member, later⟩
      · exact .inl ⟨a, ne, later⟩
      · exact .inl ⟨a', fun same => old (same ▸ member), later⟩
    · exact .inr exported

end Reshaped

/-! ## Where rules match afterwards -/

theorem live_of_matches (c : g.Consistent) (isMatch : rule.Matches g n) : n ∈ g.order := by
  cases rule with
  | rootIntroduction =>
    rcases Option.map_eq_some_iff.mp isMatch.1 with ⟨node, found, -⟩
    exact c.mem_order_of_get? found
  | outputRerouting =>
    rcases isMatch with ⟨p, feeds, -⟩
    exact (c.reads_live ((feeds p).mpr rfl).2).1
  | producerInlining =>
    rcases isMatch with ⟨p, feeds, -⟩
    exact (c.reads_live feeds.2).1

/-- An old node that does not read a new one. -/
structure Untouched (g g' : Region) (gone made : List NodeId) (n : NodeId) : Prop where
  remains : n ∉ gone
  old : n ∉ made
  found : ∃ node, g.nodes.get? n = some node
  apart : ∀ m ∈ made, ¬ g'.Reads n m

namespace Reshaped

variable (reshaped : g.Reshaped g' gone made f heir) (untouched : Untouched g g' gone made n)

include reshaped untouched

/-- An untouched node reads what it read, and what it reads is old. -/
theorem reads_iff : g'.Reads n m ↔ g.Reads n m := by
  rcases untouched.found with ⟨node, found⟩
  rw [reshaped.revision.reads_iff reshaped.follows found untouched.remains]
  constructor
  · intro reads
    rcases reads with ⟨m₀, reads, taken⟩
    by_cases member : m₀ ∈ gone
    · refine absurd ?_ (untouched.apart _ (reshaped.taken m₀ member))
      rw [reshaped.revision.reads_iff reshaped.follows found untouched.remains]
      exact ⟨m₀, reads, rfl⟩
    · rwa [← taken, reshaped.same m₀ member]
  · intro reads
    by_cases member : m ∈ gone
    · refine absurd ?_ (untouched.apart _ (reshaped.taken m member))
      rw [reshaped.revision.reads_iff reshaped.follows found untouched.remains]
      exact ⟨m, reads, rfl⟩
    · exact ⟨m, reads, reshaped.same m member⟩

theorem old_of_reads (sound' : g'.Sound) (reads : g.Reads n m) :
    m ∉ gone ∧ m ∉ made ∧ ∃ node, g.nodes.get? m = some node := by
  have later := (reshaped.reads_iff untouched).mpr reads
  have old : m ∉ made := fun member => untouched.apart m member later
  rcases reshaped.exists_old (sound'.consistent.reads_live later).2 sound'.consistent old with
    ⟨remains, found⟩
  exact ⟨remains, old, found⟩

theorem feeds_iff (sound' : g'.Sound) : g'.Feeds p n ↔ g.Feeds p n := by
  rw [Feeds, Feeds, reshaped.reads_iff untouched]
  refine and_congr_left fun reads => ?_
  rcases reshaped.old_of_reads untouched sound' reads with ⟨remains, -, node, found⟩
  rw [reshaped.tagOf_eq found remains]

/-- What the rules ask of an untouched node has not changed, but that a load may have lost readers. -/
theorem matches_of_matches (sound : g.Sound) (sound' : g'.Sound) (isMatch : rule.Matches g' n) :
    rule.Matches g n := by
  rcases untouched.found with ⟨node, found⟩
  have escapes {p : NodeId} (reads : g.Reads n p) : g'.Escapes p n ↔ g.Escapes p n := by
    rcases reshaped.old_of_reads untouched sound' reads with ⟨remains, old, -⟩
    exact reshaped.escapes_iff sound sound' remains old untouched.remains untouched.old
  cases rule with
  | rootIntroduction =>
    rcases isMatch with ⟨isLoad, shared⟩
    rw [reshaped.tagOf_eq found untouched.remains] at isLoad
    exact ⟨isLoad, reshaped.shared_of_shared sound' untouched.remains untouched.old shared⟩
  | outputRerouting =>
    rcases isMatch with ⟨p, feeds, early, escapes'⟩
    simp only [reshaped.feeds_iff untouched sound'] at feeds
    have reads : g.Reads n p := ((feeds p).mpr rfl).2
    refine ⟨p, feeds, fun m readsM behind => ?_, (escapes reads).mp escapes'⟩
    rcases reshaped.old_of_reads untouched sound' reads with ⟨remainsP, oldP, -⟩
    rcases reshaped.old_of_reads untouched sound' readsM with ⟨remainsM, oldM, -⟩
    refine early m ((reshaped.reads_iff untouched).mpr readsM) ?_
    exact (reshaped.revision.precedes p m remainsP remainsM oldP oldM).mpr behind
  | producerInlining =>
    rcases isMatch with ⟨p, feeds, confined⟩
    rw [reshaped.feeds_iff untouched sound'] at feeds
    rw [escapes feeds.2] at confined
    exact ⟨p, feeds, confined⟩

end Reshaped

/-- A rewrite makes new matches only at the nodes that it brings in and at their readers. -/
theorem Rewrote.matches_of_matches {rule' : Rule} (rewrote : g.Rewrote g' rule n created)
    (sound : g.Sound) (old : m ∉ created) (apart : ∀ p ∈ created, ¬ g'.Reads m p)
    (isMatch : rule'.Matches g' m) : rule'.Matches g m ∧ m ≠ n := by
  have sound' := rewrote.sound sound
  rcases rewrote.reshaped sound with ⟨gone, f, heir, member, reshaped⟩
  have live := live_of_matches sound'.consistent isMatch
  rcases reshaped.exists_old live sound'.consistent old with ⟨remains, found⟩
  have untouched : Untouched g g' gone created m := ⟨remains, old, found, apart⟩
  exact ⟨reshaped.matches_of_matches untouched sound sound' isMatch,
    fun same => remains (same ▸ member)⟩

end KernelFusion.Region
