import KernelFusion.Proofs.Rewrite.Expansion

/-!
# One reader for a shared load

Root introduction rewrites exactly at the loads that two applies read, and there it leaves a copy of the load with
the root as its only reader (`SingleReader`). `rootIntroduction_single_reader` has both.

The root reads the copy in place, so what is read through it is what was read before, failures included: an
expansion fails at a sum of offsets out of range, and the root takes no such sum. So every value expands after the
rewrite as what it stands for did before (`Rooted.expandAt_eq`).
-/

namespace KernelFusion.Region

variable {g g' : Region} {v : ValueId} {shift : Offset} {gone made : List NodeId}
  {f : ValueId → ValueId} {r : Rooting}

/-! ## The same expansion, or the same failure -/

/-- A value that remains expands as before when the operands of its producer do. -/
theorem Revision.expandAt_eq (rev : Revision g g' gone made f) (sound : g.Sound) (sound' : g'.Sound)
    (remains : g.Remains gone v)
    (operands : ∀ n node u, g.nodes.get? n = some node → v ∈ node.results → u ∈ node.kind.operands →
      ∀ shift, g'.expandAt (f u) shift = g.expandAt u shift) :
    g'.expandAt v shift = g.expandAt v shift := by
  have c := sound.consistent
  rcases remains.live with ⟨info, infoAt⟩
  have infoAt' := (rev.get?_of_remains remains).1.trans infoAt
  refine c.expandAt_congr sound.ordered sound'.consistent sound'.ordered (f := f) infoAt infoAt'
    fun n node found result => ?_
  have stays := remains.produced n (c.producerOf_result found result)
  exact ⟨rev.kept n node found stays, fun u operand => operands n node u found result operand⟩

namespace Rooted

variable (rooted : g.Rooted g' r)

include rooted

theorem remains_of_ne (c : g.Consistent) {info : ValueInfo} (infoAt : g.values.get? v = some info)
    (ne : v ≠ r.loaded) : g.Remains [r.load] v := by
  refine ⟨⟨info, infoAt⟩, fun m produced member => ne ?_⟩
  rw [List.mem_singleton.mp member] at produced
  exact List.mem_singleton.mp ((c.mem_results_iff rooted.loadAt).mpr produced)

/-- The root passes on what the copy loads. -/
theorem expandAt_passed (sound : g.Sound) (sound' : g'.Sound) :
    g'.expandAt r.passed shift = g.expandAt r.loaded shift := by
  have returned : (Kernel.identity r.type).Returns 0 r.type (.read ⟨0, .zero⟩) :=
    ⟨0, rfl, rfl, rfl⟩
  have passes : g'.readWithin g'.depth [r.copied] shift ⟨0, .zero⟩ = g'.expandAt r.copied shift :=
    readWithin_of_add rfl (Offset.zero_add shift)
  rw [sound'.consistent.expandAt_apply sound'.ordered rooted.rootAt rfl returned, Expr.bindM, passes,
    sound'.consistent.expandAt_load sound'.ordered rooted.copyAt List.mem_cons_self,
    sound.consistent.expandAt_load sound.ordered rooted.loadAt List.mem_cons_self]

/-- What is read in the place of a value expands as the value did. -/
theorem expandAt_eq (sound : g.Sound) (sound' : g'.Sound) {info : ValueInfo}
    (infoAt : g.values.get? v = some info) (shift : Offset) :
    g'.expandAt (r.substitution v) shift = g.expandAt v shift := by
  have c := sound.consistent
  refine c.value_induction sound.ordered
    (P := fun v => ∀ shift, g'.expandAt (r.substitution v) shift = g.expandAt v shift)
    (fun v info infoAt ih shift => ?_) infoAt shift
  by_cases loaded : v = r.loaded
  · rw [loaded, r.substitution_loaded]
    exact rooted.expandAt_passed sound sound'
  · have remains := rooted.remains_of_ne c infoAt loaded
    rw [show r.substitution v = v from rooted.revision.fixed remains]
    exact rooted.revision.expandAt_eq sound sound' remains ih

end Rooted

/-! ## The whole rule -/

/-- What root introduction leaves at a load: a copy of the load, and a root that reads the copy and is read in the
place of the load. -/
structure SingleReader (g g' : Region) (r : Rooting) : Prop where
  /-- The copy stands where the load stood, and the root right before the first node that read the load. -/
  order : ∃ anchor front mid back, g.Anchored r.load anchor front mid back ∧
    g'.order = front ++ r.copy :: (mid ++ r.root :: anchor :: back)
  copy : g'.nodes.get? r.copy = some ⟨.load r.field r.type, [r.copied]⟩
  uses_copied : g'.usesOf r.copied = [.operand r.root 0]
  root : g'.nodes.get? r.root = some ⟨.apply [r.copied] (.identity r.type), [r.passed]⟩
  uses_passed : g'.usesOf r.passed = g.usesOf r.loaded
  verified : g'.verify = .ok ()
  kept : ∀ v info, g.values.get? v = some info → v ≠ r.loaded →
    g'.values.get? v = some info ∧ ∀ shift, g'.expandAt v shift = g.expandAt v shift
  passed : ∀ shift, g'.expandAt r.passed shift = g.expandAt r.loaded shift

/-- What root introduction does, read off what it leaves. -/
theorem Rooted.singleReader (rooted : g.Rooted g' r) (sound : g.Sound) : g.SingleReader g' r := by
  have c := sound.consistent
  have sound' : g'.Sound := (Rewrote.rooted rooted).sound sound
  refine ⟨rooted.order, rooted.copyAt, rooted.uses_copied, rooted.rootAt, rooted.uses_passed,
    sound'.consistent.sound_iff.mp sound', fun v info infoAt ne => ⟨?_, fun shift => ?_⟩,
    fun shift => ?_⟩
  · rw [(rooted.revision.get?_of_remains (rooted.remains_of_ne c infoAt ne)).1, infoAt]
  · have same := rooted.expandAt_eq sound sound' infoAt shift
    rwa [show r.substitution v = v from
      rooted.revision.fixed (rooted.remains_of_ne c infoAt ne)] at same
  · exact rooted.expandAt_passed sound sound'

/-- Root introduction rewrites at a load exactly when two nodes read it, and then gives it a single reader. -/
theorem rootIntroduction_single_reader (built : g.Built) (verified : g.verify = .ok ())
    {load : NodeId} {field : Field} {type : ElementType} {results : List ValueId}
    (loadAt : g.nodes.get? load = some ⟨.load field type, results⟩) :
    ((∃ created g', (Rule.rootIntroduction.apply load).run g = .ok (.rewritten created) g') ↔
        g.Shared load) ∧
      ∀ created g', (Rule.rootIntroduction.apply load).run g = .ok (.rewritten created) g' →
        ∃ copy root loaded copied passed, created = [copy, root] ∧ results = [loaded] ∧
          g.SingleReader g' ⟨load, copy, root, field, type, loaded, copied, passed⟩ := by
  have sound : g.Sound := built.consistent.sound_iff.mpr verified
  have rewrites {created : List NodeId} {g' : Region}
      (ran : (Rule.rootIntroduction.apply load).run g = .ok (.rewritten created) g') :
      ∃ r : Rooting, r.load = load ∧ created = [r.copy, r.root] ∧ g.Rooted g' r := by
    rcases sound.rewrote ran with ⟨noMatch, -⟩ | ⟨created', same, rewrote⟩
    · cases noMatch
    · cases same
      cases rewrote with
      | rooted rooted => exact ⟨_, rfl, rfl, rooted⟩
  refine ⟨⟨fun rewritten => ?_, fun shared => ?_⟩, fun created g' ran => ?_⟩
  · rcases rewritten with ⟨created, g', ran⟩
    rcases rewrites ran with ⟨r, rfl, -, rooted⟩
    exact rooted.isShared
  · rcases introduceRoot_rewrites sound.consistent sound.ordered ⟨tagOf_of_get? loadAt, shared⟩ with
      ⟨g', r, -, ran, -⟩
    exact ⟨_, g', ran⟩
  · rcases rewrites ran with ⟨⟨_, copy, root, field', type', loaded, copied, passed⟩, rfl, rfl, rooted⟩
    have same := rooted.loadAt
    rw [loadAt, Option.some.injEq, Node.mk.injEq, NodeKind.load.injEq] at same
    rcases same with ⟨⟨rfl, rfl⟩, isLoaded⟩
    exact ⟨copy, root, loaded, copied, passed, rfl, isLoaded, rooted.singleReader sound⟩

/-- The shared load is read by the root alone, and the two applies read the root. -/
theorem rootIntroduction_single_reader_sharedField :
    sharedField.Built ∧ sharedField.verify = .ok () ∧
      sharedField.nodes.get? ⟨0, 0⟩ = some ⟨.load ⟨"u"⟩ .float64, [⟨0, 0⟩]⟩ ∧
      ∃ g' copy root copied passed,
        (Rule.rootIntroduction.apply ⟨0, 0⟩).run sharedField = .ok (.rewritten [copy, root]) g' ∧
        sharedField.SingleReader g'
          ⟨⟨0, 0⟩, copy, root, ⟨"u"⟩, .float64, ⟨0, 0⟩, copied, passed⟩ := by
  have loadAt : sharedField.nodes.get? ⟨0, 0⟩ = some ⟨.load ⟨"u"⟩ .float64, [⟨0, 0⟩]⟩ := rfl
  refine ⟨built_sharedField, verify_sharedField, loadAt, ?_⟩
  rcases rootIntroduction_single_reader built_sharedField verify_sharedField loadAt with
    ⟨rewrites, leaves⟩
  have shared : sharedField.Shared ⟨0, 0⟩ :=
    ⟨⟨1, 0⟩, ⟨2, 0⟩, by decide, ⟨_, ⟨0, 0⟩, rfl, List.mem_cons_self, rfl⟩,
      ⟨_, ⟨0, 0⟩, rfl, List.mem_cons_self, rfl⟩⟩
  rcases rewrites.mpr shared with ⟨created, g', ran⟩
  rcases leaves created g' ran with ⟨copy, root, loaded, copied, passed, rfl, same, single⟩
  cases same
  exact ⟨g', copy, root, copied, passed, ran, single⟩

end KernelFusion.Region
