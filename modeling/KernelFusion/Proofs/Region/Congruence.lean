import KernelFusion.Proofs.Region.Calls
import KernelFusion.Proofs.Region.Totality

/-!
# Equal values may stand for each other

Redirecting the uses of a value changes any number of operands at once, and the value that they read afterwards may
itself be computed from others that have changed. When the two values expanded alike before the edit, no expansion
changes all the same, as long as the edit leaves a region that passes its check: `redirection_congruent`.

The reason does not depend on the edit. A region whose nodes are nodes of another, up to a renaming of what they read,
is an `Excerpt` of it. When the renaming keeps expansions in the larger region, every value of the smaller one expands
as it does in the larger (`Excerpt.expandAt_eq`); the induction goes up the smaller region, and what is known of the
renaming is about the larger. A redirection, a replacement and, read backwards, an insertion leave excerpts. So a node
may be replaced by a copy of itself (`Recopied`).
-/

namespace KernelFusion

theorem redirect_same (v : ValueId) : redirect v v = id := by
  funext w
  by_cases same : w = v
  · rw [same, redirect_self, id]
  · rw [redirect_of_ne same, id]

namespace Region

variable {g g' g₁ g₂ : Region} {n m copy : NodeId} {v w source target : ValueId} {shift : Offset}
  {place i : Nat} {info : ValueInfo} {node : Node} {kind : NodeKind} {type : ElementType}
  {results copies : List ValueId} {f : ValueId → ValueId}

/-! ## Excerpts -/

/-- The nodes of the second region are nodes of the first that read renamed values, and its values are values of the
first. -/
structure Excerpt (g g' : Region) (f : ValueId → ValueId) : Prop where
  node : ∀ n node', g'.nodes.get? n = some node' →
    ∃ node, g.nodes.get? n = some node ∧ node.rename f = node'
  value : ∀ v info, g'.values.get? v = some info → g.values.get? v = some info

theorem Renamed.excerpt (renamed : Renamed g g' f) : Excerpt g g' f where
  node n node' found := by
    rw [renamed.node] at found
    exact Option.map_eq_some_iff.mp found
  value v info infoAt := by rwa [renamed.value] at infoAt

theorem Replaced.excerpt (replaced : Replaced g g' n results copies) :
    Excerpt g g' (redirectAll results copies) where
  node m node' found := by
    rw [replaced.node] at found
    split at found
    case isTrue => cases found
    case isFalse => exact Option.map_eq_some_iff.mp found
  value v info infoAt := by
    rw [replaced.value] at infoAt
    split at infoAt
    case isTrue => cases infoAt
    case isFalse => exact infoAt

/-- What there was before an insertion is an excerpt of what there is afterwards. -/
theorem Inserted.excerpt (ins : Inserted g g' n place kind results) : Excerpt g' g id where
  node _ node found := ⟨node, ins.node_of_get? found, node.rename_id⟩
  value _ _ infoAt := ins.value_of_get? infoAt

namespace Excerpt

variable (part : Excerpt g g' f)

include part

/-- A node that produces a value of the excerpt belongs to the excerpt. -/
theorem kept (c : g.Consistent) (c' : g'.Consistent) (infoAt : g'.values.get? v = some info)
    (found : g.nodes.get? n = some node) (result : v ∈ node.results) :
    g'.nodes.get? n = some (node.rename f) := by
  have produced : g'.producerOf v = some n := by
    rw [producerOf_of_get? infoAt, ← producerOf_of_get? (part.value v info infoAt)]
    exact c.producerOf_result found result
  rcases c'.producer_live produced with ⟨node', found', -⟩
  rcases part.node n node' found' with ⟨node₀, found₀, renamed⟩
  rw [found, Option.some.injEq] at found₀
  rw [found', ← renamed, found₀]

/-- In an excerpt whose renaming keeps expansions, every value expands as in the region it is from. -/
theorem expandAt_eq (c : g.Consistent) (o : g.Ordered) (c' : g'.Consistent) (o' : g'.Ordered)
    (same : ∀ v info, g.values.get? v = some info →
      ∀ shift, g.expandAt (f v) shift = g.expandAt v shift)
    (infoAt : g'.values.get? v = some info) (shift : Offset) :
    g'.expandAt v shift = g.expandAt v shift := by
  refine c'.value_induction o' (P := fun v => ∀ shift, g'.expandAt v shift = g.expandAt v shift)
    (fun v info infoAt ih shift => ?_) infoAt shift
  refine c.expandAt_congr o c' o' (f := f) (part.value v info infoAt) infoAt
    fun n node found result => ?_
  have found' := part.kept c c' infoAt found result
  refine ⟨found', fun u operand shift => ?_⟩
  rcases c.operand_live found operand with ⟨info', infoAt'⟩
  have operand' : f u ∈ (node.rename f).kind.operands := by
    rw [Node.rename, NodeKind.operands_mapOperands]
    exact List.mem_map_of_mem operand
  -- The renamed operand expands as before, and before the renaming made no difference to it.
  exact (ih n _ (f u) found' result operand' shift).trans (same u info' infoAt' shift)

end Excerpt

/-! ## Redirecting uses -/

theorem exists_redirected (c : g.Consistent) (typed : g.SameType source target) :
    ∃ g', (redirectUses source target).run g = .ok () g' ∧ g'.Consistent ∧
      Renamed g g' (redirect source target) := by
  have checked := checkReplacement_eq_ok_iff.mpr typed
  rcases typed with ⟨type, sourceType, targetType⟩
  by_cases same : source = target
  · subst same
    refine ⟨g, ?_, c, redirect_same source ▸ Renamed.refl g⟩
    unfold redirectUses
    rw [run_get_bind, checked, run_lift_ok_bind, if_pos rfl]
    rfl
  · exact ⟨_, redirectUses_run sourceType targetType same, consistent_moveUses c same sourceType targetType,
      (redirected_moveUses c same).toRenamed⟩

/-- Values that expand to the same expressions fail to expand at the same shifts, and with the same error. -/
theorem Consistent.expandAt_eq_of_iff (c : g.Consistent) (o : g.Ordered)
    (live : ∃ info, g.values.get? v = some info) (live' : ∃ info, g.values.get? w = some info)
    (same : ∀ out, g.expandAt v shift = .ok out ↔ g.expandAt w shift = .ok out) :
    g.expandAt v shift = g.expandAt w shift := by
  rcases live with ⟨info, infoAt⟩
  rcases live' with ⟨info', infoAt'⟩
  cases expanded : g.expandAt v shift with
  | ok out => exact ((same out).mp expanded).symm
  | error failure =>
    cases expanded' : g.expandAt w shift with
    | ok out =>
      rw [(same out).mpr expanded'] at expanded
      cases expanded
    | error failure' =>
      have settles := c.expandAt_settles o infoAt shift
      have settles' := c.expandAt_settles o infoAt' shift
      rw [expanded] at settles
      rw [expanded'] at settles'
      exact congrArg Except.error (Eq.trans settles settles'.symm)

/-- Redirecting uses between values that expand alike changes no expansion. -/
theorem Renamed.expandAt_eq (renamed : Renamed g g' (redirect source target)) (c : g.Consistent)
    (o : g.Ordered) (c' : g'.Consistent) (o' : g'.Ordered) (typed : g.SameType source target)
    (same : ∀ shift out, g.expandAt source shift = .ok out ↔ g.expandAt target shift = .ok out)
    (infoAt : g'.values.get? v = some info) (shift : Offset) :
    g'.expandAt v shift = g.expandAt v shift := by
  rcases typed with ⟨type, sourceType, targetType⟩
  refine renamed.excerpt.expandAt_eq c o c' o' (fun u _ _ shift => ?_) infoAt shift
  by_cases redirected : u = source
  · rw [redirected, redirect_self]
    exact (c.expandAt_eq_of_iff o (isSome_of_typeOf sourceType) (isSome_of_typeOf targetType)
      (same shift)).symm
  · rw [redirect_of_ne redirected]

/-! ## Copies -/

/-- Two nodes that do the same have results of the same types. -/
theorem Consistent.sameType_copies (c : g.Consistent) (found : g.nodes.get? n = some ⟨kind, results⟩)
    (found' : g.nodes.get? m = some ⟨kind, copies⟩) : List.Forall₂ g.SameType results copies := by
  have length : results.length = copies.length :=
    (c.fits n _ found).length_results.trans (c.fits m _ found').length_results.symm
  refine forall₂_of_getElem? length fun i v w resultAt copyAt => ?_
  rcases c.get?_result found resultAt with ⟨type, infoAt⟩
  have typeV : g.typeOf v = kind.resultTypes[i]? := c.typeOf_result found resultAt
  have typeW : g.typeOf w = kind.resultTypes[i]? := c.typeOf_result found' copyAt
  have known := typeOf_of_get? infoAt
  exact ⟨type, known, typeW.trans (typeV.symm.trans known)⟩

/-- Two nodes that do the same have results that expand alike. -/
theorem Consistent.expandAt_copy (c : g.Consistent) (o : g.Ordered)
    (found : g.nodes.get? n = some ⟨kind, results⟩) (found' : g.nodes.get? m = some ⟨kind, copies⟩)
    (resultAt : results[i]? = some v) (copyAt : copies[i]? = some w) :
    g.expandAt w shift = g.expandAt v shift := by
  cases kind with
  | load field type =>
    rw [c.expandAt_load o found (List.mem_of_getElem? resultAt),
      c.expandAt_load o found' (List.mem_of_getElem? copyAt)]
  | apply operands kernel =>
    rcases c.exists_returns found resultAt with ⟨type, tree, returned⟩
    rw [c.expandAt_apply o found resultAt returned, c.expandAt_apply o found' copyAt returned]

/-- Reading the result of a copy in the place of a result changes no expansion. -/
theorem Consistent.expandAt_redirectAll (c : g.Consistent) (o : g.Ordered)
    (found : g.nodes.get? n = some ⟨kind, results⟩) (found' : g.nodes.get? m = some ⟨kind, copies⟩)
    (v : ValueId) (shift : Offset) :
    g.expandAt (redirectAll results copies v) shift = g.expandAt v shift := by
  by_cases result : v ∈ results
  · rcases List.getElem?_of_mem result with ⟨i, resultAt⟩
    rcases exists_right_of_getElem? (c.sameType_copies found found') resultAt with ⟨w, copyAt, -⟩
    rw [redirectAll_getElem? (c.results_nodup found) resultAt copyAt]
    exact c.expandAt_copy o found found' resultAt copyAt
  · rw [redirectAll_of_not_mem result]

/-- What is left when a node has been replaced by a copy of it. -/
structure Recopied (g g' : Region) (n copy : NodeId) (results copies : List ValueId) : Prop where
  verified : g'.verify = .ok ()
  stale : g'.nodes.get? n = none
  order : ∃ front back, g.order = front ++ n :: back ∧ g'.order = front ++ copy :: back
  kept : ∀ v info, g.values.get? v = some info → v ∉ results →
    g'.values.get? v = some info ∧ ∀ shift, g'.expandAt v shift = g.expandAt v shift
  copies : List.Forall₂ (fun v w => ∀ shift, g'.expandAt w shift = g.expandAt v shift) results copies
  outputs : ∀ shift, g'.outputs.map (g'.expandAt · shift) = g.outputs.map (g.expandAt · shift)

/-- Right before or right behind a node. -/
def Beside (n : NodeId) (point : InsertPoint) : Prop := point = .before n ∨ point = .after n

theorem Consistent.exists_place (c : g.Consistent) (found : g.nodes.get? n = some node)
    {point : InsertPoint} (beside : Beside n point) :
    ∃ place, g.resolve point = .ok place ∧ (place = g.order.idxOf n ∨ place = g.order.idxOf n + 1) := by
  rcases beside with rfl | rfl
  · exact ⟨_, c.resolve_before found, .inl rfl⟩
  · exact ⟨_, c.resolve_after found, .inr rfl⟩

/-- The node that takes over when a node is replaced by its copy. -/
def heirOfCopied (n copy m : NodeId) : NodeId := if m = n then copy else m

section Copy

variable (c : g.Consistent) (o : g.Ordered) (found : g.nodes.get? n = some ⟨kind, results⟩)
  (ins : Inserted g g₁ copy place kind copies) (c₁ : g₁.Consistent)
  (beside : place = g.order.idxOf n ∨ place = g.order.idxOf n + 1)
  (replaced : Replaced g₁ g₂ n results copies)

include c found ins in
/-- The copies are not there before, so they are not results of the node. -/
theorem Inserted.copies_apart : ∀ v ∈ copies, v ∉ results :=
  fun v member => c.not_result_of_none found (ins.fresh_results v member)

include c found ins c₁ beside replaced in
/-- The copy stands where the original stood. -/
theorem Replaced.order_copied :
    ∃ front back, g.order = front ++ n :: back ∧ g₂.order = front ++ copy :: back := by
  rcases List.append_of_mem (c.mem_order_of_get? found) with ⟨front, back, split⟩
  have absent : n ∉ front := not_mem_front (split ▸ c.order_nodup)
  refine ⟨front, back, split, ?_⟩
  rw [replaced.order]
  rcases beside with rfl | rfl
  · have order₁ : g₁.order = (front ++ [copy]) ++ n :: back := by
      rw [ins.order, split, insertIdx_idxOf absent, List.append_cons]
    have absent₁ : n ∉ front ++ [copy] := not_mem_front (order₁ ▸ c₁.order_nodup)
    rw [order₁, erase_append_cons absent₁, List.append_assoc, List.singleton_append]
  · rw [ins.order, split, insertIdx_idxOf_succ absent, erase_append_cons absent]

include c found ins c₁ replaced in
/-- Everything that remains reads what it read, with the copy in the place of the original. -/
theorem Replaced.follows_copied :
    Follows g₁ g₂ [n] (redirectAll results copies) (heirOfCopied n copy) := by
  have found₁ := ins.node_of_get? found
  have apart := ins.copies_apart c found
  have typed := c₁.sameType_copies found₁ ins.node_self
  have rev := replaced.revision c₁ found₁ typed apart
  refine rev.follows_of c₁ (fun m stays => if_neg (List.ne_of_not_mem_cons stays)) ?_
  intro m went v produced _
  rw [List.mem_singleton.mp went] at produced ⊢
  rcases List.getElem?_of_mem ((c₁.mem_results_iff found₁).mpr produced) with ⟨i, resultAt⟩
  rcases exists_right_of_getElem? typed resultAt with ⟨w, copyAt, -⟩
  have isCopy := List.mem_of_getElem? copyAt
  rw [redirectAll_getElem? (c₁.results_nodup found₁) resultAt copyAt, producerOf, replaced.value,
    if_neg (apart w isCopy), ← producerOf, c₁.producerOf_result ins.node_self isCopy,
    heirOfCopied, if_pos rfl]

include c found ins c₁ beside replaced in
/-- The copy stands before everything that read the node. -/
theorem Replaced.ordered_copied (o₁ : g₁.Ordered) : g₂.Ordered := by
  have found₁ := ins.node_of_get? found
  have rev := replaced.revision c₁ found₁ (c₁.sameType_copies found₁ ins.node_self)
    (ins.copies_apart c found)
  have le : place ≤ g.order.length := by
    have lt := List.idxOf_lt_length_of_mem (c.mem_order_of_get? found)
    omega
  refine rev.ordered (replaced.follows_copied c found ins c₁) c₁ o₁
    (fun m stays => if_neg (List.ne_of_not_mem_cons stays)) ?taken
    fun m made => absurd made List.not_mem_nil
  intro reader m stays went reads
  rw [List.mem_singleton.mp went] at reads ⊢
  -- The copy reads what the node reads, and the node does not read itself.
  have notCopy : reader ≠ copy := by
    intro same
    rw [same, reads_iff_operand ins.node_self, ← reads_iff_operand found₁] at reads
    exact (o₁ n n reads).ne rfl
  have behind := o₁ reader n reads
  rcases (c₁.mem_order reader).mp behind.mem_right with ⟨readerNode, readerAt⟩
  rw [ins.node, if_neg notCopy] at readerAt
  rw [heirOfCopied, if_pos rfl, rev.precedes copy reader
    (by simpa using (ins.ne_of_get? found).symm) stays List.not_mem_nil List.not_mem_nil,
    ins.new_precedes_iff c le readerAt]
  rw [ins.order, precedes_insertIdx_of_ne (ins.ne_of_get? found) notCopy le] at behind
  have lt := behind.2
  omega

include c found ins c₁ replaced in
/-- What is read in the place of a value is there. -/
theorem Replaced.live_copied (infoAt : g.values.get? v = some info) :
    ∃ info', g₂.values.get? (redirectAll results copies v) = some info' := by
  have found₁ := ins.node_of_get? found
  rw [replaced.value]
  by_cases result : v ∈ results
  · have isCopy := redirectAll_mem (c₁.sameType_copies found₁ ins.node_self).length_eq result
    rw [if_neg (ins.copies_apart c found _ isCopy)]
    rcases List.getElem?_of_mem isCopy with ⟨i, copyAt⟩
    rcases c₁.get?_result ins.node_self copyAt with ⟨type, infoAt'⟩
    exact ⟨_, infoAt'⟩
  · rw [redirectAll_of_not_mem result, if_neg result]
    exact ⟨info, ins.value_of_get? infoAt⟩

include c o found ins c₁ replaced in
/-- What is read in the place of a value, the copy of it if the node produced it, expands as the value did. -/
theorem Replaced.expandAt_copied (o₁ : g₁.Ordered) (c₂ : g₂.Consistent) (o₂ : g₂.Ordered)
    (infoAt : g.values.get? v = some info) (shift : Offset) :
    g₂.expandAt (redirectAll results copies v) shift = g.expandAt v shift := by
  have alike := c₁.expandAt_redirectAll o₁ (ins.node_of_get? found) ins.node_self
  rcases replaced.live_copied c found ins c₁ infoAt with ⟨info', infoAt'⟩
  calc g₂.expandAt (redirectAll results copies v) shift
      = g₁.expandAt (redirectAll results copies v) shift :=
        replaced.excerpt.expandAt_eq c₁ o₁ c₂ o₂ (fun u _ _ => alike u) infoAt' shift
    _ = g₁.expandAt v shift := alike v shift
    _ = g.expandAt v shift :=
        (ins.excerpt.expandAt_eq c₁ o₁ c o (fun _ _ _ _ => rfl) infoAt shift).symm

end Copy

/-- A node may be replaced by a copy of it that stands beside it. -/
theorem Consistent.exists_recopied (c : g.Consistent) (o : g.Ordered)
    (found : g.nodes.get? n = some node) {point : InsertPoint} (beside : Beside n point) :
    ∃ copy copies g₁ g₂, (insertCopy point n).run g = .ok copy g₁ ∧ g₁.results copy = .ok copies ∧
      (replaceNode n copies).run g₁ = .ok () g₂ ∧ g.Recopied g₂ n copy node.results copies := by
  rcases node with ⟨kind, results⟩
  rcases c.exists_place found beside with ⟨place, resolved, atNode⟩
  have early (v : ValueId) (operand : v ∈ kind.operands) (m : NodeId)
      (produced : g.producerOf v = some m) : g.order.idxOf m < place := by
    have lt := (o n m ⟨_, v, found, operand, produced⟩).2
    omega
  rcases insertCopy_spec c found resolved early with ⟨g₁, copy, copies, copied, c₁, ins⟩
  have o₁ : g₁.Ordered := ins.ordered c o (c.resolve_le resolved)
    (fun v operand => c.operand_live found operand) early
  have found₁ := ins.node_of_get? found
  have apart := ins.copies_apart c found
  have typed := c₁.sameType_copies found₁ ins.node_self
  rcases replaceNode_run c₁ found₁ typed apart with ⟨g₂, ran, c₂, replaced⟩
  have o₂ := replaced.ordered_copied c found ins c₁ atNode o₁
  have expands {v : ValueId} {info : ValueInfo} (infoAt : g.values.get? v = some info) (shift : Offset) :=
    replaced.expandAt_copied c o found ins c₁ o₁ c₂ o₂ infoAt shift
  refine ⟨copy, copies, g₁, g₂, copied, results_of_get? ins.node_self, ran, ?_⟩
  exact {
    verified := c₂.verify_eq_ok_iff.mpr o₂
    stale := by rw [replaced.node, if_pos rfl]
    order := replaced.order_copied c found ins c₁ atNode
    kept := fun v info infoAt other => by
      refine ⟨?_, fun shift => ?_⟩
      · rw [replaced.value, if_neg other, ins.value_of_get? infoAt]
      · have same := expands infoAt shift
        rwa [redirectAll_of_not_mem other] at same
    copies := by
      refine forall₂_of_getElem? typed.length_eq fun i v w resultAt copyAt shift => ?_
      rcases c.get?_result found resultAt with ⟨type, infoAt⟩
      have same := expands infoAt shift
      rwa [redirectAll_getElem? (c.results_nodup found) resultAt copyAt] at same
    outputs := fun shift => by
      rw [replaced.outputs, ins.outputs, List.map_map]
      refine List.map_congr_left fun v output => ?_
      rcases c.outputs v output with ⟨info, infoAt⟩
      rw [Function.comp_apply, expands infoAt shift] }

/-! ## The whole of it -/

/-- Redirecting uses between values that expand alike changes no expansion, and so a node may be replaced by a copy of
itself. -/
theorem redirection_congruent (built : g.Built) (verified : g.verify = .ok ()) :
    (∀ source target, g.SameType source target →
      ∃ g', (redirectUses source target).run g = .ok () g' ∧ (g'.verify = .ok () →
        (∀ shift out, g.expandAt source shift = .ok out ↔ g.expandAt target shift = .ok out) →
        ∀ v info, g.values.get? v = some info →
          g'.values.get? v = some info ∧ ∀ shift, g'.expandAt v shift = g.expandAt v shift)) ∧
      ∀ n node point, g.nodes.get? n = some node → Beside n point →
        ∃ copy copies g₁ g₂, (insertCopy point n).run g = .ok copy g₁ ∧
          g₁.results copy = .ok copies ∧ (replaceNode n copies).run g₁ = .ok () g₂ ∧
          g.Recopied g₂ n copy node.results copies := by
  have c := built.consistent
  have o : g.Ordered := c.verify_eq_ok_iff.mp verified
  refine ⟨fun source target typed => ?_, fun n node point found beside => c.exists_recopied o found beside⟩
  rcases exists_redirected c typed with ⟨g', ran, c', renamed⟩
  refine ⟨g', ran, fun verified' same v info infoAt => ?_⟩
  have infoAt' : g'.values.get? v = some info := by rwa [renamed.value]
  exact ⟨infoAt', renamed.expandAt_eq c o c' (c'.verify_eq_ok_iff.mp verified') typed same infoAt'⟩

/-- The two readers of the shared load have the same expansion, so one can stand for the other; and either can be
replaced by a copy. -/
theorem redirection_congruent_sharedField :
    sharedField.Built ∧ sharedField.verify = .ok () ∧ sharedField.SameType ⟨1, 0⟩ ⟨2, 0⟩ ∧
      (∃ g', (redirectUses ⟨1, 0⟩ ⟨2, 0⟩).run sharedField = .ok () g' ∧ g'.verify = .ok () ∧
        g'.outputs = [⟨2, 0⟩, ⟨2, 0⟩] ∧
        ∀ shift, g'.expandAt ⟨2, 0⟩ shift = sharedField.expandAt ⟨2, 0⟩ shift) ∧
      ∃ copy copies g₁ g₂, (insertCopy (.before ⟨1, 0⟩) ⟨1, 0⟩).run sharedField = .ok copy g₁ ∧
        g₁.results copy = .ok copies ∧ (replaceNode ⟨1, 0⟩ copies).run g₁ = .ok () g₂ ∧
        sharedField.Recopied g₂ ⟨1, 0⟩ copy [⟨1, 0⟩] copies := by
  have c := built_sharedField.consistent
  have o : sharedField.Ordered := c.verify_eq_ok_iff.mp verify_sharedField
  have typed : sharedField.SameType ⟨1, 0⟩ ⟨2, 0⟩ := ⟨.float64, rfl, rfl⟩
  have firstAt : sharedField.nodes.get? ⟨1, 0⟩ =
      some ⟨.apply [⟨0, 0⟩] (.identity .float64), [⟨1, 0⟩]⟩ := rfl
  have secondAt : sharedField.nodes.get? ⟨2, 0⟩ =
      some ⟨.apply [⟨0, 0⟩] (.identity .float64), [⟨2, 0⟩]⟩ := rfl
  have infoAt : sharedField.values.get? ⟨2, 0⟩ = some ⟨.float64, .result ⟨2, 0⟩ 0⟩ := rfl
  rcases redirection_congruent built_sharedField verify_sharedField with ⟨redirected, recopied⟩
  refine ⟨built_sharedField, verify_sharedField, typed, ?_, recopied ⟨1, 0⟩ _ _ firstAt (.inl rfl)⟩
  rcases redirected ⟨1, 0⟩ ⟨2, 0⟩ typed with ⟨g', ran, congruent⟩
  have same : (redirectUses ⟨1, 0⟩ ⟨2, 0⟩).run sharedField =
      .ok () (sharedField.moveUses ⟨1, 0⟩ ⟨2, 0⟩) := rfl
  cases same.symm.trans ran
  refine ⟨_, rfl, rfl, rfl, (congruent rfl (fun shift out => ?_) ⟨2, 0⟩ _ infoAt).2⟩
  rw [c.expandAt_copy o firstAt secondAt (i := 0) rfl rfl]

end Region

end KernelFusion
