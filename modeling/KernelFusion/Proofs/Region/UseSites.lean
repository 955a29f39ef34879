import KernelFusion.Region.Check
import Mathlib.Data.List.Nodup

/-!
# The sites that an apply adds and removes

An apply adds one site for each of its operands, behind the sites that were there, and when it goes these
sites are taken out again. `ownSites` lists them for one value.
-/

namespace KernelFusion

/-- The sites at which the operands of a node, numbered from `index`, read a value. -/
def ownSites (n : NodeId) (index : Nat) (operands : List ValueId) (v : ValueId) : List Use :=
  (Region.operandSites n index operands).filterMap fun site =>
    if site.1 = v then some site.2 else none

variable {n : NodeId} {index : Nat} {operand v : ValueId} {operands : List ValueId} {site : Use}

theorem ownSites_cons :
    ownSites n index (operand :: operands) v =
      (if operand = v then [.operand n index] else []) ++ ownSites n (index + 1) operands v := by
  unfold ownSites
  rw [Region.operandSites, List.filterMap_cons]
  split <;> rename_i h <;> split at h <;> simp_all

/-- The sites of a node that read a value are its occurrences among the operands. -/
theorem mem_ownSites :
    site ∈ ownSites n index operands v ↔
      ∃ i, site = .operand n (index + i) ∧ operands[i]? = some v := by
  induction operands generalizing index with
  | nil => simp [ownSites, Region.operandSites]
  | cons operand rest ih =>
    rw [ownSites_cons, List.mem_append, ih]
    constructor
    · rintro (head | ⟨i, rfl, found⟩)
      · split at head
        case isTrue same => exact ⟨0, List.mem_singleton.mp head, by rw [same]; rfl⟩
        case isFalse => cases head
      · exact ⟨i + 1, by rw [Nat.add_right_comm]; rfl, found⟩
    · rintro ⟨i, rfl, found⟩
      cases i with
      | zero =>
        cases found
        exact .inl (by simp)
      | succ i => exact .inr ⟨i, by rw [Nat.add_right_comm]; rfl, found⟩

theorem ownSites_of_not_mem (absent : v ∉ operands) : ownSites n index operands v = [] := by
  refine List.eq_nil_iff_forall_not_mem.mpr fun site own => ?_
  rcases mem_ownSites.mp own with ⟨i, -, found⟩
  exact absent (List.mem_of_getElem? found)

/-- Sites of one node differ in the place of the operand. -/
theorem nodup_ownSites : (ownSites n index operands v).Nodup := by
  induction operands generalizing index with
  | nil => exact List.nodup_nil
  | cons operand rest ih =>
    rw [ownSites_cons]
    split
    · rw [List.singleton_append, List.nodup_cons, mem_ownSites]
      refine ⟨?_, ih⟩
      rintro ⟨i, same, -⟩
      have := (Use.operand.inj same).2
      omega
    · exact ih

namespace UseIndex

variable {uses : UseIndex} {q : ValueId}

/-- The sites of a new node come behind those that were there. -/
theorem sites_addOperands :
    (uses.addOperands n index operands).sites q = uses.sites q ++ ownSites n index operands q := by
  induction operands generalizing uses index with
  | nil => simp [addOperands, ownSites, Region.operandSites]
  | cons operand rest ih =>
    rw [addOperands, ih, sites_add, ownSites_cons]
    by_cases same : q = operand
    · subst same
      simp
    · simp [same, Ne.symm same]

/-- The sites of a removed node are taken out wherever they stand. -/
theorem sites_removeOperands (nodup : ∀ v, (uses.sites v).Nodup) :
    (uses.removeOperands n index operands).sites q =
      (uses.sites q).filter fun site => site ∉ ownSites n index operands q := by
  induction operands generalizing uses index with
  | nil => simp [removeOperands, ownSites, Region.operandSites]
  | cons operand rest ih =>
    have nodup' : ∀ v, ((uses.remove operand (.operand n index)).sites v).Nodup := by
      intro v
      rw [sites_remove]
      split
      · exact (nodup operand).erase _
      · exact nodup v
    rw [removeOperands, ih nodup', sites_remove, ownSites_cons]
    by_cases same : q = operand
    · subst same
      rw [if_pos rfl, (nodup q).erase_eq_filter, List.filter_filter]
      refine List.filter_congr fun site _ => ?_
      simp [bne, beq_eq_decide, not_or, and_comm]
    · rw [if_neg same, if_neg (Ne.symm same), List.nil_append]

/-- The sites that are moved come behind those of the target, and the source is read nowhere. -/
theorem sites_move {source target : ValueId} (ne : source ≠ target) :
    (uses.move source target).sites q =
      if q = target then uses.sites target ++ uses.sites source
      else if q = source then [] else uses.sites q := by
  have erased (v : ValueId) :
      UseIndex.sites (uses.erase source) v = if v = source then [] else uses.sites v := by
    rw [sites, Table.find?_erase]
    split <;> rfl
  unfold move
  rw [sites_assign, erased, erased, if_neg (Ne.symm ne)]

/-! ## No value is bound to an empty list -/

/-- An entry is there if it has sites. -/
theorem find?_assign {sites : List Use} :
    (uses.assign v sites).find? q =
      if q = v then (if sites = [] then none else some sites) else uses.find? q := by
  unfold assign
  by_cases empty : sites = []
  · rw [if_pos empty, if_pos empty, Table.find?_erase]
  · rw [if_neg empty, if_neg empty, Table.find?_insert]

/-- No value is bound to an empty list of sites. -/
def Bound (uses : UseIndex) : Prop := ∀ v, uses.find? v ≠ some []

/-- The index never keeps an empty list. -/
theorem Bound.assign (bound : uses.Bound) (v : ValueId) (sites : List Use) :
    (uses.assign v sites).Bound := by
  intro q
  rw [find?_assign]
  split
  · split
    case isTrue => simp
    case isFalse filled => simpa using filled
  · exact bound q

theorem Bound.addOperands (bound : uses.Bound) : (uses.addOperands n index operands).Bound := by
  induction operands generalizing uses index with
  | nil => exact bound
  | cons operand rest ih => exact ih (bound.assign _ _)

theorem Bound.removeOperands (bound : uses.Bound) :
    (uses.removeOperands n index operands).Bound := by
  induction operands generalizing uses index with
  | nil => exact bound
  | cons operand rest ih => exact ih (bound.assign _ _)

theorem Bound.move (bound : uses.Bound) (source target : ValueId) :
    (uses.move source target).Bound := by
  have erased : Bound (uses.erase source) := by
    intro q
    rw [Table.find?_erase]
    split
    · simp
    · exact bound q
  exact erased.assign _ _

end UseIndex

end KernelFusion
