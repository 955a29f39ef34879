import KernelFusion.Region.Node
import KernelFusion.Table

/-!
# The use index

A `UseIndex` binds each value to the sites that read it, in the order in which they came to do so. A
value that nothing reads is not bound.
-/

namespace KernelFusion

/-- The sites that read each value. -/
abbrev UseIndex := Table ValueId (List Use)

namespace UseIndex

/-- The sites that read a value. -/
def sites (uses : UseIndex) (value : ValueId) : List Use := (uses.find? value).getD []

/-- Binds a value to a list of sites; the empty list unbinds it. -/
def assign (uses : UseIndex) (value : ValueId) (sites : List Use) : UseIndex :=
  if sites = [] then uses.erase value else uses.insert value sites

/-- Adds a site behind those that read a value. -/
def add (uses : UseIndex) (value : ValueId) (site : Use) : UseIndex :=
  uses.assign value (uses.sites value ++ [site])

/-- Removes the first occurrence of a site from those that read a value. -/
def remove (uses : UseIndex) (value : ValueId) (site : Use) : UseIndex :=
  uses.assign value ((uses.sites value).erase site)

/-- Adds the operand sites of an apply, one per operand, numbered from `index`. -/
def addOperands (uses : UseIndex) (node : NodeId) (index : Nat) : List ValueId → UseIndex
  | [] => uses
  | operand :: rest => (uses.add operand (.operand node index)).addOperands node (index + 1) rest

/-- Removes the operand sites of an apply, one per operand, numbered from `index`. -/
def removeOperands (uses : UseIndex) (node : NodeId) (index : Nat) : List ValueId → UseIndex
  | [] => uses
  | operand :: rest =>
    (uses.remove operand (.operand node index)).removeOperands node (index + 1) rest

/-- Moves the sites of one value behind those of another. -/
def move (uses : UseIndex) (source target : ValueId) : UseIndex :=
  let others : UseIndex := uses.erase source
  others.assign target (others.sites target ++ uses.sites source)

/-! ## What each operation does to the sites of a value -/

/-- Assigning sites to a value leaves those of all other values alone; that the empty list unbinds cannot be seen. -/
theorem sites_assign (uses : UseIndex) (value q : ValueId) (sites : List Use) :
    (uses.assign value sites).sites q = if q = value then sites else uses.sites q := by
  unfold assign
  split
  · rename_i h
    rw [UseIndex.sites, Table.find?_erase]
    split <;> simp [UseIndex.sites, h]
  · rw [UseIndex.sites, Table.find?_insert]
    split <;> simp [UseIndex.sites]

/-- A new site comes last among those of its value. -/
theorem sites_add (uses : UseIndex) (value q : ValueId) (site : Use) :
    (uses.add value site).sites q =
      if q = value then uses.sites value ++ [site] else uses.sites q :=
  sites_assign ..

/-- A site is taken from those of its value only. -/
theorem sites_remove (uses : UseIndex) (value q : ValueId) (site : Use) :
    (uses.remove value site).sites q =
      if q = value then (uses.sites value).erase site else uses.sites q :=
  sites_assign ..

end UseIndex

end KernelFusion
