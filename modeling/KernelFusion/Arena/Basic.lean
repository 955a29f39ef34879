import KernelFusion.Arena.Handle

/-!
# Generation-checked slot storage

An `Arena` keeps entries in numbered slots. Emptied slots form a stack and are reused, the most
recently emptied first; a new slot is opened only when none is empty. The stack is threaded through
the slots: the arena knows the top one, and each empty slot the one below it. `Arena.fresh` is the
handle that the next insertion will give out.

Each operation has one equation for `Arena.get?` in the well-formed arenas; the definitions here
only say what is done to slots, stack and count.
-/

namespace KernelFusion

/-- A place for one entry. -/
@[ext]
structure Slot (α : Type) where
  generation : UInt32 := 0
  entry : Option α
  /-- The slot that was emptied before this one and is still empty. -/
  below : Option Nat := none
deriving DecidableEq

/-- Entries in numbered slots, with the top of the stack of empty slots and the number of entries. -/
@[ext]
structure Arena (entity : Entity) (α : Type) where
  slots : List (Slot α) := []
  top : Option Nat := none
  size : Nat := 0
deriving DecidableEq

namespace Arena

variable {entity : Entity} {α : Type}

/-- The arena without entries. -/
def empty : Arena entity α := {}

instance : Inhabited (Arena entity α) := ⟨empty⟩

/-! ## Looking up -/

/-- The entry that a handle names, if there is one. -/
def get? (a : Arena entity α) (h : Handle entity) : Option α :=
  match a.slots[h.index]? with
  | some slot => if slot.generation = h.generation then slot.entry else none
  | none => none

/-- Whether a handle names an entry. -/
def contains (a : Arena entity α) (h : Handle entity) : Bool := (a.get? h).isSome

/-- Whether there are no entries. -/
def isEmpty (a : Arena entity α) : Bool := a.size == 0

/-- The entries of the slots from number `index` on, each with its handle. -/
def entriesFrom (index : Nat) : List (Slot α) → List (Handle entity × α)
  | [] => []
  | slot :: rest =>
    match slot.entry with
    | some x => (⟨index, slot.generation⟩, x) :: entriesFrom (index + 1) rest
    | none => entriesFrom (index + 1) rest

/-- The entries with their handles, in slot order. -/
def toList (a : Arena entity α) : List (Handle entity × α) := entriesFrom 0 a.slots

/-! ## Storing, replacing and removing -/

/-- The handle that the next insertion gives out. -/
def fresh (a : Arena entity α) : Handle entity :=
  match a.top with
  | some index => ⟨index, (a.slots[index]?).elim 0 (·.generation)⟩
  | none => ⟨a.slots.length, 0⟩

/-- Stores an entry under the handle `a.fresh`. -/
def insert (a : Arena entity α) (x : α) : Arena entity α :=
  match a.top with
  | some index =>
    { slots := a.slots.modify index fun slot => { slot with entry := some x, below := none }
      top := a.slots[index]?.bind (·.below)
      size := a.size + 1 }
  | none => { a with slots := a.slots ++ [{ entry := some x }], size := a.size + 1 }

/-- Applies `f` to the entry that a handle names; other handles change nothing. -/
def modify (a : Arena entity α) (h : Handle entity) (f : α → α) : Arena entity α :=
  if a.contains h then
    { a with slots := a.slots.modify h.index fun slot => { slot with entry := slot.entry.map f } }
  else a

/-- Empties the slot that a handle names, moves its generation on and gives back what it held; other
handles name nothing and change nothing. -/
def remove (a : Arena entity α) (h : Handle entity) : Option α × Arena entity α :=
  match a.slots[h.index]? with
  | none => (none, a)
  | some slot =>
    if slot.generation = h.generation then
      match slot.entry with
      | none => (none, a)
      | some x =>
        (some x,
          { slots := a.slots.set h.index ⟨slot.generation + 1, none, a.top⟩
            top := some h.index
            size := a.size - 1 })
    else (none, a)

/-- What removing an entry leaves. -/
def erase (a : Arena entity α) (h : Handle entity) : Arena entity α := (a.remove h).2

end Arena

end KernelFusion
