/-!
# Handles

A `Handle` names an entry of an arena by the index of its slot and the generation the slot had
when the entry was stored. A slot's generation moves on whenever it is emptied, so a handle kept
across an erasure names nothing rather than the slot's next tenant. Generations are counted in
32 bits and wrap around.

Handles of the two kinds of entity, nodes and values, are of different types.
-/

namespace KernelFusion

/-- The kinds of entity that handles name. -/
inductive Entity where
  | node
  | value

/-- The letter that handles of a kind are written with. -/
def Entity.letter : Entity → String
  | .node => "n"
  | .value => "v"

/-- A slot index with the generation the slot had when the entry was stored. -/
@[ext]
structure Handle (entity : Entity) where
  index : Nat
  generation : UInt32
deriving DecidableEq, Ord

instance {entity : Entity} : LawfulBEq (Handle entity) := inferInstance

/-- A handle of a node. -/
abbrev NodeId := Handle .node

/-- A handle of a value. -/
abbrev ValueId := Handle .value

/-- The text of a handle, such as `n5`, or `n5.3` when the generation is not zero. -/
def Handle.text {entity : Entity} (h : Handle entity) : String :=
  let slot := entity.letter ++ toString h.index
  if h.generation = 0 then slot else slot ++ "." ++ toString h.generation.toNat

end KernelFusion
