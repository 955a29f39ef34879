import KernelFusion.Kernel.Unfold
import KernelFusion.Proofs.Fallible
import Mathlib.Data.List.Induction

/-!
# Unfolding is one forward pass

The expression of a local is settled by the instructions up to it: adding instructions behind them changes
nothing (`treeAt?_append_left`), and a new instruction stands for what `Inst.tree?` makes of the ones
before it (`treeAt?_concat`). So what holds of every access and literal, and of a computation when it holds
of the arguments, holds of the expression of every local (`treeAt?_induct`).
-/

namespace KernelFusion

theorem treesAfter_append (earlier : List (Option (Expr Access))) (steps more : List Step) :
    treesAfter earlier (steps ++ more) = treesAfter (treesAfter earlier steps) more := by
  induction steps generalizing earlier with
  | nil => rfl
  | cons step rest ih => rw [List.cons_append, treesAfter, treesAfter, ih]

/-- Unfolding more steps does not change the expressions that are there. -/
theorem prefix_treesAfter (earlier : List (Option (Expr Access))) (steps : List Step) :
    earlier <+: treesAfter earlier steps := by
  induction steps generalizing earlier with
  | nil => exact List.prefix_refl earlier
  | cons step rest ih => exact (List.prefix_append earlier _).trans (ih _)

theorem length_treesAfter (earlier : List (Option (Expr Access))) (steps : List Step) :
    (treesAfter earlier steps).length = earlier.length + steps.length := by
  induction steps generalizing earlier with
  | nil => rfl
  | cons step rest ih =>
    rw [treesAfter, ih, List.length_append, List.length_singleton, List.length_cons]
    omega

/-- Each step has its place among the expressions, even one without a result. -/
theorem length_treesOf (steps : List Step) : (treesOf steps).length = steps.length := by
  rw [treesOf, length_treesAfter, List.length_nil, Nat.zero_add]

/-- The expression of a step is made of those of the steps before. -/
theorem treesOf_concat (steps : List Step) (step : Step) :
    treesOf (steps ++ [step]) = treesOf steps ++ [step.inst.tree? (treesOf steps)] := by
  rw [treesOf, treesAfter_append]
  rfl

/-- What a local stands for does not depend on the steps behind it. -/
theorem treeAt?_append_left {steps more : List Step} {loc : Local} (lt : loc < steps.length) :
    treeAt? (steps ++ more) loc = treeAt? steps loc := by
  obtain ⟨tail, split⟩ := prefix_treesAfter (treesOf steps) more
  unfold treeAt?
  rw [treesOf, treesAfter_append, ← treesOf, ← split, List.getElem?_append_left]
  rwa [length_treesOf]

theorem treeAt?_concat (steps : List Step) (step : Step) :
    treeAt? (steps ++ [step]) steps.length = step.inst.tree? (treesOf steps) := by
  rw [treeAt?, treesOf_concat, List.getElem?_append_right (Nat.le_of_eq (length_treesOf steps)),
    length_treesOf, Nat.sub_self, List.getElem?_cons_zero, Option.join_some]

/-- An instruction reads the expressions of its arguments where they stand. -/
theorem tree?_compute (steps : List Step) (op : Operator) (args : List Local) :
    (Inst.compute op args).tree? (treesOf steps) = (args.mapM (treeAt? steps)).map (.compute op) :=
  rfl

/-- A property of the expressions of a list of steps, instruction by instruction. -/
theorem treeAt?_induct {steps : List Step} {motive : Expr Access → Prop}
    (access : ∀ read type, ⟨.access read, type⟩ ∈ steps → motive (.read read))
    (const : ∀ literal, motive (.const literal))
    (compute : ∀ op args type trees, ⟨.compute op args, type⟩ ∈ steps →
      args.length = trees.length → (∀ tree ∈ trees, motive tree) → motive (.compute op trees))
    {loc : Local} {tree : Expr Access} (treeEq : treeAt? steps loc = some tree) : motive tree := by
  induction steps using List.reverseRecOn generalizing loc tree with
  | nil => simp [treeAt?, treesOf, treesAfter] at treeEq
  | append_singleton steps step ih =>
    have earlier {loc : Local} {tree : Expr Access} (treeEq : treeAt? steps loc = some tree) :
        motive tree :=
      ih (fun read type found => access read type (List.mem_append_left _ found))
        (fun op args type trees found => compute op args type trees (List.mem_append_left _ found))
        treeEq
    have isLast : step ∈ steps ++ [step] := List.mem_append_right _ List.mem_cons_self
    rcases Nat.lt_trichotomy loc steps.length with before | rfl | behind
    · rw [treeAt?_append_left before] at treeEq
      exact earlier treeEq
    · rw [treeAt?_concat] at treeEq
      rcases step with ⟨inst, type⟩
      cases inst with
      | access read =>
        rw [Inst.tree?, Option.some.injEq] at treeEq
        exact treeEq ▸ access read type isLast
      | const literal =>
        rw [Inst.tree?, Option.some.injEq] at treeEq
        exact treeEq ▸ const literal
      | compute op args =>
        rw [tree?_compute, Option.map_eq_some_iff] at treeEq
        rcases treeEq with ⟨trees, treesEq, rfl⟩
        have parts := mapM_eq_some_iff.mp treesEq
        refine compute op args type trees isLast parts.length_eq fun tree isPart => ?_
        rcases exists_left_of_mem parts isPart with ⟨arg, -, argEq⟩
        exact earlier argEq
      | ret operands => cases treeEq
    · have outside : (treesOf (steps ++ [step]))[loc]? = none := by
        refine List.getElem?_eq_none ?_
        rw [length_treesOf, List.length_append, List.length_singleton]
        exact behind
      rw [treeAt?, outside] at treeEq
      cases treeEq

end KernelFusion
