import Mathlib.Logic.Function.Basic
import StreamExpr.Proofs.Graph
import StreamExpr.Proofs.Reachability

/-! Handles and operands under edits.
After an edit an operand is one that was there or one that the edit brings. What holds of all
operands of a graph is therefore kept by edits that bring such operands only: that they are places
of the arena, that they are no outputs, and that they rank below their users.
-/

namespace StreamExpr.Graph

variable {g : Graph} {n : Node} {parent child new : NodeId}

/-- The operands after a node was added are those that it brings and those that were there. -/
theorem uses_push (uses : (g.push n).Uses parent child)
    : parent = g.size ∧ child ∈ n.children ∨ parent ≠ g.size ∧ g.Uses parent child := by
  rw [Uses, children, node_push] at uses
  split at uses
  case isTrue isNew => exact .inl ⟨isNew, uses⟩
  case isFalse isOld => exact .inr ⟨isOld, uses⟩

/-- The operands after a slot was pointed elsewhere are those that were there and the one it is
pointed at. -/
theorem uses_setChild {user : NodeId} {slot : Nat}
    (uses : (g.setChild user slot new).Uses parent child)
    : g.Uses parent child ∨ parent = user ∧ child = new := by
  rw [Uses, children, node_setChild] at uses
  split at uses
  case isTrue here =>
    rw [Node.children_setChild] at uses
    exact (List.mem_or_eq_of_mem_set uses).imp id fun same => ⟨here, same⟩
  case isFalse => exact .inl uses

/-! ## Handles -/

theorem Enclosed.push (enclosed : g.Enclosed) (operand : ∀ child ∈ n.children, child < g.size)
    : (g.push n).Enclosed := by
  have grown {id : NodeId} (inside : id < g.size) : id < (g.push n).size := by
    rw [size_push]
    exact Nat.lt_succ_of_lt inside
  refine ⟨fun uses => grown ?_, fun root isRoot => grown (enclosed.output root isRoot),
    fun id isInput => grown (enclosed.input id isInput)⟩
  rcases uses_push uses with ⟨_, isOwn⟩ | ⟨_, before⟩
  · exact operand _ isOwn
  · exact enclosed.operand before

theorem Enclosed.setChild (enclosed : g.Enclosed) (parent : NodeId) (slot : Nat)
    (inside : new < g.size)
    : (g.setChild parent slot new).Enclosed := by
  have size := size_setChild g parent slot new
  refine ⟨fun uses => ?_, fun root isRoot => size ▸ enclosed.output root isRoot,
    fun id isInput => size ▸ enclosed.input id isInput⟩
  rw [size]
  rcases uses_setChild uses with before | ⟨_, rfl⟩
  · exact enclosed.operand before
  · exact inside

theorem Enclosed.setOutput (enclosed : g.Enclosed) (index : Nat) (inside : new < g.size)
    : (g.setOutput index new).Enclosed where
  operand uses := enclosed.operand uses
  output root member := by
    rcases List.mem_or_eq_of_mem_set member with before | rfl
    · exact enclosed.output root before
    · exact inside
  input := enclosed.input

/-- A graph whose handles are places of its arena and whose outputs are no operands. -/
structure Tidy (g : Graph) : Prop extends g.Enclosed where
  unused : ∀ {parent child}, g.Uses parent child → g.isOutput child = false
  keyed : ∀ {v c s : Nat}, g.selections[(v, c)]? = some s → v < g.size

theorem Tidy.push (tidy : g.Tidy)
    (operand : ∀ child ∈ n.children, child < g.size ∧ g.isOutput child = false)
    : (g.push n).Tidy where
  toEnclosed := tidy.toEnclosed.push fun child isOwn => (operand child isOwn).1
  unused {parent child} uses := by
    have isValue : child < g.size ∧ g.isOutput child = false := by
      rcases uses_push uses with ⟨_, isOwn⟩ | ⟨_, before⟩
      · exact operand child isOwn
      · exact ⟨tidy.operand before, tidy.unused before⟩
    rw [isOutput, node_push_of_lt n isValue.1]
    exact isValue.2
  keyed found := by
    rw [size_push]
    exact Nat.lt_succ_of_lt (tidy.keyed found)

theorem Tidy.setChild (tidy : g.Tidy) {slot : Nat} (inside : new < g.size)
    (isValue : g.isOutput new = false)
    : (g.setChild parent slot new).Tidy where
  toEnclosed := tidy.toEnclosed.setChild parent slot inside
  unused uses := by
    rw [isOutput_setChild]
    rcases uses_setChild uses with before | ⟨_, rfl⟩
    · exact tidy.unused before
    · exact isValue
  keyed found := by
    rw [size_setChild]
    exact tidy.keyed found

theorem Tidy.setOutput (tidy : g.Tidy) {root : NodeId} (index : Nat) (inside : root < g.size)
    : (g.setOutput index root).Tidy where
  toEnclosed := tidy.toEnclosed.setOutput index inside
  unused := tidy.unused
  keyed := tidy.keyed

/-! ## Ranks -/

/-- Operands are places of the arena and rank below their users. -/
def Ranked {R : Type} [LT R] (g : Graph) (rank : NodeId → R) : Prop :=
  ∀ ⦃parent child⦄, g.Uses parent child → child < g.size ∧ rank child < rank parent

section Ranked

variable {R : Type} [LT R] {rank : NodeId → R}

/-- A node that is added may have any rank above those of its operands. -/
theorem Ranked.push (ranked : g.Ranked rank) {own : R}
    (operand : ∀ child ∈ n.children, child < g.size ∧ rank child < own)
    : (g.push n).Ranked (Function.update rank g.size own) := by
  intro parent child uses
  rw [size_push]
  rcases uses_push uses with ⟨rfl, isOwn⟩ | ⟨isOld, before⟩
  · obtain ⟨inside, lower⟩ := operand child isOwn
    rw [Function.update_self, Function.update_of_ne (Nat.ne_of_lt inside)]
    exact ⟨Nat.lt_succ_of_lt inside, lower⟩
  -- The new place is no operand of what was there, so its rank is not looked at.
  · obtain ⟨inside, lower⟩ := ranked before
    rw [Function.update_of_ne isOld, Function.update_of_ne (Nat.ne_of_lt inside)]
    exact ⟨Nat.lt_succ_of_lt inside, lower⟩

theorem Ranked.setChild (ranked : g.Ranked rank) {slot : Nat} (inside : new < g.size)
    (lower : rank new < rank parent)
    : (g.setChild parent slot new).Ranked rank := by
  intro user child uses
  rw [size_setChild]
  rcases uses_setChild uses with before | ⟨rfl, rfl⟩
  · exact ranked before
  · exact ⟨inside, lower⟩

end Ranked

end StreamExpr.Graph
