import Mathlib.Data.Finset.Card
import Mathlib.Data.Finset.Range
import Mathlib.Logic.Relation
import StreamExpr.Graph

/-! Reachability from the output roots, and graphs without cycles.
An acyclic graph has a rank: a number for each node that every operand undercuts.
-/

namespace StreamExpr.Graph

open Relation

/-- `child` is an operand of `parent`. -/
def Uses (g : Graph) (parent child : NodeId) : Prop :=
  child ∈ g.children parent

/-- A node that is an output root or an operand of a reachable node. -/
def Reachable (g : Graph) (id : NodeId) : Prop :=
  ∃ root ∈ g.outputs, ReflTransGen g.Uses root id

/-- No node reachable from the output roots is its own operand through others. -/
def Acyclic (g : Graph) : Prop :=
  ∀ id, g.Reachable id → ¬ TransGen g.Uses id id

theorem Reachable.root {g : Graph} {root : NodeId} (member : root ∈ g.outputs)
    : g.Reachable root :=
  ⟨root, member, .refl⟩

theorem Reachable.operand {g : Graph} {parent child : NodeId}
    (reachable : g.Reachable parent) (uses : g.Uses parent child)
    : g.Reachable child := by
  obtain ⟨root, member, path⟩ := reachable
  exact ⟨root, member, path.tail uses⟩

/-- Where outputs are no operands, those that are reachable are roots. -/
theorem Reachable.mem_outputs {g : Graph} {id : NodeId} (reachable : g.Reachable id)
    (isOutput : g.isOutput id = true)
    (unused : ∀ {parent child}, g.Uses parent child → g.isOutput child = false)
    : id ∈ g.outputs := by
  obtain ⟨root, isRoot, path⟩ := reachable
  cases path with
  | refl => exact isRoot
  | tail _ uses => cases (unused uses).symm.trans isOutput

/-- Places outside the arena have no operands. -/
theorem node_of_size_le {g : Graph} {id : NodeId} (outside : g.size ≤ id)
    : g.node id = .absent := by
  simp only [node, Array.getD_eq_getD_getElem?]
  rw [Array.getElem?_eq_none outside, Option.getD_none]

theorem children_of_size_le {g : Graph} {id : NodeId} (outside : g.size ≤ id)
    : g.children id = [] := by
  rw [children, node_of_size_le outside]
  rfl

/-- Only places in the arena have operands. -/
theorem Uses.lt_size {g : Graph} {parent child : NodeId} (uses : g.Uses parent child)
    : parent < g.size := by
  by_contra outside
  rw [Uses, children_of_size_le (Nat.le_of_not_lt outside)] at uses
  exact List.not_mem_nil uses

/-- A graph all of whose handles are places of its arena. -/
structure Enclosed (g : Graph) : Prop where
  operand : ∀ {parent child}, g.Uses parent child → child < g.size
  output : ∀ root ∈ g.outputs, root < g.size
  input : ∀ id ∈ g.inputs, id < g.size

instance (g : Graph) : Decidable g.Enclosed :=
  decidable_of_iff
    ((∀ parent < g.size, ∀ child ∈ g.children parent, child < g.size)
      ∧ (∀ root ∈ g.outputs, root < g.size)
      ∧ ∀ id ∈ g.inputs, id < g.size)
    ⟨fun ⟨operand, output, input⟩ => ⟨fun uses => operand _ uses.lt_size _ uses, output, input⟩,
      fun enclosed => ⟨fun _ _ _ uses => enclosed.operand uses, enclosed.output, enclosed.input⟩⟩

theorem Enclosed.lt_size {g : Graph} (enclosed : g.Enclosed) {id : NodeId}
    (reachable : g.Reachable id)
    : id < g.size := by
  obtain ⟨root, isRoot, path⟩ := reachable
  cases path with
  | refl => exact enclosed.output id isRoot
  | tail _ uses => exact enclosed.operand uses

/-- A graph whose operands rank below their users is acyclic. -/
theorem acyclic_of_rank {R : Type} [Preorder R] {g : Graph} (rank : NodeId → R)
    (below : ∀ {parent child}, g.Reachable parent → g.Uses parent child → rank child < rank parent)
    : g.Acyclic := by
  intro id reachable cycle
  have lower {child} (path : TransGen g.Uses id child)
    : g.Reachable child ∧ rank child < rank id := by
    induction path with
    | single uses => exact ⟨reachable.operand uses, below reachable uses⟩
    | tail _ uses ih => exact ⟨ih.1.operand uses, (below ih.1 uses).trans ih.2⟩
  exact lt_irrefl _ (lower cycle).2

/-- A graph whose operands all stand before their users is acyclic. -/
theorem acyclic_of_lt {g : Graph} (before : ∀ id < g.size, ∀ child ∈ g.children id, child < id)
    : g.Acyclic :=
  acyclic_of_rank id fun _ uses => before _ uses.lt_size _ uses

/-! ## Ranks -/

open Classical in
/-- The nodes of the arena below a node. -/
noncomputable def below (g : Graph) (id : NodeId) : Finset NodeId :=
  {child ∈ Finset.range g.size | TransGen g.Uses id child}

theorem mem_below {g : Graph} {id child : NodeId}
    : child ∈ g.below id ↔ child < g.size ∧ TransGen g.Uses id child := by
  simp only [below, Finset.mem_filter, Finset.mem_range]

/-- The number of nodes below a node, where a place outside the arena ranks lowest. -/
noncomputable def rank (g : Graph) (id : NodeId) : Nat :=
  if id < g.size then (g.below id).card + 1 else 0

/-- In an acyclic graph an operand ranks below its user.
Witness: what lies below the operand lies below the user, and so does the operand itself, which
acyclicity keeps from lying below itself.
-/
theorem Acyclic.rank_lt {g : Graph} (acyclic : g.Acyclic) {parent child : NodeId}
    (reachable : g.Reachable parent) (uses : g.Uses parent child)
    : g.rank child < g.rank parent := by
  have parentInside := uses.lt_size
  by_cases inside : child < g.size
  · have included : g.below child ⊆ g.below parent := by
      intro id member
      obtain ⟨memberInside, path⟩ := mem_below.mp member
      exact mem_below.mpr ⟨memberInside, .head uses path⟩
    have proper : g.below child ⊂ g.below parent := by
      refine Finset.ssubset_iff_subset_ne.mpr ⟨included, fun same => ?_⟩
      have member : child ∈ g.below parent := mem_below.mpr ⟨inside, .single uses⟩
      rw [← same] at member
      exact acyclic child (reachable.operand uses) (mem_below.mp member).2
    have fewer := Finset.card_lt_card proper
    simp only [rank, inside, parentInside, if_true]
    omega
  · simp only [rank, inside, parentInside, if_true, if_false]
    omega

end StreamExpr.Graph
