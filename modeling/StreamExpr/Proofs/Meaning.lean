import Mathlib.Data.List.Forall2
import StreamExpr.Graph

/-! Values of the nodes of a graph.
What a node makes of the values of its operands is a parameter. A node has a value if unfolding it
comes to an end and every node on the way has a value, so a node on a cycle has none.
-/

namespace StreamExpr

theorem exists_forall₂ {α β : Type} {P : α → β → Prop} {xs : List α} (each : ∀ x ∈ xs, ∃ y, P x y)
    : ∃ ys, List.Forall₂ P xs ys := by
  induction xs with
  | nil => exact ⟨[], .nil⟩
  | cons x xs ih =>
      obtain ⟨y, head⟩ := each x List.mem_cons_self
      obtain ⟨ys, tail⟩ := ih fun other member => each other (List.mem_cons_of_mem _ member)
      exact ⟨y :: ys, .cons head tail⟩

namespace Graph

variable {α : Type}

/-- A node has a value: its operands have values and the node makes one of them. -/
inductive Evaluates (g : Graph) (meaning : NodeId → List α → Option α) : NodeId → α → Prop
  | intro {id : NodeId} {operands : List α} {value : α}
    (values : List.Forall₂ (g.Evaluates meaning) (g.children id) operands)
    (result : meaning id operands = some value)
    : g.Evaluates meaning id value

variable {g : Graph} {meaning : NodeId → List α → Option α}

/-- A property of valued nodes that passes from operands to users holds of all of them. -/
@[elab_as_elim]
theorem Evaluates.induct {motive : (id : NodeId) → (value : α) → g.Evaluates meaning id value
    → Prop} (step : ∀ id operands value
      (values : List.Forall₂ (fun child operand => ∃ valued, motive child operand valued)
        (g.children id) operands)
      (result : meaning id operands = some value),
      motive id value (.intro (values.imp fun _ _ => Exists.fst) result))
    {id : NodeId} {value : α} (evaluates : g.Evaluates meaning id value)
    : motive id value evaluates :=
  @Evaluates.rec α g meaning motive
    (fun children operands _ =>
      List.Forall₂ (fun child operand => ∃ valued, motive child operand valued) children operands)
    (fun _ result values => step _ _ _ values result)
    .nil
    (fun head _ headHolds tailHold => .cons ⟨head, headHolds⟩ tailHold)
    id value evaluates

/-- The operands of a node with a value have the values it is made of. -/
theorem Evaluates.operands {id : NodeId} {value : α} (evaluates : g.Evaluates meaning id value)
    : ∃ operands,
        List.Forall₂ (g.Evaluates meaning) (g.children id) operands
        ∧ meaning id operands = some value := by
  cases evaluates with
  | intro values result => exact ⟨_, values, result⟩

/-- A node of a known kind has the value that it makes of its operands. -/
theorem Evaluates.of_kind {id : NodeId} {kind : NodeKind} {operands : List α} {value : α}
    (found : (g.node id).kind = kind)
    (values : List.Forall₂ (g.Evaluates meaning) kind.children operands)
    (result : meaning id operands = some value)
    : g.Evaluates meaning id value := by
  subst found
  exact .intro values result

/-- A node has at most one value.
Witness: induction on the unfolding; operands have one value each, so the meaning sees one list.
-/
theorem Evaluates.unique {id : NodeId} {left right : α}
    (evaluates : g.Evaluates meaning id left) (other : g.Evaluates meaning id right)
    : left = right := by
  induction evaluates using Evaluates.induct generalizing right with
  | step id operands value values result =>
      obtain ⟨others, otherValues, otherResult⟩ := other.operands
      have same : operands = others := by
        clear result otherResult
        generalize g.children id = children at values otherValues
        induction values generalizing others with
        | nil => cases otherValues; rfl
        | cons head _ ih =>
            cases otherValues with
            | cons otherHead otherTail =>
                obtain ⟨_, headUnique⟩ := head
                rw [headUnique otherHead, ih _ otherTail]
      subst same
      exact Option.some.inj (result.symm.trans otherResult)

end Graph

end StreamExpr
