import StreamExpr.Proofs.Traversal
import StreamExpr.Schedule

/-! What a schedule lists.
Every node needed by an output stands there once, and registers count those that have a value. Where
the graph is acyclic a node stands after the operands that need a register, and the outputs stand in
the order in which the roots are walked.
-/

namespace StreamExpr.Schedule

open Relation Traversal

/-! ## Virtual registers -/

/-- The nodes of a list that have a value. -/
def valued (g : Graph) (nodes : List NodeId) : List NodeId :=
  nodes.filter (!g.isOutput ·)

theorem append_of_output {g : Graph} {s : Schedule} {id : NodeId} (output : g.isOutput id = true)
    : append g s id = { s with instructions := id :: s.instructions } := by
  rw [append, if_pos output]

theorem append_of_value {g : Graph} {s : Schedule} {id : NodeId} (value : ¬ g.isOutput id)
    : append g s id
      = { instructions := id :: s.instructions
          registers := s.registers.insert id s.count
          count := s.count + 1 } := by
  rw [append, if_neg value]

/-- Appending nodes lists them and numbers those with a value.
Witness: induction on the last node; a new node is none of the numbered ones.
-/
theorem foldl_append {g : Graph} {nodes : List NodeId} (nodup : nodes.Nodup)
    : (nodes.foldl (append g) empty).instructions = nodes.reverse
      ∧ (nodes.foldl (append g) empty).count = (valued g nodes).length
      ∧ ∀ id register,
          (nodes.foldl (append g) empty).register? id = some register
          ↔ (valued g nodes)[register]? = some id := by
  induction nodes using List.reverseRecOn with
  | nil => simp [empty, valued, register?]
  | append_singleton nodes last ih =>
      obtain ⟨before, _, separate⟩ := List.nodup_append.mp nodup
      obtain ⟨instructions, count, registers⟩ := ih before
      rw [List.foldl_concat]
      by_cases output : g.isOutput last
      · have same : valued g (nodes ++ [last]) = valued g nodes := by
          simp [valued, output]
        rw [append_of_output output, same]
        exact ⟨by simp [instructions], count, registers⟩
      · have more : valued g (nodes ++ [last]) = valued g nodes ++ [last] := by
          simp [valued, output]
        -- No earlier number is that of the last node, which takes the next one.
        have absent : last ∉ valued g nodes := fun member =>
          separate last (List.mem_filter.mp member).1 last (by simp) rfl
        rw [append_of_value output, more]
        refine ⟨by simp [instructions], by simp [count], fun id register => ?_⟩
        rw [register?, Std.TreeMap.getElem?_insert, List.getElem?_append]
        by_cases same : id = last
        · subst same
          have bound : (valued g nodes)[register]? = some id → False := fun found =>
            absent (List.mem_of_getElem? found)
          simp only [Std.compare_self, if_true, Option.some.injEq, count]
          split
          · constructor
            · intro
              omega
            · exact fun found => (bound found).elim
          · rw [List.getElem?_singleton]
            constructor
            · intro
              rw [if_pos (by omega)]
            · intro found
              split at found
              · omega
              · cases found
        · rw [if_neg (by simpa using fun equal => same equal.symm)]
          refine (registers id register).trans ?_
          split
          case isTrue => rfl
          case isFalse above =>
            rw [List.getElem?_eq_none (Nat.le_of_not_lt above), List.getElem?_singleton]
            constructor
            · intro found
              cases found
            · intro found
              split at found
              · exact absurd (Option.some.inj found).symm same
              · cases found

@[simp]
theorem ofNodes_instructions {g : Graph} {nodes : List NodeId} (nodup : nodes.Nodup)
    : (ofNodes g nodes).instructions = nodes := by
  rw [ofNodes, (foldl_append nodup).1, List.reverse_reverse]

/-- The register of a node is its place among the scheduled nodes with a value. -/
theorem ofNodes_register? {g : Graph} {nodes : List NodeId} (nodup : nodes.Nodup)
    {id : NodeId} {register : Nat}
    : (ofNodes g nodes).register? id = some register
      ↔ (valued g nodes)[register]? = some id :=
  (foldl_append nodup).2.2 id register

/-! ## Order -/

/-- What needs a register is an operand. -/
theorem uses_of_registerOperand {g : Graph} {parent child : NodeId}
    (member : child ∈ g.registerOperands parent)
    : g.Uses parent child := by
  rw [Graph.registerOperands] at member
  rw [Graph.Uses, Graph.children, Node.children]
  split at member
  next kind =>
    rw [kind]
    split at member
    · simp_all [NodeKind.children]
    · exact member
  · exact member

/-- An operand that is no constant needs a register. -/
theorem registerOperand_of_uses {g : Graph} {parent child : NodeId} (uses : g.Uses parent child)
    (varies : g.isConstant child = false)
    : child ∈ g.registerOperands parent := by
  rw [Graph.Uses, Graph.children, Node.children] at uses
  rw [Graph.registerOperands]
  split
  next kind =>
    rw [kind] at uses
    split
    case isTrue constant =>
      rcases List.mem_cons.mp uses with rfl | isRight
      · exact List.mem_cons_self
      · rw [List.mem_singleton.mp isRight, constant] at varies
        cases varies
    case isFalse => exact uses
  · exact uses

theorem followed_registerOperands (g : Graph)
    : followed g.size g.registerOperands = g.registerOperands := by
  funext id
  rw [followed]
  split
  case isTrue => rfl
  case isFalse outside =>
    rw [Graph.registerOperands, Graph.node_of_size_le (Nat.le_of_not_lt outside)]
    rfl

/-- The operands that need a register rank below their users. -/
theorem ranking_registerOperands {g : Graph} (acyclic : g.Acyclic)
    : Ranking (followed g.size g.registerOperands) g.Reachable g.rank := by
  rw [followed_registerOperands]
  exact {
    closed := fun reachable member => reachable.operand (uses_of_registerOperand member)
    lt := fun reachable member => acyclic.rank_lt reachable (uses_of_registerOperand member)
  }

/-- Scheduling succeeds on graphs whose roots are outputs. -/
theorem ofGraph_eq_ok {g : Graph} {s : Schedule} (scheduled : ofGraph g = .ok s)
    : (∀ root ∈ g.outputs, g.isOutput root = true)
      ∧ s = ofNodes g (g.postOrder g.registerOperands g.outputs.reverse) := by
  simp only [ofGraph] at scheduled
  by_cases none : g.outputs.isEmpty
  · simp [none, throw, throwThe, MonadExceptOf.throw, bind, Except.bind] at scheduled
  · cases found : g.outputs.find? (!g.isOutput ·) with
    | some root => simp [none, found, throw, throwThe, MonadExceptOf.throw] at scheduled
    | none =>
        refine ⟨fun root member => ?_, ?_⟩
        · simpa using List.find?_eq_none.mp found root member
        · simpa [none, found, bind, Except.bind, pure, Except.pure] using scheduled.symm

theorem ofGraph_of_roots {g : Graph} (rooted : g.outputs ≠ [])
    (outputs : ∀ root ∈ g.outputs, g.isOutput root = true)
    : ofGraph g = .ok (ofNodes g (g.postOrder g.registerOperands g.outputs.reverse)) := by
  have found : g.outputs.find? (!g.isOutput ·) = none :=
    List.find?_eq_none.mpr fun root isRoot => by simp [outputs root isRoot]
  simp [ofGraph, found, rooted, pure, Except.pure]

/-- A schedule lists a node once, and registers count the listed nodes that have a value. -/
structure Numbered (g : Graph) (s : Schedule) : Prop where
  nodup : s.instructions.Nodup
  register
    : ∀ {id register},
        s.register? id = some register ↔ (valued g s.instructions)[register]? = some id

/-- The schedule of any graph lists reachable nodes and, with a node, the operands that need a
register. -/
structure Covers (g : Graph) (s : Schedule) extends Numbered g s where
  reachable : ∀ id ∈ s.instructions, g.Reachable id
  operand : ∀ {parent child}, parent ∈ s.instructions → child ∈ g.registerOperands parent
    → child ∈ s.instructions

theorem instructions_ofGraph {g : Graph} {s : Schedule} (scheduled : ofGraph g = .ok s)
    : s.instructions = g.postOrder g.registerOperands g.outputs.reverse := by
  obtain ⟨_, rfl⟩ := ofGraph_eq_ok scheduled
  exact ofNodes_instructions (postOrder_complete g g.registerOperands g.outputs.reverse).nodup

theorem covers_ofGraph {g : Graph} {s : Schedule} (scheduled : ofGraph g = .ok s)
    : Covers g s := by
  have complete := postOrder_complete g g.registerOperands g.outputs.reverse
  rw [followed_registerOperands, ← instructions_ofGraph scheduled] at complete
  refine {
    nodup := complete.nodup
    register := fun {_ _} => ?_
    reachable := ?_
    operand := complete.operand
  }
  · rw [instructions_ofGraph scheduled]
    obtain ⟨_, rfl⟩ := ofGraph_eq_ok scheduled
    exact ofNodes_register? (postOrder_complete g g.registerOperands g.outputs.reverse).nodup
  · rw [instructions_ofGraph scheduled]
    exact postOrder_of_closed
      (fun reachable member => reachable.operand (uses_of_registerOperand member))
      (fun root member => .root (List.mem_reverse.mp member))

/-- A scheduled node that has a value has a register. -/
theorem Numbered.exists_register {g : Graph} {s : Schedule} (numbered : Numbered g s) {id : NodeId}
    (isListed : id ∈ s.instructions) (isValue : g.isOutput id = false)
    : ∃ register, s.register? id = some register := by
  have member : id ∈ valued g s.instructions := List.mem_filter.mpr ⟨isListed, by simp [isValue]⟩
  obtain ⟨register, found⟩ := List.mem_iff_getElem?.mp member
  exact ⟨register, numbered.register.mpr found⟩

/-- A schedule of an acyclic graph: its instructions, their order, and their registers. -/
structure Ordered (g : Graph) (s : Schedule) extends Numbered g s where
  linearizes : Linearizes g.registerOperands g.outputs.reverse s.instructions

instance {g : Graph} {s : Schedule} : Coe (Ordered g s) (Numbered g s) where
  coe := Ordered.toNumbered

theorem linearizes_postOrder {g : Graph} (acyclic : g.Acyclic)
    : Linearizes g.registerOperands g.outputs.reverse
        (g.postOrder g.registerOperands g.outputs.reverse) := by
  have linearizes : Linearizes _ g.outputs.reverse _ :=
    (ranking_registerOperands acyclic).postOrder_linearizes fun _ member =>
      .root (List.mem_reverse.mp member)
  rwa [followed_registerOperands] at linearizes

theorem ordered_ofGraph {g : Graph} (acyclic : g.Acyclic) {s : Schedule}
    (scheduled : ofGraph g = .ok s)
    : Ordered g s where
  toNumbered := (covers_ofGraph scheduled).toNumbered
  linearizes := instructions_ofGraph scheduled ▸ linearizes_postOrder acyclic

/-- Where no scheduled operand is an output, outputs stand in the order in which the roots are
walked from last to first, a repeated root where it is first met. -/
theorem outputs_ofGraph {g : Graph} (acyclic : g.Acyclic) {s : Schedule}
    (scheduled : ofGraph g = .ok s)
    (unused : ∀ parent ∈ s.instructions, ∀ child ∈ g.registerOperands parent,
      g.isOutput child = false)
    : s.instructions.filter g.isOutput = g.outputs.reverse.eraseDups := by
  obtain ⟨outputs, _⟩ := ofGraph_eq_ok scheduled
  have ordered := ordered_ofGraph acyclic scheduled
  have starts (root) (member : root ∈ g.outputs.reverse)
    : root ∈ s.instructions ∧ g.isOutput root = true :=
      ⟨ordered.linearizes.rootsListed root member, outputs root (List.mem_reverse.mp member)⟩
  rw [instructions_ofGraph scheduled]
  refine postOrder_marked ?_ ?_ starts
  · rw [followed_registerOperands]
    exact (covers_ofGraph scheduled).operand
  · rw [followed_registerOperands]
    exact fun {parent child} isListed => unused parent isListed child

end StreamExpr.Schedule
