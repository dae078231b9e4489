import StreamExpr.Proofs.Graph
import StreamExpr.Proofs.Schedule

/-! Schedules list exactly what the roots need.
The listing has every node that some root needs in a register and no other, each once and after its
operands. Roots are walked from the last to the first, so what the last ones need makes up the
beginning of the list.
-/

namespace StreamExpr.Schedule

open Relation Traversal

/-- A node is needed in a register by one of some roots, directly or by what the root needs. -/
def Needed (g : Graph) (roots : List NodeId) (id : NodeId) : Prop :=
  ∃ root ∈ roots, ReflTransGen (fun parent child => child ∈ g.registerOperands parent) root id

/-- A slot is the right one of an operator of two operands. -/
def OnRight (g : Graph) (user : NodeId) (slot : Nat) : Prop :=
  slot = 1 ∧ ∃ op left right, (g.node user).kind = .binary op left right

/-- A schedule that lists what the roots need and nothing else, in an order of execution in which
later roots come first, with a register for each listed node that has a value. -/
structure Exact (g : Graph) (s : Schedule) : Prop where
  nodup : s.instructions.Nodup
  listed : ∀ {id}, id ∈ s.instructions ↔ Needed g g.outputs id
  constant
    : ∀ {id},
        g.isConstant id = true
        → (id ∈ s.instructions
            ↔ ∃ user slot, g.Reachable user ∧ (g.children user)[slot]? = some id
              ∧ ¬ OnRight g user slot)
  operand
    : ∀ {index : Nat} {parent child},
        s.instructions[index]? = some parent
        → child ∈ g.registerOperands parent
        → ∃ before < index, s.instructions[before]? = some child
  laterFirst
    : ∀ {earlier later} {i j : Nat} {x y},
        g.outputs = earlier ++ later
        → s.instructions[i]? = some x
        → s.instructions[j]? = some y
        → Needed g later x
        → ¬ Needed g later y
        → i < j
  register
    : ∀ {id register},
        s.register? id = some register ↔ (valued g s.instructions)[register]? = some id
  count : s.count = (valued g s.instructions).length

/-! ## What is needed -/

variable {g : Graph} {user child id : NodeId} {roots : List NodeId}

/-- An operand needs a register unless it is a constant on the right of an operator. -/
theorem mem_registerOperands
    : child ∈ g.registerOperands user
      ↔ ∃ slot : Nat,
          (g.children user)[slot]? = some child
          ∧ ¬ (OnRight g user slot ∧ g.isConstant child = true) := by
  rw [Graph.registerOperands, Graph.children, Node.children]
  split
  next op left right kind =>
    have onRight {slot : Nat} : OnRight g user slot ↔ slot = 1 := by simp [OnRight, kind]
    simp only [onRight, kind, NodeKind.children]
    constructor
    · intro member
      split at member
      case isTrue => exact ⟨0, by simpa using (List.mem_singleton.mp member).symm, by simp⟩
      case isFalse varies =>
        rcases List.mem_cons.mp member with rfl | isRight
        · exact ⟨0, rfl, by simp⟩
        · obtain rfl := List.mem_singleton.mp isRight
          exact ⟨1, rfl, fun both => varies both.2⟩
    · rintro ⟨slot, atSlot, apart⟩
      obtain _ | _ | slot := slot
      · obtain rfl : left = child := Option.some.inj atSlot
        split <;> exact List.mem_cons_self
      · obtain rfl : right = child := Option.some.inj atSlot
        rw [if_neg fun constant => apart ⟨rfl, constant⟩]
        exact List.mem_cons_of_mem _ List.mem_cons_self
      · cases atSlot
  next noBinary =>
    rw [List.mem_iff_getElem?]
    refine exists_congr fun slot => (and_iff_left ?_).symm
    rintro ⟨⟨_, op, left, right, kind⟩, _⟩
    exact noBinary op left right kind

theorem Needed.root (isRoot : id ∈ roots) : Needed g roots id :=
  ⟨id, isRoot, .refl⟩

theorem Needed.operand (needed : Needed g roots user) (member : child ∈ g.registerOperands user)
    : Needed g roots child := by
  obtain ⟨root, isRoot, path⟩ := needed
  exact ⟨root, isRoot, path.tail member⟩

theorem needed_reverse : Needed g roots.reverse id ↔ Needed g roots id := by
  simp only [Needed, List.mem_reverse]

theorem Needed.reachable (needed : Needed g g.outputs id) : g.Reachable id := by
  obtain ⟨root, isRoot, path⟩ := needed
  exact ⟨root, isRoot, path.lift (fun id => id) fun _ _ => uses_of_registerOperand⟩

theorem isConstant_eq_false_of_uses (uses : g.Uses user child) : g.isConstant user = false := by
  rw [Graph.Uses, Graph.children, Node.children] at uses
  rw [Graph.isConstant, Node.isConstant]
  cases kind : (g.node user).kind with
  | constant value =>
      rw [kind] at uses
      cases uses
  | _ => rfl

/-- What is reachable is needed, apart from constants. Witness: on the way from a root to it there
is no constant, for constants have no operands. -/
theorem needed_of_reachable (reachable : g.Reachable id) (varies : g.isConstant id = false)
    : Needed g g.outputs id := by
  obtain ⟨root, isRoot, path⟩ := reachable
  induction path with
  | refl => exact .root isRoot
  | tail _ uses ih =>
      exact (ih (isConstant_eq_false_of_uses uses)).operand (registerOperand_of_uses uses varies)

/-- The listing has what is needed and nothing else. -/
theorem mem_postOrder_registerOperands
    : id ∈ g.postOrder g.registerOperands roots ↔ Needed g roots id := by
  rw [mem_postOrder_iff, followed_registerOperands]
  rfl

/-! ## Order -/

/-- The listing from some roots is the beginning of the listing from these and others. -/
theorem postOrder_append (g : Graph) (operands : NodeId → List NodeId) (first last : List NodeId)
    : ∃ rest, g.postOrder operands (first ++ last) = g.postOrder operands first ++ rest := by
  obtain ⟨added, explores⟩ := (searches_foldl g operands last
    (first.foldl (search (followed g.size operands) (g.size + 1)) ⟨{}, []⟩)).explores
  refine ⟨added.reverse, ?_⟩
  rw [postOrder_eq_search, postOrder_eq_search, List.foldl_append,
    explores.listed, List.reverse_append]

/-- What the last roots need comes first. Witness: the listing from them is where the schedule
begins. -/
theorem lt_of_needed {s : Schedule} (scheduled : ofGraph g = .ok s) {earlier later : List NodeId}
    (split : g.outputs = earlier ++ later) {i j : Nat} {x y : NodeId}
    (atI : s.instructions[i]? = some x) (atJ : s.instructions[j]? = some y)
    (needed : Needed g later x) (unneeded : ¬ Needed g later y)
    : i < j := by
  have nodup := (covers_ofGraph scheduled).nodup
  obtain ⟨rest, order⟩ := postOrder_append g g.registerOperands later.reverse earlier.reverse
  rw [← List.reverse_append, ← split, ← instructions_ofGraph scheduled] at order
  have listed {id} : id ∈ g.postOrder g.registerOperands later.reverse ↔ Needed g later id :=
    mem_postOrder_registerOperands.trans needed_reverse
  generalize g.postOrder g.registerOperands later.reverse = front at order listed
  rw [order] at atI atJ nodup
  have inFront : i < front.length := by
    by_contra past
    rw [List.getElem?_append_right (Nat.le_of_not_lt past)] at atI
    exact List.disjoint_of_nodup_append nodup (listed.mpr needed) (List.mem_of_getElem? atI)
  refine Nat.lt_of_lt_of_le inFront (Nat.le_of_not_lt fun inside => unneeded (listed.mp ?_))
  rw [List.getElem?_append_left inside] at atJ
  exact List.mem_of_getElem? atJ

/-- Operands that need a register stand before their users. -/
theorem Ordered.operand_before {s : Schedule} (ordered : Ordered g s) {index : Nat}
    (atIndex : s.instructions[index]? = some user) (member : child ∈ g.registerOperands user)
    : ∃ before < index, s.instructions[before]? = some child := by
  obtain ⟨inside, isUser⟩ := List.getElem?_eq_some_iff.mp atIndex
  have split : s.instructions = s.instructions.take index ++ user
    :: s.instructions.drop (index + 1) := by
    rw [← isUser, List.getElem_cons_drop, List.take_append_drop]
  have linear := ordered.linearizes.linear
  rw [split, List.reverse_append, List.reverse_cons, List.append_assoc,
    List.singleton_append] at linear
  have earlier := List.mem_reverse.mp (linear.operand_mem_of_append member)
  obtain ⟨before, isBefore, atBefore⟩ := List.mem_take_iff_getElem.mp earlier
  exact ⟨before, by omega, List.getElem?_eq_some_iff.mpr ⟨by omega, atBefore⟩⟩

theorem count_ofGraph {s : Schedule} (scheduled : ofGraph g = .ok s)
    : s.count = (valued g s.instructions).length := by
  rw [instructions_ofGraph scheduled]
  obtain ⟨_, rfl⟩ := ofGraph_eq_ok scheduled
  exact (foldl_append (postOrder_complete g g.registerOperands g.outputs.reverse).nodup).2.1

theorem mem_instructions {s : Schedule} (scheduled : ofGraph g = .ok s)
    : id ∈ s.instructions ↔ Needed g g.outputs id := by
  rw [instructions_ofGraph scheduled, mem_postOrder_registerOperands, needed_reverse]

/-- A constant is listed for a use that is not on the right of an operator. Witness: no root is a
constant, so what needs the constant is one of its users. -/
theorem constant_mem_instructions {s : Schedule} (scheduled : ofGraph g = .ok s)
    (constant : g.isConstant id = true)
    : id ∈ s.instructions
      ↔ ∃ user slot, g.Reachable user ∧ (g.children user)[slot]? = some id
        ∧ ¬ OnRight g user slot := by
  rw [mem_instructions scheduled]
  constructor
  · rintro ⟨root, isRoot, path⟩
    rcases path.cases_tail with rfl | ⟨user, path, member⟩
    · have isOutput := (ofGraph_eq_ok scheduled).1 _ isRoot
      rw [Graph.isConstant, Node.isConstant] at constant
      rw [Graph.isOutput, Node.isOutput] at isOutput
      split at constant
      next kind =>
        rw [kind] at isOutput
        cases isOutput
      · cases constant
    · obtain ⟨slot, atSlot, apart⟩ := mem_registerOperands.mp member
      exact ⟨user, slot, Needed.reachable ⟨root, isRoot, path⟩, atSlot,
        fun onRight => apart ⟨onRight, constant⟩⟩
  · rintro ⟨user, slot, reachable, atSlot, apart⟩
    have varies := isConstant_eq_false_of_uses (List.mem_of_getElem? atSlot)
    exact (needed_of_reachable reachable varies).operand
      (mem_registerOperands.mpr ⟨slot, atSlot, fun both => apart both.1⟩)

/-- An acyclic graph whose roots are outputs has a schedule. It lists what the roots need and
nothing else, each node once, after its operands and after all that later roots need, and it gives
the listed nodes with a value one register each, in their order. -/
theorem ofGraph_exact (rooted : g.Rooted) (acyclic : g.Acyclic)
    : ∃ s, ofGraph g = .ok s ∧ Exact g s := by
  have scheduled := ofGraph_of_roots rooted.1 rooted.2
  have ordered := ordered_ofGraph acyclic scheduled
  exact ⟨_, scheduled, {
    nodup := ordered.nodup
    listed := mem_instructions scheduled
    constant := constant_mem_instructions scheduled
    operand := ordered.operand_before
    laterFirst := fun split => lt_of_needed scheduled split
    register := ordered.register
    count := count_ofGraph scheduled
  }⟩

/-- Two roots that need one input. The first has a constant on the right of its operator, the last
one on the left. -/
def constantSides : Graph :=
  ((Graph.empty.pushInput ⟨"x", .scalarOf .int⟩).pushConstant (.int 2)).pushBinary .multiply 0 1
    |>.pushConstant (.int 3)
    |>.pushBinary .subtract 3 0
    |>.declareOutput ⟨"y", .scalarOf .int⟩ 2
    |>.declareOutput ⟨"z", .scalarOf .int⟩ 4

theorem ofGraph_exact_constantSides
    : constantSides.Rooted
      ∧ constantSides.Acyclic
      ∧ (∃ s, ofGraph constantSides = .ok s ∧ Exact constantSides s)
      ∧ (ofGraph constantSides).map instructions = .ok [3, 0, 4, 6, 2, 5] := by
  have rooted : constantSides.Rooted := ⟨by decide, by decide⟩
  have acyclic : constantSides.Acyclic := Graph.acyclic_of_lt (by decide)
  exact ⟨rooted, acyclic, ofGraph_exact rooted acyclic, by decide +kernel⟩

end StreamExpr.Schedule
