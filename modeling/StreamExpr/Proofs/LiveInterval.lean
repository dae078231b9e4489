import StreamExpr.LiveInterval
import StreamExpr.Proofs.Schedule

/-! Live intervals reach from a definition to every use.
The interval with a register's number is the one of its node. It starts no later than the node is
scheduled, and ends no earlier than any instruction that reads the node.
-/

namespace StreamExpr.LiveInterval

/-! ## Definitions -/

/-- The intervals at their definitions of some scheduled nodes. -/
def definitionsOf (s : Schedule) (nodes : List NodeId) : List LiveInterval :=
  nodes.zipIdx.filterMap fun (node, index) =>
    (s.register? node).map fun register => { register, start := index, stop := index, node }

/-- An interval that covers just the place where its node is scheduled. -/
structure Defines (s : Schedule) (i : LiveInterval) : Prop where
  scheduled : s.instructions[i.start]? = some i.node
  register : s.register? i.node = some i.register
  stop : i.stop = i.start

/-- The first definitions are those of the first nodes, in the order of their registers.
Witness: induction on the last node; the register of a node with a value counts those before it.
-/
theorem definitionsOf_spec {g : Graph} {s : Schedule} (numbered : s.Numbered g)
    {nodes rest : List NodeId} (split : s.instructions = nodes ++ rest)
    : (definitionsOf s nodes).length = (Schedule.valued g nodes).length
      ∧ ∀ (register : Nat) i,
          (definitionsOf s nodes)[register]? = some i → i.register = register ∧ Defines s i := by
  induction nodes using List.reverseRecOn generalizing rest with
  | nil => simp [definitionsOf, Schedule.valued]
  | append_singleton nodes last ih =>
      rw [List.append_assoc, List.singleton_append] at split
      obtain ⟨length, defined⟩ := ih split
      have values : Schedule.valued g s.instructions
          = Schedule.valued g nodes ++ Schedule.valued g (last :: rest) := by
        rw [split, Schedule.valued, List.filter_append]
        rfl
      have more : definitionsOf s (nodes ++ [last])
          = definitionsOf s nodes ++ ((s.register? last).map fun register =>
              { register, start := nodes.length, stop := nodes.length, node := last }).toList := by
        simp only [definitionsOf, List.zipIdx_append, List.filterMap_append, List.zipIdx_singleton,
          Nat.zero_add]
        cases found : s.register? last <;> simp [found]
      by_cases output : g.isOutput last
      · have none : s.register? last = none := by
          rw [Option.eq_none_iff_forall_ne_some]
          intro register found
          have member := List.mem_of_getElem? (numbered.register.mp found)
          simp [Schedule.valued, output] at member
        rw [more, none]
        simpa [Schedule.valued, output] using ⟨length, defined⟩
      -- The number of a node is how many nodes with a value come before it.
      · have place : (Schedule.valued g s.instructions)[(Schedule.valued g nodes).length]?
            = some last := by
          rw [values, List.getElem?_append_right (Nat.le_refl _), Nat.sub_self, Schedule.valued,
            List.filter_cons_of_pos (by simp [output]), List.getElem?_cons_zero]
        have found := numbered.register.mpr place
        rw [more, found]
        refine ⟨by simp [Schedule.valued, output] at length ⊢; exact length, ?_⟩
        intro register i entry
        rw [List.getElem?_append] at entry
        split at entry
        · exact defined register i entry
        · simp only [Option.map_some, Option.toList_some, List.getElem?_singleton] at entry
          split at entry
          · have same := Option.some.inj entry
            subst same
            refine ⟨by simp only; omega, ?_, found, rfl⟩
            simp only [split, List.getElem?_append_right (Nat.le_refl _), Nat.sub_self,
              List.getElem?_cons_zero]
          · cases entry

/-! ## Uses -/

/-- An interval of the same register that covers another. -/
structure Widened (i wider : LiveInterval) : Prop where
  register : wider.register = i.register
  start : wider.start ≤ i.start
  stop : i.stop ≤ wider.stop

theorem Widened.refl (i : LiveInterval) : Widened i i :=
  ⟨rfl, Nat.le_refl _, Nat.le_refl _⟩

theorem Widened.trans {i j k : LiveInterval} (first : Widened i j) (second : Widened j k)
    : Widened i k :=
  ⟨second.register.trans first.register, Nat.le_trans second.start first.start,
    Nat.le_trans first.stop second.stop⟩

theorem widened_widen (i : LiveInterval) (index : Nat)
    : Widened i (i.widen index) :=
  ⟨rfl, Nat.min_le_left _ _, Nat.le_max_left _ _⟩

/-- Intervals that cover others place by place. -/
structure AllWidened (intervals wider : Array LiveInterval) : Prop where
  size : wider.size = intervals.size
  each
    : ∀ (place : Nat) i,
        intervals[place]? = some i → ∃ j, wider[place]? = some j ∧ Widened i j

theorem AllWidened.refl (intervals : Array LiveInterval)
    : AllWidened intervals intervals :=
  ⟨rfl, fun _ i found => ⟨i, found, .refl i⟩⟩

theorem AllWidened.trans {first second third : Array LiveInterval}
    (left : AllWidened first second) (right : AllWidened second third)
    : AllWidened first third := by
  refine ⟨right.size.trans left.size, fun place i found => ?_⟩
  obtain ⟨j, foundJ, widenedJ⟩ := left.each place i found
  obtain ⟨k, foundK, widenedK⟩ := right.each place j foundJ
  exact ⟨k, foundK, widenedJ.trans widenedK⟩

theorem allWidened_use (s : Schedule) (index : Nat) (intervals : Array LiveInterval)
    (operand : NodeId)
    : AllWidened intervals (use s index intervals operand) := by
  rw [use]
  cases s.register? operand with
  | none => exact .refl intervals
  | some register =>
      refine ⟨Array.size_modify, fun place i found => ?_⟩
      simp only [Array.getElem?_modify]
      split
      · exact ⟨i.widen index, by simp [found], widened_widen i index⟩
      · exact ⟨i, found, .refl i⟩

/-- A fold of steps that widen intervals widens them. -/
theorem allWidened_foldl {ι : Type} {step : Array LiveInterval → ι → Array LiveInterval}
    (widens : ∀ intervals item, AllWidened intervals (step intervals item))
    (items : List ι) (intervals : Array LiveInterval)
    : AllWidened intervals (items.foldl step intervals) := by
  induction items generalizing intervals with
  | nil => exact .refl intervals
  | cons item items ih => exact (widens intervals item).trans (ih _)

/-- What one step of a widening fold makes an interval reach, it reaches in the end. -/
theorem reaches_foldl {ι : Type} {step : Array LiveInterval → ι → Array LiveInterval}
    (widens : ∀ intervals item, AllWidened intervals (step intervals item))
    {items : List ι} {item : ι} (member : item ∈ items) {place index : Nat}
    (reaches : ∀ intervals : Array LiveInterval, place < intervals.size
      → ∃ i, (step intervals item)[place]? = some i ∧ index ≤ i.stop)
    (intervals : Array LiveInterval) (inside : place < intervals.size)
    : ∃ i, (items.foldl step intervals)[place]? = some i ∧ index ≤ i.stop := by
  induction items generalizing intervals with
  | nil => cases member
  | cons first rest ih =>
      rcases List.mem_cons.mp member with same | later
      · subst same
        obtain ⟨i, found, reached⟩ := reaches intervals inside
        obtain ⟨j, foundJ, widened⟩ :=
          (allWidened_foldl widens rest (step intervals item)).each place i found
        exact ⟨j, foundJ, Nat.le_trans reached widened.stop⟩
      · exact ih later (step intervals first) ((widens intervals first).size ▸ inside)

/-- A use makes the interval of the operand reach the instruction. -/
theorem use_reaches {s : Schedule} {operand : NodeId} {register : Nat}
    (found : s.register? operand = some register) (index : Nat) (intervals : Array LiveInterval)
    (inside : register < intervals.size)
    : ∃ i, (use s index intervals operand)[register]? = some i ∧ index ≤ i.stop := by
  simp only [use, found, Array.getElem?_modify, if_true, Array.getElem?_eq_getElem inside]
  exact ⟨_, rfl, Nat.le_max_right _ _⟩

/-! ## The intervals of a schedule -/

/-- Extend the intervals of what an instruction reads. -/
def useAll (g : Graph) (s : Schedule) (intervals : Array LiveInterval) (item : NodeId × Nat)
    : Array LiveInterval :=
  (g.registerOperands item.1).foldl (use s item.2) intervals

theorem ofSchedule_eq (g : Graph) (s : Schedule)
    : ofSchedule g s
      = (s.instructions.zipIdx.foldl (useAll g s)
          (definitionsOf s s.instructions).toArray).toList := by
  rfl

theorem allWidened_useAll (g : Graph) (s : Schedule) (intervals : Array LiveInterval)
    (item : NodeId × Nat)
    : AllWidened intervals (useAll g s intervals item) :=
  allWidened_foldl (allWidened_use s item.2) _ intervals

theorem allWidened_ofSchedule (g : Graph) (s : Schedule)
    : AllWidened (definitionsOf s s.instructions).toArray
        (s.instructions.zipIdx.foldl (useAll g s)
          (definitionsOf s s.instructions).toArray) :=
  allWidened_foldl (allWidened_useAll g s) _ _

/-- The number of intervals is the number of nodes with a value. -/
theorem length_ofSchedule {g : Graph} {s : Schedule} (numbered : s.Numbered g)
    : (ofSchedule g s).length = (Schedule.valued g s.instructions).length := by
  have length := (definitionsOf_spec numbered (List.append_nil s.instructions).symm).1
  rw [ofSchedule_eq, Array.length_toList, (allWidened_ofSchedule g s).size]
  exact length

/-- The interval of a scheduled node's register covers its definition and all its uses. -/
theorem ofSchedule_covers {g : Graph} {s : Schedule} (numbered : s.Numbered g) {id : NodeId}
    {register index : Nat} (found : s.register? id = some register)
    (scheduled : s.instructions[index]? = some id)
    : ∃ i,
        (ofSchedule g s)[register]? = some i
        ∧ i.register = register
        ∧ i.start ≤ index
        ∧ index ≤ i.stop
        ∧ ∀ (use : Nat) user,
            s.instructions[use]? = some user → id ∈ g.registerOperands user → use ≤ i.stop := by
  obtain ⟨length, defined⟩ := definitionsOf_spec numbered (List.append_nil s.instructions).symm
  have inside : register < (definitionsOf s s.instructions).length := by
    rw [length]
    exact (List.getElem?_eq_some_iff.mp (numbered.register.mp found)).1
  have entry := List.getElem?_eq_getElem inside
  obtain ⟨sameRegister, defines⟩ := defined register _ entry
  generalize (definitionsOf s s.instructions)[register] = definition at entry sameRegister defines
  have node : definition.node = id := by
    have other := numbered.register.mp (sameRegister ▸ defines.register)
    exact Option.some.inj (other.symm.trans (numbered.register.mp found))
  have start : definition.start = index :=
    (List.getElem?_inj (List.getElem?_eq_some_iff.mp defines.scheduled).1 numbered.nodup).mp
      (by rw [defines.scheduled, scheduled, node])
  obtain ⟨i, entryI, widened⟩ := (allWidened_ofSchedule g s).each register definition
    (by simpa using entry)
  have atPlace : (ofSchedule g s)[register]? = some i := by
    rw [ofSchedule_eq, Array.getElem?_toList, entryI]
  refine ⟨i, atPlace, widened.register.trans sameRegister, start ▸ widened.start,
    Nat.le_trans (by rw [defines.stop, start]) widened.stop, fun use user isUser member => ?_⟩
  have position : (user, use) ∈ s.instructions.zipIdx :=
    List.mem_zipIdx_iff_getElem?.mpr isUser
  obtain ⟨j, entryJ, reached⟩ := reaches_foldl (allWidened_useAll g s) position
    (fun intervals inside =>
      reaches_foldl (allWidened_use s use) member
        (fun intervals inside => use_reaches found use intervals inside) intervals inside)
    (definitionsOf s s.instructions).toArray (by simpa using inside)
  have same : i = j := Option.some.inj (entryI.symm.trans entryJ)
  exact same ▸ reached

/-- The intervals of a schedule have the numbers of their places as registers. -/
theorem register_ofSchedule {g : Graph} {s : Schedule} (numbered : s.Numbered g) {place : Nat}
    {i : LiveInterval} (found : (ofSchedule g s)[place]? = some i)
    : i.register = place := by
  obtain ⟨length, defined⟩ := definitionsOf_spec numbered (List.append_nil s.instructions).symm
  have inside : place < (definitionsOf s s.instructions).length := by
    rw [length, ← length_ofSchedule numbered]
    exact (List.getElem?_eq_some_iff.mp found).1
  have entry := List.getElem?_eq_getElem inside
  obtain ⟨j, entryJ, widened⟩ := (allWidened_ofSchedule g s).each place
    (definitionsOf s s.instructions)[place] (by simp)
  rw [ofSchedule_eq, Array.getElem?_toList, entryJ] at found
  rw [← Option.some.inj found, widened.register]
  exact (defined place _ entry).1

end StreamExpr.LiveInterval
