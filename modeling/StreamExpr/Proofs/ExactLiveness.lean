import Mathlib.Order.Bounds.Basic
import StreamExpr.Proofs.Linearization
import StreamExpr.Proofs.LiveInterval

/-! Live intervals are as short as they can be.
In a schedule a value is read only after it is defined, and every value is read. So an interval
starts where its node is defined and ends with the last instruction that reads the node.
-/

namespace StreamExpr.LiveInterval

open Schedule

/-- The instruction at an index reads a node. -/
def Reads (g : Graph) (s : Schedule) (index : Nat) (node : NodeId) : Prop :=
  ∃ user, s.instructions[index]? = some user ∧ node ∈ g.registerOperands user

/-- The intervals of the virtual registers of a schedule, in their order: each starts where its node
is defined and ends with the last read. -/
structure Exact (g : Graph) (s : Schedule) (intervals : List LiveInterval) : Prop where
  length : intervals.length = s.count
  register : ∀ {v : Nat} {i}, intervals[v]? = some i → i.register = v ∧ s.register? i.node = some v
  start : ∀ i ∈ intervals, s.instructions[i.start]? = some i.node
  stop : ∀ i ∈ intervals, IsGreatest {index | Reads g s index i.node} i.stop
  proper : ∀ i ∈ intervals, i.start < i.stop
  ascending : intervals.Pairwise (·.start < ·.start)

/-! ## Definitions -/

/-- Definitions stand in the order in which the nodes are scheduled. -/
theorem definitionsOf_ascending (s : Schedule) (nodes : List NodeId)
    : (definitionsOf s nodes).Pairwise (·.start < ·.start) := by
  have ascending : nodes.zipIdx.Pairwise (·.2 < ·.2) := by
    have indices : (nodes.zipIdx.map Prod.snd).Pairwise (· < ·) := by
      rw [List.zipIdx_map_snd]
      exact List.pairwise_lt_range' ..
    exact List.pairwise_map.mp indices
  refine ascending.filterMap _ fun first second less i isFirst j isSecond => ?_
  obtain ⟨_, _, rfl⟩ := Option.map_eq_some_iff.mp isFirst
  obtain ⟨_, _, rfl⟩ := Option.map_eq_some_iff.mp isSecond
  exact less

/-! ## Uses -/

variable {g : Graph} {s : Schedule}

/-- What uses make of a definition: it starts where it did, and ends there still or with a read. -/
structure Stretched (g : Graph) (s : Schedule) (definition i : LiveInterval) : Prop where
  register : i.register = definition.register
  node : i.node = definition.node
  start : i.start = definition.start
  stop : i.stop = definition.start ∨ Reads g s i.stop definition.node

/-- All intervals are stretched definitions. -/
def AllStretched (g : Graph) (s : Schedule) (intervals : Array LiveInterval) : Prop :=
  ∀ (place : Nat) definition,
    (definitionsOf s s.instructions)[place]? = some definition →
      ∃ i, intervals[place]? = some i ∧ Stretched g s definition i

/-- What is read is defined before. -/
theorem lt_of_reads (ordered : s.Ordered g) {definition index : Nat} {node : NodeId}
    (defined : s.instructions[definition]? = some node) (reads : Reads g s index node)
    : definition < index := by
  obtain ⟨user, isUser, member⟩ := reads
  obtain ⟨before, less, isNode⟩ := ordered.operand_before isUser member
  have same : before = definition :=
    (List.getElem?_inj (List.getElem?_eq_some_iff.mp isNode).1 ordered.nodup).mp
      (isNode.trans defined.symm)
  exact same ▸ less

/-- A use keeps all intervals stretched. Witness: the interval that is extended is the one of the
operand, which is defined before. -/
theorem AllStretched.use (ordered : s.Ordered g) {intervals : Array LiveInterval} {index : Nat}
    {operand : NodeId} (stretched : AllStretched g s intervals) (reads : Reads g s index operand)
    : AllStretched g s (use s index intervals operand) := by
  intro place definition entry
  obtain ⟨i, atPlace, ofDefinition⟩ := stretched place definition entry
  obtain ⟨isRegister, defines⟩ :=
    (definitionsOf_spec ordered.toNumbered (List.append_nil s.instructions).symm).2
      place definition entry
  rw [LiveInterval.use]
  cases found : s.register? operand with
  | none => exact ⟨i, atPlace, ofDefinition⟩
  | some register =>
      simp only [Array.getElem?_modify, atPlace, Option.map_some]
      split
      case isTrue here =>
        subst here
        have node : definition.node = operand := by
          have own := ordered.register.mp (isRegister ▸ defines.register)
          exact Option.some.inj (own.symm.trans (ordered.register.mp found))
        have later := lt_of_reads ordered defines.scheduled (node ▸ reads)
        refine ⟨i.widen index, rfl, ofDefinition.register, ofDefinition.node, ?_, ?_⟩
        · have start := ofDefinition.start
          simp only [widen]
          omega
        · rcases Nat.le_total i.stop index with beyond | within
          · rw [widen, Nat.max_eq_right beyond]
            exact .inr (node ▸ reads)
          · rw [widen, Nat.max_eq_left within]
            exact ofDefinition.stop
      case isFalse => exact ⟨i, rfl, ofDefinition⟩

/-- All intervals of a schedule are stretched definitions. Witness: one use after the other, through
the operands of each instruction. -/
theorem allStretched_ofSchedule (ordered : s.Ordered g)
    : AllStretched g s (s.instructions.zipIdx.foldl (useAll g s)
      (definitionsOf s s.instructions).toArray) := by
  refine List.foldlRecOn (motive := AllStretched g s) _ _ ?_ fun intervals
    stretched item isItem => ?_
  · intro place definition entry
    have defines := ((definitionsOf_spec ordered.toNumbered (List.append_nil s.instructions).symm).2
      place definition entry).2
    exact ⟨definition, by simpa using entry, rfl, rfl, rfl, .inl defines.stop⟩
  · have isUser := List.mem_zipIdx_iff_getElem?.mp isItem
    exact List.foldlRecOn (motive := AllStretched g s) _ _ stretched fun _ stretched operand
      member =>
      stretched.use ordered ⟨item.1, isUser, member⟩

/-! ## The intervals of a schedule -/

/-- Every value that is scheduled is read. Witness: it is scheduled for a root, which has no value,
by way of one that reads it. -/
theorem exists_reads (scheduled : ofGraph g = .ok s) {id : NodeId}
    (isValue : id ∈ valued g s.instructions)
    : ∃ index, Reads g s index id := by
  obtain ⟨listed, noOutput⟩ := List.mem_filter.mp isValue
  obtain ⟨root, isRoot, path⟩ := (mem_instructions scheduled).mp listed
  rcases path.cases_tail with rfl | ⟨user, path, member⟩
  · simp [(ofGraph_eq_ok scheduled).1 _ isRoot] at noOutput
  · obtain ⟨index, isUser⟩ := List.mem_iff_getElem?.mp
      ((mem_instructions scheduled).mpr ⟨root, isRoot, path⟩)
    exact ⟨index, user, isUser, member⟩

/-- An interval of a schedule, with the definition that it is made from. -/
theorem exists_definition (ordered : s.Ordered g) {v : Nat} {i : LiveInterval}
    (found : (ofSchedule g s)[v]? = some i)
    : ∃ definition,
        (definitionsOf s s.instructions)[v]? = some definition
        ∧ definition.register = v
        ∧ Defines s definition
        ∧ Stretched g s definition i := by
  obtain ⟨length, defined⟩ := definitionsOf_spec ordered.toNumbered
    (List.append_nil s.instructions).symm
  have inside : v < (definitionsOf s s.instructions).length := by
    rw [length, ← length_ofSchedule ordered.toNumbered]
    exact (List.getElem?_eq_some_iff.mp found).1
  have entry := List.getElem?_eq_getElem inside
  obtain ⟨j, atPlace, stretched⟩ := allStretched_ofSchedule ordered v _ entry
  rw [ofSchedule_eq, Array.getElem?_toList, atPlace] at found
  obtain ⟨isRegister, defines⟩ := defined v _ entry
  exact ⟨_, entry, isRegister, defines, Option.some.inj found ▸ stretched⟩

/-- An interval of a schedule ends with the last read of its node. -/
theorem isGreatest_stop (ordered : s.Ordered g) (scheduled : ofGraph g = .ok s) {v : Nat}
    {i : LiveInterval} (found : (ofSchedule g s)[v]? = some i)
    : IsGreatest {index | Reads g s index i.node} i.stop := by
  obtain ⟨definition, _, isRegister, defines, stretched⟩ := exists_definition ordered found
  have own := isRegister ▸ defines.register
  obtain ⟨j, foundJ, _, _, _, covers⟩ := ofSchedule_covers ordered.toNumbered own defines.scheduled
  obtain rfl := Option.some.inj (found.symm.trans foundJ)
  rw [stretched.node]
  refine ⟨stretched.stop.resolve_left fun unread => ?_, ?_⟩
  · obtain ⟨index, reads⟩ := exists_reads scheduled (List.mem_of_getElem? (ordered.register.mp own))
    have later := lt_of_reads ordered defines.scheduled reads
    obtain ⟨user, isUser, member⟩ := reads
    have covered := covers index user isUser member
    omega
  · rintro index ⟨user, isUser, member⟩
    exact covers index user isUser member

/-- Intervals of a schedule start in the order of their registers. Witness: they start where their
definitions do. -/
theorem ofSchedule_ascending (ordered : s.Ordered g)
    : (ofSchedule g s).Pairwise (·.start < ·.start) := by
  rw [List.pairwise_iff_getElem]
  intro v w insideV insideW less
  obtain ⟨first, firstEntry, _, _, firstStretched⟩ :=
    exists_definition ordered (List.getElem?_eq_getElem insideV)
  obtain ⟨second, secondEntry, _, _, secondStretched⟩ :=
    exists_definition ordered (List.getElem?_eq_getElem insideW)
  rw [firstStretched.start, secondStretched.start]
  obtain ⟨atFirst, rfl⟩ := List.getElem?_eq_some_iff.mp firstEntry
  obtain ⟨atSecond, rfl⟩ := List.getElem?_eq_some_iff.mp secondEntry
  exact List.pairwise_iff_getElem.mp (definitionsOf_ascending s s.instructions)
    v w atFirst atSecond less

/-- An acyclic graph whose roots are outputs has a schedule, and each register of the schedule has
one interval. It starts where the node of the register is listed and stops later, at the last
instruction that reads the node. -/
theorem ofSchedule_exact (rooted : g.Rooted) (acyclic : g.Acyclic)
    : ∃ s, ofGraph g = .ok s ∧ Exact g s (ofSchedule g s) := by
  have scheduled := ofGraph_of_roots rooted.1 rooted.2
  have ordered := ordered_ofGraph acyclic scheduled
  generalize ofNodes g _ = s at scheduled ordered
  refine ⟨s, scheduled, ?_, fun found => ?_, fun i member => ?_, fun i member => ?_,
    fun i member => ?_, ofSchedule_ascending ordered⟩
  · rw [length_ofSchedule ordered.toNumbered, count_ofGraph scheduled]
  · obtain ⟨definition, _, isRegister, defines, stretched⟩ := exists_definition ordered found
    exact ⟨stretched.register.trans isRegister, stretched.node ▸ isRegister ▸ defines.register⟩
  all_goals
    obtain ⟨v, found⟩ := List.mem_iff_getElem?.mp member
    obtain ⟨definition, _, isRegister, defines, stretched⟩ := exists_definition ordered found
  · rw [stretched.start, stretched.node]
    exact defines.scheduled
  · exact isGreatest_stop ordered scheduled found
  · have last := (isGreatest_stop ordered scheduled found).1
    rw [stretched.start]
    exact lt_of_reads ordered defines.scheduled (stretched.node ▸ last)

theorem ofSchedule_exact_constantSides
    : constantSides.Rooted
      ∧ constantSides.Acyclic
      ∧ (∃ s, ofGraph constantSides = .ok s ∧ Exact constantSides s (ofSchedule constantSides s))
      ∧ (ofGraph constantSides).map (fun s => (ofSchedule constantSides s).map fun i =>
        (i.node, i.start, i.stop))
        = .ok [(3, 0, 2), (0, 1, 4), (4, 2, 3), (2, 4, 5)] := by
  have rooted : constantSides.Rooted := ⟨by decide, by decide⟩
  have acyclic : constantSides.Acyclic := Graph.acyclic_of_lt (by decide)
  exact ⟨rooted, acyclic, ofSchedule_exact rooted acyclic, by decide +kernel⟩

end StreamExpr.LiveInterval
