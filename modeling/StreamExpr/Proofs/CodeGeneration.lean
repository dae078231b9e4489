import StreamExpr.Compiler
import StreamExpr.Proofs.Allocation
import StreamExpr.Proofs.Emission
import StreamExpr.Proofs.LiveInterval

/-! Generated programs compute what their graph means.
Between two instructions the machine holds every value that a later instruction reads, because a
value that is still read keeps its register. So every instruction finds its operands, and the
outputs are written in the order of the schedule.
-/

namespace StreamExpr

namespace Emission

variable {g : Graph} {s : Schedule}

/-- What the code generator emits from. -/
def Source.ofSchedule (g : Graph) (s : Schedule) : Source :=
  { graph := g, schedule := s, allocation := .ofIntervals (LiveInterval.ofSchedule g s) }

/-! ## Registers of live values -/

theorem distinct_ofSchedule (numbered : s.Numbered g)
    : Allocation.Distinct (LiveInterval.ofSchedule g s).length (LiveInterval.ofSchedule g s) := by
  have registers : (LiveInterval.ofSchedule g s).map LiveInterval.register
      = List.range (LiveInterval.ofSchedule g s).length := by
    apply List.ext_getElem (by simp)
    intro place inside _
    have entry := List.getElem?_eq_getElem (by simpa using inside)
    simpa using LiveInterval.register_ofSchedule numbered entry
  refine ⟨registers ▸ List.nodup_range, fun i member => ?_⟩
  exact List.mem_range.mp (registers ▸ List.mem_map_of_mem member)

/-- A value keeps its register until its last use: no node scheduled in between gets it. -/
theorem place_ne_of_live (numbered : s.Numbered g) {id other user : NodeId}
    {index between use : Nat} (atIndex : s.instructions[index]? = some id)
    (atBetween : s.instructions[between]? = some other)
    (atUse : s.instructions[use]? = some user) (member : id ∈ g.registerOperands user)
    (before : index < between) (after : between < use) {r q : Nat}
    (placed : (Source.ofSchedule g s).place id = some r)
    (otherPlaced : (Source.ofSchedule g s).place other = some q)
    : r ≠ q := by
  obtain ⟨register, found, physical⟩ := Option.bind_eq_some_iff.mp placed
  obtain ⟨otherRegister, otherFound, otherPhysical⟩ := Option.bind_eq_some_iff.mp otherPlaced
  obtain ⟨i, atI, iRegister, iStart, _, iStop⟩ :=
    LiveInterval.ofSchedule_covers numbered found atIndex
  obtain ⟨j, atJ, jRegister, jStart, jStop, _⟩ :=
    LiveInterval.ofSchedule_covers numbered otherFound atBetween
  have reaches := iStop use user atUse member
  have overlap : Allocation.Overlap i j := ⟨by omega, by omega⟩
  have differ : i ≠ j := by
    rintro rfl
    have same : id = other := Option.some.inj <|
      (numbered.register.mp found).symm.trans
      (iRegister ▸ jRegister ▸ numbered.register.mp otherFound)
    have sameIndex : index = between :=
      (List.getElem?_inj (List.getElem?_eq_some_iff.mp atIndex).1 numbered.nodup).mp
        (atIndex.trans (same ▸ atBetween.symm))
    omega
  have apart := Allocation.physical?_ne_of_overlap (distinct_ofSchedule numbered)
    (List.mem_of_getElem? atI) (List.mem_of_getElem? atJ) differ overlap
  rintro rfl
  exact apart (by rw [iRegister, jRegister]; exact physical.trans otherPhysical.symm)

/-- A node in a register is no output. -/
theorem isOutput_of_place (numbered : s.Numbered g) {id : NodeId} {r : Nat}
    (placed : (Source.ofSchedule g s).place id = some r)
    : g.isOutput id = false := by
  obtain ⟨register, found, _⟩ := Option.bind_eq_some_iff.mp placed
  have member := List.mem_of_getElem? (numbered.register.mp found)
  simpa using (List.mem_filter.mp member).2

/-! ## Running the instructions -/

/-- The machine between two instructions: it holds what the instructions to come will read, and has
written the outputs among those that are done. -/
structure Between (g : Graph) (s : Schedule) (m : Interpretation) (streams : String → UInt32)
    (done rest : List NodeId) (machine : Machine)
    : Prop where
  holds : ∀ id ∈ done, ∀ user ∈ rest, id ∈ g.registerOperands user → ∀ r,
    (Source.ofSchedule g s).place id = some r →
      g.Evaluates (g.word? m streams) id (machine.registers r)
  written : List.Forall₂ (g.Writes m streams) (done.filter g.isOutput) machine.writes

/-- The operands of a node stand before it. -/
theorem registerOperand_mem_done (ordered : s.Ordered g) {done rest : List NodeId}
    {id child : NodeId} (split : s.instructions = done ++ id :: rest)
    (member : child ∈ g.registerOperands id)
    : child ∈ done := by
  have linear := ordered.linearizes.linear
  rw [split, List.reverse_append, List.reverse_cons, List.append_assoc, List.singleton_append]
    at linear
  exact List.mem_reverse.mp (linear.operand_mem_of_append member)

/-- An instruction takes the machine to where the next one starts. Witness: a value that is read
later has a register of its own, so only the target of the instruction changes hands. -/
theorem Between.step {m : Interpretation} {streams : String → UInt32} {done rest : List NodeId}
    {id : NodeId} {machine next : Machine} (ordered : s.Ordered g)
    (split : s.instructions = done ++ id :: rest)
    (between : Between g s m streams done (id :: rest) machine)
    (effect : Effect (Source.ofSchedule g s) m streams machine id next)
    : Between g s m streams (done ++ [id]) rest next := by
  have atId : s.instructions[done.length]? = some id := by simp [split]
  cases effect with
  | @value target w isValue atTarget evaluates =>
      refine ⟨fun earlier isEarlier user isUser member r placed => ?_, ?_⟩
      · rcases List.mem_append.mp isEarlier with isDone | isLast
        · obtain ⟨index, atIndex⟩ := List.mem_iff_getElem?.mp isDone
          obtain ⟨offset, atOffset⟩ := List.mem_iff_getElem?.mp isUser
          have before : index < done.length := (List.getElem?_eq_some_iff.mp atIndex).1
          have atEarlier : s.instructions[index]? = some earlier := by
            rw [split, List.getElem?_append_left before, atIndex]
          have atUser : s.instructions[done.length + (offset + 1)]? = some user := by
            rw [split, List.getElem?_append_right (by omega), Nat.add_sub_cancel_left,
              List.getElem?_cons_succ, atOffset]
          have apart : r ≠ target :=
            place_ne_of_live ordered atEarlier atId atUser member before (by omega) placed atTarget
          rw [Machine.set_of_ne machine w apart]
          exact between.holds earlier isDone user (List.mem_cons_of_mem id isUser) member r placed
        · obtain rfl := List.mem_singleton.mp isLast
          obtain rfl := Option.some.inj (placed.symm.trans atTarget)
          rwa [Machine.set_self]
      · have notWritten : ¬ g.isOutput id := Bool.not_eq_true _ ▸ isValue
        rw [List.filter_append, List.filter_cons_of_neg notWritten, List.filter_nil,
          List.append_nil]
        exact between.written
  | @output slot w isOutput writes =>
      refine ⟨fun earlier isEarlier user isUser member r placed => ?_, ?_⟩
      · rcases List.mem_append.mp isEarlier with isDone | isLast
        · exact between.holds earlier isDone user (List.mem_cons_of_mem id isUser) member r placed
        · obtain rfl := List.mem_singleton.mp isLast
          cases (isOutput_of_place ordered placed).symm.trans isOutput
      · have isWritten : g.isOutput id = true := isOutput
        rw [List.filter_append, List.filter_cons_of_pos isWritten]
        exact List.rel_append between.written (.cons writes .nil)

/-- Running the instructions that are left writes the outputs that are left. -/
theorem Between.run {m : Interpretation} {streams : String → UInt32} {t : ProgramTables}
    {p : Program} {done rest : List NodeId} {words : List Word} {machine : Machine}
    {budget : Nat} (ordered : s.Ordered g) (split : s.instructions = done ++ rest)
    (inputs : p.inputs = t.inputs) (functions : p.functions = t.functions)
    (outputs : p.outputs = g.declared) (listed : Listed (Source.ofSchedule g s) t rest words)
    (enough : words.length ≤ budget) (between : Between g s m streams done rest machine)
    : ∃ final,
        Machine.runFrom m p streams budget words machine = some final
        ∧ List.Forall₂ (g.Writes m streams) (s.instructions.filter g.isOutput) final.writes := by
  induction listed generalizing done machine budget with
  | nil =>
      refine ⟨machine, by cases budget <;> rfl, ?_⟩
      simpa [split] using between.written
  | @cons id ids code operands words selected encoded rest ih =>
      cases budget with
      | zero => cases enough
      | succ budget =>
          obtain ⟨next, executed, effect⟩ := encoded.execute selected inputs functions outputs
            (fun child member r placed =>
              between.holds child (registerOperand_mem_done ordered split member) id
                List.mem_cons_self member r placed)
            words
          have enoughLeft : words.length ≤ budget := by
            simp only [List.cons_append, List.length_cons, List.length_append] at enough
            omega
          obtain ⟨final, ran, written⟩ := ih (by simp [split]) enoughLeft
            (between.step ordered split effect)
          refine ⟨final, ?_, written⟩
          rw [Machine.runFrom_instruction budget (encoded.operandCount words), executed]
          exact ran

/-- What is listed is encoded. -/
theorem Listed.encoded {src : Source} {t : ProgramTables} {ids : List NodeId} {words : List Word}
    (listed : Listed src t ids words) {id : NodeId} (isListed : id ∈ ids)
    : ∃ code operands, Encoded src t id code operands := by
  induction listed with
  | nil => cases isListed
  | cons selected encoded rest ih =>
      rcases List.mem_cons.mp isListed with rfl | later
      · exact ⟨_, _, encoded⟩
      · exact ih later

/-- What is listed has its operands in registers. -/
theorem Listed.placed {src : Source} {t : ProgramTables} {ids : List NodeId} {words : List Word}
    (listed : Listed src t ids words) {parent child : NodeId} (isListed : parent ∈ ids)
    (member : child ∈ src.graph.registerOperands parent)
    : ∃ r, src.place child = some r := by
  obtain ⟨_, _, encoded⟩ := listed.encoded isListed
  exact encoded.placed member

end Emission

/-- A generated program lists the instructions of a schedule of its graph, in its own tables. -/
theorem generate_eq_ok {g : Graph} {p : Program} (generated : Compiler.generate g = .ok p)
    : ∃ s,
        Schedule.ofGraph g = .ok s
        ∧ ∃ t,
            Emission.Listed (.ofSchedule g s) t s.instructions p.code
            ∧ p.inputs = t.inputs
            ∧ p.functions = t.functions
            ∧ p.outputs = g.declared := by
  rw [Compiler.generate] at generated
  cases scheduled : Schedule.ofGraph g with
  | error e =>
      rw [scheduled] at generated
      cases generated
  | ok s =>
      rw [scheduled] at generated
      refine ⟨s, rfl, ?_⟩
      simp only [bind, Except.bind, Program.emit] at generated
      split at generated
      · cases generated
      next result emitted =>
        cases generated
        exact ⟨_, (Emission.instructions_eq_ok emitted).2, rfl, rfl, rfl⟩

/-- A generated program runs to its end and performs exactly the writes of the output roots, walked
from last to first, a repeated root where it is first met. Every root writes the word of its
expression to the slot of its name, whatever the registers hold at the start. Witness: emission
finds all operands in registers, so no output is an operand, and the run follows the schedule. -/
theorem generate_run_writes {g : Graph} {p : Program} (acyclic : g.Acyclic)
    (generated : Compiler.generate g = .ok p) (m : Interpretation) (streams : String → UInt32)
    (registers : Nat → UInt32)
    : ∃ writes,
        Machine.run m p streams registers = some writes
        ∧ List.Forall₂ (g.Writes m streams) g.outputs.reverse.eraseDups writes := by
  obtain ⟨s, scheduled, tables, listed, inputs, functions, outputs⟩ := generate_eq_ok generated
  have ordered := Schedule.ordered_ofGraph acyclic scheduled
  have start : Emission.Between g s m streams [] s.instructions ⟨registers, []⟩ :=
    ⟨by simp, .nil⟩
  obtain ⟨final, ran, written⟩ := start.run ordered (List.nil_append _).symm inputs functions
    outputs listed (Nat.le_refl _)
  refine ⟨final.writes, by rw [Machine.run, ran]; rfl, ?_⟩
  have unused (parent) (isListed : parent ∈ s.instructions) (child)
      (member : child ∈ g.registerOperands parent) : g.isOutput child = false := by
    obtain ⟨r, placed⟩ := listed.placed isListed member
    exact Emission.isOutput_of_place ordered placed
  rwa [Schedule.outputs_ofGraph acyclic scheduled unused] at written

/-- A sum with two readers, under two output roots of which the first is listed twice. -/
def sharedSum : Graph :=
  let float : DataType := .scalarOf .float
  let g := ((Graph.empty.declareInput ⟨"x", float⟩).declareInput ⟨"y", float⟩).pushBinary .add 0 1
  let g := (g.pushConstant (.float ⟨0x40000000⟩)).pushBinary .multiply 2 3
  let g := (g.declareOutput ⟨"sum", float⟩ 2).declareOutput ⟨"double", float⟩ 4
  { g with outputs := [5, 6, 5] }

/-- The sum takes over the register of its left operand and the product that of the sum. -/
def sharedSumProgram : Program :=
  let float : DataType := .scalarOf .float
  { code := [177, 0, 0, 177, 1, 1, 32, 0, 0, 1, 179, 0, 0, 100, 0, 0, 0x40000000, 179, 1, 0]
    inputs := [⟨"x", float⟩, ⟨"y", float⟩], outputs := [⟨"sum", float⟩, ⟨"double", float⟩]
    functions := [], registers := 2, instructionCount := 6 }

theorem generate_run_writes_sharedSum
    : sharedSum.Acyclic
      ∧ Compiler.generate sharedSum = .ok sharedSumProgram
      ∧ ∃ writes,
          Machine.run ⟨fun _ x => x, fun _ x y => x * y, fun _ _ x _ => x, fun _ _ => 0⟩
              sharedSumProgram (fun name => if name = "x" then 3 else 5) (fun r => .ofNat r)
            = some writes
          ∧ List.Forall₂
              (sharedSum.Writes
                ⟨fun _ x => x, fun _ x y => x * y, fun _ _ x _ => x, fun _ _ => 0⟩
                (fun name => if name = "x" then 3 else 5))
              [5, 6] writes :=
  have acyclic : sharedSum.Acyclic := Graph.acyclic_of_lt (by decide)
  have generated : Compiler.generate sharedSum = .ok sharedSumProgram := by decide +kernel
  ⟨acyclic, generated, generate_run_writes acyclic generated _ _ _⟩

end StreamExpr
