import StreamExpr.Proofs.CodeGeneration
import StreamExpr.Proofs.Unchanged

/-! Validation gates code generation.
A graph that passes validation is scheduled and given registers, whatever passes came before and
even where it has cycles. What emission can still refuse is an output that writes to an undeclared
name, and an operand that is an output and so has no register.
-/

namespace StreamExpr

/-! ## What validation accepts -/

namespace Validation

/-- A node that passes has a known type, an instruction and, if it is a call, a selected
overload. -/
structure Passed (g : Graph) (id : NodeId) : Prop where
  known : (g.node id).type.isKnown = true
  scalar : (g.node id).type.isVector = false
  selected : ∃ code, g.opCode? id = some code
  resolved : ∀ {candidates arguments}, (g.node id).kind = .call candidates arguments →
    ∃ f, (g.node id).function? = some f

theorem passed_of_failure? {g : Graph} {id : NodeId} (passes : failure? g id = none)
    : Passed g id := by
  rw [failure?] at passes
  split at passes
  case isTrue => cases passes
  case isFalse known =>
    split at passes
    case isTrue => cases passes
    case isFalse scalar =>
      split at passes
      · cases passes
      next complete =>
        split at passes
        case isTrue => cases passes
        case isFalse selected =>
          refine ⟨by simpa using known, by simpa using scalar, ?_,
            fun {candidates arguments} kind => ?_⟩
          · exact Option.ne_none_iff_exists'.mp (by simpa using selected)
          · simp only [leftover?, kind] at complete
            exact Option.ne_none_iff_exists'.mp (by simpa using complete)

variable {g h : Graph} {fails : Prop}

theorem agrees_step (rejects : ∀ id, g.Reachable id → failure? g id ≠ none → fails)
    : Edit.Agrees g (failure? g · = none) fails step := by
  intro id reachable
  rw [step, Evolution.runs_read, show (Evolution.constant g).view () = g from rfl]
  cases passes : failure? g id with
  | some e => exact .throw (rejects id reachable (by simp [passes]))
  | none => exact .pure ⟨rfl, passes⟩

/-- All reachable nodes of a validated graph have passed, whatever its nodes point at. -/
theorem passes_of_validation (accepted : Compiler.validation g = .ok () h)
    : h = g ∧ ∀ id, g.Reachable id → failure? g id = none := by
  have agrees : Edit.Agrees g (failure? g · = none) True step := agrees_step (by simp)
  obtain ⟨_, same, _, _, passed⟩ :=
    (agrees.runs_preOrder (.inl trivial) (by simp)).state_of_ok accepted
  exact ⟨same.symm, passed⟩

/-- A validated graph is unchanged, and all its reachable nodes have passed. -/
theorem validation_eq_ok (enclosed : g.Enclosed) (accepted : Compiler.validation g = .ok () h)
    : h = g ∧ g.Rooted ∧ ∀ id, g.Reachable id → failure? g id = none := by
  have agrees : Edit.Agrees g (failure? g · = none) True step := agrees_step (by simp)
  have runs := agrees.runs_preOrder (.inr enclosed) (by simp)
  obtain ⟨_, same, _, outputs, passed⟩ := runs.state_of_ok accepted
  exact ⟨same.symm, ⟨Edit.outputs_ne_nil_of_pass accepted, outputs⟩, passed⟩

theorem validation_of_passed (enclosed : g.Enclosed) (rooted : g.Rooted)
    (passed : ∀ id, g.Reachable id → failure? g id = none)
    : Compiler.validation g = .ok () g := by
  have agrees : Edit.Agrees g (failure? g · = none) False step :=
    agrees_step fun id reachable failed => failed (passed id reachable)
  have runs := agrees.runs_preOrder (.inr enclosed) fun unrooted => unrooted rooted
  cases ran : Compiler.validation g with
  | error e h => exact (runs.fails_of_error ran).elim
  | ok _ h =>
      obtain ⟨_, same, _⟩ := runs.state_of_ok ran
      rw [← same]
      rfl

end Validation

/-! ## Ways in which emission fails -/

namespace Emission

variable {allowed : CompileError → Prop}

/-- A computation that fails in the given ways only. -/
def FailsOnly (allowed : CompileError → Prop) (x : EmitM α) : Prop :=
  ∀ t e, x t = .error e → allowed e

theorem failsOnly_pure (a : α) : FailsOnly allowed (pure a : EmitM α) := by
  intro t e failed
  cases failed

theorem failsOnly_throw {e : CompileError} (isAllowed : allowed e)
    : FailsOnly allowed (throw e : EmitM α) := by
  intro t e failed
  cases failed
  exact isAllowed

theorem failsOnly_modifyGet (f : ProgramTables → α × ProgramTables)
    : FailsOnly allowed (modifyGet f : EmitM α) := by
  intro t e failed
  cases failed

theorem FailsOnly.bind {x : EmitM α} {f : α → EmitM β} (first : FailsOnly allowed x)
    (next : ∀ a, FailsOnly allowed (f a))
    : FailsOnly allowed (x >>= f) := by
  intro t e failed
  cases ran : x t with
  | error cause =>
      simp only [Bind.bind, StateT.bind, ran] at failed
      cases failed
      exact first t _ ran
  | ok result =>
      simp only [Bind.bind, StateT.bind, ran] at failed
      exact next result.1 result.2 e failed

/-- Where nodes have to have a register, its absence may be an error that is allowed. -/
def Placeable (allowed : CompileError → Prop) (src : Source) (id : NodeId) : Prop :=
  src.place id = none → ∀ message, allowed (.malformedInput message)

theorem failsOnly_register {src : Source} {id : NodeId} (placeable : Placeable allowed src id)
    : FailsOnly allowed (register src id) := by
  rw [register]
  split
  · exact failsOnly_pure _
  next unplaced =>
    exact failsOnly_throw (placeable unplaced _)

theorem failsOnly_registers {src : Source} {ids : List NodeId}
    (placeable : ∀ id ∈ ids, Placeable allowed src id)
    : FailsOnly allowed (registers src ids) := by
  induction ids with
  | nil => exact failsOnly_pure _
  | cons id ids ih =>
      refine (failsOnly_register (placeable id List.mem_cons_self)).bind fun w => ?_
      refine (ih fun other member => placeable other (List.mem_cons_of_mem id member)).bind
        fun ws => ?_
      exact failsOnly_pure _

/-- Nodes with an instruction fail only for want of a register or of a declaration. Witness: one
case for each kind; the nodes whose registers are asked for are the node itself and its register
operands. -/
theorem failsOnly_instruction {src : Source} {id : NodeId} (passed : Validation.Passed src.graph id)
    (own : src.graph.isOutput id = false → Placeable allowed src id)
    (operand : ∀ child ∈ src.graph.registerOperands id, Placeable allowed src child)
    (declared : ∀ {decl e}, (src.graph.node id).kind = .output decl e →
      src.graph.declared.findIdx? (·.name = decl.name) = none
      → allowed (.undeclaredOutput decl.name))
    : FailsOnly allowed (instruction src id) := by
  obtain ⟨code, selected⟩ := passed.selected
  simp only [instruction, passed.known, selected, Bool.not_true, Bool.false_eq_true, if_false]
  refine FailsOnly.bind ?_ fun _ => failsOnly_pure _
  rw [Graph.registerOperands] at operand
  rw [Graph.isOutput, Node.isOutput] at own
  rw [operands]
  cases kind : (src.graph.node id).kind with
  | constant value =>
      simp only [kind] at own ⊢
      exact (failsOnly_register (own trivial)).bind fun _ => failsOnly_pure _
  | input decl =>
      simp only [kind] at own ⊢
      exact (failsOnly_modifyGet _).bind fun _ =>
        (failsOnly_register (own trivial)).bind fun _ => failsOnly_pure _
  | output decl expression =>
      simp only [kind] at operand ⊢
      cases found : src.graph.declared.findIdx? (·.name = decl.name) with
      | none => exact failsOnly_throw (declared kind found)
      | some slot =>
          have source := failsOnly_register (operand expression (List.mem_singleton_self _))
          exact source.bind fun _ => failsOnly_pure _
  | unary op x =>
      simp only [kind] at own operand ⊢
      exact failsOnly_registers (List.forall_mem_cons.mpr ⟨own trivial, operand⟩)
  | binary op x y =>
      simp only [kind] at own operand ⊢
      have leading : FailsOnly allowed (registers src [id, x]) := by
        refine failsOnly_registers
          (List.forall_mem_cons.mpr ⟨own trivial, List.forall_mem_singleton.mpr ?_⟩)
        exact operand x (by split <;> exact List.mem_cons_self)
      refine leading.bind fun _ => FailsOnly.bind ?_ fun _ => failsOnly_pure _
      cases constant : src.graph.value? y with
      | some value =>
          simp only [rightOperand, constant]
          exact failsOnly_pure _
      | none =>
          simp only [rightOperand, constant]
          have inRegister : ¬ src.graph.isConstant y := by
            simp [src.graph.isConstant_eq_isSome, constant]
          exact failsOnly_register (operand y (by simp [inRegister]))
  | ternary op x y z =>
      simp only [kind] at own operand ⊢
      exact failsOnly_registers (List.forall_mem_cons.mpr ⟨own trivial, operand⟩)
  | call candidates arguments =>
      simp only [kind] at own operand ⊢
      obtain ⟨f, function⟩ := passed.resolved kind
      simp only [function]
      exact (failsOnly_modifyGet _).bind fun _ => (failsOnly_register (own trivial)).bind fun _ =>
        (failsOnly_registers operand).bind fun _ => failsOnly_pure _
  | construct arguments => simp [Graph.opCode?, kind] at selected
  | swizzle x chosen => simp [Graph.opCode?, kind] at selected

theorem failsOnly_instructions {src : Source} {ids : List NodeId}
    (each : ∀ id ∈ ids, FailsOnly allowed (instruction src id))
    : FailsOnly allowed (instructions src ids) := by
  induction ids with
  | nil => exact failsOnly_pure _
  | cons id ids ih =>
      refine (each id List.mem_cons_self).bind fun first => ?_
      exact (ih fun other member => each other (List.mem_cons_of_mem id member)).bind fun rest =>
        failsOnly_pure _

/-! ## Emission of a validated graph -/

variable {g : Graph} {s : Schedule}

/-- A scheduled node that has a value has an interval, and a register throughout. -/
theorem exists_place (numbered : s.Numbered g) {id : NodeId} (isListed : id ∈ s.instructions)
    (isValue : g.isOutput id = false)
    : ∃ register i physical,
        s.register? id = some register
        ∧ (LiveInterval.ofSchedule g s)[register]? = some i
        ∧ (Allocation.ofIntervals (LiveInterval.ofSchedule g s)).physical?
          register = some physical := by
  obtain ⟨register, found⟩ := numbered.exists_register isListed isValue
  have inside : register < (LiveInterval.ofSchedule g s).length := by
    rw [LiveInterval.length_ofSchedule numbered]
    exact (List.getElem?_eq_some_iff.mp (numbered.register.mp found)).1
  obtain ⟨physical, placed⟩ := Allocation.physical?_ofIntervals
    (distinct_ofSchedule numbered) inside
  exact ⟨register, _, physical, found, List.getElem?_eq_getElem inside, placed⟩

/-- What emission asks of a schedule beyond instructions for its nodes. -/
structure Ready (g : Graph) (s : Schedule) : Prop where
  declared : ∀ id ∈ s.instructions, ∀ decl e, (g.node id).kind = .output decl e →
    ∃ d ∈ g.declared, d.name = decl.name
  operand : ∀ id ∈ s.instructions, ∀ child ∈ g.children id, g.isOutput child = false

/-- An encoded output writes to a declared name. -/
theorem Encoded.declared {src : Source} {t : ProgramTables} {id e : NodeId} {code : OpCode}
    {operands : List Word} {decl : StreamDecl} (encoded : Encoded src t id code operands)
    (isOutput : (src.graph.node id).kind = .output decl e)
    : ∃ d ∈ src.graph.declared, d.name = decl.name := by
  cases encoded with
  | output kind _ listed _ =>
      obtain ⟨rfl, rfl⟩ := NodeKind.output.inj (kind.symm.trans isOutput)
      obtain ⟨inside, named, _⟩ := List.findIdx?_eq_some_iff_getElem.mp listed
      exact ⟨_, List.getElem_mem inside, of_decide_eq_true named⟩
  | constant kind => cases kind.symm.trans isOutput
  | input kind => cases kind.symm.trans isOutput
  | unary kind => cases kind.symm.trans isOutput
  | binary kind => cases kind.symm.trans isOutput
  | binaryConstant kind => cases kind.symm.trans isOutput
  | select kind => cases kind.symm.trans isOutput
  | call kind => cases kind.symm.trans isOutput

/-- What has been emitted was ready. Witness: an operand that is an output would have a register. -/
theorem Ready.of_listed {t : ProgramTables} {words : List Word} (numbered : s.Numbered g)
    (listed : Listed (.ofSchedule g s) t s.instructions words)
    : Ready g s := by
  refine ⟨fun id isListed decl e kind => ?_, fun id isListed child isOperand => ?_⟩
  · obtain ⟨_, _, encoded⟩ := listed.encoded isListed
    exact encoded.declared kind
  · cases constant : g.isConstant child with
    | true =>
        rw [Graph.isConstant, Node.isConstant] at constant
        rw [Graph.isOutput, Node.isOutput]
        split at constant
        next kind =>
          rw [kind]
        · cases constant
    | false =>
        have needed := Schedule.registerOperand_of_uses isOperand constant
        obtain ⟨r, placed⟩ := listed.placed isListed needed
        exact isOutput_of_place numbered placed

/-- The instructions of validated nodes fail for want of a declaration or a register only. -/
theorem failsOnly_scheduled (covers : s.Covers g)
    (passed : ∀ id ∈ s.instructions, Validation.Passed g id)
      (malformed : ∀ id ∈ s.instructions, ∀ child ∈ g.registerOperands id, g.isOutput child = true
      → ∀ message, allowed (.malformedInput message))
    (undeclared : ∀ id ∈ s.instructions, ∀ decl e, (g.node id).kind = .output decl e →
      (∀ d ∈ g.declared, d.name ≠ decl.name) → allowed (.undeclaredOutput decl.name))
    : FailsOnly allowed (instructions (.ofSchedule g s) s.instructions) := by
  have placeable {id} (isListed : id ∈ s.instructions) (isValue : g.isOutput id = false) :
      Placeable allowed (.ofSchedule g s) id := by
    intro unplaced
    obtain ⟨register, _, physical, found, _, placed⟩ :=
      exists_place covers.toNumbered isListed isValue
    have isPlaced : (Source.ofSchedule g s).place id = some physical :=
      Option.bind_eq_some_iff.mpr ⟨register, found, placed⟩
    cases unplaced.symm.trans isPlaced
  refine failsOnly_instructions fun id isListed => failsOnly_instruction (passed id isListed)
    (placeable isListed) (fun child isOperand => ?_) (fun {decl e} kind absent => ?_)
  · cases isOutput : g.isOutput child with
    | false => exact placeable (covers.operand isListed isOperand) isOutput
    | true => exact fun _ => malformed id isListed child isOperand isOutput
  · refine undeclared id isListed decl e kind fun d isDeclared same => ?_
    simpa [same] using List.findIdx?_eq_none_iff.mp absent d isDeclared

/-- A program is emitted exactly where the instructions are. -/
theorem emit_eq (g : Graph) (s : Schedule)
    : Program.emit g s (.ofIntervals (LiveInterval.ofSchedule g s))
      = (instructions (.ofSchedule g s) s.instructions (.ofGraph g)).map fun (code, tables) =>
          { code, inputs := tables.inputs, outputs := g.declared, functions := tables.functions
            registers := (Allocation.ofIntervals (LiveInterval.ofSchedule g s)).count
            instructionCount := s.instructions.length } := by
  rw [Program.emit]
  simp only [StateT.run]
  change (do let (code, tables) ← instructions (.ofSchedule g s) s.instructions (.ofGraph g); _) = _
  cases instructions (.ofSchedule g s) s.instructions (.ofGraph g) <;> rfl

/-- Validated nodes are emitted if and only if their schedule is ready. -/
theorem emit_eq_ok_iff (covers : s.Covers g)
    (passed : ∀ id ∈ s.instructions, Validation.Passed g id)
    : (∃ p, Program.emit g s (.ofIntervals (LiveInterval.ofSchedule g s)) = .ok p) ↔ Ready g s := by
  rw [emit_eq]
  refine ⟨fun ⟨p, emitted⟩ => ?_, fun ready => ?_⟩
  · cases ran : instructions (.ofSchedule g s) s.instructions (.ofGraph g) with
    | error cause =>
        rw [ran] at emitted
        cases emitted
    | ok result => exact .of_listed covers.toNumbered (instructions_eq_ok ran).2
  · have total : FailsOnly (fun _ => False) (instructions (.ofSchedule g s) s.instructions) := by
      refine failsOnly_scheduled covers passed (fun id isListed child needed isOutput => ?_)
        (fun id isListed decl e kind absent => ?_)
      · have isValue := ready.operand id isListed child (Schedule.uses_of_registerOperand needed)
        cases isValue.symm.trans isOutput
      · obtain ⟨d, isDeclared, same⟩ := ready.declared id isListed decl e kind
        exact absent d isDeclared same
    cases ran : instructions (.ofSchedule g s) s.instructions (.ofGraph g) with
    | error cause => exact (total _ _ ran).elim
    | ok result => exact ⟨_, rfl⟩

/-- A failure of emission on validated nodes tells an undeclared output or malformed input. -/
theorem emit_eq_error (covers : s.Covers g) (passed : ∀ id ∈ s.instructions, Validation.Passed g id)
    {cause : CompileError}
    (failed : Program.emit g s (.ofIntervals (LiveInterval.ofSchedule g s)) = .error cause)
    : (∃ name, cause = .undeclaredOutput name) ∨ ∃ message, cause = .malformedInput message := by
  have late : FailsOnly
      (fun cause => (∃ name, cause = .undeclaredOutput name) ∨ ∃ message,
      cause = .malformedInput message) (instructions (.ofSchedule g s) s.instructions) :=
    failsOnly_scheduled covers passed (fun _ _ _ _ _ message => .inr ⟨message, rfl⟩)
      (fun _ _ decl _ _ _ => .inl ⟨decl.name, rfl⟩)
  rw [emit_eq] at failed
  cases ran : instructions (.ofSchedule g s) s.instructions (.ofGraph g) with
  | ok result =>
      rw [ran] at failed
      cases failed
  | error e =>
      rw [ran] at failed
      cases failed
      exact late _ _ ran

end Emission

/-- Validation gates code generation exactly. A validated graph is unchanged, it can be scheduled,
and scheduled values have intervals and registers. Emission then succeeds if and only if every
scheduled output writes to a declared name and no operand of a scheduled node is an output; where it
fails, it tells of an undeclared output or malformed input. Witness: what passes has an instruction,
and what is scheduled and has a value has a register. -/
theorem validation_gates_emission {g h : Graph} (enclosed : g.Enclosed)
    (accepted : Compiler.validation g = .ok () h)
    : h = g
      ∧ ∃ s,
          Schedule.ofGraph g = .ok s
          ∧ (∀ id ∈ s.instructions, g.isOutput id = false →
              ∃ register i physical,
                s.register? id = some register
                ∧ (LiveInterval.ofSchedule g s)[register]? = some i
                ∧ (Allocation.ofIntervals (LiveInterval.ofSchedule g s)).physical? register
                  = some physical)
          ∧ ((∃ p, Program.emit g s (.ofIntervals (LiveInterval.ofSchedule g s)) = .ok p)
              ↔ Emission.Ready g s)
          ∧ ∀ cause, Program.emit g s (.ofIntervals (LiveInterval.ofSchedule g s)) = .error cause →
              (∃ name, cause = .undeclaredOutput name)
              ∨ ∃ message, cause = .malformedInput message := by
  obtain ⟨same, rooted, valid⟩ := Validation.validation_eq_ok enclosed accepted
  have scheduled := Schedule.ofGraph_of_roots rooted.1 rooted.2
  have covers := Schedule.covers_ofGraph scheduled
  have passed id isListed := Validation.passed_of_failure? (valid id (covers.reachable id isListed))
  exact ⟨same, _, scheduled, fun id => Emission.exists_place covers.toNumbered,
    Emission.emit_eq_ok_iff covers passed, fun cause => Emission.emit_eq_error covers passed⟩

/-- A sum that is its own left operand. -/
def loopedSum : Graph :=
  let float : DataType := .scalarOf .float
  let sum : Node := { kind := .binary .add 1 0, type := float, overload := some 0 }
  ((Graph.empty.declareInput ⟨"x", float⟩).push sum).declareOutput ⟨"sum", float⟩ 1

theorem validation_gates_emission_loopedSum
    : loopedSum.Enclosed
      ∧ Compiler.validation loopedSum = .ok () loopedSum
      ∧ ∃ s p,
          Schedule.ofGraph loopedSum = .ok s
          ∧ s.instructions = [0, 1, 2]
          ∧ Program.emit loopedSum s (.ofIntervals (LiveInterval.ofSchedule loopedSum s))
            = .ok p := by
  have enclosed : loopedSum.Enclosed := by decide
  have passed : ∀ id < loopedSum.size, Validation.failure? loopedSum id = none := by decide
  have accepted : Compiler.validation loopedSum = .ok () loopedSum :=
    Validation.validation_of_passed enclosed ⟨by decide, by decide⟩ fun id reachable =>
      passed id (enclosed.lt_size reachable)
  obtain ⟨_, s, scheduled, _, emits, _⟩ := validation_gates_emission enclosed accepted
  have instructions : s.instructions = [0, 1, 2] := by
    rw [Schedule.instructions_ofGraph scheduled]
    decide +kernel
  have ready : Emission.Ready loopedSum s := by
    refine ⟨?_, ?_⟩ <;> rw [instructions]
    · simp only [List.forall_mem_cons, List.not_mem_nil, false_implies, implies_true, and_true]
      refine ⟨fun decl e kind => ?_, fun decl e kind => ?_, fun decl e kind => ?_⟩
      · cases kind
      · cases kind
      · cases kind
        decide
    · decide
  obtain ⟨p, emitted⟩ := emits.mpr ready
  exact ⟨enclosed, accepted, s, p, scheduled, instructions, emitted⟩

end StreamExpr
