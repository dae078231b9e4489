import StreamExpr.Emission
import StreamExpr.Proofs.Graph
import StreamExpr.Proofs.Machine

/-! What emission writes for each node.
The words of a node are its operation code and operands that name physical registers, constants and
slots. Tables only grow, so a slot keeps its meaning to the end, and a machine that holds the
operands of a node in their registers computes the word of the node.
-/

namespace StreamExpr

namespace Emission

/-! ## Tables -/

/-- Tables that have the entries of others at the same slots. -/
structure Extends (t larger : ProgramTables) : Prop where
  inputs {slot : Nat} {entry} : t.inputs[slot]? = some entry → larger.inputs[slot]? = some entry
  functions {slot : Nat} {entry} : t.functions[slot]? = some entry
    → larger.functions[slot]? = some entry

theorem Extends.refl (t : ProgramTables) : Extends t t :=
  ⟨id, id⟩

theorem Extends.trans {first second third : ProgramTables} (left : Extends first second)
    (right : Extends second third)
    : Extends first third :=
  ⟨fun listed => right.inputs (left.inputs listed),
    fun listed => right.functions (left.functions listed)⟩

/-- An entry keeps its slot when another one is appended. -/
theorem getElem?_append_of_eq_some {table : List α} {slot : Nat} {entry : α}
    (listed : table[slot]? = some entry) (more : List α)
    : (table ++ more)[slot]? = some entry := by
  rw [List.getElem?_append_left (List.getElem?_eq_some_iff.mp listed).1, listed]

/-- The slot of an input holds a stream of its name. -/
theorem inputSlot_spec (t : ProgramTables) (decl : StreamDecl)
    : Extends t (t.inputSlot decl).2
      ∧ ∃ entry,
          (t.inputSlot decl).2.inputs[(t.inputSlot decl).1]? = some entry
          ∧ entry.name = decl.name := by
  rw [ProgramTables.inputSlot]
  cases found : t.inputs.findIdx? (·.name = decl.name) with
  | some slot =>
      obtain ⟨inside, named, _⟩ := List.findIdx?_eq_some_iff_getElem.mp found
      exact ⟨.refl t, _, List.getElem?_eq_getElem inside, of_decide_eq_true named⟩
  | none =>
      exact ⟨⟨fun listed => getElem?_append_of_eq_some listed _, id⟩, decl, by simp, rfl⟩

/-- The slot of a function holds its mangled name. -/
theorem functionSlot_spec (t : ProgramTables) (f : FunctionSig)
    : Extends t (t.functionSlot f).2
      ∧ ∃ entry,
          (t.functionSlot f).2.functions[(t.functionSlot f).1]? = some entry
          ∧ entry.name = f.mangledName := by
  rw [ProgramTables.functionSlot]
  cases found : t.functions.findIdx? (·.name = f.mangledName) with
  | some slot =>
      obtain ⟨inside, named, _⟩ := List.findIdx?_eq_some_iff_getElem.mp found
      exact ⟨.refl t, _, List.getElem?_eq_getElem inside, of_decide_eq_true named⟩
  | none =>
      exact ⟨⟨id, fun listed => getElem?_append_of_eq_some listed _⟩,
        { f with name := f.mangledName }, by simp, rfl⟩

/-! ## Encodings -/

/-- The physical register of a node, if it has one. -/
def Source.place (src : Source) (id : NodeId) : Option Nat :=
  (src.schedule.register? id).bind src.allocation.physical?

/-- The operand words of a node under its operation code, in a program with the given tables. -/
inductive Encoded (src : Source) (t : ProgramTables) (id : NodeId) : OpCode → List Word → Prop
  | constant {value target} (kind : (src.graph.node id).kind = .constant value)
    (atTarget : src.place id = some target)
    : Encoded src t id (.transfer .loadConstant) [target, value.bits.toNat]
  | input {decl target slot entry code} (kind : (src.graph.node id).kind = .input decl)
    (atTarget : src.place id = some target)
    (loads : code = .transfer .loadFloat ∨ code = .transfer .loadInt)
    (listed : t.inputs[slot]? = some entry) (named : entry.name = decl.name)
    : Encoded src t id code [target, slot]
  | output {decl expression slot source code}
    (kind : (src.graph.node id).kind = .output decl expression)
    (stores : code = .transfer .storeFloat ∨ code = .transfer .storeInt)
    (listed : src.graph.declared.findIdx? (·.name = decl.name) = some slot)
    (atSource : src.place expression = some source)
    : Encoded src t id code [slot, source]
  | unary {op operand code target source} (kind : (src.graph.node id).kind = .unary op operand)
    (atTarget : src.place id = some target) (atSource : src.place operand = some source)
    : Encoded src t id (.unary code) [target, source]
  | binary {op left right code target leftSource rightSource}
    (kind : (src.graph.node id).kind = .binary op left right)
    (inRegister : src.graph.value? right = none) (atTarget : src.place id = some target)
    (atLeft : src.place left = some leftSource) (atRight : src.place right = some rightSource)
    : Encoded src t id (.binary code) [target, leftSource, rightSource]
  | binaryConstant {op left right code target leftSource value}
    (kind : (src.graph.node id).kind = .binary op left right)
    (constant : src.graph.value? right = some value) (atTarget : src.place id = some target)
    (atLeft : src.place left = some leftSource)
    : Encoded src t id (.binaryConstant code) [target, leftSource, value.bits.toNat]
  | select {op first second third code target firstSource secondSource thirdSource}
    (kind : (src.graph.node id).kind = .ternary op first second third)
    (atTarget : src.place id = some target) (atFirst : src.place first = some firstSource)
    (atSecond : src.place second = some secondSource)
    (atThird : src.place third = some thirdSource)
    : Encoded src t id (.select code) [target, firstSource, secondSource, thirdSource]
  | call {candidates arguments f slot entry target sources}
    (kind : (src.graph.node id).kind = .call candidates arguments)
    (function : (src.graph.node id).function? = some f) (listed : t.functions[slot]? = some entry)
    (named : entry.name = f.mangledName) (atTarget : src.place id = some target)
    (atSources : List.Forall₂ (fun argument source => src.place argument = some source) arguments
      sources)
    : Encoded src t id (.transfer .call) (slot :: target :: arguments.length :: sources)

/-- Encodings stay good when tables grow. -/
theorem Encoded.extend {src : Source} {t larger : ProgramTables} {id : NodeId} {code : OpCode}
    {operands : List Word} (encoded : Encoded src t id code operands) (grown : Extends t larger)
    : Encoded src larger id code operands := by
  cases encoded with
  | constant kind atTarget => exact .constant kind atTarget
  | input kind atTarget loads listed named =>
      exact .input kind atTarget loads (grown.inputs listed) named
  | output kind stores listed atSource => exact .output kind stores listed atSource
  | unary kind atTarget atSource => exact .unary kind atTarget atSource
  | binary kind inRegister atTarget atLeft atRight =>
      exact .binary kind inRegister atTarget atLeft atRight
  | binaryConstant kind isConstant atTarget atLeft =>
      exact .binaryConstant kind isConstant atTarget atLeft
  | select kind atTarget atFirst atSecond atThird =>
      exact .select kind atTarget atFirst atSecond atThird
  | call kind function listed named atTarget atSources =>
      exact .call kind function (grown.functions listed) named atTarget atSources

/-! ## What emission writes -/

/-- A computation with a continuation that succeeds succeeds in both. -/
theorem bind_eq_ok {x : EmitM α} {f : α → EmitM β} {t after : ProgramTables} {b : β}
    (emitted : (x >>= f) t = .ok (b, after))
    : ∃ a between, x t = .ok (a, between) ∧ f a between = .ok (b, after) := by
  cases first : x t with
  | error e => simp [bind, StateT.bind, Except.bind, first] at emitted
  | ok result => exact ⟨_, _, rfl, by simpa [bind, StateT.bind, Except.bind, first] using emitted⟩

theorem pure_eq_ok {t after : ProgramTables} {a b : α}
    (emitted : (pure a : EmitM α) t = .ok (b, after))
    : b = a ∧ after = t := by
  cases emitted
  exact ⟨rfl, rfl⟩

theorem modifyGet_eq_ok {f : ProgramTables → α × ProgramTables} {t after : ProgramTables} {a : α}
    (emitted : (modifyGet f : EmitM α) t = .ok (a, after))
    : a = (f t).1 ∧ after = (f t).2 := by
  have result : f t = (a, after) := Except.ok.inj emitted
  simp [result]

theorem register_eq_ok {src : Source} {id : NodeId} {t after : ProgramTables} {w : Word}
    (emitted : register src id t = .ok (w, after))
    : src.place id = some w ∧ after = t := by
  cases found : (src.schedule.register? id).bind src.allocation.physical? with
  | none =>
      simp only [register, found] at emitted
      cases emitted
  | some place =>
      simp only [register, found] at emitted
      obtain ⟨rfl, rfl⟩ := pure_eq_ok emitted
      exact ⟨found, rfl⟩

theorem registers_eq_ok {src : Source} {ids : List NodeId} {t after : ProgramTables}
    {ws : List Word} (emitted : registers src ids t = .ok (ws, after))
    : List.Forall₂ (fun id w => src.place id = some w) ids ws ∧ after = t := by
  induction ids generalizing ws with
  | nil =>
      obtain ⟨rfl, rfl⟩ := pure_eq_ok emitted
      exact ⟨.nil, rfl⟩
  | cons id ids ih =>
      rw [registers] at emitted
      obtain ⟨w, _, first, further⟩ := bind_eq_ok emitted
      obtain ⟨place, rfl⟩ := register_eq_ok first
      obtain ⟨ws, _, rest, result⟩ := bind_eq_ok further
      obtain ⟨rfl, rfl⟩ := pure_eq_ok result
      obtain ⟨places, rfl⟩ := ih rest
      exact ⟨.cons place places, rfl⟩

/-- The tables with the stream that a node loads, or the function that it calls. -/
def entered (g : Graph) (id : NodeId) (t : ProgramTables) : ProgramTables :=
  match (g.node id).kind with
  | .input decl => (t.inputSlot decl).2
  | .call _ _ =>
      match (g.node id).function? with
      | some f => (t.functionSlot f).2
      | none => t
  | _ => t

/-- The operand words of a node encode it in the tables as they are left. Witness: registers are
looked up without a trace, and a stream or function is put into its table before its slot is
used. -/
theorem operands_eq_ok {src : Source} {id : NodeId} {code : OpCode} {t after : ProgramTables}
    {ws : List Word} (selected : src.graph.opCode? id = some code)
    (emitted : operands src id t = .ok (ws, after))
    : after = entered src.graph id t ∧ Extends t after ∧ Encoded src after id code ws := by
  rw [operands] at emitted
  rw [Graph.opCode?] at selected
  rw [entered]
  cases kind : (src.graph.node id).kind with
  | constant value =>
      simp only [kind] at emitted selected
      cases selected
      obtain ⟨w, _, target, result⟩ := bind_eq_ok emitted
      obtain ⟨atTarget, rfl⟩ := register_eq_ok target
      obtain ⟨rfl, rfl⟩ := pure_eq_ok result
      exact ⟨rfl, .refl _, .constant kind atTarget⟩
  | input decl =>
      simp only [kind] at emitted selected
      obtain ⟨slot, _, added, further⟩ := bind_eq_ok emitted
      obtain ⟨w, _, target, result⟩ := bind_eq_ok further
      obtain ⟨atTarget, rfl⟩ := register_eq_ok target
      obtain ⟨rfl, rfl⟩ := pure_eq_ok result
      obtain ⟨rfl, rfl⟩ := modifyGet_eq_ok added
      obtain ⟨grown, entry, listed, named⟩ := inputSlot_spec t decl
      refine ⟨rfl, grown, .input kind atTarget ?_ listed named⟩
      cases register : (src.graph.node id).register <;> simp [register] at selected <;>
        simp [← selected]
  | output decl expression =>
      simp only [kind] at emitted selected
      cases found : src.graph.declared.findIdx? (·.name = decl.name) with
      | none =>
          simp only [found] at emitted
          cases emitted
      | some slot =>
          simp only [found] at emitted
          obtain ⟨w, _, source, result⟩ := bind_eq_ok emitted
          obtain ⟨atSource, rfl⟩ := register_eq_ok source
          obtain ⟨rfl, rfl⟩ := pure_eq_ok result
          refine ⟨rfl, .refl _, .output kind ?_ found atSource⟩
          cases register : (src.graph.node id).register <;> simp [register] at selected <;>
            simp [← selected]
  | unary op operand =>
      simp only [kind] at emitted selected
      obtain ⟨code, _, rfl⟩ := Option.map_eq_some_iff.mp selected
      obtain ⟨places, rfl⟩ := registers_eq_ok emitted
      cases places with | cons atTarget places =>
      cases places with | cons atSource places =>
      cases places
      exact ⟨rfl, .refl _, .unary kind atTarget atSource⟩
  | binary op left right =>
      simp only [kind, OpCode.withConstant?_map] at emitted selected
      obtain ⟨code, _, rfl⟩ := Option.map_eq_some_iff.mp selected
      obtain ⟨_, _, leading, further⟩ := bind_eq_ok emitted
      obtain ⟨places, rfl⟩ := registers_eq_ok leading
      cases places with | cons atTarget places =>
      cases places with | cons atLeft places =>
      cases places
      obtain ⟨w, _, last, result⟩ := bind_eq_ok further
      obtain ⟨rfl, rfl⟩ := pure_eq_ok result
      cases constant : src.graph.value? right with
      | some value =>
          simp only [rightOperand, constant] at last
          obtain ⟨rfl, rfl⟩ := pure_eq_ok last
          rw [if_pos (by simp [src.graph.isConstant_eq_isSome, constant])]
          exact ⟨rfl, .refl _, .binaryConstant kind constant atTarget atLeft⟩
      | none =>
          simp only [rightOperand, constant] at last
          obtain ⟨atRight, rfl⟩ := register_eq_ok last
          rw [if_neg (by simp [src.graph.isConstant_eq_isSome, constant])]
          exact ⟨rfl, .refl _, .binary kind constant atTarget atLeft atRight⟩
  | ternary op first second third =>
      simp only [kind] at emitted selected
      obtain ⟨code, _, rfl⟩ := Option.map_eq_some_iff.mp selected
      obtain ⟨places, rfl⟩ := registers_eq_ok emitted
      cases places with | cons atTarget places =>
      cases places with | cons atFirst places =>
      cases places with | cons atSecond places =>
      cases places with | cons atThird places =>
      cases places
      exact ⟨rfl, .refl _, .select kind atTarget atFirst atSecond atThird⟩
  | call candidates arguments =>
      simp only [kind] at emitted selected
      cases selected
      cases function : (src.graph.node id).function? with
      | none =>
          simp only [function] at emitted
          cases emitted
      | some f =>
          simp only [function] at emitted
          obtain ⟨slot, _, added, further⟩ := bind_eq_ok emitted
          obtain ⟨target, _, first, further⟩ := bind_eq_ok further
          obtain ⟨sources, _, rest, result⟩ := bind_eq_ok further
          obtain ⟨rfl, rfl⟩ := pure_eq_ok result
          obtain ⟨atSources, rfl⟩ := registers_eq_ok rest
          obtain ⟨atTarget, rfl⟩ := register_eq_ok first
          obtain ⟨rfl, rfl⟩ := modifyGet_eq_ok added
          obtain ⟨grown, entry, listed, named⟩ := functionSlot_spec t f
          exact ⟨rfl, grown, .call kind function listed named atTarget atSources⟩
  | construct arguments => simp [kind] at selected
  | swizzle operand selection => simp [kind] at selected

/-- The words of an instruction are the word of its code and its operand words. -/
theorem instruction_written {src : Source} {id : NodeId} {t after : ProgramTables} {ws : List Word}
    (emitted : instruction src id t = .ok (ws, after))
    : ∃ code ops,
        ws = code.word :: ops
        ∧ src.graph.opCode? id = some code
        ∧ operands src id t = .ok (ops, after) := by
  rw [instruction] at emitted
  cases known : (src.graph.node id).type.isKnown with
  | false =>
      simp only [known] at emitted
      cases emitted
  | true =>
      cases selected : src.graph.opCode? id with
      | none =>
          simp only [known, selected] at emitted
          cases emitted
      | some code =>
          simp only [known, selected] at emitted
          obtain ⟨ops, _, rest, result⟩ := bind_eq_ok emitted
          obtain ⟨rfl, rfl⟩ := pure_eq_ok result
          exact ⟨code, ops, rfl, rfl, rest⟩

theorem instruction_eq_ok {src : Source} {id : NodeId} {t after : ProgramTables} {ws : List Word}
    (emitted : instruction src id t = .ok (ws, after))
    : Extends t after
      ∧ ∃ code operands,
          ws = code.word :: operands
          ∧ src.graph.opCode? id = some code
          ∧ Encoded src after id code operands := by
  obtain ⟨code, ops, words, selected, rest⟩ := instruction_written emitted
  obtain ⟨_, grown, encoded⟩ := operands_eq_ok selected rest
  exact ⟨grown, code, ops, words, selected, encoded⟩

/-- Words that are the instructions of nodes in order. -/
inductive Listed (src : Source) (t : ProgramTables) : List NodeId → List Word → Prop
  | nil : Listed src t [] []
  | cons {id ids code operands words} (selected : src.graph.opCode? id = some code)
    (encoded : Encoded src t id code operands) (rest : Listed src t ids words)
    : Listed src t (id :: ids) (code.word :: operands ++ words)

/-- Emission lists the instructions of all nodes, in the tables as they are left. Witness: every
instruction is encoded in tables that the later ones only extend. -/
theorem instructions_eq_ok {src : Source} {ids : List NodeId} {t after : ProgramTables}
    {ws : List Word} (emitted : instructions src ids t = .ok (ws, after))
    : Extends t after ∧ Listed src after ids ws := by
  induction ids generalizing t ws with
  | nil =>
      obtain ⟨rfl, rfl⟩ := pure_eq_ok emitted
      exact ⟨.refl _, .nil⟩
  | cons id ids ih =>
      rw [instructions] at emitted
      obtain ⟨_, between, first, further⟩ := bind_eq_ok emitted
      obtain ⟨grown, code, operands, rfl, selected, encoded⟩ := instruction_eq_ok first
      obtain ⟨words, _, rest, result⟩ := bind_eq_ok further
      obtain ⟨rfl, rfl⟩ := pure_eq_ok result
      obtain ⟨grownOn, listed⟩ := ih rest
      exact ⟨grown.trans grownOn, .cons selected (encoded.extend grownOn) listed⟩

/-! ## Executing an encoding -/

/-- Decoding takes all operand words of an encoding and no others. -/
theorem Encoded.operandCount {src : Source} {t : ProgramTables} {id : NodeId} {code : OpCode}
    {operands : List Word} (encoded : Encoded src t id code operands) (rest : List Word)
    : (Program.Decoded.mk 0 code (operands ++ rest)).operandCount = operands.length := by
  cases encoded with
  | input _ _ loads _ _ => rcases loads with rfl | rfl <;> rfl
  | output _ stores _ _ => rcases stores with rfl | rfl <;> rfl
  | call _ _ _ _ _ atSources =>
      have lengths := atSources.length_eq
      simp [Program.Decoded.operandCount, Program.Decoded.operand, OpCode.operandCount?, lengths]
      omega
  | _ => rfl

/-- What the instruction of a node does to a machine: it puts the word of the node into its
register, or it writes an output. -/
inductive Effect (src : Source) (m : Interpretation) (streams : String → UInt32) (s : Machine)
    (id : NodeId)
    : Machine → Prop
  | value {target w} (isValue : src.graph.isOutput id = false)
    (atTarget : src.place id = some target)
    (evaluates : src.graph.Evaluates (src.graph.word? m streams) id w)
    : Effect src m streams s id (s.set target w)
  | output {slot w} (isOutput : src.graph.isOutput id = true)
    (writes : src.graph.Writes m streams id (slot, w))
    : Effect src m streams s id (s.write slot w)

/-- An encoded node has its operands in registers. -/
theorem Encoded.placed {src : Source} {t : ProgramTables} {id child : NodeId} {code : OpCode}
    {operands : List Word} (encoded : Encoded src t id code operands)
    (member : child ∈ src.graph.registerOperands id)
    : ∃ r, src.place child = some r := by
  rw [Graph.registerOperands] at member
  cases encoded with
  | constant kind _ => simp [kind, NodeKind.children] at member
  | input kind _ _ _ _ => simp [kind, NodeKind.children] at member
  | output kind _ _ atSource =>
      simp only [kind, NodeKind.children, List.mem_singleton] at member
      exact ⟨_, member ▸ atSource⟩
  | unary kind _ atSource =>
      simp only [kind, NodeKind.children, List.mem_singleton] at member
      exact ⟨_, member ▸ atSource⟩
  | binary kind inRegister _ atLeft atRight =>
      simp only [kind, src.graph.isConstant_eq_isSome, inRegister, Option.isSome_none,
        Bool.false_eq_true, if_false, List.mem_cons, List.not_mem_nil, or_false] at member
      rcases member with rfl | rfl
      · exact ⟨_, atLeft⟩
      · exact ⟨_, atRight⟩
  | binaryConstant kind constant _ atLeft =>
      simp only [kind, src.graph.isConstant_eq_isSome, constant, Option.isSome_some, if_true,
        List.mem_singleton] at member
      exact ⟨_, member ▸ atLeft⟩
  | select kind _ atFirst atSecond atThird =>
      simp only [kind, NodeKind.children, List.mem_cons, List.not_mem_nil, or_false] at member
      rcases member with rfl | rfl | rfl
      · exact ⟨_, atFirst⟩
      · exact ⟨_, atSecond⟩
      · exact ⟨_, atThird⟩
  | call kind _ _ _ _ atSources =>
      simp only [kind, NodeKind.children] at member
      obtain ⟨place, inside, rfl⟩ := List.mem_iff_getElem.mp member
      exact ⟨_, (List.forall₂_iff_get.mp atSources).2 place inside
        (atSources.length_eq ▸ inside)⟩

/-- The arguments of a call are the operand words behind their count. -/
theorem map_operand_range (f : Word → β) (slot target : Word) (sources rest : List Word)
    : (List.range sources.length).map
          (fun place =>
            f (Program.Decoded.operand
              ⟨0, .transfer .call, slot :: target :: sources.length :: sources ++ rest⟩
                (3 + place)))
      = sources.map f := by
  apply List.ext_getElem (by simp)
  intro place inside _
  have inSources : place < sources.length := by simpa using inside
  simp [Program.Decoded.operand, Nat.add_comm 3, List.getElem?_append_left inSources, inSources]

/-- A machine that holds the operands of a node in their registers executes the instruction of the
node with the effect it should have. Witness: one case for each way a node is encoded. -/
theorem Encoded.execute {src : Source} {t : ProgramTables} {id : NodeId} {code : OpCode}
    {operands : List Word} {p : Program} {m : Interpretation} {streams : String → UInt32}
    {s : Machine} (encoded : Encoded src t id code operands)
    (selected : src.graph.opCode? id = some code) (inputs : p.inputs = t.inputs)
    (functions : p.functions = t.functions) (outputs : p.outputs = src.graph.declared)
    (holds : ∀ child ∈ src.graph.registerOperands id, ∀ r, src.place child = some r →
      src.graph.Evaluates (src.graph.word? m streams) child (s.registers r))
    (rest : List Word)
    : ∃ next,
        s.execute m p streams ⟨0, code, operands ++ rest⟩ = some next
        ∧ Effect src m streams s id next := by
  have evaluates {kind : NodeKind} {values : List UInt32} {w : UInt32}
      (found : (src.graph.node id).kind = kind)
      (operands : List.Forall₂ (src.graph.Evaluates (src.graph.word? m streams)) kind.children
      values) (result : src.graph.word? m streams id values = some w) :=
    Graph.Evaluates.of_kind found operands result
  cases encoded with
  | constant kind atTarget =>
      refine ⟨_, rfl, .value (by simp [Graph.isOutput, Node.isOutput, kind]) atTarget ?_⟩
      exact evaluates kind .nil (by simp [Graph.word?, kind, Program.Decoded.operand])
  | @input decl target slot entry _ kind atTarget loads listed named =>
      refine ⟨s.set target (streams decl.name), ?_,
        .value (by simp [Graph.isOutput, Node.isOutput, kind]) atTarget ?_⟩
      · rcases loads with rfl | rfl <;>
          simp [Machine.execute, Program.Decoded.operand, inputs, listed, named]
      · exact evaluates kind .nil (by simp [Graph.word?, kind])
  | @output decl expression slot source _ kind stores listed atSource =>
      obtain ⟨inside, _⟩ := List.findIdx?_eq_some_iff_getElem.mp listed
      refine ⟨s.write slot (s.registers source), ?_,
        .output (by simp [Graph.isOutput, Node.isOutput, kind])
        ⟨decl, expression, kind, listed, ?_⟩⟩
      · rcases stores with rfl | rfl <;>
          simp [Machine.execute, Program.Decoded.operand, outputs, inside]
      · exact holds expression (by simp [Graph.registerOperands, kind, NodeKind.children]) source
          atSource
  | @unary op operand code target source kind atTarget atSource =>
      refine ⟨_, rfl, .value (by simp [Graph.isOutput, Node.isOutput, kind]) atTarget ?_⟩
      have first := holds operand (by simp [Graph.registerOperands, kind, NodeKind.children]) source
        atSource
      exact evaluates kind (.cons first .nil)
        (by simp [Graph.word?, kind, selected, Interpretation.operate, Program.Decoded.operand])
  | @binary op left right code target leftSource rightSource kind inRegister atTarget atLeft
    atRight =>
      have operands : src.graph.registerOperands id = [left, right] := by
        simp [Graph.registerOperands, kind, src.graph.isConstant_eq_isSome, inRegister]
      refine ⟨_, rfl, .value (by simp [Graph.isOutput, Node.isOutput, kind]) atTarget ?_⟩
      have first := holds left (by simp [operands]) leftSource atLeft
      have second := holds right (by simp [operands]) rightSource atRight
      exact evaluates kind (.cons first (.cons second .nil))
        (by simp [Graph.word?, kind, selected, Interpretation.operate, Program.Decoded.operand])
  | @binaryConstant op left right code target leftSource value kind constant atTarget atLeft =>
      have operands : src.graph.registerOperands id = [left] := by
        simp [Graph.registerOperands, kind, src.graph.isConstant_eq_isSome, constant]
      refine ⟨_, rfl, .value (by simp [Graph.isOutput, Node.isOutput, kind]) atTarget ?_⟩
      have first := holds left (by simp [operands]) leftSource atLeft
      have rightKind := Graph.kind_of_value? constant
      have second : src.graph.Evaluates (src.graph.word? m streams) right value.bits :=
        .of_kind rightKind .nil (by simp [Graph.word?, rightKind])
      exact evaluates kind (.cons first (.cons second .nil))
        (by simp [Graph.word?, kind, selected, Interpretation.operate, Program.Decoded.operand])
  | @select op first second third code target firstSource secondSource thirdSource kind atTarget
      atFirst atSecond atThird =>
      have operands : src.graph.registerOperands id = [first, second, third] := by
        simp [Graph.registerOperands, kind, NodeKind.children]
      refine ⟨_, rfl, .value (by simp [Graph.isOutput, Node.isOutput, kind]) atTarget ?_⟩
      have x := holds first (by simp [operands]) firstSource atFirst
      have y := holds second (by simp [operands]) secondSource atSecond
      have z := holds third (by simp [operands]) thirdSource atThird
      exact evaluates kind (.cons x (.cons y (.cons z .nil)))
        (by simp [Graph.word?, kind, selected, Interpretation.operate, Program.Decoded.operand])
  | @call candidates arguments f slot entry target sources kind function listed named atTarget
      atSources =>
      have operands : src.graph.registerOperands id = arguments := by
        simp [Graph.registerOperands, kind, NodeKind.children]
      refine ⟨s.set target (m.call f.mangledName (sources.map s.registers)), ?_,
        .value (by simp [Graph.isOutput, Node.isOutput, kind]) atTarget ?_⟩
      · have looked := map_operand_range s.registers slot target sources rest
        rw [atSources.length_eq, Machine.execute]
        have atSlot : p.functions[slot]? = some entry := by rw [functions, listed]
        simpa [Program.Decoded.operand, atSlot, named] using
          congrArg (fun words => s.set target (m.call f.mangledName words)) looked
      · have result : src.graph.word? m streams id (sources.map s.registers)
            = some (m.call f.mangledName (sources.map s.registers)) := by
          simp [Graph.word?, kind, function]
        refine evaluates kind ?_ result
        obtain ⟨lengths, placed⟩ := List.forall₂_iff_zip.mp atSources
        refine List.forall₂_map_right_iff.mpr (List.forall₂_iff_zip.mpr ⟨lengths, ?_⟩)
        intro argument source paired
        exact holds argument (operands ▸ (List.of_mem_zip paired).1) source (placed paired)

end Emission

end StreamExpr
