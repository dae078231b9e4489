import StreamExpr.Proofs.Emission

/-! Decoding undoes emission.
A program is made of blocks, one for each scheduled node: the word of an operation code and its
operand words. Nothing marks where a block ends, but every code tells how many operand words follow
it, so decoding finds the blocks again, whatever their operand words are.
-/

namespace StreamExpr

namespace Emission

/-! ## Blocks -/

/-- An instruction as it is written: its operation code and its operand words. -/
structure Block where
  code : OpCode
  operands : List Word
deriving DecidableEq

def Block.words (b : Block) : List Word :=
  b.code.word :: b.operands

/-- The words of some blocks, one block after the other. -/
def wordsOf (blocks : List Block) : List Word :=
  blocks.flatMap Block.words

/-- Where the block at a place starts: behind all words of the blocks before it. -/
def offsetOf (blocks : List Block) (place : Nat) : Nat :=
  (wordsOf (blocks.take place)).length

/-- The blocks written for nodes in order. A block has the operation code of its node, and the
operand words that the node is given in the tables as the nodes before it leave them. -/
inductive Written (src : Source) : ProgramTables → List NodeId → List Block → ProgramTables → Prop
  | nil {t : ProgramTables} : Written src t [] [] t
  | cons {t between after : ProgramTables} {id : NodeId} {ids : List NodeId} {code : OpCode}
    {ops : List Word} {blocks : List Block} (selected : src.graph.opCode? id = some code)
    (emitted : operands src id t = .ok (ops, between)) (rest : Written src between ids blocks after)
    : Written src t (id :: ids) (⟨code, ops⟩ :: blocks) after

/-- Emission writes one block for each node. -/
theorem instructions_written {src : Source} {ids : List NodeId} {t after : ProgramTables}
    {ws : List Word} (emitted : instructions src ids t = .ok (ws, after))
    : ∃ blocks, Written src t ids blocks after ∧ ws = wordsOf blocks := by
  induction ids generalizing t ws with
  | nil =>
      obtain ⟨rfl, rfl⟩ := pure_eq_ok emitted
      exact ⟨[], .nil, rfl⟩
  | cons id ids ih =>
      rw [instructions] at emitted
      obtain ⟨_, between, first, further⟩ := bind_eq_ok emitted
      obtain ⟨code, ops, rfl, selected, written⟩ := instruction_written first
      obtain ⟨_, _, rest, result⟩ := bind_eq_ok further
      obtain ⟨rfl, rfl⟩ := pure_eq_ok result
      obtain ⟨blocks, writtenRest, rfl⟩ := ih rest
      exact ⟨⟨code, ops⟩ :: blocks, .cons selected written writtenRest, rfl⟩

/-- A block written for a node, in the tables of the whole program. -/
structure Encodes (src : Source) (t : ProgramTables) (id : NodeId) (b : Block) : Prop where
  selected : src.graph.opCode? id = some b.code
  encoded : Encoded src t id b.code b.operands

/-- Every block encodes its node in the tables as they are left in the end. Witness: a block is
encoded in the tables it leaves, and the blocks behind it only extend them. -/
theorem Written.encodes {src : Source} {t after : ProgramTables} {ids : List NodeId}
    {blocks : List Block} (written : Written src t ids blocks after)
    : Extends t after ∧ List.Forall₂ (Encodes src after) ids blocks := by
  induction written with
  | nil => exact ⟨.refl _, .nil⟩
  | cons selected emitted _ ih =>
      obtain ⟨_, grown, encoded⟩ := operands_eq_ok selected emitted
      exact ⟨grown.trans ih.1, .cons ⟨selected, encoded.extend ih.1⟩ ih.2⟩

theorem Encoded.ne_nop {src : Source} {t : ProgramTables} {id : NodeId} {code : OpCode}
    {ops : List Word} (encoded : Encoded src t id code ops)
    : code ≠ .nop := by
  intro isNop
  cases encoded with
  | input _ _ loads _ _ => rcases loads with same | same <;> cases same.symm.trans isNop
  | output _ stores _ _ => rcases stores with same | same <;> cases same.symm.trans isNop
  | _ => cases isNop

/-! ## Offsets -/

theorem offsetOf_cons (b : Block) (blocks : List Block) (place : Nat)
    : offsetOf (b :: blocks) (place + 1) = b.words.length + offsetOf blocks place := by
  simp only [offsetOf, wordsOf, List.take_succ_cons, List.flatMap_cons, List.length_append]

theorem offsetOf_length (blocks : List Block)
    : offsetOf blocks blocks.length = (wordsOf blocks).length := by
  rw [offsetOf, List.take_length]

/-- The words in front of a block are as many as its offset says. -/
theorem drop_offsetOf (blocks : List Block) (place : Nat)
    : (wordsOf blocks).drop (offsetOf blocks place) = wordsOf (blocks.drop place) := by
  induction blocks generalizing place with
  | nil => simp [wordsOf]
  | cons b blocks ih =>
      cases place with
      | zero => rfl
      | succ place =>
          have shape : wordsOf (b :: blocks) = b.words ++ wordsOf blocks := rfl
          rw [offsetOf_cons, shape, ← List.drop_drop, List.drop_left, ih, List.drop_succ_cons]

theorem offsetOf_succ {blocks : List Block} {place : Nat} {b : Block}
    (found : blocks[place]? = some b)
    : offsetOf blocks (place + 1) = offsetOf blocks place + (1 + b.operands.length) := by
  have inside := (List.getElem?_eq_some_iff.mp found).1
  have here := (List.getElem?_eq_some_iff.mp found).2
  simp only [offsetOf, wordsOf, ← List.take_append_getElem inside, List.flatMap_append,
    List.length_append, here, List.flatMap_singleton, Block.words, List.length_cons]
  omega

/-- From the offset of a block on, its words come first. -/
theorem drop_offsetOf_of_some {blocks : List Block} {place : Nat} {b : Block}
    (found : blocks[place]? = some b)
    : (wordsOf blocks).drop (offsetOf blocks place) = b.words ++ wordsOf
      (blocks.drop (place + 1)) := by
  have inside := (List.getElem?_eq_some_iff.mp found).1
  have here := (List.getElem?_eq_some_iff.mp found).2
  have split : blocks.drop place = b :: blocks.drop (place + 1) := by
    rw [List.drop_eq_getElem_cons inside, here]
  rw [drop_offsetOf, split]
  rfl

/-- The word of a code stands at the offset of its block, and its operand words fill the space up to
the next block. -/
theorem words_between_offsets {blocks : List Block} {place : Nat} {b : Block}
    (found : blocks[place]? = some b)
    : (wordsOf blocks)[offsetOf blocks place]? = some b.code.word
      ∧ ((wordsOf blocks).take (offsetOf blocks (place + 1))).drop (offsetOf blocks place + 1)
          = b.operands := by
  have front := drop_offsetOf_of_some found
  constructor
  · have first := congrArg (·[0]?) front
    simpa only [List.getElem?_drop, Nat.add_zero, Block.words, List.cons_append,
      List.getElem?_cons_zero] using first
  · have length : offsetOf blocks (place + 1) - (offsetOf blocks place + 1)
      = b.operands.length := by
      rw [offsetOf_succ found]
      omega
    rw [List.drop_take, length, ← List.drop_drop, front, Block.words, List.cons_append,
      List.drop_succ_cons, List.drop_zero, List.take_left]

/-! ## Decoding -/

/-- The block at a place as decoding sees it, with all words behind its code. -/
def decodedAt (blocks : List Block) (offset place : Nat) (b : Block) : Program.Decoded :=
  { offset := offset + offsetOf blocks place
    code := b.code
    rest := b.operands ++ wordsOf (blocks.drop (place + 1)) }

/-- Decoding takes the operand words of a block and no others. -/
def Block.Delimited (b : Block) : Prop :=
  ∀ offset rest, (Program.Decoded.mk offset b.code (b.operands ++ rest)).operandCount
  = b.operands.length

theorem Encodes.delimited {src : Source} {t : ProgramTables} {id : NodeId} {b : Block}
    (encodes : Encodes src t id b)
    : b.Delimited :=
  fun _ rest => encodes.encoded.operandCount rest

/-- Blocks are decoded one by one. Witness: the code at the front tells how many operand words to
pass over, and the next block stands behind them. -/
theorem decodeFrom_wordsOf {blocks : List Block} (delimited : ∀ b ∈ blocks, b.Delimited)
    {offset budget : Nat} (enough : (wordsOf blocks).length ≤ budget)
    : Program.decodeFrom offset budget (wordsOf blocks)
      = blocks.mapIdx (decodedAt blocks offset) := by
  induction blocks generalizing offset budget with
  | nil => cases budget <;> rfl
  | cons b blocks ih =>
      have shape : wordsOf (b :: blocks) = b.code.word :: (b.operands ++ wordsOf blocks) := rfl
      have own := delimited b List.mem_cons_self offset (wordsOf blocks)
      rw [shape, List.length_cons, List.length_append] at enough
      cases budget with
      | zero => omega
      | succ budget =>
          have others : Program.decodeFrom (offset + b.words.length) budget (wordsOf blocks)
              = blocks.mapIdx (decodedAt blocks (offset + b.words.length)) :=
            ih (fun other member => delimited other (List.mem_cons_of_mem b member)) (by omega)
          rw [shape, Program.decodeFrom, OpCode.ofWord?_word]
          simp only [own, List.drop_left]
          have next : offset + 1 + b.operands.length = offset + b.words.length := by
            simp only [Block.words, List.length_cons]
            omega
          rw [next, others, List.mapIdx_cons]
          congr 1
          apply List.mapIdx_eq_mapIdx_iff.mpr
          intro place _
          simp only [decodedAt, offsetOf_cons, List.drop_succ_cons, Nat.add_assoc]

end Emission

/-- Emission writes one block for each scheduled node, in its own tables. -/
theorem emit_eq_ok {g : Graph} {s : Schedule} {a : Allocation} {p : Program}
    (emitted : Program.emit g s a = .ok p)
    : ∃ blocks,
        Emission.Written ⟨g, s, a⟩ (.ofGraph g) s.instructions blocks ⟨p.inputs, p.functions⟩
        ∧ p.code = Emission.wordsOf blocks
        ∧ p.outputs = g.declared
        ∧ p.registers = a.count
        ∧ p.instructionCount = s.instructions.length := by
  simp only [Program.emit, bind, Except.bind] at emitted
  split at emitted
  · cases emitted
  next result ran =>
    cases emitted
    obtain ⟨blocks, written, words⟩ := Emission.instructions_written ran
    exact ⟨blocks, written, words, rfl, rfl, rfl⟩

/-- An emitted program is decoded block by block. -/
theorem decode_of_written {src : Emission.Source} {t : ProgramTables} {p : Program}
    {ids : List NodeId} {blocks : List Emission.Block}
    (written : Emission.Written src t ids blocks ⟨p.inputs, p.functions⟩)
    (code : p.code = Emission.wordsOf blocks)
    : p.decode = blocks.mapIdx (Emission.decodedAt blocks 0) := by
  rw [Program.decode, code]
  apply Emission.decodeFrom_wordsOf
  · intro b member
    obtain ⟨place, inside, rfl⟩ := List.getElem_of_mem member
    have encodes := written.encodes.2
    exact (encodes.get (encodes.length_eq.symm ▸ inside) inside).delimited
  · exact Nat.le_refl _

/-- What holds of the words that encode a node holds of its instruction. -/
theorem forall₂_decode {src : Emission.Source} {t : ProgramTables} {p : Program} {ids : List NodeId}
    {blocks : List Emission.Block} {R : NodeId → Program.Decoded → Prop}
    (written : Emission.Written src t ids blocks ⟨p.inputs, p.functions⟩)
    (code : p.code = Emission.wordsOf blocks)
      (holds : ∀ {id b}, Emission.Encodes src ⟨p.inputs, p.functions⟩ id b → ∀ offset rest,
      R id ⟨offset, b.code, b.operands ++ rest⟩)
    : List.Forall₂ R ids p.decode := by
  have encodes := written.encodes.2
  rw [decode_of_written written code]
  apply List.forall₂_iff_get.mpr
  refine ⟨by simpa using encodes.length_eq, fun place inside insideDecoded => ?_⟩
  have insideBlocks : place < blocks.length := encodes.length_eq ▸ inside
  simpa [Emission.decodedAt] using holds (encodes.get inside insideBlocks) _ _

/-- The instructions of a program are the blocks that were written for the scheduled nodes. -/
structure Emission.Decodes (src : Emission.Source) (p : Program) (blocks : List Emission.Block)
    : Prop where
  /-- There is one block for each scheduled node, in the order of the schedule. -/
  written : Emission.Written src (.ofGraph src.graph) src.schedule.instructions blocks
    ⟨p.inputs, p.functions⟩
  /-- Each instruction has the code of its node and starts behind the words of all blocks before it.
  Its operand words fill the space up to where the next one starts. -/
  entry : ∀ place id b, src.schedule.instructions[place]? = some id → blocks[place]? = some b →
    src.graph.opCode? id = some b.code
    ∧ p.instructions[place]? = some (Emission.offsetOf blocks place, b.code)
    ∧ p.code[Emission.offsetOf blocks place]? = some b.code.word
    ∧ (p.code.take (Emission.offsetOf blocks (place + 1))).drop (Emission.offsetOf blocks place + 1)
        = b.operands
  /-- The last instruction ends with the program. -/
  complete : Emission.offsetOf blocks blocks.length = p.code.length
  noNop : ∀ decoded ∈ p.instructions, decoded.2 ≠ .nop
  blockCount : blocks.length = src.schedule.instructions.length
  entryCount : p.instructions.length = src.schedule.instructions.length
  knownCount : p.instructions.length = p.instructionCount

/-- Decoding undoes emission, from every graph, schedule and allocation. Witness: every block tells
its own length, so the offsets at which decoding looks for a code are those at which emission has
put one. -/
theorem emitted_program_decodes {g : Graph} {s : Schedule} {a : Allocation} {p : Program}
    (emitted : Program.emit g s a = .ok p)
    : ∃ blocks, Emission.Decodes ⟨g, s, a⟩ p blocks := by
  obtain ⟨blocks, written, code, _, _, count⟩ := emit_eq_ok emitted
  have encodes := written.encodes.2
  have blockCount : blocks.length = s.instructions.length := encodes.length_eq.symm
  have decoded : p.instructions
      = blocks.mapIdx fun place b => (Emission.offsetOf blocks place, b.code) := by
    apply List.ext_getElem?
    intro place
    rw [Program.instructions, decode_of_written written code]
    simp only [List.getElem?_map, List.getElem?_mapIdx, Option.map_map, Function.comp_def,
      Emission.decodedAt, Nat.zero_add]
  have entryCount : p.instructions.length = s.instructions.length := by
    rw [decoded, List.length_mapIdx, blockCount]
  refine ⟨blocks, written, ?_, ?_, ?_, blockCount, entryCount, entryCount.trans count.symm⟩
  · intro place id b atPlace atBlock
    have inside := (List.getElem?_eq_some_iff.mp atPlace).1
    have insideBlocks := (List.getElem?_eq_some_iff.mp atBlock).1
    have own := encodes.get inside insideBlocks
    simp only [List.get_eq_getElem, (List.getElem?_eq_some_iff.mp atPlace).2,
      (List.getElem?_eq_some_iff.mp atBlock).2] at own
    have between := Emission.words_between_offsets atBlock
    refine ⟨own.selected, ?_, code ▸ between.1, code ▸ between.2⟩
    rw [decoded, List.getElem?_mapIdx, atBlock]
    rfl
  · rw [Emission.offsetOf_length, code]
  · intro entry member
    rw [decoded] at member
    obtain ⟨place, inside, rfl⟩ := List.mem_mapIdx.mp member
    exact (encodes.get (encodes.length_eq ▸ inside) inside).encoded.ne_nop

/-- A call and a sum with constants whose words are those of operation codes. -/
def disguisedWords : Graph :=
  let float : DataType := .scalarOf .float
  let f : FunctionSig := .ofInputs "f" [.float, .int] .float
  let g := (Graph.empty.declareInput ⟨"x", float⟩).pushConstant (.int 177)
  let g := ((g.pushCall [f] [0, 1]).pushConstant (.float ⟨181⟩)).pushBinary .add 2 3
  g.declareOutput ⟨"y", float⟩ 4

def disguisedSchedule : Schedule :=
  .ofNodes disguisedWords [0, 1, 2, 4, 5]

def disguisedProgram : Program :=
  let float : DataType := .scalarOf .float
  { code := [177, 0, 0, 176, 1, 177, 181, 0, 0, 2, 0, 1, 96, 0, 0, 181, 179, 0, 0]
    inputs := [⟨"x", float⟩], outputs := [⟨"y", float⟩]
    functions := [.ofInputs "f(Float,Int)" [.float, .int] .float], registers := 2
    instructionCount := 5 }

theorem emitted_program_decodes_disguisedWords
    : Program.emit disguisedWords disguisedSchedule ⟨#[0, 1, 0, 0], 2⟩ = .ok disguisedProgram
      ∧ ∃ blocks,
          Emission.Decodes ⟨disguisedWords, disguisedSchedule, ⟨#[0, 1, 0, 0], 2⟩⟩ disguisedProgram
            blocks :=
  have emitted
      : Program.emit disguisedWords disguisedSchedule ⟨#[0, 1, 0, 0], 2⟩
        = .ok disguisedProgram := by
    decide +kernel
  ⟨emitted, emitted_program_decodes emitted⟩

end StreamExpr
