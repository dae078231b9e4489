import StreamExpr.Proofs.CodeGeneration
import StreamExpr.Proofs.Decoding

/-! Generated programs are closed.
Every register that an instruction names is there and has been written before it is read, and every
slot is inside its table. The tables list each stream and each function once, in the order in which
they are declared or first used.
-/

namespace StreamExpr

/-! ## What an instruction refers to -/

namespace Program.Decoded

/-- The register that an instruction writes. -/
def target? (d : Decoded) : Option Word :=
  match d.code with
  | .unary _ | .binary _ | .binaryConstant _ | .select _ | .transfer .loadConstant
  | .transfer .loadFloat | .transfer .loadInt => some (d.operand 0)
  | .transfer .call => some (d.operand 1)
  | .nop | .transfer .storeFloat | .transfer .storeInt => none

/-- The registers that an instruction reads. -/
def sources (d : Decoded) : List Word :=
  match d.code with
  | .unary _ | .binaryConstant _ | .transfer .storeFloat | .transfer .storeInt => [d.operand 1]
  | .binary _ => [d.operand 1, d.operand 2]
  | .select _ => [d.operand 1, d.operand 2, d.operand 3]
  | .transfer .call => (List.range (d.operand 2)).map fun i => d.operand (3 + i)
  | .nop | .transfer .loadConstant | .transfer .loadFloat | .transfer .loadInt => []

/-- The slot that an instruction loads an input from. -/
def inputSlot? (d : Decoded) : Option Word :=
  match d.code with
  | .transfer .loadFloat | .transfer .loadInt => some (d.operand 1)
  | _ => none

/-- The slot that an instruction stores an output to. -/
def outputSlot? (d : Decoded) : Option Word :=
  match d.code with
  | .transfer .storeFloat | .transfer .storeInt => some (d.operand 0)
  | _ => none

/-- The slot of the function that an instruction calls. -/
def functionSlot? (d : Decoded) : Option Word :=
  match d.code with
  | .transfer .call => some (d.operand 0)
  | _ => none

end Program.Decoded

namespace Graph

/-- The stream of an input node. -/
def inputDecl? (g : Graph) (id : NodeId) : Option StreamDecl :=
  match (g.node id).kind with
  | .input decl => some decl
  | _ => none

/-- The function that a node calls, under its mangled name. -/
def callee? (g : Graph) (id : NodeId) : Option FunctionSig :=
  (g.node id).function?.map fun f => { f with name := f.mangledName }

end Graph

namespace Emission

/-- The instruction of a node refers to the registers of the node and of its operands, and to the
slots of what the node names. -/
structure Refers (src : Source) (t : ProgramTables) (id : NodeId) (d : Program.Decoded) : Prop where
  target : d.target? = if src.graph.isOutput id then none else src.place id
  source : ∀ r ∈ d.sources, ∃ child ∈ src.graph.registerOperands id, src.place child = some r
  loads : (src.graph.inputDecl? id).isSome = d.inputSlot?.isSome
  inputSlot : ∀ slot ∈ d.inputSlot?, ∃ decl entry,
    src.graph.inputDecl? id = some decl ∧ t.inputs[slot]? = some entry ∧ entry.name = decl.name
  outputSlot : ∀ slot ∈ d.outputSlot?, ∃ decl expression,
    (src.graph.node id).kind = .output decl expression
    ∧ src.graph.declared.findIdx? (·.name = decl.name) = some slot
  functionSlot : ∀ slot ∈ d.functionSlot?, ∃ f entry,
    (src.graph.node id).function? = some f ∧ t.functions[slot]? = some entry
    ∧ entry.name = f.mangledName

/-- An instruction that makes a value refers to what it should if it reads the registers of the
node's operands in their order and calls the node's function. -/
theorem Refers.of_operands {src : Source} {t : ProgramTables} {id : NodeId} {d : Program.Decoded}
    {r : Nat} (isValue : src.graph.isOutput id = false) (notInput : src.graph.inputDecl? id = none)
    (atTarget : src.place id = some r) (writes : d.target? = some r)
    (reads : List.Forall₂ (fun child source => src.place child = some source)
    (src.graph.registerOperands id) d.sources) (noLoad : d.inputSlot? = none)
    (noStore : d.outputSlot? = none) (calls : ∀ slot ∈ d.functionSlot?, ∃ f entry,
      (src.graph.node id).function? = some f ∧ t.functions[slot]? = some entry
      ∧ entry.name = f.mangledName)
    : Refers src t id d where
  target := by
    rw [writes, isValue, atTarget]
    rfl
  source source isSource := by
    obtain ⟨place, inside, rfl⟩ := List.getElem_of_mem isSource
    have insideOperands : place < (src.graph.registerOperands id).length :=
      reads.length_eq.symm ▸ inside
    exact ⟨_, List.getElem_mem insideOperands, reads.get insideOperands inside⟩
  loads := by simp [notInput, noLoad]
  inputSlot := by simp [noLoad]
  outputSlot := by simp [noStore]
  functionSlot := calls

/-- An encoded node refers to what it should, whatever words follow. Witness: one case for each way
a node is encoded. -/
theorem Encoded.refers {src : Source} {t : ProgramTables} {id : NodeId} {code : OpCode}
    {ops : List Word} (encoded : Encoded src t id code ops) (offset : Nat) (rest : List Word)
    : Refers src t id ⟨offset, code, ops ++ rest⟩ := by
  have noSlot {P : Word → Prop} : ∀ slot ∈ (none : Option Word), P slot := by simp
  cases encoded with
  | constant kind atTarget =>
      refine .of_operands ?_ ?_ atTarget rfl ?_ rfl rfl noSlot
      · simp [Graph.isOutput, Node.isOutput, kind]
      · simp [Graph.inputDecl?, kind]
      · rw [Graph.registerOperands, kind]
        exact .nil
  | input kind atTarget loads listed named =>
      have isValue : src.graph.isOutput id = false := by simp [Graph.isOutput, Node.isOutput, kind]
      rcases loads with rfl | rfl
      all_goals
        refine ⟨?_, by simp [Program.Decoded.sources],
          by simp [Graph.inputDecl?, kind, Program.Decoded.inputSlot?], ?_, noSlot, noSlot⟩
        · rw [isValue, atTarget]
          rfl
        · intro slot isSlot
          obtain rfl := Option.some.inj isSlot
          exact ⟨_, _, by simp [Graph.inputDecl?, kind], listed, named⟩
  | @output decl expression slot source _ kind stores listed atSource =>
      have isOutput : src.graph.isOutput id = true := by simp [Graph.isOutput, Node.isOutput, kind]
      have operands : src.graph.registerOperands id = [expression] := by
        simp [Graph.registerOperands, kind, NodeKind.children]
      rcases stores with rfl | rfl
      all_goals
        refine ⟨?_,
          ?_, by simp [Graph.inputDecl?, kind, Program.Decoded.inputSlot?], noSlot, ?_, noSlot⟩
        · rw [isOutput]
          rfl
        · intro r isSource
          obtain rfl := List.mem_singleton.mp isSource
          exact ⟨expression, by simp [operands], atSource⟩
        · intro slot isSlot
          obtain rfl := Option.some.inj isSlot
          exact ⟨_, _, kind, listed⟩
  | unary kind atTarget atSource =>
      refine .of_operands ?_ ?_ atTarget rfl ?_ rfl rfl noSlot
      · simp [Graph.isOutput, Node.isOutput, kind]
      · simp [Graph.inputDecl?, kind]
      · rw [Graph.registerOperands, kind]
        exact .cons atSource .nil
  | binary kind inRegister atTarget atLeft atRight =>
      refine .of_operands ?_ ?_ atTarget rfl ?_ rfl rfl noSlot
      · simp [Graph.isOutput, Node.isOutput, kind]
      · simp [Graph.inputDecl?, kind]
      · simp only [Graph.registerOperands, kind, src.graph.isConstant_eq_isSome, inRegister]
        exact .cons atLeft (.cons atRight .nil)
  | binaryConstant kind constant atTarget atLeft =>
      refine .of_operands ?_ ?_ atTarget rfl ?_ rfl rfl noSlot
      · simp [Graph.isOutput, Node.isOutput, kind]
      · simp [Graph.inputDecl?, kind]
      · simp only [Graph.registerOperands, kind, src.graph.isConstant_eq_isSome, constant]
        exact .cons atLeft .nil
  | select kind atTarget atFirst atSecond atThird =>
      refine .of_operands ?_ ?_ atTarget rfl ?_ rfl rfl noSlot
      · simp [Graph.isOutput, Node.isOutput, kind]
      · simp [Graph.inputDecl?, kind]
      · rw [Graph.registerOperands, kind]
        exact .cons atFirst (.cons atSecond (.cons atThird .nil))
  | @call candidates arguments f slot entry target sources kind function listed named atTarget
      atSources =>
      have words : Program.Decoded.sources ⟨offset, .transfer .call,
          slot :: target :: arguments.length :: sources ++ rest⟩ = sources := by
        rw [atSources.length_eq]
        exact (map_operand_range (fun w => w) slot target sources rest).trans (List.map_id' sources)
      refine .of_operands ?_ ?_ atTarget rfl ?_ rfl rfl ?_
      · simp [Graph.isOutput, Node.isOutput, kind]
      · simp [Graph.inputDecl?, kind]
      · rw [words, Graph.registerOperands, kind]
        exact atSources
      · intro slot isSlot
        obtain rfl := Option.some.inj isSlot
        exact ⟨f, entry, function, listed, named⟩

/-! ## Tables with one entry for each name -/

section Firsts

variable {α κ : Type} [DecidableEq κ]

/-- The first entry of each key, in order. -/
def firstsBy (key : α → κ) : List α → List α
  | [] => []
  | x :: xs => x :: (firstsBy key xs).filter (key · ≠ key x)

theorem mem_map_firstsBy {key : α → κ} {xs : List α} {k : κ}
    : k ∈ (firstsBy key xs).map key ↔ k ∈ xs.map key := by
  induction xs with
  | nil => rfl
  | cons x xs ih =>
      have others : k ∈ ((firstsBy key xs).filter (key · ≠ key x)).map key
          ↔ k ∈ xs.map key ∧ k ≠ key x := by
        rw [← ih]
        simp only [List.mem_map, List.mem_filter, decide_eq_true_eq]
        grind
      rw [firstsBy, List.map_cons, List.map_cons, List.mem_cons, List.mem_cons, others]
      tauto

theorem nodup_map_firstsBy (key : α → κ) (xs : List α)
    : ((firstsBy key xs).map key).Nodup := by
  induction xs with
  | nil => exact List.nodup_nil
  | cons x xs ih =>
      rw [firstsBy, List.map_cons, List.nodup_cons]
      refine ⟨fun member => ?_, ih.sublist (List.filter_sublist.map key)⟩
      obtain ⟨other, kept, same⟩ := List.mem_map.mp member
      exact of_decide_eq_true (List.mem_filter.mp kept).2 same

/-- Entries behind others count when their key is new. -/
theorem firstsBy_append (key : α → κ) (xs ys : List α)
    : firstsBy key (xs ++ ys)
      = firstsBy key xs ++ (firstsBy key ys).filter (key · ∉ xs.map key) := by
  induction xs with
  | nil => simp [firstsBy]
  | cons x xs ih =>
      rw [List.cons_append, firstsBy, ih, List.filter_append, List.filter_filter, firstsBy,
        List.cons_append]
      congr 3
      funext y
      simp [not_or]

/-- An entry is added unless its key is listed. -/
theorem firstsBy_concat {key : α → κ} {table xs : List α} (x : α) (firsts : table = firstsBy key xs)
    : (if (table.findIdx? (key · = key x)).isSome then table else table ++ [x])
      = firstsBy key (xs ++ [x]) := by
  subst firsts
  have listed : (List.findIdx? (key · = key x) (firstsBy key xs)).isSome = true
    ↔ key x ∈ xs.map key := by
    rw [← mem_map_firstsBy, List.findIdx?_isSome, List.any_eq_true, List.mem_map]
    simp only [decide_eq_true_eq]
  simp only [firstsBy_append, listed]
  split <;> simp_all [firstsBy]

end Firsts

/-- The tables have the first entry of each name among the given streams and functions. -/
structure Tabulates (t : ProgramTables) (streams : List StreamDecl) (called : List FunctionSig)
    : Prop where
  inputs : t.inputs = firstsBy StreamDecl.name streams
  functions : t.functions = firstsBy FunctionSig.name called

theorem Tabulates.inputSlot {t : ProgramTables} {streams : List StreamDecl}
    {called : List FunctionSig} (tabulates : Tabulates t streams called) (decl : StreamDecl)
    : Tabulates (t.inputSlot decl).2 (streams ++ [decl]) called := by
  have concat := firstsBy_concat decl tabulates.inputs
  rw [ProgramTables.inputSlot]
  cases found : t.inputs.findIdx? (·.name = decl.name) <;> rw [found] at concat <;>
    exact ⟨concat, tabulates.functions⟩

theorem Tabulates.functionSlot {t : ProgramTables} {streams : List StreamDecl}
    {called : List FunctionSig} (tabulates : Tabulates t streams called) (f : FunctionSig)
    : Tabulates (t.functionSlot f).2 streams (called ++ [{ f with name := f.mangledName }]) := by
  have concat := firstsBy_concat { f with name := f.mangledName } tabulates.functions
  rw [ProgramTables.functionSlot]
  cases found : t.functions.findIdx? (·.name = f.mangledName) <;> simp only [found] at concat <;>
    exact ⟨tabulates.inputs, concat⟩

theorem Tabulates.foldl {g : Graph} {step : ProgramTables → NodeId → ProgramTables}
    (steps : ∀ t streams called id, Tabulates t streams called →
      Tabulates (step t id) (streams ++ (g.inputDecl? id).toList) called)
    {t : ProgramTables} {streams : List StreamDecl} {called : List FunctionSig}
    (tabulates : Tabulates t streams called) (ids : List NodeId)
    : Tabulates (ids.foldl step t) (streams ++ ids.filterMap g.inputDecl?) called := by
  induction ids generalizing t streams with
  | nil => simpa using tabulates
  | cons id ids ih =>
      have next := ih (steps t streams called id tabulates)
      simpa only [List.foldl_cons, List.filterMap_eq_flatMap_toList, List.flatMap_cons,
        List.append_assoc] using next

theorem tabulates_ofGraph (g : Graph)
    : Tabulates (.ofGraph g) (g.inputs.filterMap g.inputDecl?) [] := by
  have none : Tabulates ⟨[], []⟩ [] [] := ⟨rfl, rfl⟩
  refine none.foldl (fun t streams called id tabulates => ?_) g.inputs
  cases kind : (g.node id).kind with
  | input decl =>
      have declared : g.inputDecl? id = some decl := by simp [Graph.inputDecl?, kind]
      rw [declared]
      exact tabulates.inputSlot decl
  | _ =>
      have undeclared : g.inputDecl? id = .none := by simp [Graph.inputDecl?, kind]
      rw [undeclared]
      simpa using tabulates

/-- A node adds the stream that it loads and the function that it calls. -/
theorem Tabulates.entered {g : Graph} {t : ProgramTables} {streams : List StreamDecl}
    {called : List FunctionSig} (tabulates : Tabulates t streams called) (id : NodeId)
    : Tabulates (Emission.entered g id t) (streams ++ (g.inputDecl? id).toList)
      (called ++ (g.callee? id).toList) := by
  rw [Emission.entered]
  cases kind : (g.node id).kind with
  | input decl =>
      simpa [Graph.inputDecl?, Graph.callee?, Node.function?, kind] using tabulates.inputSlot decl
  | call candidates arguments =>
      cases function : (g.node id).function? with
      | none => simpa [Graph.inputDecl?, Graph.callee?, kind, function] using tabulates
      | some f =>
          simpa [Graph.inputDecl?, Graph.callee?, kind, function] using tabulates.functionSlot f
  | _ => simpa [Graph.inputDecl?, Graph.callee?, Node.function?, kind] using tabulates

/-- The nodes of a program add the streams that they load and the functions that they call, in
order. -/
theorem Tabulates.written {src : Source} {t after : ProgramTables} {ids : List NodeId}
    {blocks : List Block} {streams : List StreamDecl} {called : List FunctionSig}
    (tabulates : Tabulates t streams called) (written : Written src t ids blocks after)
    : Tabulates after (streams ++ ids.filterMap src.graph.inputDecl?)
        (called ++ ids.filterMap src.graph.callee?) := by
  induction written generalizing streams called with
  | nil => simpa using tabulates
  | @cons t _ _ id _ _ _ _ selected emitted _ ih =>
      obtain ⟨rfl, _⟩ := operands_eq_ok selected emitted
      have next := ih (tabulates.entered id)
      simpa only [List.filterMap_eq_flatMap_toList, List.flatMap_cons, List.append_assoc] using next

/-! ## Registers -/

/-- The registers of nodes are below their number. -/
theorem place_lt_count {g : Graph} {s : Schedule} (numbered : s.Numbered g) {id : NodeId} {r : Nat}
    (placed : (Source.ofSchedule g s).place id = some r)
    : r < (Source.ofSchedule g s).allocation.count := by
  obtain ⟨register, found, physical⟩ := Option.bind_eq_some_iff.mp placed
  have scheduled : id ∈ s.instructions :=
    (List.mem_filter.mp (List.mem_of_getElem? (numbered.register.mp found))).1
  obtain ⟨index, atIndex⟩ := List.mem_iff_getElem?.mp scheduled
  obtain ⟨i, atI, rfl, _⟩ := LiveInterval.ofSchedule_covers numbered found atIndex
  exact Allocation.physical?_lt_count (distinct_ofSchedule numbered)
    (List.mem_of_getElem? atI) physical

/-- Every instruction of an emitted program refers to what its node does. -/
theorem refers_decode {src : Source} {t : ProgramTables} {p : Program} {ids : List NodeId}
    {blocks : List Block} (written : Written src t ids blocks ⟨p.inputs, p.functions⟩)
    (code : p.code = wordsOf blocks)
    : List.Forall₂ (Refers src ⟨p.inputs, p.functions⟩) ids p.decode :=
  forall₂_decode written code fun encodes => encodes.encoded.refers

end Emission

/-- A generated program lists the blocks of a schedule of its graph. -/
theorem generate_written {g : Graph} {p : Program} (generated : Compiler.generate g = .ok p)
    : ∃ s blocks,
        Schedule.ofGraph g = .ok s
        ∧ Emission.Written (.ofSchedule g s) (.ofGraph g) s.instructions blocks
            ⟨p.inputs, p.functions⟩
        ∧ p.code = Emission.wordsOf blocks
        ∧ p.outputs = g.declared
        ∧ p.registers = (Emission.Source.ofSchedule g s).allocation.count := by
  rw [Compiler.generate] at generated
  cases scheduled : Schedule.ofGraph g with
  | error e =>
      rw [scheduled] at generated
      cases generated
  | ok s =>
      rw [scheduled] at generated
      obtain ⟨blocks, written, code, outputs, registers, _⟩ := emit_eq_ok generated
      exact ⟨s, blocks, rfl, written, code, outputs, registers⟩

/-! ## Closed programs -/

/-- A program that refers to nothing outside itself. -/
structure Program.Closed (p : Program) : Prop where
  target : ∀ d ∈ p.decode, ∀ r ∈ d.target?, r < p.registers
  source : ∀ d ∈ p.decode, ∀ r ∈ d.sources, r < p.registers
  /-- What an instruction reads has been written by an earlier one. -/
  defined : ∀ (place : Nat) d, p.decode[place]? = some d → ∀ r ∈ d.sources,
    ∃ earlier ∈ p.decode.take place, earlier.target? = some r
  inputSlot : ∀ d ∈ p.decode, ∀ slot ∈ d.inputSlot?, slot < p.inputs.length
  outputSlot : ∀ d ∈ p.decode, ∀ slot ∈ d.outputSlot?, slot < p.outputs.length
  functionSlot : ∀ d ∈ p.decode, ∀ slot ∈ d.functionSlot?, slot < p.functions.length

/-- The tables of a program name what the nodes name that it computes. -/
structure Program.Names (p : Program) (g : Graph) (ids : List NodeId) : Prop where
  /-- First come the declared inputs, then those that are loaded without being declared. -/
  inputs : p.inputs
    = Emission.firstsBy StreamDecl.name (g.inputs.filterMap g.inputDecl?)
      ++ (Emission.firstsBy StreamDecl.name (ids.filterMap g.inputDecl?)).filter
          (·.name ∉ (g.inputs.filterMap g.inputDecl?).map StreamDecl.name)
  inputNames : (p.inputs.map StreamDecl.name).Nodup
  functionNames : (p.functions.map FunctionSig.name).Nodup
  /-- The instructions that load are those of input nodes. -/
  loads : ∀ (place : Nat) id d, ids[place]? = some id → p.decode[place]? = some d →
    (g.inputDecl? id).isSome = d.inputSlot?.isSome
  load : ∀ (place : Nat) id d slot, ids[place]? = some id → p.decode[place]? = some d →
    d.inputSlot? = some slot → ∃ decl entry,
      g.inputDecl? id = some decl ∧ p.inputs[slot]? = some entry ∧ entry.name = decl.name
  store : ∀ (place : Nat) id d slot, ids[place]? = some id → p.decode[place]? = some d →
    d.outputSlot? = some slot → ∃ decl expression,
      (g.node id).kind = .output decl expression
      ∧ p.outputs.findIdx? (·.name = decl.name) = some slot
  call : ∀ (place : Nat) id d slot, ids[place]? = some id → p.decode[place]? = some d →
    d.functionSlot? = some slot → ∃ f entry,
      (g.node id).function? = some f ∧ p.functions[slot]? = some entry ∧ entry.name = f.mangledName

section Generated

variable {g : Graph} {s : Schedule} {p : Program}

theorem closed_of_refers (ordered : s.Ordered g)
    (refers : List.Forall₂ (Emission.Refers (.ofSchedule g s) ⟨p.inputs, p.functions⟩)
      s.instructions p.decode)
    (outputs : p.outputs = g.declared)
    (registers : p.registers = (Emission.Source.ofSchedule g s).allocation.count)
    : p.Closed := by
  have node (d) (member : d ∈ p.decode)
      : ∃ id, Emission.Refers (.ofSchedule g s) ⟨p.inputs, p.functions⟩ id d := by
    obtain ⟨place, inside, rfl⟩ := List.getElem_of_mem member
    exact ⟨_, refers.get (refers.length_eq ▸ inside) inside⟩
  have below {id r} (placed : (Emission.Source.ofSchedule g s).place id = some r)
    : r < p.registers := by
    rw [registers]
    exact Emission.place_lt_count ordered.toNumbered placed
  constructor
  case target =>
    intro d member r isTarget
    obtain ⟨id, own⟩ := node d member
    have target : d.target? = some r := isTarget
    rw [own.target] at target
    split at target
    · cases target
    · exact below target
  case source =>
    intro d member r isSource
    obtain ⟨id, own⟩ := node d member
    obtain ⟨child, _, placed⟩ := own.source r isSource
    exact below placed
  case defined =>
    intro place d atPlace r isSource
    obtain ⟨inside, rfl⟩ := List.getElem?_eq_some_iff.mp atPlace
    have insideSchedule : place < s.instructions.length := refers.length_eq ▸ inside
    obtain ⟨child, member, placed⟩ := (refers.get insideSchedule inside).source r isSource
    have split : s.instructions
        = s.instructions.take place ++ s.instructions[place] :: s.instructions.drop
          (place + 1) := by
      rw [List.getElem_cons_drop, List.take_append_drop]
    -- The operand in the register stands earlier in the schedule, so its instruction has come.
    have earlier := Emission.registerOperand_mem_done ordered split member
    obtain ⟨index, before, rfl⟩ := List.getElem_of_mem earlier
    have done := List.forall₂_take place refers
    have beforeDecoded : index < (p.decode.take place).length := done.length_eq ▸ before
    refine ⟨(p.decode.take place)[index], List.getElem_mem beforeDecoded, ?_⟩
    have target := (done.get before beforeDecoded).target
    have isValue := Emission.isOutput_of_place ordered.toNumbered placed
    rw [List.get_eq_getElem, List.get_eq_getElem] at target
    rw [target, placed]
    exact if_neg (Bool.eq_false_iff.mp isValue)
  case inputSlot =>
    intro d member slot isSlot
    obtain ⟨id, own⟩ := node d member
    obtain ⟨_, _, _, listed, _⟩ := own.inputSlot slot isSlot
    exact (List.getElem?_eq_some_iff.mp listed).1
  case outputSlot =>
    intro d member slot isSlot
    obtain ⟨id, own⟩ := node d member
    obtain ⟨_, _, _, listed⟩ := own.outputSlot slot isSlot
    rw [outputs]
    exact (List.findIdx?_eq_some_iff_getElem.mp listed).1
  case functionSlot =>
    intro d member slot isSlot
    obtain ⟨id, own⟩ := node d member
    obtain ⟨_, _, _, listed, _⟩ := own.functionSlot slot isSlot
    exact (List.getElem?_eq_some_iff.mp listed).1

theorem names_of_refers
    (refers : List.Forall₂ (Emission.Refers (.ofSchedule g s) ⟨p.inputs, p.functions⟩)
      s.instructions p.decode)
    (tabulates : Emission.Tabulates ⟨p.inputs, p.functions⟩
      (g.inputs.filterMap g.inputDecl? ++ s.instructions.filterMap g.inputDecl?)
      (s.instructions.filterMap g.callee?))
    (outputs : p.outputs = g.declared)
    : p.Names g s.instructions := by
  have own {place : Nat} {id : NodeId} {d : Program.Decoded}
      (atPlace : s.instructions[place]? = some id) (decoded : p.decode[place]? = some d)
      : Emission.Refers (.ofSchedule g s) ⟨p.inputs, p.functions⟩ id d := by
    obtain ⟨inside, rfl⟩ := List.getElem?_eq_some_iff.mp atPlace
    obtain ⟨insideDecoded, rfl⟩ := List.getElem?_eq_some_iff.mp decoded
    exact refers.get inside insideDecoded
  constructor
  case inputs => exact tabulates.inputs.trans (Emission.firstsBy_append _ _ _)
  case inputNames =>
    have names := Emission.nodup_map_firstsBy StreamDecl.name
      (g.inputs.filterMap g.inputDecl? ++ s.instructions.filterMap g.inputDecl?)
    rwa [← tabulates.inputs] at names
  case functionNames =>
    have names := Emission.nodup_map_firstsBy FunctionSig.name (s.instructions.filterMap g.callee?)
    rwa [← tabulates.functions] at names
  case loads => exact fun place id d atPlace decoded => (own atPlace decoded).loads
  case load =>
    exact fun place id d slot atPlace decoded isSlot => (own atPlace decoded).inputSlot slot isSlot
  case store =>
    intro place id d slot atPlace decoded isSlot
    rw [outputs]
    exact (own atPlace decoded).outputSlot slot isSlot
  case call =>
    exact fun place id d slot atPlace decoded isSlot =>
      (own atPlace decoded).functionSlot slot isSlot

end Generated

/-- A program generated from an acyclic graph is closed, and its tables name what its nodes name.
Witness: operands are scheduled before their users, so the register of an operand has been the
target of an earlier instruction, and the allocator counts every register that it hands out. -/
theorem generated_program_closed {g : Graph} {p : Program} (acyclic : g.Acyclic)
    (generated : Compiler.generate g = .ok p)
    : ∃ s, Schedule.ofGraph g = .ok s ∧ p.Closed ∧ p.Names g s.instructions := by
  obtain ⟨s, blocks, scheduled, written, code, outputs, registers⟩ := generate_written generated
  have refers := Emission.refers_decode written code
  refine ⟨s, scheduled, ?_, ?_⟩
  · exact closed_of_refers (Schedule.ordered_ofGraph acyclic scheduled) refers outputs registers
  · exact names_of_refers refers ((Emission.tabulates_ofGraph g).written written) outputs

/-- A graph that declares `x` twice and loads `y` without declaring it, both times under two nodes,
and calls a function twice. Both outputs have one name. -/
def crowdedNames : Graph :=
  let float : DataType := .scalarOf .float
  let f : FunctionSig := .ofInputs "f" [.float, .float] .float
  let g := (Graph.empty.declareInput ⟨"x", float⟩).declareInput ⟨"x", float⟩
  let g := (g.pushInput ⟨"y", float⟩).pushInput ⟨"y", float⟩
  let g := ((g.pushCall [f] [0, 2]).pushCall [f] [1, 3]).pushBinary .add 4 5
  (g.declareOutput ⟨"z", float⟩ 6).declareOutput ⟨"z", float⟩ 4

def crowdedNamesProgram : Program :=
  let float : DataType := .scalarOf .float
  { code := [177, 0, 0, 177, 1, 1, 181, 0, 0, 2, 0, 1, 179, 0, 0, 177, 1, 0, 177, 2, 1, 181, 0, 1,
      2, 1, 2, 32, 0, 0, 1, 179, 0, 0]
    inputs := [⟨"x", float⟩, ⟨"y", float⟩], outputs := [⟨"z", float⟩, ⟨"z", float⟩]
    functions := [.ofInputs "f(Float,Float)" [.float, .float] .float], registers := 3
    instructionCount := 9 }

theorem generated_program_closed_crowdedNames
    : crowdedNames.Acyclic
      ∧ Compiler.generate crowdedNames = .ok crowdedNamesProgram
      ∧ ∃ s,
          Schedule.ofGraph crowdedNames = .ok s
          ∧ crowdedNamesProgram.Closed
          ∧ crowdedNamesProgram.Names crowdedNames s.instructions :=
  have acyclic : crowdedNames.Acyclic := Graph.acyclic_of_lt (by decide)
  have generated : Compiler.generate crowdedNames = .ok crowdedNamesProgram := by decide +kernel
  ⟨acyclic, generated, generated_program_closed acyclic generated⟩

end StreamExpr
