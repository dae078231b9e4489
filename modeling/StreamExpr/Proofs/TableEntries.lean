import StreamExpr.Proofs.StreamIdentity

/-! Table entries describe what the code does with them.
An instruction that moves a word to or from a stream is chosen by the type of its node, and a call
by the overload of its node. The entries that they refer to are found by name. The two agree as long
as a name stands for streams of one class, and a mangled name for functions with one result.
-/

namespace StreamExpr

open StreamSplitting

/-! ## Mangled names -/

/-- The last occurrence of a separator tells where a list is split. -/
theorem append_cons_inj_of_last {α : Type} {x y front back : List α} {separator : α}
    (noFront : separator ∉ front) (noBack : separator ∉ back)
    (same : x ++ separator :: front = y ++ separator :: back)
    : x = y ∧ front = back := by
  rcases List.append_eq_append_iff.mp same with ⟨between, rfl, rest⟩ | ⟨between, rfl, rest⟩
  all_goals
    cases between with
    | nil => simp_all
    | cons first between =>
        obtain ⟨_, rfl⟩ := List.cons.inj rest
        simp at noFront noBack

namespace RegisterClass

theorem name_inj {r s : RegisterClass} (same : r.name = s.name) : r = s := by
  cases r <;> cases s <;> first | rfl | exact absurd same (by decide)

/-- The names of classes hold none of the characters that mangled names are put together with. -/
theorem notMem_name (r : RegisterClass)
    : ',' ∉ r.name.toList ∧ '(' ∉ r.name.toList ∧ r.name.toList ≠ [] := by
  cases r <;> decide

end RegisterClass

namespace FunctionSig

/-- The names of some classes with commas between them. -/
def joined (rs : List RegisterClass) : List Char :=
  [','].intercalate (rs.map fun r => r.name.toList)

theorem toList_mangledName (f : FunctionSig)
    : f.mangledName.toList = f.name.toList ++ '(' :: joined f.inputs ++ [')'] := by
  simp [mangledName, joined, List.map_map, Function.comp_def]

theorem joined_cons (r : RegisterClass) (rs : List RegisterClass)
    : ∃ rest, joined (r :: rs) = r.name.toList ++ rest ∧ ('(' ∉ joined rs → '(' ∉ rest) := by
  cases rs with
  | nil => exact ⟨[], by simp [joined], by simp⟩
  | cons s rs =>
      refine ⟨',' :: joined (s :: rs), ?_, by simp⟩
      rw [joined, List.map_cons, List.map_cons, List.intercalate_cons_cons, List.append_assoc]
      rfl

theorem notMem_joined (rs : List RegisterClass) : '(' ∉ joined rs := by
  induction rs with
  | nil => simp [joined]
  | cons r rs ih =>
      obtain ⟨rest, split, noRest⟩ := joined_cons r rs
      rw [split, List.mem_append, not_or]
      exact ⟨r.notMem_name.2.1, noRest ih⟩

theorem joined_ne_nil {rs : List RegisterClass} (nonempty : rs ≠ []) : joined rs ≠ [] := by
  obtain ⟨r, rest, rfl⟩ := List.exists_cons_of_ne_nil nonempty
  obtain ⟨_, split, _⟩ := joined_cons r rest
  rw [split]
  exact List.append_ne_nil_of_left_ne_nil r.notMem_name.2.2 _

theorem splitOn_joined {rs : List RegisterClass} (nonempty : rs ≠ [])
    : (joined rs).splitOn ',' = rs.map fun r => r.name.toList := by
  refine List.splitOn_intercalate ',' (fun letters isName => ?_) (by simpa using nonempty)
  obtain ⟨r, _, rfl⟩ := List.mem_map.mp isName
  exact r.notMem_name.1

theorem joined_inj {rs ss : List RegisterClass} (same : joined rs = joined ss) : rs = ss := by
  have names : Function.Injective fun r : RegisterClass => r.name.toList :=
    fun r s same => RegisterClass.name_inj (String.toList_inj.mp same)
  by_cases noFirst : rs = []
  · by_contra differ
    exact joined_ne_nil (fun noSecond => differ (noFirst.trans noSecond.symm))
      (same ▸ by rw [noFirst]; rfl)
  · have noSecond : ss ≠ [] := by
      rintro rfl
      exact joined_ne_nil noFirst same
    have split := congrArg (List.splitOn ',') same
    rw [splitOn_joined noFirst, splitOn_joined noSecond] at split
    exact List.map_injective_iff.mpr names split

/-- A mangled name tells the name and the inputs of a function. Witness: the names of the inputs
hold no parenthesis, so they stand behind the last one that opens, and no comma, so the commas part
them. -/
theorem name_and_inputs_of_mangledName {f other : FunctionSig}
    (same : f.mangledName = other.mangledName)
    : f.name = other.name ∧ f.inputs = other.inputs := by
  have letters := congrArg String.toList same
  rw [toList_mangledName, toList_mangledName] at letters
  have fronts := List.append_cancel_right letters
  obtain ⟨names, inputs⟩ := append_cons_inj_of_last (notMem_joined _) (notMem_joined _) fronts
  exact ⟨String.toList_inj.mp names, joined_inj inputs⟩

/-- Mangled names identify overloads: two of them are the same exactly if the names and the inputs
are, whatever characters the names hold. -/
theorem mangledName_eq_iff (f other : FunctionSig)
    : f.mangledName = other.mangledName ↔ f.name = other.name ∧ f.inputs = other.inputs := by
  constructor
  · exact name_and_inputs_of_mangledName
  · rintro ⟨names, inputs⟩
    rw [mangledName, mangledName, names, inputs]

end FunctionSig

/-! ## Names that stand for one thing -/

namespace Graph

/-- All that the nodes of a graph are bound to. -/
def bound (g : Graph) : List Binding :=
  (List.range g.size).filterMap fun id => (g.node id).kind.binding?

/-- The scalar streams that carry the inputs of a graph, declared or not. -/
def readParts (g : Graph) : List StreamDecl :=
  g.bound.flatMap fun
    | .input decl => declaredComponents decl
    | _ => []

/-- The scalar streams that carry the outputs of a graph, declared or not. -/
def writtenParts (g : Graph) : List StreamDecl :=
  g.bound.flatMap fun
    | .output decl => declaredComponents decl
    | _ => []

/-- The functions that the calls of a graph may select. -/
def callees (g : Graph) : List FunctionSig :=
  g.bound.flatMap fun
    | .call candidates => candidates
    | _ => []

/-- Names stand for streams of one class, and for functions that give one class for the same
inputs. -/
structure NamesAgree (g : Graph) : Prop where
  inputs : ∀ part ∈ g.readParts, ∀ other ∈ g.readParts, part.name = other.name
    → part.register = other.register
  outputs : ∀ part ∈ g.writtenParts, ∀ declared ∈ g.outputParts, part.name = declared.name →
    part.register = declared.register
  calls : ∀ f ∈ g.callees, ∀ other ∈ g.callees, f.name = other.name → f.inputs = other.inputs
    → f.output = other.output

variable {g : Graph} {id : NodeId}

theorem mem_bound {b : Binding} (found : (g.node id).kind.binding? = some b) : b ∈ g.bound := by
  refine List.mem_filterMap.mpr ⟨id, List.mem_range.mpr ?_, found⟩
  by_contra outside
  rw [node_of_size_le (Nat.le_of_not_lt outside)] at found
  cases found

theorem mem_readParts {own part : StreamDecl} (kind : (g.node id).kind = .input own)
    (isPart : part ∈ declaredComponents own)
    : part ∈ g.readParts :=
  List.mem_flatMap.mpr ⟨_, mem_bound (NodeKind.binding?_eq_input.mpr kind), isPart⟩

theorem mem_writtenParts {own part : StreamDecl}
    (written : (g.node id).kind.binding? = some (.output own))
    (isPart : part ∈ declaredComponents own)
    : part ∈ g.writtenParts :=
  List.mem_flatMap.mpr ⟨_, mem_bound written, isPart⟩

theorem mem_callees {candidates : List FunctionSig} {f : FunctionSig}
    (called : (g.node id).kind.binding? = some (.call candidates)) (isCandidate : f ∈ candidates)
    : f ∈ g.callees :=
  List.mem_flatMap.mpr ⟨_, mem_bound called, isCandidate⟩

/-- What a node calls is one of its candidates. -/
theorem exists_call_of_function? {f : FunctionSig} (function : (g.node id).function? = some f)
    : ∃ candidates, (g.node id).kind.binding? = some (.call candidates) ∧ f ∈ candidates := by
  rw [Node.function?] at function
  split at function
  next candidates arguments kind =>
    obtain ⟨overload, _, found⟩ := Option.bind_eq_some_iff.mp function
    exact ⟨candidates, NodeKind.binding?_eq_call.mpr ⟨arguments, kind⟩, List.mem_of_getElem? found⟩
  · cases function

end Graph

theorem Emission.mem_of_mem_firstsBy {α κ : Type} [DecidableEq κ] {key : α → κ} {xs : List α}
    {x : α} (isFirst : x ∈ firstsBy key xs)
    : x ∈ xs := by
  induction xs with
  | nil => cases isFirst
  | cons y ys ih =>
      rcases List.mem_cons.mp isFirst with rfl | kept
      · exact .head _
      · exact .tail _ (ih (List.mem_filter.mp kept).1)

/-! ## Entries -/

/-- Whether an instruction moves words of a class to or from a stream. -/
def OpCode.moves : OpCode → RegisterClass → Bool
  | .transfer .loadFloat, r | .transfer .storeFloat, r => r = .float
  | .transfer .loadInt, r | .transfer .storeInt, r => r = .int || r = .bool
  | _, _ => false

theorem Graph.moves_of_opCode? {g : Graph} {id : NodeId} {code : OpCode} {decl : StreamDecl}
    (stream : (g.node id).kind.binding?.bind Binding.stream? = some decl)
    (selected : g.opCode? id = some code)
    : code.moves (g.node id).register = true := by
  rw [opCode?] at selected
  cases kind : (g.node id).kind with
  | input own | output own expression =>
      cases register : (g.node id).register with
      | unknown =>
          simp only [kind, register] at selected
          cases selected
      | bool | int | float =>
          simp only [kind, register] at selected
          cases selected
          rfl
  | _ =>
      rw [kind] at stream
      cases stream

namespace Program

/-- The entries of a program for the nodes of `h` describe the streams and functions of its
instructions. -/
structure Describes (p : Program) (h : Graph) (ids : List NodeId) : Prop where
  load : ∀ d ∈ p.decode, ∀ slot ∈ d.inputSlot?,
    ∃ entry, p.inputs[slot]? = some entry ∧ d.code.moves entry.register = true
  store : ∀ d ∈ p.decode, ∀ slot ∈ d.outputSlot?,
    ∃ entry, p.outputs[slot]? = some entry ∧ d.code.moves entry.register = true
  call : ∀ (place : Nat) id d, ids[place]? = some id → p.decode[place]? = some d
    → ∀ slot ∈ d.functionSlot?, ∃ f entry,
      (h.node id).function? = some f
      ∧ p.functions[slot]? = some entry
      ∧ entry.name = f.mangledName
      ∧ entry.inputs = f.inputs
      ∧ entry.output = f.output

end Program

namespace Compiler.Yields

variable {g h : Graph} {s : Schedule} {p : Program}

/-- Listed inputs are read by some node. -/
theorem exists_input (yields : Yields g h s p) {entry : StreamDecl} (listed : entry ∈ p.inputs)
    : ∃ id, (h.node id).kind = .input entry := by
  rw [show p.inputs = _ from yields.tabulates.inputs] at listed
  rcases List.mem_append.mp (Emission.mem_of_mem_firstsBy listed) with declared | loaded
  · obtain ⟨id, _, reads⟩ := List.mem_filterMap.mp declared
    exact ⟨id, Graph.inputDecl?_eq_some.mp reads⟩
  · obtain ⟨id, _, reads⟩ := List.mem_filterMap.mp loaded
    exact ⟨id, Graph.inputDecl?_eq_some.mp reads⟩

/-- Listed functions are called by some node. -/
theorem exists_callee (yields : Yields g h s p) {entry : FunctionSig} (listed : entry ∈ p.functions)
    : ∃ id f, (h.node id).function? = some f ∧ entry = { f with name := f.mangledName } := by
  rw [show p.functions = _ from yields.tabulates.functions] at listed
  obtain ⟨id, _, called⟩ := List.mem_filterMap.mp (Emission.mem_of_mem_firstsBy listed)
  obtain ⟨f, function, rfl⟩ := Option.map_eq_some_iff.mp called
  exact ⟨id, f, function, rfl⟩

theorem moves_stream (yields : Yields g h s p) (typed : g.StreamsTyped) {place : Nat} {id : NodeId}
    {d : Program.Decoded} {decl : StreamDecl} (atPlace : s.instructions[place]? = some id)
    (decoded : p.decode[place]? = some d)
    (stream : (h.node id).kind.binding?.bind Binding.stream? = some decl)
    : d.code.moves decl.register = true := by
  obtain ⟨inside, rfl⟩ := List.getElem?_eq_some_iff.mp atPlace
  obtain ⟨insideDecoded, rfl⟩ := List.getElem?_eq_some_iff.mp decoded
  have moves := Graph.moves_of_opCode? stream (yields.selected.get inside insideDecoded)
  rwa [Node.register, yields.parted.typed typed stream] at moves

variable {place : Nat} {id : NodeId} {d : Program.Decoded} {slot : Nat}

/-- An entry that is loaded from goes back to an input that is named like the one that is read. -/
theorem load_described (yields : Yields g h s p) (typed : g.StreamsTyped) (agree : g.NamesAgree)
    (atPlace : s.instructions[place]? = some id) (decoded : p.decode[place]? = some d)
    (isSlot : d.inputSlot? = some slot)
    : ∃ entry, p.inputs[slot]? = some entry ∧ d.code.moves entry.register = true := by
  obtain ⟨part, entry, reads, listed, named⟩ := yields.names.load place id d
    slot atPlace decoded isSlot
  have kind := Graph.inputDecl?_eq_some.mp reads
  obtain ⟨_, _, ownKind, isPart⟩ := yields.parted.input kind
  obtain ⟨_, entryKind⟩ := yields.exists_input (List.mem_of_getElem? listed)
  obtain ⟨_, _, sourceKind, isEntry⟩ := yields.parted.input entryKind
  have stream : (h.node id).kind.binding?.bind Binding.stream? = some part := by
    rw [kind]
    rfl
  have register := agree.inputs part (Graph.mem_readParts ownKind isPart) entry
    (Graph.mem_readParts sourceKind isEntry) named.symm
  exact ⟨entry, listed, register ▸ yields.moves_stream typed atPlace decoded stream⟩

/-- An entry that is stored to is a part of a declared output that is named like the one that is
written. -/
theorem store_described (yields : Yields g h s p) (typed : g.StreamsTyped) (agree : g.NamesAgree)
    (atPlace : s.instructions[place]? = some id) (decoded : p.decode[place]? = some d)
    (isSlot : d.outputSlot? = some slot)
    : ∃ entry, p.outputs[slot]? = some entry ∧ d.code.moves entry.register = true := by
  obtain ⟨part, expression, kind, found⟩ := yields.names.store place id d
    slot atPlace decoded isSlot
  obtain ⟨_, _, written, isPart⟩ :=
    yields.part_of_output (List.mem_of_getElem? atPlace)
      (NodeKind.binding?_eq_output.mpr ⟨expression, kind⟩)
  obtain ⟨inside, named, _⟩ := List.findIdx?_eq_some_iff_getElem.mp found
  have isEntry : p.outputs[slot] ∈ g.outputParts :=
    (yields.outputs.trans yields.parted.declared) ▸ List.getElem_mem inside
  have stream : (h.node id).kind.binding?.bind Binding.stream? = some part := by
    rw [kind]
    rfl
  have register := agree.outputs part (Graph.mem_writtenParts written isPart) _ isEntry
    (of_decide_eq_true named).symm
  exact ⟨_, List.getElem?_eq_getElem inside,
    register ▸ yields.moves_stream typed atPlace decoded stream⟩

/-- An entry that is called goes back to a function that has the mangled name of the one that is
selected. -/
theorem call_described (yields : Yields g h s p) (agree : g.NamesAgree)
    (atPlace : s.instructions[place]? = some id) (decoded : p.decode[place]? = some d)
    (isSlot : d.functionSlot? = some slot)
    : ∃ f entry,
        (h.node id).function? = some f
        ∧ p.functions[slot]? = some entry
        ∧ entry.name = f.mangledName
        ∧ entry.inputs = f.inputs
        ∧ entry.output = f.output := by
  obtain ⟨f, entry, function, listed, named⟩ := yields.names.call place id d
    slot atPlace decoded isSlot
  obtain ⟨_, callee, calleeFunction, rfl⟩ := yields.exists_callee (List.mem_of_getElem? listed)
  obtain ⟨_, called, isCandidate⟩ := Graph.exists_call_of_function? function
  obtain ⟨_, calleeCalled, isCalleeCandidate⟩ := Graph.exists_call_of_function? calleeFunction
  obtain ⟨_, calledBefore⟩ := yields.parted.call called
  obtain ⟨_, calleeCalledBefore⟩ := yields.parted.call calleeCalled
  obtain ⟨names, inputs⟩ := FunctionSig.name_and_inputs_of_mangledName named
  have output := agree.calls callee (Graph.mem_callees calleeCalledBefore isCalleeCandidate) f
    (Graph.mem_callees calledBefore isCandidate) names inputs
  exact ⟨f, _, function, listed, named, inputs, output⟩

end Compiler.Yields

/-- Entries describe what the code does with them wherever names agree. Witness: an entry and an
instruction that refers to it go back to parts of streams of one name, or to functions of one
mangled name. -/
theorem entries_describe_code {g : Graph} {p : Program} (typed : g.StreamsTyped)
    (agree : g.NamesAgree) (compiled : (Compiler.standard.compile g ()).result = .ok p)
    : ∃ s,
        Schedule.ofGraph (Compiler.standard.compile g ()).graph = .ok s
        ∧ p.Describes (Compiler.standard.compile g ()).graph s.instructions := by
  obtain ⟨s, yields⟩ := Compiler.exists_yields compiled
  refine ⟨s, yields.scheduled, ?_, ?_, ?_⟩
  · intro d decoded slot isSlot
    obtain ⟨place, id, atPlace, atDecoded⟩ := yields.exists_scheduled decoded
    exact yields.load_described typed agree atPlace atDecoded isSlot
  · intro d decoded slot isSlot
    obtain ⟨place, id, atPlace, atDecoded⟩ := yields.exists_scheduled decoded
    exact yields.store_described typed agree atPlace atDecoded isSlot
  · intro place id d atPlace decoded slot isSlot
    exact yields.call_described agree atPlace decoded isSlot

/-- Two inputs of one name and type, one of which is not declared, and two overloads of one name. -/
def repeatedNames : Graph :=
  let float : DataType := .scalarOf .float
  let int : DataType := .scalarOf .int
  let f : FunctionSig := .ofInputs "f" [.float] .float
  let g : FunctionSig := .ofInputs "f" [.int] .int
  let graph := ((Graph.empty.declareInput ⟨"x", float⟩).pushInput
    ⟨"x", float⟩).declareInput ⟨"n", int⟩
  let graph := ((graph.pushCall [f, g] [0]).pushCall [f, g] [2]).pushBinary .add 1 3
  (graph.declareOutput ⟨"y", float⟩ 5).declareOutput ⟨"z", int⟩ 4

def repeatedNamesProgram : Program :=
  let float : DataType := .scalarOf .float
  let int : DataType := .scalarOf .int
  { code :=
      [178, 0, 1, 181, 0, 0, 1, 0, 180, 1, 0, 177, 0, 0, 181, 1, 1, 1, 0, 32, 0, 0, 1, 179, 0, 0]
    inputs := [⟨"x", float⟩, ⟨"n", int⟩]
    outputs := [⟨"y", float⟩, ⟨"z", int⟩]
    functions := [.ofInputs "f(Int)" [.int] .int, .ofInputs "f(Float)" [.float] .float]
    registers := 2
    instructionCount := 7 }

theorem entries_describe_code_repeatedNames
    : repeatedNames.StreamsTyped
      ∧ repeatedNames.NamesAgree
      ∧ (Compiler.standard.compile repeatedNames ()).result = .ok repeatedNamesProgram
      ∧ ∃ s,
          Schedule.ofGraph (Compiler.standard.compile repeatedNames ()).graph = .ok s
          ∧ repeatedNamesProgram.Describes
            (Compiler.standard.compile repeatedNames ()).graph s.instructions :=
  have streams := Graph.forall_node (g := repeatedNames)
    (P := fun n => ∀ decl ∈ n.kind.binding?.bind Binding.stream?, n.type = decl.type)
    (by decide) (by decide)
  have typed : repeatedNames.StreamsTyped := fun {id decl} => streams id decl
  have agree : repeatedNames.NamesAgree := ⟨by decide, by decide, by decide⟩
  have compiled : (Compiler.standard.compile repeatedNames ()).result
    = .ok repeatedNamesProgram := by decide +kernel
  ⟨typed, agree, compiled, entries_describe_code typed agree compiled⟩

/-- A name that is given to a float and to an integer. -/
def sharedName : Graph :=
  let float : DataType := .scalarOf .float
  let int : DataType := .scalarOf .int
  let g := (Graph.empty.declareInput ⟨"x", float⟩).declareInput ⟨"x", int⟩
  (g.declareOutput ⟨"y", float⟩ 0).declareOutput ⟨"z", int⟩ 1

def sharedNameProgram : Program :=
  let float : DataType := .scalarOf .float
  let int : DataType := .scalarOf .int
  { code := [178, 0, 0, 180, 1, 0, 177, 0, 0, 179, 0, 0]
    inputs := [⟨"x", float⟩], outputs := [⟨"y", float⟩, ⟨"z", int⟩]
    functions := [], registers := 1, instructionCount := 4 }

/-- An integer is loaded from the entry of a float that has its name. -/
theorem shared_name_loads_wrong_class
    : (Compiler.standard.compile sharedName ()).result = .ok sharedNameProgram
      ∧ ∃ d ∈ sharedNameProgram.decode,
          d.code = .transfer .loadInt
          ∧ sharedNameProgram.inputs[d.operand 1]? = some ⟨"x", .scalarOf .float⟩ := by
  decide +kernel

end StreamExpr
