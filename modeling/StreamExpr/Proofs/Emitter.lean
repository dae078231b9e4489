import StreamExpr.Emitter

/-! The emitter assembles the programs of emission.
Its tables of slots hold what a search of the entries by name finds, so the words that it appends
are the words that emission answers. It starts by clearing, so the programs do not depend on what it
has emitted before.
-/

namespace StreamExpr

/-! ## Slots by name -/

/-- Slots that are those of the first entries with their names. -/
def Slots (name : α → String) (slots : Std.TreeMap String Nat) (entries : List α) : Prop :=
  ∀ key, slots[key]? = entries.findIdx? (name · = key)

namespace Slots

variable {name : α → String} {slots : Std.TreeMap String Nat} {entries : List α}

theorem empty (name : α → String) : Slots name {} [] :=
  fun _ => Std.TreeMap.getElem?_emptyc

theorem findIdx?_append_one (entry : α) (key : String)
    : (entries ++ [entry]).findIdx? (name · = key)
      = (entries.findIdx? (name · = key)).or
        (if name entry = key then some entries.length else none) := by
  rw [List.findIdx?_append, List.findIdx?_singleton]
  by_cases same : name entry = key <;> simp [same]

/-- A new name gets the slot of its entry. -/
theorem insert (found : Slots name slots entries) (entry : α) (new : slots[name entry]? = none)
    : Slots name (slots.insert (name entry) entries.length) (entries ++ [entry]) := by
  intro key
  rw [Std.TreeMap.getElem?_insert, findIdx?_append_one, ← found key]
  by_cases same : name entry = key
  · subst same
    simp [new]
  · simp [Std.LawfulEqCmp.compare_eq_iff_eq, same]

/-- A name that has a slot keeps it. -/
theorem keep {entry : α} {slot : Nat} (found : Slots name slots entries)
    (known : slots[name entry]? = some slot)
    : Slots name slots (entries ++ [entry]) := by
  intro key
  rw [findIdx?_append_one, ← found key]
  by_cases same : name entry = key
  · subst same
    simp [known]
  · simp [same]

theorem insertIfNew {entry : α} (found : Slots name slots entries)
    : Slots name (slots.insertIfNew (name entry) entries.length) (entries ++ [entry]) := by
  cases known : slots[name entry]? with
  | some slot =>
      intro key
      have listed : name entry ∈ slots := by simp [Std.TreeMap.mem_iff_isSome_getElem?, known]
      simp [Std.TreeMap.getElem?_insertIfNew, listed, found.keep known key]
  | none =>
      intro key
      have unlisted : name entry ∉ slots := by simp [Std.TreeMap.mem_iff_isSome_getElem?, known]
      simp [Std.TreeMap.getElem?_insertIfNew, unlisted, ← found.insert entry known key,
        Std.TreeMap.getElem?_insert]

end Slots

/-! ## Entries -/

/-- An emitter that holds the given outputs and the entries of the given tables, all found by
name. -/
structure Emitter.Holds (outputs : List StreamDecl) (e : Emitter) (t : ProgramTables) : Prop where
  inputs : e.inputs.toList = t.inputs
  functions : e.functions.toList = t.functions
  inputSlots : Slots StreamDecl.name e.inputSlots t.inputs
  functionSlots : Slots FunctionSig.name e.functionSlots t.functions
  outputSlots : Slots StreamDecl.name e.outputSlots outputs

/-- An emitter answers the slot that tables answer, holds what they hold afterwards, and has written
nothing. -/
structure Emitter.Enters (outputs : List StreamDecl) (e : Emitter) (entered : Nat × Emitter)
    (listed : Nat × ProgramTables)
    : Prop where
  slot : entered.1 = listed.1
  holds : entered.2.Holds outputs listed.2
  code : entered.2.code = e.code

namespace Emitter.Holds

variable {outputs : List StreamDecl} {e : Emitter} {t : ProgramTables}

/-- Words are not entries. -/
theorem push (holds : e.Holds outputs t) (code : Array Word)
    : Emitter.Holds outputs { e with code } t :=
  { holds with }

theorem inputSlot (holds : e.Holds outputs t) (decl : StreamDecl)
    : e.Enters outputs (e.inputSlot decl) (t.inputSlot decl) := by
  rw [Emitter.inputSlot, ProgramTables.inputSlot, holds.inputSlots decl.name]
  cases found : t.inputs.findIdx? (·.name = decl.name) with
  | some slot => exact ⟨rfl, holds, rfl⟩
  | none =>
      have size : e.inputs.size = t.inputs.length := by rw [← holds.inputs, Array.length_toList]
      have new := (holds.inputSlots decl.name).trans found
      refine ⟨size, { holds with inputs := ?_, inputSlots := ?_ }, rfl⟩
      · simp [addInput, holds.inputs]
      · simpa only [addInput, size] using holds.inputSlots.insert decl new

theorem functionSlot (holds : e.Holds outputs t) (f : FunctionSig)
    : e.Enters outputs (e.functionSlot f) (t.functionSlot f) := by
  rw [Emitter.functionSlot, ProgramTables.functionSlot]
  simp only
  rw [holds.functionSlots f.mangledName]
  cases found : t.functions.findIdx? (·.name = f.mangledName) with
  | some slot => exact ⟨rfl, holds, rfl⟩
  | none =>
      have size : e.functions.size = t.functions.length := by
        rw [← holds.functions, Array.length_toList]
      have new := (holds.functionSlots f.mangledName).trans found
      refine ⟨size, { holds with functions := ?_, functionSlots := ?_ }, rfl⟩
      · simp [holds.functions]
      · simpa only [size] using holds.functionSlots.insert { f with name := f.mangledName } new

/-- Declared inputs are entered as emission enters them. -/
theorem declareInputs (holds : e.Holds outputs { inputs := [], functions := [] }) (g : Graph)
    : (e.declareInputs g).Holds outputs (.ofGraph g) ∧ (e.declareInputs g).code = e.code := by
  refine List.foldl_rel (r := fun (e' : Emitter) t => e'.Holds outputs t ∧ e'.code = e.code)
    ⟨holds, rfl⟩ ?_
  rintro id _ e' t ⟨holds, code⟩
  unfold declareInput
  cases (g.node id).kind with
  | input decl =>
      have entered : (if e'.inputSlots.contains decl.name then e' else (e'.addInput decl).2)
          = (e'.inputSlot decl).2 := by
        rw [Std.TreeMap.contains_eq_isSome_getElem?, Emitter.inputSlot]
        cases e'.inputSlots[decl.name]? <;> rfl
      have enters := holds.inputSlot decl
      simp only [entered]
      exact ⟨enters.holds, enters.code.trans code⟩
  | _ => exact ⟨holds, code⟩

/-- Declared outputs are found by name. -/
theorem declareOutputs (holds : e.Holds outputs t) (decls : List StreamDecl)
    : (e.declareOutputs decls outputs.length).Holds (outputs ++ decls) t
      ∧ (e.declareOutputs decls outputs.length).code = e.code := by
  induction decls generalizing e outputs with
  | nil => exact ⟨by rwa [List.append_nil], rfl⟩
  | cons decl decls ih =>
      have declared : Emitter.Holds (outputs ++ [decl])
          { e with outputSlots := e.outputSlots.insertIfNew decl.name outputs.length } t :=
        { holds with outputSlots := holds.outputSlots.insertIfNew }
      simpa [Emitter.declareOutputs] using ih declared

end Emitter.Holds

/-! ## Words -/

open Emission

/-- Appending to some words, an emitter ends with the words that emission answers. It fails if
emission does. -/
def Emits (outputs : List StreamDecl) (words : List Word) (y : EmitterM Unit)
    (x : EmitM (List Word)) : Prop :=
  ∀ (e : Emitter) (t : ProgramTables) (before : List Word),
    e.Holds outputs t → e.code.toList = before ++ words
    → match y e with
      | .ok _ e' =>
          ∃ all t', x t = .ok (all, t') ∧ e'.Holds outputs t' ∧ e'.code.toList = before ++ all
      | .error err _ => x t = .error err

namespace Emits

variable {outputs : List StreamDecl} {words : List Word} {y : EmitterM Unit} {x : EmitM (List Word)}

theorem pure (outputs : List StreamDecl) (words : List Word)
    : Emits outputs words (Pure.pure ()) (Pure.pure words) :=
  fun _ t _ holds code => ⟨words, t, rfl, holds, code⟩

theorem throw (err : CompileError) : Emits outputs words (MonadExcept.throw err)
    (MonadExcept.throw err) :=
  fun _ _ _ _ _ => rfl

theorem push {word : Word} {next : Unit → EmitterM Unit}
    (rest : Emits outputs (words ++ [word]) (next ()) x)
    : Emits outputs words (EmitterM.push word >>= next) x := by
  intro e t before holds code
  exact rest { e with code := e.code.push word } t before (holds.push _) (by simp [code])

theorem push_last {word : Word} : Emits outputs words (EmitterM.push word)
    (Pure.pure (words ++ [word])) := by
  rw [← bind_pure (EmitterM.push word)]
  exact push (pure outputs _)

theorem bind {next : Unit → EmitterM Unit} {f : List Word → EmitM (List Word)}
    (first : Emits outputs [] y x) (rest : ∀ more, Emits outputs (words ++ more) (next ()) (f more))
    : Emits outputs words (y >>= next) (x >>= f) := by
  intro e t before holds code
  have ran := first e t (before ++ words) holds (by simp [code])
  simp only [Bind.bind, EStateM.bind, StateT.bind]
  cases ended : y e with
  | error err e' =>
      rw [ended] at ran
      simp only [ran, Except.bind]
  | ok _ e' =>
      rw [ended] at ran
      obtain ⟨more, t', answered, holdsOn, appended⟩ := ran
      simp only [answered, Except.bind]
      exact rest more e' t' before holdsOn (by rw [appended, List.append_assoc])

/-- What comes last needs nothing to follow. -/
theorem last (only : Emits outputs [] y x)
    : Emits outputs words y (x >>= fun more => Pure.pure (words ++ more)) := by
  rw [← bind_pure y]
  exact only.bind fun more => pure outputs (words ++ more)

theorem read {next : Emitter → EmitterM Unit}
    (rest : ∀ e t, e.Holds outputs t → Emits outputs words (next e) x)
    : Emits outputs words (get >>= next) x := by
  intro e t before holds code
  exact rest e t holds e t before holds code

/-- Entries can be looked up or added in both alike. -/
theorem enter {enter : Emitter → Nat × Emitter} {list : ProgramTables → Nat × ProgramTables}
    {next : Nat → EmitterM Unit} {f : Nat → EmitM (List Word)}
    (alike : ∀ (e : Emitter) t, e.Holds outputs t → e.Enters outputs (enter e) (list t))
    (rest : ∀ slot, Emits outputs words (next slot) (f slot))
    : Emits outputs words (modifyGet enter >>= next) (modifyGet list >>= f) := by
  intro e t before holds code
  have enters := alike e t holds
  have entered : (modifyGet enter >>= next : EmitterM Unit) e = next (enter e).1 (enter e).2 := rfl
  rw [entered, enters.slot]
  exact rest (list t).1 _ _ before enters.holds (by rw [enters.code, code])

theorem register {src : Source} {id : NodeId} {next : Unit → EmitterM Unit}
    {f : Word → EmitM (List Word)} (rest : ∀ word, Emits outputs (words ++ [word]) (next ())
    (f word))
    : Emits outputs words (EmitterM.pushRegister src id >>= next)
      (Emission.register src id >>= f) := by
  unfold EmitterM.pushRegister Emission.register
  cases (src.schedule.register? id).bind src.allocation.physical? with
  | some word => exact push (rest word)
  | none => exact fun _ _ _ _ _ => rfl

theorem register_last {src : Source} {id : NodeId}
    : Emits outputs words (EmitterM.pushRegister src id)
        (Emission.register src id >>= fun word => Pure.pure (words ++ [word])) := by
  rw [← bind_pure (EmitterM.pushRegister src id)]
  exact register fun word => pure outputs _

end Emits

namespace EmitterM

variable {outputs : List StreamDecl}

theorem emits_registers (src : Source) (ids : List NodeId)
    : Emits outputs [] (pushRegisters src ids) (registers src ids) := by
  induction ids with
  | nil => exact .pure outputs []
  | cons id ids ih => exact .register fun word => ih.last

theorem emits_right (src : Source) (id : NodeId) (words : List Word)
    : Emits outputs words (pushRight src id)
      (rightOperand src id >>= fun word => pure (words ++ [word])) := by
  unfold pushRight rightOperand
  cases src.graph.value? id with
  | some value => exact .push_last
  | none => exact .register_last

theorem emits_operands (src : Source) (id : NodeId)
    : Emits src.graph.declared [] (pushOperands src id) (operands src id) := by
  unfold pushOperands operands
  simp only
  cases (src.graph.node id).kind with
  | constant value => exact .register fun target => .push_last
  | input decl =>
      exact .enter (fun e t holds => holds.inputSlot decl) fun slot =>
        .register fun target => .push_last
  | output decl expression =>
      refine .read fun e t holds => ?_
      simp only [holds.outputSlots decl.name]
      cases src.graph.declared.findIdx? (·.name = decl.name) with
      | some slot => exact .push .register_last
      | none => exact .throw _
  | unary op operand => exact emits_registers src _
  | binary op left right =>
      exact (emits_registers src [id, left]).bind fun both => emits_right src right both
  | ternary op first second third => exact emits_registers src _
  | call candidates arguments =>
      simp only
      cases (src.graph.node id).function? with
      | some f =>
          exact .enter (fun e t holds => holds.functionSlot f) fun slot =>
            .push (.register fun target => .push (emits_registers src arguments).last)
      | none => exact .throw _
  | construct parts => exact .throw _
  | swizzle operand lanes => exact .throw _

theorem emits_instruction (src : Source) (id : NodeId)
    : Emits src.graph.declared [] (pushInstruction src id) (instruction src id) := by
  unfold pushInstruction instruction
  by_cases known : (src.graph.node id).type.isKnown
  · simp only [known]
    cases src.graph.opCode? id with
    | none => exact .throw _
    | some code => exact .push (emits_operands src id).last
  · simp only [known]
    exact .throw _

theorem emits_instructions (src : Source) (ids : List NodeId)
    : Emits src.graph.declared [] (pushInstructions src ids) (instructions src ids) := by
  induction ids with
  | nil => exact .pure _ []
  | cons id ids ih => exact (emits_instruction src id).bind fun first => ih.last

/-! ## Programs -/

/-- A cleared emitter with the declared streams of a graph holds the first tables of its program. -/
theorem holds_declared (g : Graph) (e : Emitter)
    : ((e.clear.declareInputs g).declareOutputs g.declared 0).Holds g.declared (.ofGraph g)
      ∧ ((e.clear.declareInputs g).declareOutputs g.declared 0).code = #[] := by
  have blank : e.clear.Holds [] { inputs := [], functions := [] } :=
    { inputs := rfl, functions := rfl, inputSlots := .empty _, functionSlots := .empty _,
      outputSlots := .empty _ }
  obtain ⟨entered, unwritten⟩ := blank.declareInputs g
  obtain ⟨declared, stillUnwritten⟩ := entered.declareOutputs g.declared
  exact ⟨declared, stillUnwritten.trans unwritten⟩

/-- The emitter answers the program of emission, or its failure, whatever it has emitted before. -/
theorem emit_eq (src : Source) (e : Emitter)
    : match emit src e with
      | .ok program _ => Program.emit src.graph src.schedule src.allocation = .ok program
      | .error err _ => Program.emit src.graph src.schedule src.allocation = .error err := by
  obtain ⟨holds, unwritten⟩ := holds_declared src.graph e
  have ran := emits_instructions src src.schedule.instructions _ _ [] holds (by rw [unwritten]; rfl)
  have started : emit src e
      = (pushInstructions src src.schedule.instructions >>= fun _ => finish src)
          ((e.clear.declareInputs src.graph).declareOutputs src.graph.declared 0) := rfl
  simp only [started, Bind.bind, EStateM.bind, Program.emit, StateT.run]
  split at ran
  case h_1 e' ended =>
    obtain ⟨code, ⟨inputs, functions⟩, answered, holdsOn, written⟩ := ran
    obtain rfl : e'.code.toList = code := written
    obtain rfl : e'.inputs.toList = inputs := holdsOn.inputs
    obtain rfl : e'.functions.toList = functions := holdsOn.functions
    rw [ended, answered]
    rfl
  case h_2 err e' failed =>
    rw [failed, ran]
    rfl

end EmitterM

end StreamExpr
