import StreamExpr.Proofs.ClosedProgram
import StreamExpr.Proofs.Compilation
import StreamExpr.Proofs.PassBindings

/-! The streams of a compiled graph.
Splitting puts the streams of its components in the place of every vector stream. So the streams
that a compiled graph is bound to are parts of those that the graph was bound to before, and every
part of a declared input is declared.
-/

namespace StreamExpr

namespace StreamSplitting

open Graph

variable {g h : Graph} {id : Nat} {carriers : Carriers}

theorem mem_declaredComponents {decl part : StreamDecl}
    : part ∈ declaredComponents decl
      ↔ decl.type.isVector = true ∧ part ∈ decl.components
        ∨ decl.type.isVector = false ∧ part = decl := by
  rw [declaredComponents]
  cases decl.type.isVector <;> simp

/-! ## Inputs -/

/-- A graph that has its inputs split reads parts of the streams that it read before. -/
theorem Splits.part_of_input {decl : StreamDecl} (splits : Splits g h carriers)
    (narrow : ∀ id, Narrow h id) (kind : (h.node id).kind = .input decl)
    : ∃ source own, (g.node source).kind = .input own ∧ decl ∈ declaredComponents own := by
  by_cases wasThere : id < g.size
  · have same := (splits.old wasThere).resolve_right fun carried => carried.not_input kind
    exact ⟨id, decl, same ▸ kind, mem_declaredComponents.mpr (.inr ⟨narrow id kind, rfl⟩)⟩
  · obtain ⟨source, own, part, ownKind, isVector, isPart, node⟩ :=
      splits.new (Nat.le_of_not_lt wasThere) (lt_size_of_input kind)
    rw [node] at kind
    obtain rfl := NodeKind.input.inj kind
    exact ⟨source, own, ownKind, mem_declaredComponents.mpr (.inl ⟨isVector, isPart⟩)⟩

theorem filterMap_of_forall₂ {α β : Type} {f : α → Option β} {xs : List α} {ys : List β}
    (found : List.Forall₂ (fun x y => f x = some y) xs ys)
    : xs.filterMap f = ys := by
  induction found with
  | nil => rfl
  | cons first _ ih => rw [List.filterMap_cons_some first, ih]

/-- The nodes that carry an input read its parts, in order. -/
theorem Splits.carriers_read {decl : StreamDecl} (splits : Splits g h carriers)
    (kind : (g.node id).kind = .input decl)
    (narrow : ∀ id, Narrow h id)
    : List.Forall₂ (fun x part => (h.node x).kind = .input part) (carriers.getD id [id])
      (declaredComponents decl) := by
  have inside := lt_size_of_input kind
  rw [Std.TreeMap.getD_eq_getD_getElem?, declaredComponents]
  cases isVector : decl.type.isVector with
  | true =>
      rcases splits.old inside with same | ⟨own, scalars, ownKind, _, _, noted, parts⟩
      · cases (narrow id (same ▸ kind)).symm.trans isVector
      · obtain rfl := NodeKind.input.inj (kind.symm.trans ownKind)
        rw [noted]
        exact parts.imp fun x part found => congrArg Node.kind found.2.2
  | false =>
      have whole : ¬ Carried g h carriers id := by
        rintro ⟨own, _, ownKind, ownVector, _⟩
        obtain rfl := NodeKind.input.inj (kind.symm.trans ownKind)
        cases isVector.symm.trans ownVector
      have unnoted : carriers[id]? = none := by
        by_contra noted
        obtain ⟨scalars, found⟩ := Option.ne_none_iff_exists'.mp noted
        exact whole (splits.noted found)
      rw [unnoted]
      exact .cons ((splits.old inside).resolve_right whole ▸ kind) .nil

theorem Splits.binding_of_ne_input (splits : Splits g h carriers) {b : Binding}
    (bound : (h.node id).kind.binding? = some b) (other : ∀ decl, b ≠ .input decl)
    : h.node id = g.node id := by
  by_cases wasThere : id < g.size
  · refine (splits.old wasThere).resolve_right fun ⟨_, _, _, _, node, _⟩ => ?_
    rw [node] at bound
    cases bound
  · by_cases inside : id < h.size
    · obtain ⟨_, _, part, _, _, _, node⟩ := splits.new (Nat.le_of_not_lt wasThere) inside
      rw [node] at bound
      exact absurd (Option.some.inj bound).symm (other part)
    · rw [node_of_size_le (Nat.le_of_not_lt inside)] at bound
      cases bound

/-- Splitting inputs leaves streams and their nodes of one type. -/
theorem Splits.typed (splits : Splits g h carriers) (streams : g.StreamsTyped)
    : h.StreamsTyped := by
  intro id decl found
  by_cases wasThere : id < g.size
  · rcases splits.old wasThere with same | ⟨_, _, _, _, node, _⟩
    · rw [same] at found ⊢
      exact streams found
    · rw [node] at found
      cases found
  · by_cases inside : id < h.size
    · obtain ⟨_, _, part, _, _, _, node⟩ := splits.new (Nat.le_of_not_lt wasThere) inside
      rw [node] at found ⊢
      cases found
      rfl
    · rw [node_of_size_le (Nat.le_of_not_lt inside)] at found
      cases found

/-! ## Outputs -/

end StreamSplitting

/-- What stands for a binding once outputs may be split. -/
inductive Binding.Part : Binding → Binding → Prop
  | whole (b : Binding) : Part b b
  | output {decl part : StreamDecl} (isVector : decl.type.isVector = true)
    (isPart : part ∈ decl.components)
    : Part (.output part) (.output decl)

theorem Binding.Part.trans {a b c : Binding} (first : Part a b) (second : Part b c) : Part a c := by
  cases first with
  | whole => exact second
  | output isVector isPart =>
      cases second with
      | whole => exact .output isVector isPart
      | output _ isComponent =>
          rw [StreamSplitting.isVector_component _ isComponent] at isVector
          cases isVector

namespace Graph

/-- A graph that may write the components of a stream where another one writes the stream. -/
structure Divides (g h : Graph) : Prop where
  origin : ∀ {id b}, (h.node id).kind.binding? = some b →
    ∃ source own, (g.node source).kind.binding? = some own ∧ b.Part own
  kept : ∀ {id b}, (g.node id).kind.binding? = some b → (h.node id).kind.binding? = some b
  typed : g.StreamsTyped → h.StreamsTyped
  inputs : h.inputs = g.inputs
  declared : h.declared = g.declared

theorem Binds.divides {g h : Graph} (binds : g.Binds h) : g.Divides h where
  origin {_ b} found := by
    obtain ⟨source, foundBefore⟩ := binds.origin found
    exact ⟨source, b, foundBefore, .whole b⟩
  kept := binds.kept
  typed := binds.typed
  inputs := binds.inputs
  declared := binds.declared

theorem Divides.trans {first second third : Graph} (left : first.Divides second)
    (right : second.Divides third)
    : first.Divides third where
  origin found := by
    obtain ⟨between, b, foundBetween, part⟩ := right.origin found
    obtain ⟨source, own, foundBefore, partBefore⟩ := left.origin foundBetween
    exact ⟨source, own, foundBefore, part.trans partBefore⟩
  kept found := right.kept (left.kept found)
  typed streams := right.typed (left.typed streams)
  inputs := right.inputs.trans left.inputs
  declared := right.declared.trans left.declared

/-- An output may be added for a component of a stream that is written. -/
theorem divides_pushOutput {g : Graph} {source : NodeId} {decl part : StreamDecl}
    (expression : NodeId) (writes : (g.node source).kind.binding? = some (.output decl))
    (isVector : decl.type.isVector = true) (isPart : part ∈ decl.components)
    : g.Divides (g.pushOutput part expression) where
  origin {id b} found := by
    rw [pushOutput, node_push] at found
    split at found
    · cases found
      exact ⟨source, .output decl, writes, .output isVector isPart⟩
    · exact ⟨id, b, found, .whole b⟩
  kept {id b} found := by
    rw [pushOutput, node_push]
    split
    case isTrue here =>
      rw [here, node_of_size_le (Nat.le_refl _)] at found
      cases found
    case isFalse => exact found
  typed streams {id decl} found := by
    rw [pushOutput, node_push] at found ⊢
    split at found
    case isTrue here =>
      rw [if_pos here]
      cases found
      rfl
    case isFalse elsewhere =>
      rw [if_neg elsewhere]
      exact streams found
  inputs := rfl
  declared := rfl

end Graph

namespace StreamSplitting

/-- The edits that may split outputs. -/
def divisions : Evolution Graph Graph where
  view g := g
  Later := Graph.Divides
  refl g := (Graph.Binds.refl g).divides
  trans := Graph.Divides.trans

theorem divides_scalarOutputs {g : Graph} {source expression : NodeId} {decl : StreamDecl}
    {cs : List Nat} (writes : (g.node source).kind.binding? = some (.output decl))
    (isVector : decl.type.isVector = true) (inside : ∀ c ∈ cs, c < decl.type.width)
    : divisions.Runs True g (scalarOutputs expression decl cs) fun _ _ => True := by
  induction cs generalizing g with
  | nil => exact .pure trivial
  | cons c cs ih =>
      have isPart : decl.component c ∈ decl.components :=
        List.mem_map_of_mem (List.mem_range.mpr (inside c (.head _)))
      have selects : g.Divides (g.component expression c).2 :=
        (g.binds_component expression c).divides
      have adds : (g.component expression c).2.Divides _ :=
        Graph.divides_pushOutput (g.component expression c).1 (selects.kept writes) isVector isPart
      have further := ih (adds.kept (selects.kept writes)) fun other member =>
        inside other (.tail _ member)
      exact .bind_ok rfl selects (.bind_ok rfl adds (.bind further fun _ _ _ _ => .pure trivial))

theorem stays_splitRoot (root : NodeId) : divisions.Stays (splitRoot root) := by
  intro g
  rw [splitRoot, Evolution.runs_read]
  cases kind : (g.node root).kind with
  | output decl expression =>
      simp only [show divisions.view g = g from rfl, kind]
      split
      case isTrue isVector =>
        have writes : (g.node root).kind.binding? = some (.output decl) :=
          NodeKind.binding?_eq_output.mpr ⟨_, kind⟩
        exact divides_scalarOutputs writes isVector fun c member => List.mem_range.mp member
      case isFalse => exact .pure trivial
  | _ =>
      simp only [show divisions.view g = g from rfl, kind]
      rw [Evolution.runs_read]
      exact .throw trivial

theorem stays_splitRoots (roots : List NodeId) : divisions.Stays (splitRoots roots) := by
  induction roots with
  | nil => exact .pure _
  | cons root roots ih => exact .bind (stays_splitRoot root) fun _ => .bind ih fun _ => .pure _

end StreamSplitting

/-! ## Compiled graphs -/

namespace Graph

/-- All that is declared as an input is one. -/
def DeclaresInputs (g : Graph) : Prop :=
  ∀ id ∈ g.inputs, ∃ decl, (g.node id).kind = .input decl

/-- The streams of the declared inputs. -/
def declaredInputs (g : Graph) : List StreamDecl :=
  g.inputs.filterMap g.inputDecl?

/-- The scalar streams that carry the declared inputs. -/
def inputParts (g : Graph) : List StreamDecl :=
  g.declaredInputs.flatMap StreamSplitting.declaredComponents

/-- The scalar streams that carry the declared outputs. -/
def outputParts (g : Graph) : List StreamDecl :=
  g.declared.flatMap StreamSplitting.declaredComponents

/-- A graph that is bound to parts of the streams that another one is bound to, and calls the same
functions. -/
structure Parted (g h : Graph) : Prop where
  input : ∀ {id decl}, (h.node id).kind = .input decl →
    ∃ source own, (g.node source).kind = .input own ∧ decl ∈ StreamSplitting.declaredComponents own
  output : ∀ {id decl}, (h.node id).kind.binding? = some (.output decl) →
    ∃ source own, (g.node source).kind.binding? = some own ∧ (Binding.output decl).Part own
  call : ∀ {id candidates}, (h.node id).kind.binding? = some (.call candidates) →
    ∃ source, (g.node source).kind.binding? = some (.call candidates)
  typed : g.StreamsTyped → h.StreamsTyped
  inputs : g.DeclaresInputs → h.DeclaresInputs ∧ h.declaredInputs = g.inputParts
  declared : h.declared = g.outputParts

variable {g h k : Graph} {id : NodeId}

theorem inputDecl?_eq_some {decl : StreamDecl}
    : g.inputDecl? id = some decl ↔ (g.node id).kind = .input decl := by
  rw [inputDecl?]
  cases (g.node id).kind <;> simp

instance (g : Graph) : Decidable g.DeclaresInputs :=
  decidable_of_iff (∀ id ∈ g.inputs, (g.inputDecl? id).isSome = true)
    (by simp only [DeclaresInputs, Option.isSome_iff_exists, inputDecl?_eq_some])

/-- Declared inputs are those before as long as no input is split. -/
theorem Divides.declaredInputs (divides : g.Divides h) (declares : g.DeclaresInputs)
    : h.DeclaresInputs ∧ h.declaredInputs = g.declaredInputs := by
  have reads {id decl} (kind : (g.node id).kind = .input decl) : (h.node id).kind = .input decl :=
    NodeKind.binding?_eq_input.mp (divides.kept (NodeKind.binding?_eq_input.mpr kind))
  constructor
  · intro id isInput
    obtain ⟨decl, kind⟩ := declares id (divides.inputs ▸ isInput)
    exact ⟨decl, reads kind⟩
  · rw [Graph.declaredInputs, divides.inputs]
    refine List.filterMap_congr fun id isInput => ?_
    obtain ⟨decl, kind⟩ := declares id isInput
    rw [inputDecl?_eq_some.mpr kind, inputDecl?_eq_some.mpr (reads kind)]

theorem Binds.parted (before : g.Binds k) (parted : k.Parted h) : g.Parted h where
  input found := by
    obtain ⟨between, own, kind, isPart⟩ := parted.input found
    obtain ⟨source, kindBefore⟩ := before.origin (NodeKind.binding?_eq_input.mpr kind)
    exact ⟨source, own, NodeKind.binding?_eq_input.mp kindBefore, isPart⟩
  output found := by
    obtain ⟨between, own, bound, isPart⟩ := parted.output found
    obtain ⟨source, boundBefore⟩ := before.origin bound
    exact ⟨source, own, boundBefore, isPart⟩
  call found := by
    obtain ⟨between, bound⟩ := parted.call found
    exact before.origin bound
  typed streams := parted.typed (before.typed streams)
  inputs declares := by
    obtain ⟨declaresStill, same⟩ := before.divides.declaredInputs declares
    rw [inputParts, ← same]
    exact parted.inputs declaresStill
  declared := by rw [parted.declared, outputParts, outputParts, before.declared]

theorem Parted.binds (parted : g.Parted k) (after : k.Binds h) : g.Parted h where
  input found := by
    obtain ⟨between, kind⟩ := after.origin (NodeKind.binding?_eq_input.mpr found)
    exact parted.input (NodeKind.binding?_eq_input.mp kind)
  output found := by
    obtain ⟨between, bound⟩ := after.origin found
    exact parted.output bound
  call found := by
    obtain ⟨between, bound⟩ := after.origin found
    exact parted.call bound
  typed streams := after.typed (parted.typed streams)
  inputs declares := by
    obtain ⟨declaresStill, parts⟩ := parted.inputs declares
    exact ⟨(after.divides.declaredInputs declaresStill).1,
      (after.divides.declaredInputs declaresStill).2.trans parts⟩
  declared := after.declared.trans parted.declared

end Graph

namespace StreamSplitting

variable {g h k : Graph} {carriers : Carriers}

/-- The inputs that carry the declared ones are declared in their place. -/
theorem Splits.declaredInputs (splits : Splits g h carriers) (narrow : ∀ id, Narrow h id)
    (declares : g.DeclaresInputs) {inputs : List NodeId}
    (replaced : inputs = h.inputs.flatMap fun id => carriers.getD id [id])
    : (∀ id ∈ inputs, ∃ decl, (h.node id).kind = .input decl)
      ∧ inputs.filterMap h.inputDecl? = g.inputParts := by
  rw [splits.inputs] at replaced
  subst replaced
  constructor
  · intro id isInput
    obtain ⟨source, isSource, isCarrier⟩ := List.mem_flatMap.mp isInput
    obtain ⟨decl, kind⟩ := declares source isSource
    obtain ⟨i, inside, rfl⟩ := List.getElem_of_mem isCarrier
    have reads := splits.carriers_read kind narrow
    exact ⟨_, reads.get inside (reads.length_eq ▸ inside)⟩
  · rw [Graph.inputParts, Graph.declaredInputs, List.filterMap_flatMap,
      List.filterMap_eq_flatMap_toList, List.flatMap_assoc]
    refine List.flatMap_congr fun id isInput => ?_
    obtain ⟨decl, kind⟩ := declares id isInput
    rw [Graph.inputDecl?_eq_some.mpr kind, Option.toList_some, List.flatMap_singleton]
    exact filterMap_of_forall₂ ((splits.carriers_read kind narrow).imp fun x part =>
      Graph.inputDecl?_eq_some.mpr)

/-- What splits the inputs of a graph splits them all. -/
theorem splits_of_splitInputs (ran : splitInputs g = .ok () k)
    : ∃ carriers h,
        Splits g h carriers
        ∧ (∀ id, Narrow h id)
        ∧ k = { h with inputs := h.inputs.flatMap fun id => carriers.getD id [id] } := by
  obtain ⟨carriers, h, split, splits, narrow⟩ := exists_splits g
  refine ⟨carriers, h, splits, narrow, ?_⟩
  rw [splitInputs] at ran
  obtain ⟨_, _, nodes, ran⟩ := Edit.bind_eq_ok ran
  cases nodes
  obtain ⟨_, _, splitting, ran⟩ := Edit.bind_eq_ok ran
  cases split.symm.trans splitting
  cases ran
  rfl

/-- What splits the outputs of a graph splits the declared ones as well. -/
theorem exists_divides (ran : splitOutputs g = .ok () k)
    : ∃ h outputs, g.Divides h
      ∧ k = { h with outputs, declared := h.declared.flatMap declaredComponents } := by
  rw [splitOutputs] at ran
  obtain ⟨_, _, roots, ran⟩ := Edit.bind_eq_ok ran
  cases roots
  obtain ⟨outputs, h, split, ran⟩ := Edit.bind_eq_ok ran
  obtain ⟨_, rfl, divides, _⟩ := (stays_splitRoots _ g).state_of_ok split
  cases ran
  exact ⟨_, outputs, divides, rfl⟩

/-- Splitting the streams of a graph binds it to their parts. Witness: the inputs of the graph are
split first, which leaves its outputs, and what splits its outputs leaves the inputs. -/
theorem parted_of_split (inputs : splitInputs g = .ok () k) (outputs : splitOutputs k = .ok () h)
    : g.Parted h := by
  obtain ⟨carriers, spread, splits, narrow, rfl⟩ := splits_of_splitInputs inputs
  obtain ⟨divided, roots, divides, rfl⟩ := exists_divides outputs
  constructor
  case input =>
    intro id decl kind
    obtain ⟨source, own, bound, part⟩ := divides.origin (NodeKind.binding?_eq_input.mpr kind)
    cases part
    exact splits.part_of_input narrow (NodeKind.binding?_eq_input.mp bound)
  case output =>
    intro id decl found
    obtain ⟨source, own, bound, part⟩ := divides.origin found
    refine ⟨source, own, ?_, part⟩
    rw [← splits.binding_of_ne_input bound fun _ isInput => by rw [isInput] at part; cases part]
    exact bound
  case call =>
    intro id candidates found
    obtain ⟨source, own, bound, part⟩ := divides.origin found
    cases part
    refine ⟨source, ?_⟩
    rw [← splits.binding_of_ne_input bound nofun]
    exact bound
  case typed => exact fun streams => divides.typed (splits.typed streams)
  case inputs =>
    intro declares
    obtain ⟨allInputs, parts⟩ := splits.declaredInputs narrow declares rfl
    obtain ⟨declaresStill, same⟩ := divides.declaredInputs allInputs
    exact ⟨declaresStill, same.trans parts⟩
  case declared =>
    change divided.declared.flatMap declaredComponents = g.outputParts
    rw [divides.declared, Graph.outputParts, ← splits.declared]

end StreamSplitting

/-- Every instruction of an emitted program has the code of its node. -/
theorem Emission.selected_decode {src : Source} {t : ProgramTables} {p : Program}
    {ids : List NodeId} {blocks : List Block}
    (written : Written src t ids blocks ⟨p.inputs, p.functions⟩) (code : p.code = wordsOf blocks)
    : List.Forall₂ (fun id d => src.graph.opCode? id = some d.code) ids p.decode :=
  forall₂_decode written code fun encodes _ _ => encodes.selected

namespace Compiler

theorem binds_of_stays {α : Type} {x : Edit α} {g h : Graph} {a : α}
    (stays : bindings.Stays x) (ran : x g = .ok a h)
    : g.Binds h := by
  obtain ⟨_, rfl, binds, _⟩ := (stays g).state_of_ok ran
  exact binds

theorem parted_of_scalarization {g h : Graph} (ran : scalarization g = .ok () h) : g.Parted h := by
  rw [scalarization] at ran
  obtain ⟨_, _, inputs, ran⟩ := Edit.bind_eq_ok ran
  obtain ⟨_, _, outputs, ran⟩ := Edit.bind_eq_ok ran
  exact (StreamSplitting.parted_of_split inputs outputs).binds
    (binds_of_stays Scalarization.stays_pass ran)

/-- A compiled graph is bound to the parts of what it was bound to, it is the one that has been
validated, and the program is generated from it. -/
theorem parted_of_pipeline {ops : FloatOps} {g h : Graph} {p : Program}
    (compiled : pipeline ops g = .ok p h)
    : g.Parted h ∧ (∃ optimized, validation optimized = .ok () h) ∧ generate h = .ok p := by
  rw [pipeline] at compiled
  obtain ⟨_, typed, typing, compiled⟩ := Edit.bind_eq_ok compiled
  obtain ⟨_, plain, replacing, compiled⟩ := Edit.bind_eq_ok compiled
  obtain ⟨_, scalar, scalarizing, compiled⟩ := Edit.bind_eq_ok compiled
  obtain ⟨_, folded, folding, compiled⟩ := Edit.bind_eq_ok compiled
  obtain ⟨_, lowered, lowering, compiled⟩ := Edit.bind_eq_ok compiled
  obtain ⟨_, refolded, refolding, compiled⟩ := Edit.bind_eq_ok compiled
  obtain ⟨_, shared, sharing, compiled⟩ := Edit.bind_eq_ok compiled
  obtain ⟨_, validated, validating, compiled⟩ := Edit.bind_eq_ok compiled
  have before := (binds_of_stays stays_typing typing).trans
    (binds_of_stays stays_vectorOperators replacing)
  have after := ((binds_of_stays (stays_folding ops) folding).trans
    (binds_of_stays stays_lowering lowering)).trans
      (((binds_of_stays (stays_folding ops) refolding).trans
      (binds_of_stays stays_sharing sharing)).trans (binds_of_stays stays_validation validating))
  have parted := before.parted ((parted_of_scalarization scalarizing).binds after)
  rw [generation] at compiled
  split at compiled
  next generated =>
    cases compiled
    exact ⟨parted, ⟨shared, validating⟩, generated⟩
  · cases compiled

/-- What a compile leaves: a graph that is bound to the parts of what it was bound to, its schedule,
and a program with one instruction for each scheduled node. -/
structure Yields (g h : Graph) (s : Schedule) (p : Program) : Prop where
  parted : g.Parted h
  scheduled : Schedule.ofGraph h = .ok s
  passes : ∀ id ∈ s.instructions, Validation.failure? h id = none
  selected : List.Forall₂ (fun id d => h.opCode? id = some d.code) s.instructions p.decode
  tabulates : Emission.Tabulates ⟨p.inputs, p.functions⟩
    (h.declaredInputs ++ s.instructions.filterMap h.inputDecl?) (s.instructions.filterMap h.callee?)
  names : p.Names h s.instructions
  outputs : p.outputs = h.declared

theorem Yields.exists_scheduled {g h : Graph} {s : Schedule} {p : Program} (yields : Yields g h s p)
    {d : Program.Decoded} (decoded : d ∈ p.decode)
    : ∃ (place : Nat) (id : NodeId), s.instructions[place]? = some id
      ∧ p.decode[place]? = some d := by
  obtain ⟨place, inside, rfl⟩ := List.getElem_of_mem decoded
  have insideSchedule : place < s.instructions.length := yields.selected.length_eq ▸ inside
  exact ⟨place, _, List.getElem?_eq_getElem insideSchedule, List.getElem?_eq_getElem inside⟩

theorem exists_yields {g : Graph} {p : Program} (compiled : (standard.compile g ()).result = .ok p)
    : ∃ s, Yields g (standard.compile g ()).graph s p := by
  rw [compile_standard] at compiled ⊢
  cases ran : pipeline .standard g with
  | error e h =>
      rw [ran] at compiled
      cases compiled
  | ok other h =>
      rw [ran] at compiled
      cases compiled
      obtain ⟨parted, ⟨optimized, validated⟩, generated⟩ := parted_of_pipeline ran
      obtain ⟨rfl, passes⟩ := Validation.passes_of_validation validated
      obtain ⟨s, blocks, scheduled, written, code, outputs, _⟩ := generate_written generated
      have tabulates := (Emission.tabulates_ofGraph h).written written
      refine ⟨s, parted, scheduled, fun id isListed => ?_, Emission.selected_decode written code,
        tabulates, ?_, outputs⟩
      · exact passes id ((Schedule.covers_ofGraph scheduled).reachable id isListed)
      · exact names_of_refers (Emission.refers_decode written code) tabulates outputs

end Compiler

end StreamExpr
