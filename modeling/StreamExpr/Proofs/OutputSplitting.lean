import StreamExpr.Proofs.InputSplitting

/-! Splitting of vector outputs keeps types and values.
An output of a vector is replaced by one output for each component, which writes that component.
-/

namespace StreamExpr

variable {α : Type} {M : ScalarModel α} {streams : StreamDecl → Nat → α} {broad : Prop}

/-! ## What is left over -/

/-- Streams are scalar. -/
def Shape.isNarrow (s : Shape) : Bool :=
  match s.node.kind with
  | .input _ | .output _ _ => !s.node.type.isVector
  | _ => true

/-- What is left over once vector streams are split. -/
def Dialect.narrow (α : Type) (broad : Prop) : Dialect α where
  Allows _ s := s.Within α ∧ (broad → s.Broad) ∧ s.isPlain = true ∧ s.isNarrow = true
  within allowed := allowed.1

/-- The values written to the streams that an output is split into. -/
def splitWrite (p : StreamDecl × VectorValue α) : List (StreamDecl × VectorValue α) :=
  if p.1.type.isVector then (List.range p.1.type.width).map fun c =>
    (p.1.component c, p.2.part c) else [p]

theorem isVector_of_splitWrite {p q : StreamDecl × VectorValue α} (isPart : q ∈ splitWrite p)
    : q.1.type.isVector = false := by
  rw [splitWrite] at isPart
  split at isPart
  case isTrue =>
    obtain ⟨c, _, rfl⟩ := List.mem_map.mp isPart
    rfl
  case isFalse scalar =>
    rw [List.mem_singleton.mp isPart]
    exact Bool.eq_false_iff.mpr scalar

theorem splitWrite_ne_nil (p : StreamDecl × VectorValue α) : splitWrite p ≠ [] := by
  rw [splitWrite]
  split
  · have positive := p.1.type.width_pos
    simp
    omega
  · exact List.cons_ne_nil _ _

/-- What is written is written to streams that are declared once the table is split. -/
theorem splitWrite_declared {declared : List StreamDecl} {p q : StreamDecl × VectorValue α}
    (isDeclared : p.1 ∈ declared) (isPart : q ∈ splitWrite p)
    : q.1 ∈ declared.flatMap StreamSplitting.declaredComponents := by
  refine List.mem_flatMap.mpr ⟨p.1, isDeclared, ?_⟩
  rw [splitWrite] at isPart
  rw [StreamSplitting.declaredComponents]
  split at isPart
  case isTrue isVector =>
    obtain ⟨c, inside, rfl⟩ := List.mem_map.mp isPart
    rw [if_pos isVector]
    exact List.mem_map_of_mem inside
  case isFalse scalar =>
    rw [if_neg scalar, List.mem_singleton.mp isPart]
    exact List.mem_singleton_self _

/-- What the outputs of a graph write, in order. -/
def Graph.DeliversAll (M : ScalarModel α) (streams : StreamDecl → Nat → α) (g : Graph)
    (ps : List (StreamDecl × VectorValue α))
    : Prop :=
  List.Forall₂ (fun root p => g.Delivers M streams root p.1 p.2) g.outputs ps

/-- Roots write to declared streams. -/
def Graph.Declares (g : Graph) : Prop :=
  ∀ {root}, root ∈ g.outputs → ∃ decl e, (g.node root).kind = .output decl e ∧ decl ∈ g.declared

namespace StreamSplitting

/-! ## The stage -/

/-- Nothing is replaced while outputs are split. -/
def stage (α : Type) (broad : Prop) : Stage α where
  toDialect := .plain α broad
  Stays _ := True

/-- Only selections are added, apart from the outputs. -/
def supply (α : Type) (broad : Prop) : Supply (stage α broad) where
  Accepts _ := False
  Splits _ := True
  allowed impossible := impossible.elim
  proper impossible := impossible.elim
  selects isVector _ yields _ := ⟨yields.within_selection isVector, fun _ => nofun, rfl⟩
  splits _ _ := trivial

variable {s t : TypedScope M streams (stage α broad)} {bound : ℚ} {e : NodeId} {x : VectorValue α}
  {decl : StreamDecl}

/-- An output of a node can be added. -/
theorem runs_output (atX : s.Computes bound e x) (type : x.type = decl.type)
    : (TypedScope.edits M streams (stage α broad)).Runs False s (Edit.output decl e) fun output t =>
        t.Writes output (decl, x) := by
  have known := atX.known
  rw [type] at known
  have accepts : s.Accepts (.ofKind (.output decl e) decl.type) (toLex (s.level e + 1, false)) := {
    operand := fun child member => by
      obtain rfl := List.mem_singleton.mp member
      exact ⟨atX.live, Rank.lt_of_level (lt_add_one _)⟩
    isValue := fun child member => List.mem_singleton.mp member ▸ atX.isValue
    sound := Graph.sound_output known (atX.type.trans type)
    allowed := ⟨nofun, fun _ => nofun, rfl⟩
    shared := fun isShared => by cases isShared }
  have later := TypedScope.later_push accepts fun _ => nofun
  refine .of_ok (t := s.push accepts) rfl later ⟨.inr rfl, e, ?_, ?_⟩
  · exact congrArg Node.kind (Graph.node_push_self _ _)
  · exact (later.value atX.live).trans atX.value

/-- Outputs of some components can be added. -/
theorem runs_scalarOutputs {cs : List Nat} (atX : s.Computes bound e x) (type : x.type = decl.type)
    (within : ∀ c ∈ cs, c < decl.type.width)
    : (TypedScope.edits M streams (stage α broad)).Runs False s (scalarOutputs e decl cs)
      fun outputs t =>
        List.Forall₂ t.Writes outputs (cs.map fun c => (decl.component c, x.part c)) := by
  induction cs generalizing s with
  | nil => exact .pure .nil
  | cons c cs ih =>
      have inside : x.type.Yields α c := .inl (.inl (type ▸ within c (.head _)))
      rw [scalarOutputs]
      refine .bind (TypedScope.makes_component (P := supply α broad) atX inside).runs ?_
      rintro part t1 later1 ⟨atPart, _⟩
      refine .bind (runs_output atPart (congrArg DataType.scalar type)) ?_
      intro output t2 later2 writes
      refine .bind (ih (atX.later (later1.trans later2)) fun d member =>
        within d (.tail _ member)) ?_
      intro outputs t3 later3 others
      exact .pure (.cons (writes.later later3) others)

/-- An output can be split. -/
theorem runs_splitRoot {root : NodeId} {p : StreamDecl × VectorValue α} (writes : s.Writes root p)
    : (TypedScope.edits M streams (stage α broad)).Runs False s (splitRoot root) fun outputs t =>
        List.Forall₂ t.Writes outputs (splitWrite p) := by
  obtain ⟨isLive, e, kind, value⟩ := writes
  have operandLive := (TypedScope.value_output isLive kind).1
  have isValue : s.graph.isOutput e = false := s.tidy.unused (show s.graph.Uses root e by
    rw [Graph.Uses, Graph.children, Node.children, kind]
    exact List.mem_singleton_self e)
  have atE : s.Computes (s.level e + 1) e p.2 := ⟨operandLive, isValue, lt_add_one _, value⟩
  have type : p.2.type = p.1.type := atE.type.symm.trans ((s.sound isLive).type_output kind).2
  rw [splitRoot, TypedScope.runs_read, kind, splitWrite]
  simp only
  split
  · exact runs_scalarOutputs atE type fun c member => List.mem_range.mp member
  · exact .pure (.cons ⟨isLive, e, kind, value⟩ .nil)

theorem runs_splitRoots {roots : List NodeId} {ps : List (StreamDecl × VectorValue α)}
    (writes : List.Forall₂ s.Writes roots ps)
    : (TypedScope.edits M streams (stage α broad)).Runs False s (splitRoots roots) fun outputs t =>
        List.Forall₂ t.Writes outputs (ps.flatMap splitWrite) := by
  induction roots generalizing s ps with
  | nil =>
      cases writes
      exact .pure .nil
  | cons root roots ih =>
      cases writes with
      | cons head tail =>
          rw [splitRoots]
          refine .bind (runs_splitRoot head) fun outputs t1 later1 first => ?_
          refine .bind (ih (tail.imp fun _ _ writes => writes.later later1))
            fun others t2 later2 rest => ?_
          exact .pure (List.rel_append (first.imp fun _ _ writes => writes.later later2) rest)

end StreamSplitting

/-! ## The stage as a whole -/

/-- Every root of a typed graph writes something. -/
theorem Graph.Conforms.exists_writes {D : Dialect α} {g : Graph} (conforms : g.Conforms D)
    (M : ScalarModel α) (streams : StreamDecl → Nat → α)
    : ∃ ps, g.DeliversAll M streams ps := by
  have delivers (root) (isRoot : root ∈ g.outputs) :
      ∃ p : StreamDecl × VectorValue α, g.Delivers M streams root p.1 p.2 := by
    have isOutput := conforms.rooted.2 root isRoot
    rw [Graph.isOutput, Node.isOutput] at isOutput
    split at isOutput
    next decl e kind =>
      have reachable : g.Reachable e := .operand (.root isRoot) (by
        rw [Uses, children, Node.children, kind]
        exact List.mem_singleton_self e)
      obtain ⟨x, found⟩ := TypedScope.valuation_total M streams conforms (.inl reachable)
      exact ⟨(decl, x), e, kind, valueOf?_eq_some.mp found⟩
    · cases isOutput
  unfold Graph.DeliversAll
  generalize g.outputs = roots at delivers
  induction roots with
  | nil => exact ⟨[], .nil⟩
  | cons root roots ih =>
      obtain ⟨p, first⟩ := delivers root (.head _)
      obtain ⟨ps, rest⟩ := ih fun other member => delivers other (.tail _ member)
      exact ⟨p :: ps, .cons first rest⟩

/-- The roots of a graph write one thing each. -/
theorem Graph.DeliversAll.unique {g : Graph} {ps qs : List (StreamDecl × VectorValue α)}
    (writes : g.DeliversAll M streams ps) (others : g.DeliversAll M streams qs)
    : ps = qs := by
  refine List.right_unique_forall₂' ?_ writes others
  rintro root ⟨decl, x⟩ ⟨otherDecl, y⟩ ⟨e, kind, has⟩ ⟨otherE, otherKind, otherHas⟩
  obtain ⟨rfl, rfl⟩ := NodeKind.output.inj (kind.symm.trans otherKind)
  exact congrArg (decl, ·) (has.unique otherHas)

/-- A typed graph all of whose streams are scalar. -/
theorem Graph.Conforms.narrow {g : Graph} (conforms : g.Conforms (.plain α broad))
    (inputs : ∀ id, StreamSplitting.Narrow g id)
    (outputs : ∀ {root decl e}, root ∈ g.outputs → (g.node root).kind = .output decl e →
      decl.type.isVector = false)
    : g.Conforms (.narrow α broad) :=
  { conforms with
    allowed := fun {id} reachable => by
      obtain ⟨within, broadly, plain⟩ := conforms.allowed reachable
      refine ⟨within, broadly, plain, ?_⟩
      have sound := conforms.sound reachable
      rw [Shape.isNarrow]
      change (match (g.node id).kind.outline with
        | .input _ | .output _ _ => !(g.node id).type.isVector
        | _ => true) = true
      cases kind : (g.node id).kind with
      | input decl =>
          rw [sound.type_input kind]
          exact congrArg (!·) (inputs id kind)
      | output decl e =>
          have isRoot := reachable.mem_outputs (by rw [isOutput, Node.isOutput, kind])
            conforms.unused
          rw [(sound.type_output kind).1]
          exact congrArg (!·) (outputs isRoot kind)
      | _ => rfl }

/-- Vector outputs of a typed graph can be split. What is left over is typed, and what an output
wrote is written component by component. -/
theorem splitOutputs_writes {g : Graph} (conforms : g.Conforms (.plain α broad))
    (narrow : ∀ id, StreamSplitting.Narrow g id) (declares : g.Declares)
    : ∃ h, StreamSplitting.splitOutputs g = .ok () h
        ∧ h.Conforms (.narrow α broad)
        ∧ (∀ id, StreamSplitting.Narrow h id)
        ∧ h.Declares
        ∧ (∀ decl ∈ h.declared, decl.type.isVector = false)
        ∧ h.inputs = g.inputs
        ∧ ∀ {ps}, g.DeliversAll M streams ps → h.DeliversAll M streams (ps.flatMap splitWrite) := by
  let start : TypedScope M streams (StreamSplitting.stage α broad) :=
    .ofConforms M streams conforms conforms.allowed fun shares =>
      (StreamSplitting.supply α broad).selects shares.2.1
        (conforms.sound shares.1).known shares.2.2.1 _
  obtain ⟨ps, writes⟩ := conforms.exists_writes M streams
  have started : List.Forall₂ start.Writes g.outputs ps := by
    refine List.forall₂_iff_zip.mpr ⟨writes.length_eq, fun {root p} paired => ?_⟩
    exact TypedScope.writes_of_delivers (.inl (.root (List.of_mem_zip paired).1))
      ((List.forall₂_iff_zip.mp writes).2 paired)
  obtain ⟨outputs, t, ran, later, written⟩ := (StreamSplitting.runs_splitRoots started).exists_ok
  -- Every new root writes a part of what some root wrote.
  have rootWrites (root) (isRoot : root ∈ outputs)
    : ∃ q ∈ ps.flatMap splitWrite, t.Writes root q := by
    obtain ⟨i, inside, rfl⟩ := List.getElem_of_mem isRoot
    exact ⟨_, List.getElem_mem (written.length_eq ▸ inside), written.get inside _⟩
  have live (root) (isRoot : root ∈ outputs) : t.live root := by
    obtain ⟨_, _, writes⟩ := rootWrites root isRoot
    exact writes.1
  have declared : t.graph.declared = g.declared := later.declared
  let last := t.setRoots live (t.graph.declared.flatMap StreamSplitting.declaredComponents)
  -- Every root wrote something, and whatever is written has a part.
  have nonempty : outputs ≠ [] := by
    rintro rfl
    have none : ps.flatMap splitWrite = [] :=
      List.eq_nil_of_length_eq_zero written.length_eq.symm
    have noWrite : ps = [] := by
      by_contra some
      obtain ⟨p, isWritten⟩ := List.exists_mem_of_ne_nil ps some
      exact splitWrite_ne_nil p (List.flatMap_eq_nil_iff.mp none p isWritten)
    subst noWrite
    exact conforms.rooted.1 (List.eq_nil_of_length_eq_zero writes.length_eq)
  have rooted : last.graph.Rooted := by
    refine ⟨nonempty, fun root isRoot => ?_⟩
    obtain ⟨q, _, _, e, kind, _⟩ := rootWrites root isRoot
    have isOutput : (t.graph.node root).isOutput = true := by rw [Node.isOutput, kind]
    exact isOutput
  have stillNarrow (id : NodeId) : StreamSplitting.Narrow last.graph id := fun kind =>
    narrow id (later.carries kind)
  have typed : last.graph.Conforms (.plain α broad) :=
    last.conforms rooted (fun reachable => ⟨TypedScope.live_of_reachable live reachable, trivial⟩)
      fun allowed _ => allowed
  refine ⟨last.graph, ?_, typed.narrow stillNarrow fun {root decl e} isRoot kind => ?_, stillNarrow,
    fun {root} isRoot => ?_, fun decl isDeclared => ?_, later.inputs, fun {qs} others => ?_⟩
  · rw [StreamSplitting.splitOutputs, Edit.read_bind]
    change StreamSplitting.splitRoots g.outputs g = .ok outputs t.graph at ran
    simp only [bind, EStateM.bind, ran]
    rfl
  · obtain ⟨q, isPart, _, e', kind', _⟩ := rootWrites root isRoot
    obtain ⟨rfl, _⟩ := NodeKind.output.inj (kind'.symm.trans kind)
    obtain ⟨p, _, isPart⟩ := List.mem_flatMap.mp isPart
    exact isVector_of_splitWrite isPart
  · obtain ⟨q, isPart, _, e, kind, _⟩ := rootWrites root isRoot
    obtain ⟨p, isWritten, isPart⟩ := List.mem_flatMap.mp isPart
    obtain ⟨i, inside, rfl⟩ := List.getElem_of_mem isWritten
    have delivers := writes.get (writes.length_eq ▸ inside) inside
    obtain ⟨_, ownKind, _⟩ := delivers
    obtain ⟨decl, _, declKind, isDeclared⟩ := declares (List.get_mem g.outputs _)
    obtain ⟨same, _⟩ := NodeKind.output.inj (ownKind.symm.trans declKind)
    refine ⟨q.1, e, kind, ?_⟩
    change q.1 ∈ t.graph.declared.flatMap StreamSplitting.declaredComponents
    rw [declared]
    exact splitWrite_declared (same ▸ isDeclared) isPart
  · obtain ⟨own, _, isPart⟩ := List.mem_flatMap.mp isDeclared
    rw [StreamSplitting.declaredComponents] at isPart
    split at isPart
    case isTrue => exact StreamSplitting.isVector_component own isPart
    case isFalse scalar =>
      rw [List.mem_singleton.mp isPart]
      exact Bool.eq_false_iff.mpr scalar
  · obtain rfl := writes.unique others
    refine written.imp fun root q found => ?_
    obtain ⟨e, kind, has⟩ := found.delivers
    refine ⟨e, kind, Graph.Has.congr (g := t.graph) ?_ has⟩
    exact fun _ => rfl

end StreamExpr
