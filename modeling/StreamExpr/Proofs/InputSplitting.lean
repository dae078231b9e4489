import StreamExpr.Proofs.VectorOperators

/-! Splitting of vector inputs keeps types and values.
A vector input becomes the vector of its scalar inputs in its own place, so its users see no
difference.
-/

namespace StreamExpr

variable {α : Type} {M : ScalarModel α} {streams : StreamDecl → Nat → α} {broad : Prop}

/-! ## Graphs with inputs added -/

/-- The node that reads a stream. -/
def StreamDecl.node (decl : StreamDecl) : Node :=
  .ofKind (.input decl) decl.type

namespace Graph

variable {g h : Graph} {id : Nat}

/-- A graph with nodes added that read streams. -/
def withInputs (g : Graph) (decls : List StreamDecl) : Graph :=
  { g with nodes := g.nodes ++ (decls.map StreamDecl.node).toArray }

theorem size_withInputs (g : Graph) (decls : List StreamDecl)
    : (g.withInputs decls).size = g.size + decls.length := by
  simp [withInputs, size]

theorem node_withInputs_of_lt (decls : List StreamDecl) (inside : id < g.size)
    : (g.withInputs decls).node id = g.node id := by
  simp only [node, withInputs, Array.getD_eq_getD_getElem?]
  rw [Array.getElem?_append_left inside]

theorem node_withInputs {decls : List StreamDecl} {i : Nat} (inside : i < decls.length)
    : (g.withInputs decls).node (g.size + i) = decls[i].node := by
  simp only [node, withInputs, Array.getD_eq_getD_getElem?, size]
  rw [Array.getElem?_append_right (Nat.le_add_right _ _), Nat.add_sub_cancel_left,
    List.getElem?_toArray, List.getElem?_map, List.getElem?_eq_getElem inside]
  rfl

theorem withInputs_cons (g : Graph) (decl : StreamDecl) (decls : List StreamDecl)
    : (g.pushInput decl).withInputs decls = g.withInputs (decl :: decls) := by
  simp [withInputs, pushInput, push, StreamDecl.node]

theorem lt_size_of_input {g : Graph} {id : NodeId} {decl : StreamDecl}
    (kind : (g.node id).kind = .input decl)
    : id < g.size := by
  by_contra outside
  rw [node_of_size_le (Nat.le_of_not_lt outside)] at kind
  cases kind

end Graph

namespace StreamSplitting

/-- The inputs are added in order. -/
theorem scalarInputs_eq (decls : List StreamDecl) (g : Graph)
    : scalarInputs decls g = .ok (List.range' g.size decls.length) (g.withInputs decls) := by
  induction decls generalizing g with
  | nil => simp [scalarInputs, Graph.withInputs]; rfl
  | cons decl decls ih =>
      have first : Edit.input decl g = .ok g.size (g.pushInput decl) := rfl
      have size : (g.pushInput decl).size = g.size + 1 := Graph.size_push ..
      simp only [scalarInputs, bind, EStateM.bind, first, ih, size, Graph.withInputs_cons]
      rfl

/-! ## Inputs in the course of splitting -/

open Graph

/-- A vector input that has become the vector of its scalar inputs, which carry it. -/
def Carried (g h : Graph) (carriers : Carriers) (id : NodeId) : Prop :=
  ∃ decl scalars, (g.node id).kind = .input decl
    ∧ decl.type.isVector = true
    ∧ h.node id = .ofKind (.construct scalars) decl.type
    ∧ carriers[id]? = some scalars
    ∧ List.Forall₂ (fun x part => g.size ≤ x ∧ x < h.size ∧ h.node x = part.node)
      scalars decl.components

/-- A graph some of whose vector inputs are split, with the inputs that carry them. What has been
added reads the components of vector streams. -/
structure Splits (g h : Graph) (carriers : Carriers) : Prop where
  grown : g.size ≤ h.size
  outputs : h.outputs = g.outputs
  declared : h.declared = g.declared
  inputs : h.inputs = g.inputs
  selections : h.selections = g.selections
  old : ∀ {id}, id < g.size → h.node id = g.node id ∨ Carried g h carriers id
  noted : ∀ {id : Nat} {scalars}, carriers[id]? = some scalars → Carried g h carriers id
  new : ∀ {id}, g.size ≤ id → id < h.size → ∃ source decl part, (g.node source).kind = .input decl
    ∧ decl.type.isVector = true
    ∧ part ∈ decl.components
    ∧ h.node id = part.node

theorem Splits.refl (g : Graph) : Splits g g {} :=
  ⟨Nat.le_refl _, rfl, rfl, rfl, rfl, fun _ => .inl rfl,
    fun found => by simp at found, fun above below => by omega⟩

variable {g h : Graph} {id : Nat} {carriers : Carriers}

theorem Carried.not_input {decl : StreamDecl} (carried : Carried g h carriers id)
    : (h.node id).kind ≠ .input decl := by
  obtain ⟨_, _, _, _, node, _⟩ := carried
  rw [node]
  nofun

theorem Splits.carrier_lt {scalars : List NodeId} {x : NodeId} (splits : Splits g h carriers)
    (found : carriers[id]? = some scalars) (member : x ∈ scalars)
    : x < h.size := by
  obtain ⟨_, _, _, _, _, noted, parts⟩ := splits.noted found
  obtain rfl := Option.some.inj (found.symm.trans noted)
  obtain ⟨i, within, rfl⟩ := List.getElem_of_mem member
  exact (parts.get within (parts.length_eq ▸ within)).2.1

theorem isVector_component (decl : StreamDecl) {part : StreamDecl} (isPart : part ∈ decl.components)
    : part.type.isVector = false := by
  obtain ⟨c, _, rfl⟩ := List.mem_map.mp isPart
  rfl

/-- A graph with one vector input split. -/
def splitAt (h : Graph) (id : NodeId) (decl : StreamDecl) : Graph :=
  (h.withInputs decl.components).replace id
    (.ofKind (.construct (List.range' h.size decl.components.length)) decl.type)

theorem size_splitAt (h : Graph) (id : NodeId) (decl : StreamDecl)
    : (splitAt h id decl).size = h.size + decl.components.length := by
  rw [splitAt, size_replace, size_withInputs]

theorem node_splitAt_self (decl : StreamDecl) (inside : id < h.size)
    : (splitAt h id decl).node id
      = .ofKind (.construct (List.range' h.size decl.components.length)) decl.type := by
  rw [splitAt, node_replace (h.withInputs _) _ (by rw [size_withInputs]; omega), if_pos rfl]

theorem node_splitAt_new {decl : StreamDecl} (inside : id < h.size) {i : Nat}
    (within : i < decl.components.length)
    : (splitAt h id decl).node (h.size + i) = decl.components[i].node := by
  rw [splitAt, node_replace (h.withInputs _) _ (by rw [size_withInputs]; omega), if_neg (by omega),
    node_withInputs within]

theorem node_splitAt_of_lt (decl : StreamDecl) (inside : id < h.size) {other : Nat}
    (before : other < h.size) (differs : other ≠ id)
    : (splitAt h id decl).node other = h.node other := by
  rw [splitAt, node_replace (h.withInputs _) _ (by rw [size_withInputs]; omega), if_neg differs,
    node_withInputs_of_lt _ before]

/-- One more input may be split and its carriers noted. -/
theorem Splits.splitAt {decl : StreamDecl} (splits : Splits g h carriers) (inside : id < g.size)
    (kind : (h.node id).kind = .input decl) (isVector : decl.type.isVector = true)
    : Splits g (splitAt h id decl)
      (carriers.insert id (List.range' h.size decl.components.length)) := by
  have here : id < h.size := Nat.lt_of_lt_of_le inside splits.grown
  -- A node that was split is no input any more, so this one has not been.
  have wasInput : (g.node id).kind = .input decl := by
    rw [← (splits.old inside).resolve_right fun carried => carried.not_input kind]
    exact kind
  have unlike {other : Nat} (differs : other ≠ id) :
      (carriers.insert id (List.range' h.size decl.components.length))[other]?
      = carriers[other]? := by
    rw [Std.TreeMap.getElem?_insert, if_neg fun same =>
      differs (Std.LawfulEqCmp.eq_of_compare same).symm]
  have own : Carried g (StreamSplitting.splitAt h id decl)
      (carriers.insert id (List.range' h.size decl.components.length)) id := by
    refine ⟨decl, _, wasInput, isVector, node_splitAt_self decl here,
      Std.TreeMap.getElem?_insert_self, List.forall₂_iff_get.mpr
      ⟨List.length_range', fun i insideRange insideParts => ?_⟩⟩
    simp only [List.get_eq_getElem, List.getElem_range', Nat.one_mul, size_splitAt]
    exact ⟨Nat.le_trans splits.grown
      (Nat.le_add_right _ _), by omega, node_splitAt_new here insideParts⟩
  have others {other : Nat} (differs : other ≠ id) (carried : Carried g h carriers other) :
      Carried g (StreamSplitting.splitAt h id decl)
        (carriers.insert id (List.range' h.size decl.components.length)) other := by
    obtain ⟨own, scalars, isInput, wasVector, node, noted, parts⟩ := carried
    have within := Nat.lt_of_lt_of_le (lt_size_of_input isInput) splits.grown
    refine ⟨own, scalars, isInput, wasVector, (node_splitAt_of_lt decl here within differs).trans
      node, (unlike differs).trans noted, parts.imp fun x part found => ?_⟩
    obtain ⟨isNew, below, reads⟩ := found
    rw [size_splitAt, node_splitAt_of_lt decl here below (by omega)]
    exact ⟨isNew, by omega, reads⟩
  refine ⟨?_, splits.outputs, splits.declared, splits.inputs, splits.selections,
    fun {other} within => ?_,
    fun {other scalars} found => ?_, fun {other} above below => ?_⟩
  · rw [size_splitAt]
    exact Nat.le_trans splits.grown (Nat.le_add_right _ _)
  · by_cases same : other = id
    · exact .inr (same ▸ own)
    · have kept := node_splitAt_of_lt decl here (Nat.lt_of_lt_of_le within splits.grown) same
      exact (splits.old within).imp kept.trans (others same)
  · by_cases same : other = id
    · exact same ▸ own
    · exact others same (splits.noted ((unlike same).symm.trans found))
  · rw [size_splitAt] at below
    by_cases recent : h.size ≤ other
    · obtain ⟨i, rfl⟩ := Nat.exists_eq_add_of_le recent
      have within : i < decl.components.length := by omega
      exact ⟨id, decl, _, wasInput, isVector, List.getElem_mem within, node_splitAt_new here within⟩
    · rw [node_splitAt_of_lt decl here (by omega) (by omega)]
      exact splits.new above (by omega)

/-- A node that reads no vector stream. -/
def Narrow (h : Graph) (id : NodeId) : Prop :=
  ∀ {decl}, (h.node id).kind = .input decl → decl.type.isVector = false

/-- A node that reads no vector stream is left alone. -/
theorem splitInput_of_narrow (narrow : Narrow h id) : splitInput id h = .ok none h := by
  rw [splitInput, Edit.read_bind]
  cases kind : (h.node id).kind with
  | input decl =>
      simp only
      rw [narrow kind]
      rfl
  | _ => rfl

theorem splitInput_of_vector {decl : StreamDecl} (kind : (h.node id).kind = .input decl)
    (isVector : decl.type.isVector = true)
    : splitInput id h
      = .ok (some (List.range' h.size decl.components.length))
        (StreamSplitting.splitAt h id decl) := by
  rw [splitInput, Edit.read_bind, kind]
  simp only
  rw [if_pos isVector]
  simp only [bind, EStateM.bind, scalarInputs_eq]
  rfl

/-- All vector inputs among some nodes are split, and those split before stay so. -/
theorem splitAll_splits {ids : List NodeId} (splits : Splits g h carriers)
    (inside : ∀ id ∈ ids, id < g.size)
    : ∃ last left, splitAll ids carriers h = .ok last left
        ∧ Splits g left last
        ∧ ∀ id, id ∈ ids ∨ id < g.size ∧ Narrow h id → Narrow left id := by
  induction ids generalizing h carriers with
  | nil =>
      refine ⟨carriers, h, rfl, splits, fun id either {decl} kind => ?_⟩
      rcases either with member | ⟨_, narrow⟩
      · exact (List.not_mem_nil member).elim
      · exact narrow kind
  | cons id ids ih =>
      have here : id < g.size := inside id (.head _)
      have others (other) (member : other ∈ ids) : other < g.size := inside other (.tail _ member)
      by_cases narrow : Narrow h id
      · obtain ⟨last, left, ran, splitsLeft, narrows⟩ := ih splits others
        refine ⟨last, left, ?_, splitsLeft, fun other either => narrows other ?_⟩
        · simp only [splitAll, bind, EStateM.bind, splitInput_of_narrow narrow]
          exact ran
        · rcases either with member | before
          · rcases List.mem_cons.mp member with rfl | later
            · exact .inr ⟨here, narrow⟩
            · exact .inl later
          · exact .inr before
      · obtain ⟨decl, kind, isVector⟩ : ∃ decl, (h.node id).kind = .input decl
          ∧ decl.type.isVector = true := by
          by_contra none
          refine narrow fun {decl} kind => Bool.eq_false_iff.mpr fun isVector =>
            none ⟨decl, kind, isVector⟩
        have inArena : id < h.size := Nat.lt_of_lt_of_le here splits.grown
        obtain ⟨last, left, ran, splitsLeft, narrows⟩ := ih (splits.splitAt here kind isVector)
          others
        refine ⟨last, left, ?_, splitsLeft, fun other either => narrows other ?_⟩
        · simp only [splitAll, bind, EStateM.bind, splitInput_of_vector kind isVector]
          exact ran
        · by_cases same : other = id
          · subst same
            refine .inr ⟨here, fun {own} found => ?_⟩
            rw [node_splitAt_self decl inArena] at found
            cases found
          · rcases either with member | ⟨before, wasNarrow⟩
            · exact .inl ((List.mem_cons.mp member).resolve_left same)
            · refine .inr ⟨before, fun {own} found => ?_⟩
              rw [node_splitAt_of_lt decl inArena (Nat.lt_of_lt_of_le before splits.grown)
                same] at found
              exact wasNarrow found

/-- All vector inputs of a graph can be split. -/
theorem exists_splits (g : Graph)
    : ∃ carriers h, splitAll (List.range g.size) {} g = .ok carriers h
        ∧ Splits g h carriers
        ∧ ∀ id, Narrow h id := by
  obtain ⟨carriers, h, ran, splits, narrows⟩ :=
    splitAll_splits (.refl g) fun id (member : id ∈ List.range g.size) => List.mem_range.mp member
  refine ⟨carriers, h, ran, splits, fun id {decl} kind => ?_⟩
  by_cases wasThere : id < g.size
  · exact narrows id (.inl (List.mem_range.mpr wasThere)) kind
  · obtain ⟨_, own, part, _, _, isPart, node⟩ := splits.new (Nat.le_of_not_lt wasThere)
      (lt_size_of_input kind)
    rw [node] at kind
    obtain rfl := NodeKind.input.inj kind
    exact isVector_component own isPart

/-! ## Typed graphs with inputs split -/

variable {D : Dialect α}

theorem Splits.isOutput (splits : Splits g h carriers) (inside : id < g.size)
    : h.isOutput id = g.isOutput id := by
  rcases splits.old inside with same | ⟨decl, scalars, kind, _, node, _⟩
  · rw [Graph.isOutput, Graph.isOutput, same]
  · rw [Graph.isOutput, Graph.isOutput, node, Node.isOutput, Node.isOutput, kind]
    rfl

theorem Splits.type (splits : Splits g h carriers) (conforms : g.Conforms D)
    (reachable : g.Reachable id)
    : h.type id = g.type id := by
  rcases splits.old (conforms.lt_size reachable) with same | ⟨decl, scalars, kind, _, node, _⟩
  · rw [Graph.type, Graph.type, same]
  · rw [Graph.type, Graph.type, node, (conforms.sound reachable).type_input kind]
    rfl

/-- An operand was one before, or it has been added. -/
theorem Splits.uses {child : Nat} (splits : Splits g h carriers) (uses : h.Uses id child)
    : id < g.size
      ∧ (h.node id = g.node id ∧ g.Uses id child
        ∨ ∃ decl part, (g.node id).kind = .input decl ∧ g.size ≤ child ∧ child < h.size
            ∧ h.node child = part.node ∧ part ∈ decl.components) := by
  have inside : id < g.size := by
    by_contra isNew
    obtain ⟨_, _, _, _, _, _, node⟩ := splits.new (Nat.le_of_not_lt isNew) uses.lt_size
    rw [Graph.Uses, Graph.children, node] at uses
    exact List.not_mem_nil uses
  refine ⟨inside, ?_⟩
  rcases splits.old inside with same | ⟨decl, scalars, kind, _, node, _, parts⟩
  · refine .inl ⟨same, ?_⟩
    rwa [Graph.Uses, Graph.children, same] at uses
  · rw [Graph.Uses, Graph.children, node] at uses
    obtain ⟨i, within, rfl⟩ := List.getElem_of_mem uses
    have part := parts.get within (parts.length_eq ▸ within)
    exact .inr ⟨decl, _, kind, part.1, part.2.1, part.2.2, List.getElem_mem _⟩

/-- What is reachable was so before, or reads a component of a stream. -/
theorem Splits.reachable (splits : Splits g h carriers) (conforms : g.Conforms D)
    (reachable : h.Reachable id)
    : g.Reachable id
      ∨ g.size ≤ id ∧ ∃ part : StreamDecl, h.node id = part.node ∧ part.type.isKnown = true
          ∧ part.type.isVector = false := by
  obtain ⟨root, isRoot, path⟩ := reachable
  rw [splits.outputs] at isRoot
  induction path with
  | refl => exact .inl (.root isRoot)
  | @tail parent child _ uses ih =>
      obtain ⟨inside, either⟩ := splits.uses uses
      have reachable : g.Reachable parent := ih.resolve_right fun isNew =>
        absurd inside (Nat.not_lt.mpr isNew.1)
      rcases either with ⟨_, wasUsed⟩ | ⟨decl, part, kind, isNew, _, node, isPart⟩
      · exact .inl (reachable.operand wasUsed)
      · have sound := conforms.sound reachable
        have known := sound.known
        rw [sound.type_input kind] at known
        have register : part.type.isKnown = decl.type.isKnown := by
          obtain ⟨c, _, rfl⟩ := List.mem_map.mp isPart
          rfl
        exact .inr ⟨isNew, part, node, register.trans known, isVector_component decl isPart⟩

theorem Splits.tidy (splits : Splits g h carriers) (tidy : g.Tidy) : h.Tidy where
  operand uses := by
    rcases (splits.uses uses).2 with ⟨_, wasUsed⟩ | ⟨_, _, _, _, below, _⟩
    · exact Nat.lt_of_lt_of_le (tidy.operand wasUsed) splits.grown
    · exact below
  output root isRoot := Nat.lt_of_lt_of_le (tidy.output root (splits.outputs ▸ isRoot)) splits.grown
  input id isInput := Nat.lt_of_lt_of_le (tidy.input id (splits.inputs ▸ isInput)) splits.grown
  unused uses := by
    rcases (splits.uses uses).2 with ⟨_, wasUsed⟩ | ⟨_, _, _, _, _, node, _⟩
    · rw [splits.isOutput (tidy.operand wasUsed)]
      exact tidy.unused wasUsed
    · rw [Graph.isOutput, node]
      rfl
  keyed found := Nat.lt_of_lt_of_le (tidy.keyed (splits.selections ▸ found)) splits.grown

/-- A node that is not split keeps its shape. -/
theorem Splits.shape (splits : Splits g h carriers) (conforms : g.Conforms D)
    (reachable : g.Reachable id) (same : h.node id = g.node id)
    : h.shape id = g.shape id := by
  rw [Graph.shape, Graph.shape, same]
  exact congrArg (Shape.mk _) (List.map_congr_left fun child member =>
    splits.type conforms (reachable.operand member))

theorem Splits.sound (splits : Splits g h carriers) (conforms : g.Conforms D)
    (reachable : g.Reachable id)
    : h.Sound (h.node id) := by
  have sound := conforms.sound reachable
  rcases splits.old (conforms.lt_size reachable) with same
    | ⟨decl, scalars, kind, _, node, _, parts⟩
  · exact sound.of_shape (splits.shape conforms reachable same)
  · rw [node]
    refine sound_construct (sound.type_input kind ▸ sound.known) fun x member => ?_
    obtain ⟨i, within, rfl⟩ := List.getElem_of_mem member
    have part := parts.get within (parts.length_eq ▸ within)
    have isPart : decl.components.get ⟨i, parts.length_eq ▸ within⟩ ∈ decl.components :=
      List.getElem_mem _
    obtain ⟨c, _, own⟩ := List.mem_map.mp isPart
    have node : h.node scalars[i] = (decl.component c).node := part.2.2.trans (congrArg _ own.symm)
    rw [Graph.register, node]
    rfl

/-- A graph whose inputs are split is typed. -/
theorem Splits.conforms (splits : Splits g h carriers) (conforms : g.Conforms (.plain α broad))
    : h.Conforms (.plain α broad) where
  toTidy := splits.tidy conforms.toTidy
  acyclic := by
    -- The new inputs rank below all nodes that were there.
    refine acyclic_of_rank (fun id => if id < g.size then g.rank id + 1 else 0)
      fun {parent child} reachable uses => ?_
    obtain ⟨inside, either⟩ := splits.uses uses
    have wasReachable : g.Reachable parent := (splits.reachable conforms reachable).resolve_right
      fun isNew => absurd inside (Nat.not_lt.mpr isNew.1)
    rw [if_pos inside]
    rcases either with ⟨_, wasUsed⟩ | ⟨_, _, _, isNew, _⟩
    · rw [if_pos (conforms.operand wasUsed)]
      exact Nat.succ_lt_succ (conforms.acyclic.rank_lt wasReachable wasUsed)
    · rw [if_neg (Nat.not_lt.mpr isNew)]
      exact Nat.succ_pos _
  rooted := by
    refine ⟨splits.outputs ▸ conforms.rooted.1, fun root isRoot => ?_⟩
    rw [splits.outputs] at isRoot
    rw [splits.isOutput (conforms.output root isRoot)]
    exact conforms.rooted.2 root isRoot
  sound reachable := by
    rcases splits.reachable conforms reachable with wasReachable | ⟨_, part, node, known, _⟩
    · exact splits.sound conforms wasReachable
    · rw [node]
      exact sound_input known
  allowed reachable := by
    rcases splits.reachable conforms reachable with wasReachable | ⟨_, part, node, _, _⟩
    · rcases splits.old (conforms.lt_size wasReachable) with same
        | ⟨decl, scalars, kind, isVector, node, _⟩
      · rw [splits.shape conforms wasReachable same]
        exact conforms.allowed wasReachable
      · rw [Graph.shape, node]
        exact ⟨nofun, fun _ _ _ => isVector, rfl⟩
    · rw [Graph.shape, node]
      exact ⟨nofun, fun _ => nofun, rfl⟩
  cached {v c s} reachable isVector found := by
    rcases splits.reachable conforms reachable with wasReachable | ⟨_, part, node, _, scalar⟩
    · have type := splits.type conforms wasReachable
      rw [type] at isVector
      have selects := conforms.cached wasReachable isVector (splits.selections ▸ found)
      have inside : s < g.size := by
        by_contra outside
        rw [node_of_size_le (Nat.le_of_not_lt outside)] at selects
        cases congrArg Node.kind selects
      have same : h.node s = g.node s := (splits.old inside).resolve_right fun carried => by
        obtain ⟨_, _, kind, _⟩ := carried
        rw [selects] at kind
        cases kind
      rw [same, selects, selectionOf, selectionOf, type]
    · rw [Graph.type, node] at isVector
      cases scalar.symm.trans isVector

/-- A vector built from the components of a stream has the value of that stream. -/
theorem constructLane_streams {r : RegisterClass} {decl : StreamDecl}
    (isVector : decl.type.isVector = true) (parts : ∀ c < decl.type.width,
    streams (decl.component c) 0 = streams decl c) {c : Nat} (inside : c < decl.type.width)
    : M.constructLane r (decl.components.map fun part => .of part.type (streams part))
      c = streams decl c := by
  have wide : 1 < decl.type.width := by simpa [DataType.isVector] using isVector
  have single (c) (member : c ∈ List.range decl.type.width)
      : (VectorValue.of (decl.component c).type (streams (decl.component c))).components
        = [streams decl c] := by
    rw [← parts c (List.mem_range.mp member)]
    rfl
  have lanes : (decl.components.map fun part => VectorValue.of part.type (streams part)).flatMap
      VectorValue.components = (List.range decl.type.width).map (streams decl) := by
    rw [StreamDecl.components, List.map_map, List.flatMap_map, List.map_eq_flatMap]
    exact List.flatMap_congr single
  rw [M.constructLane_of_parts fun x only => ?_, lanes, List.getD_eq_getElem?_getD,
    List.getElem?_map, List.getElem?_range inside]
  · rfl
  · have count := congrArg List.length only
    rw [List.length_map, StreamDecl.components, List.length_map, List.length_range] at count
    exact absurd count (Nat.ne_of_gt wide)

/-- Splitting inputs keeps values. -/
theorem Splits.has (splits : Splits g h carriers) (conforms : g.Conforms D)
    (parts : ∀ {id decl}, (g.node id).kind = .input decl → decl.type.isVector = true →
      ∀ c < decl.type.width, streams (decl.component c) 0 = streams decl c)
    {x : VectorValue α} (has : g.Has (M.meaning streams) id x) (reachable : g.Reachable id)
    : h.Has (M.meaning streams) id x := by
  induction has using Evaluates.induct with
  | step id operands value values result =>
      rcases splits.old (conforms.lt_size reachable) with same
        | ⟨decl, scalars, kind, isVector, node, _, reads⟩
      · refine .of_kind (congrArg Node.kind same) (List.forall₂_iff_zip.mpr ⟨values.length_eq,
          fun {child y} paired => ?_⟩) (same ▸ result)
        obtain ⟨_, keeps⟩ := (List.forall₂_iff_zip.mp values).2 paired
        exact keeps (reachable.operand (List.of_mem_zip paired).1)
      · have scalarValues : List.Forall₂ (h.Has (M.meaning streams)) scalars
            (decl.components.map fun part => .of part.type (streams part)) := by
          refine List.forall₂_map_right_iff.mpr (reads.imp fun child part found => ?_)
          have kind : (h.node child).kind = .input part := congrArg Node.kind found.2.2
          refine .of_kind kind .nil ?_
          change ((h.node child).lanes? M streams []).map (VectorValue.of (h.node child).type) = _
          rw [Node.lanes?_input kind, found.2.2]
          rfl
        refine .of_kind (congrArg Node.kind node) scalarValues ?_
        change ((g.node id).lanes? M streams operands).map
          (VectorValue.of (g.node id).type) = _ at result
        rw [Node.lanes?_input kind, (conforms.sound reachable).type_input kind] at result
        rw [← result, node]
        exact congrArg some (VectorValue.of_congr fun c inside =>
          constructLane_streams isVector (parts kind isVector) inside)

end StreamSplitting

/-- Vector inputs of a typed graph can be split. What is left over is typed and delivers the same,
if streams of components carry the components. -/
theorem splitInputs_serves {g : Graph} (conforms : g.Conforms (.plain α broad))
    (parts : ∀ {id decl}, (g.node id).kind = .input decl → decl.type.isVector = true →
      ∀ c < decl.type.width, streams (decl.component c) 0 = streams decl c)
    : ∃ h, StreamSplitting.splitInputs g = .ok () h
        ∧ h.Conforms (.plain α broad)
        ∧ (∀ id, StreamSplitting.Narrow h id)
        ∧ g.Serves M streams h := by
  obtain ⟨carriers, h, ran, splits, narrow⟩ := StreamSplitting.exists_splits g
  have same {root : NodeId} (isRoot : root ∈ g.outputs) : h.node root = g.node root := by
    refine (splits.old (conforms.output root isRoot)).resolve_right fun carried => ?_
    obtain ⟨_, _, kind, _⟩ := carried
    have isOutput := conforms.rooted.2 root isRoot
    rw [Graph.isOutput, Node.isOutput, kind] at isOutput
    cases isOutput
  have typed := splits.conforms conforms
  refine ⟨{ h with inputs := h.inputs.flatMap fun id => carriers.getD id [id] }, ?_, ?_, narrow, ?_⟩
  · rw [StreamSplitting.splitInputs, Edit.read_bind]
    simp only [bind, EStateM.bind, ran]
    rfl
  · exact { typed with
      sound := fun reachable => (typed.sound reachable).of_shape rfl
      input := fun id isInput => by
        obtain ⟨old, wasInput, isCarrier⟩ := List.mem_flatMap.mp isInput
        rw [Std.TreeMap.getD_eq_getD_getElem?] at isCarrier
        cases found : carriers[old]? with
        | none =>
            rw [found] at isCarrier
            obtain rfl := List.mem_singleton.mp isCarrier
            exact typed.input id wasInput
        | some scalars =>
            rw [found] at isCarrier
            exact splits.carrier_lt found isCarrier }
  · exact {
      outputs := splits.outputs
      declared := splits.declared
      outline := fun isRoot => congrArg Node.outline (same isRoot)
      delivers := fun {root decl x} isRoot delivers => by
        obtain ⟨e, kind, has⟩ := delivers
        have uses : g.Uses root e := by
          rw [Graph.Uses, Graph.children, Node.children, kind]
          exact List.mem_singleton_self e
        have kept := splits.has conforms parts has (.operand (.root isRoot) uses)
        refine ⟨e, (congrArg Node.kind (same isRoot)).trans kind, Graph.Has.congr (g := h) ?_ kept⟩
        exact fun _ => rfl }

end StreamExpr
