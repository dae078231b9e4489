import StreamExpr.Proofs.Draft
import StreamExpr.Proofs.FoldingStep
import StreamExpr.Proofs.LooseTyping

/-! Folded graphs.
Folding puts scalars in the place of scalars of the same type. A discipline that says so much about
its graphs is kept up, and in the end nothing is left to fold: a node that is left over looks at the
constants among its operands only, and these are not edited again.
-/

namespace StreamExpr

variable {g h : Graph} {n m : Node} {id : NodeId}

/-- A new operator on two scalars is typed if the classes of its operands are those of an entry. -/
theorem Graph.sound_deduced_scalars {op : BinaryOp} {x y : NodeId} {r : RegisterClass}
    (proper : op ≠ .cross) (entry : ⟨r, [g.register x, g.register y]⟩ ∈ op.signatures)
    (known : r.isKnown = true) (scalar : ∀ child ∈ [x, y], (g.type child).width = 1)
    : g.Sound (g.deduced (.ofKind (.binary op x y) .unknown))
      ∧ (g.deduced (.ofKind (.binary op x y) .unknown)).type = .scalarOf r := by
  have found : (NodeKind.binary op x y).signatures? = some op.signatures := if_neg proper
  obtain ⟨i, selects⟩ := NodeKind.selects_of_mem found entry
  have common := DataType.broadcastWidth?_scalars (List.forall_mem_map.mpr scalar)
  have gives : (NodeKind.binary op x y).width? i ([x, y].map g.type) = some 1 := by
    cases op with
    | dot => exact congrArg (Option.map _) common
    | cross => exact (proper rfl).elim
    | _ => exact common
  obtain ⟨isNode, sound⟩ := Graph.sound_operator found selects gives known
  rw [isNode]
  exact ⟨sound, rfl⟩

namespace Folding

variable {ops : FloatOps}

/-! ## Nodes that folding leaves alone -/

/-- Whether a constant is neutral is told by the operator and the constant. -/
theorem simplify_eq_keep {op : BinaryOp} {x y : NodeId} {constant : Value}
    (kept : simplify op x constant = .keep)
    : simplify op y constant = .keep := by
  cases op <;> simp only [simplify] at kept ⊢ <;> (repeat' split at kept) <;> simp_all

theorem foldTernary_eq_keep {op : TernaryOp} {target : RegisterClass} {x y z x' y' z' : NodeId}
    (first : h.value? x' = g.value? x) (second : h.value? y' = g.value? y)
    (third : h.value? z' = g.value? z) (kept : foldTernary ops g op x y z target = .keep)
    : foldTernary ops h op x' y' z' target = .keep := by
  rw [foldTernary.eq_def] at kept ⊢
  rw [first]
  cases op <;> cases found : g.value? x <;>
    simp only [found, reduceCtorEq, second, third] at kept ⊢ <;> exact kept

/-- Whether a node is quiet is told by its outline and by what it sees of its operands. -/
theorem isQuiet_kept (outline : m.outline = n.outline)
    (faces : m.children.map h.face = n.children.map g.face) (quiet : isQuiet ops g n = true)
    : isQuiet ops h m = true := by
  obtain ⟨kind, type, overload⟩ := n
  obtain ⟨otherKind, otherType, otherOverload⟩ := m
  obtain ⟨kinds, rfl, rfl⟩ := Node.mk.inj outline
  simp only [isQuiet, Bool.or_eq_true_iff] at quiet ⊢
  rcases quiet with aside | quiet
  · exact .inl aside
  refine .inr ?_
  cases kind with
  | unary op x =>
      cases otherKind <;> cases kinds
      next y =>
        have value : h.value? y = g.value? x := congrArg Face.value? (List.cons.inj faces).1
        simp only [foldUnary, value] at quiet ⊢
        exact quiet
  | binary op x y =>
      cases otherKind <;> cases kinds
      next x' y' =>
        obtain ⟨first, rest⟩ := List.cons.inj faces
        have left : h.value? x' = g.value? x := congrArg Face.value? first
        have right : h.value? y' = g.value? y := congrArg Face.value? (List.cons.inj rest).1
        simp only [left, right]
        cases atLeft : g.value? x with
        | none =>
            cases atRight : g.value? y with
            | none => rfl
            | some b =>
                simp only [atLeft, atRight] at quiet ⊢
                exact decide_eq_true (simplify_eq_keep (of_decide_eq_true quiet))
        | some a =>
            cases atRight : g.value? y <;> simp only [atLeft, atRight] at quiet ⊢ <;> exact quiet
  | ternary op x y z =>
      cases otherKind <;> cases kinds
      obtain ⟨first, rest⟩ := List.cons.inj faces
      obtain ⟨second, rest⟩ := List.cons.inj rest
      exact decide_eq_true (foldTernary_eq_keep (congrArg Face.value? first)
        (congrArg Face.value? second) (congrArg Face.value? (List.cons.inj rest).1)
        (of_decide_eq_true quiet))
  | _ =>
      cases otherKind <;> first | rfl | cases kinds

/-- All finished nodes are quiet. -/
def ledger (ops : FloatOps) : Ledger Unit where
  Holds _ g done := ∀ id ∈ done, isQuiet ops g (g.node id) = true
  congr {_ g h done} linear same holds id isDone := by
    refine isQuiet_kept (congrArg Node.outline (same id isDone)) ?_ (holds id isDone)
    rw [same id isDone]
    refine List.map_congr_left fun child isOperand => ?_
    rw [Graph.face, Graph.type, Graph.value?, same child (linear.operand_mem isDone isOperand)]
    rfl

/-! ## Classes of what is left -/

section Classes

variable {op : BinaryOp} {r a b c : RegisterClass} {x : NodeId} {constant : Value}

/-- What is left of an operator with a constant on its right has the class of the whole. -/
theorem simplify_class (entry : ⟨r, [a, constant.register]⟩ ∈ op.signatures)
    : (∀ y, simplify op x constant = .operand y → a = r)
      ∧ ∀ v, simplify op x constant = .constant v → v.register = r := by
  constructor
  · intro y kept
    cases op <;> simp only [simplify, reduceCtorEq] at kept <;>
      simp [BinaryOp.signatures, Signature.closed] at entry <;> grind
  · intro v left
    cases op <;> simp only [simplify, reduceCtorEq] at left <;>
      simp [BinaryOp.signatures, Signature.closed] at entry <;> grind [Value.register]

/-- Exchanged operands have the classes of an entry. -/
theorem exchanged_signature {exchanged : BinaryOp} (found : op.exchanged? = some exchanged)
    (entry : ⟨r, [a, b]⟩ ∈ op.signatures)
    : ⟨r, [b, a]⟩ ∈ exchanged.signatures := by
  cases op <;> cases found <;>
    simp [BinaryOp.signatures, Signature.closed, Signature.comparing] at entry ⊢ <;> grind

theorem isVectorOp_exchanged {exchanged : BinaryOp} (found : op.exchanged? = some exchanged)
    : exchanged.isVectorOp = op.isVectorOp := by
  cases op <;> cases found <;> rfl

/-- The branches of a choice have its class. -/
theorem select_class (entry : ⟨r, [a, b, c]⟩ ∈ TernaryOp.select.signatures) : b = r ∧ c = r := by
  simp [TernaryOp.signatures, Signature.choosing] at entry
  grind

end Classes

/-! ## What takes the place of a scalar -/

section Replacements

variable {new place x y : NodeId} {op : BinaryOp} {constant : Value}

/-- A scalar of known type with scalars as operands, of the classes of an entry if it is an
operator. -/
structure Scalars (g : Graph) (id : NodeId) : Prop where
  known : (g.type id).isKnown = true
  width : (g.type id).width = 1
  entry : ∀ {table}, (g.node id).kind.signatures? = some table →
    ⟨g.register id, (g.children id).map g.register⟩ ∈ table
  operands : ∀ child ∈ g.children id,
    (g.type child).width = 1 ∧ ∀ {v}, g.value? child = some v → v.register = g.register child

/-- Kinds of nodes that may be added for a node: constants, and the node with its operands turned
around. -/
inductive Stems : NodeKind → NodeKind → Prop
  | constant {kind : NodeKind} {v : Value} : Stems kind (.constant v)
  | turned {op exchanged : BinaryOp} {x y : NodeId} (exchange : op.exchanged? = some exchanged)
    : Stems (.binary op x y) (.binary exchanged y x)

theorem Stems.isNoStream (stems : Stems (g.node id).kind n.kind)
    : (∀ decl, n.kind ≠ .input decl) ∧ n.isOutput = false := by
  rw [Node.isOutput]
  generalize (g.node id).kind = former at stems
  generalize n.kind = kind at stems
  cases stems <;> exact ⟨fun _ isInput => (by cases isInput), rfl⟩

/-- What can take the place of a node: the node itself, an operand, or a new quiet node on its
operands. -/
inductive Replaces (ops : FloatOps) (g : Graph) (id : NodeId) : NodeId → Graph → Prop
  | stays (quiet : isQuiet ops g (g.node id) = true) : Replaces ops g id id g
  | operand {x : NodeId} {h : Graph} (isOperand : x ∈ g.children id) (pads : Pads g id h)
    (type : g.type x = g.type id) (value : g.isOutput id = false)
    : Replaces ops g id x h
  | added {n : Node} {h : Graph} (pads : Pads g id h)
    (operands : ∀ child ∈ n.children, child ∈ g.children id) (stems : Stems (g.node id).kind n.kind)
    (sound : h.Sound n) (quiet : isQuiet ops h n = true) (type : n.type = g.type id)
    (value : g.isOutput id = false)
    : Replaces ops g id h.size (h.push n)

theorem Scalars.entry_of_kind {kind : NodeKind} {table : List Signature} (scalars : Scalars g id)
    (isKind : (g.node id).kind = kind) (found : kind.signatures? = some table)
    : ⟨g.register id, kind.children.map g.register⟩ ∈ table := by
  subst isKind
  exact scalars.entry found

/-- A constant can take the place of a scalar of its class. -/
theorem Scalars.replaces_constant {v : Value} (scalars : Scalars g id)
    (register : v.register = g.register id) (value : g.isOutput id = false) (pads : Pads g id h)
    : Replaces ops g id h.size (h.pushConstant v) := by
  refine .added pads (fun _ member => (List.not_mem_nil member).elim) .constant
    (h.sound_constant v) ?_ ?_ value
  · cases v <;> rfl
  · exact DataType.ext register scalars.width.symm

/-- The operands of an aligned node are those of the node, and their classes are those of an
entry. -/
theorem Aligns.entry (aligns : Aligns g id op x y constant h place)
    (scalars : Scalars g id) (proper : op ≠ .cross)
    : x ∈ g.children id ∧ y ∈ g.children id
      ∧ ⟨g.register id, [g.register x, constant.register]⟩ ∈ op.signatures := by
  cases aligns with
  | there kind _ right =>
      have operands : g.children id = [x, y] := congrArg NodeKind.children kind
      have isRight : y ∈ g.children id := by simp [operands]
      refine ⟨by simp [operands], isRight, ?_⟩
      rw [(scalars.operands y isRight).2 right]
      exact scalars.entry_of_kind kind (if_neg proper)
  | @turned former _ _ _ _ kind left _ exchange =>
      have operands : g.children id = [y, x] := congrArg NodeKind.children kind
      have isLeft : y ∈ g.children id := by simp [operands]
      refine ⟨by simp [operands], isLeft, ?_⟩
      rw [(scalars.operands y isLeft).2 left]
      refine exchanged_signature exchange (scalars.entry_of_kind kind (if_neg fun isCross => ?_))
      rw [isCross] at exchange
      cases exchange

/-- What a step does with a scalar. -/
theorem Rewrites.replaces (rewrites : Rewrites ops g id new h) (scalars : Scalars g id)
    : Replaces ops g id new h := by
  cases rewrites with
  | quiet quiet => exact .stays quiet
  | value evaluates register =>
      refine scalars.replaces_constant register ?_ .none
      rw [Graph.constantValue?] at evaluates
      rw [Graph.isOutput, Node.isOutput]
      split at evaluates <;> first | (next kind => rw [kind]) | cases evaluates
  | identity aligns keeps =>
      obtain ⟨isLeft, _, entry⟩ := aligns.entry scalars fun isCross => by
        rw [isCross] at keeps
        cases keeps
      have register := (simplify_class entry).1 _ keeps
      refine .operand isLeft aligns.pads (DataType.ext register ?_) aligns.value
      exact (scalars.operands _ isLeft).1.trans scalars.width.symm
  | settled aligns settles =>
      obtain ⟨_, _, entry⟩ := aligns.entry scalars fun isCross => by
        rw [isCross] at settles
        cases settles
      exact scalars.replaces_constant ((simplify_class entry).2 _ settles) aligns.value aligns.pads
  | @turned op x y _ constant _ aligns quiet =>
      have isOutput := aligns.value
      cases aligns with
      | there kind left right =>
          refine .stays ?_
          simp only [isQuiet, kind, left, right, quiet, decide_true, Bool.or_true]
      | @turned former _ _ _ _ kind left right exchange =>
          have proper : op ≠ .cross := by
            rintro rfl
            cases former <;> cases exchange
          obtain ⟨isLeft, isRight, entry⟩ :=
            (Aligns.turned kind left right exchange).entry scalars proper
          have only (child) (isOperand : child ∈ [x, y]) : child ∈ g.children id := by
            rcases List.mem_pair.mp isOperand with rfl | rfl
            · exact isLeft
            · exact isRight
          rw [(scalars.operands y isRight).2 left] at entry
          have table : (NodeKind.binary op x y).signatures? = some op.signatures := if_neg proper
          obtain ⟨sound, type⟩ := Graph.sound_deduced_scalars proper entry scalars.known
            fun child isOperand => (scalars.operands child (only child isOperand)).1
          have isKind := @Graph.kind_deduced g _ _ table
          refine .added .none (fun child isOperand => only child ?_) ?_ sound ?_ ?_ isOutput
          · rwa [Node.children, isKind] at isOperand
          · rw [isKind, kind]
            exact .turned exchange
          · simp only [isQuiet, isKind, left, right, quiet, decide_true, Bool.or_true]
          · exact type.trans (DataType.ext rfl scalars.width.symm)
  | @chosen x y z condition kind found =>
      have operands : g.children id = [x, y, z] := congrArg NodeKind.children kind
      obtain ⟨second, third⟩ := select_class (scalars.entry_of_kind kind rfl)
      have isOutput : g.isOutput id = false := by rw [Graph.isOutput, Node.isOutput, kind]
      have branch {b : NodeId} (isOperand : b ∈ g.children id)
        (register : g.register b = g.register id)
          : Replaces ops g id b g :=
        .operand isOperand .none (DataType.ext register
          ((scalars.operands b isOperand).1.trans scalars.width.symm)) isOutput
      cases condition.toBool with
      | true => exact branch (by simp [operands]) second
      | false => exact branch (by simp [operands]) third

end Replacements

/-! ## Folding a node of a draft -/

/-- What folding asks of a discipline: it speaks of scalars where there is something to fold, what
folding adds is allowed, and a node serves for one of the same type that is no constant. -/
structure Follows (D : Discipline) : Prop where
  scalars : ∀ {ops g id}, D.Allows g (g.node id)
    → (∀ child ∈ g.children id, D.Allows g (g.node child)) → isQuiet ops g (g.node id) = false
      → Scalars g id
  allows : ∀ {g id n}, D.Allows g (g.node id) → Stems (g.node id).kind n.kind → g.Sound n
    → n.type = g.type id → n.type.width = 1 → D.Allows g n
  serves : ∀ {new old : Face}, new.type = old.type → old.value? = none → D.Serves new old

variable {D : Discipline} {s t : Draft D (ledger ops)}

/-- A later draft with nodes added at most, in which a node is a value that is not finished yet. -/
structure Reaches (s t : Draft D (ledger ops)) (id : NodeId) : Prop where
  later : s.Later t
  appends : s.graph.Appends t.graph
  spent : ∀ {other}, t.retired other → s.retired other
  live : s.live id
  undone : id ∉ t.done
  value : s.graph.isOutput id = false

theorem Reaches.yields (reaches : Reaches s t id) {new : NodeId} (finished : new ∈ t.done)
    (serves : D.Serves (t.graph.face new) (t.graph.face id))
    (isValue : D.Tidies → t.graph.isOutput new = false)
    : ∃ u : Draft D (ledger ops), u.graph = t.graph ∧ s.Later u ∧ s.Yields id new u := by
  have isLive := reaches.later.state.live reaches.live
  have idValue := (reaches.later.state.isOutput reaches.live).trans reaches.value
  have stands : t.toState.Stands id new :=
    ⟨isLive, t.doneLive new finished, serves, fun tidies _ => isValue tidies, fun isOutput =>
      (Bool.false_ne_true (idValue.symm.trans isOutput)).elim⟩
  exact ⟨t.retire isLive reaches.undone idValue, rfl,
    reaches.later.trans (t.retire_later isLive reaches.undone idValue),
    Draft.yields_retire isLive reaches.undone idValue stands finished reaches.appends
    reaches.spent reaches.value⟩

/-- A draft with a node that is not used. -/
theorem exists_padded (pads : Pads s.graph id h) (isLive : s.live id) (undone : id ∉ s.done)
    (isValue : s.graph.isOutput id = false)
    : ∃ t : Draft D (ledger ops), t.graph = h ∧ t.done = s.done ∧ Reaches s t id := by
  cases pads with
  | none => exact ⟨s, rfl, rfl, .refl s, .refl _, fun before => before, isLive, undone, isValue⟩
  | @turned op x y operands =>
      let n := s.graph.deduced (.ofKind (.binary op x y) .unknown)
      have later := s.pad_later n
        (fun tidies child isOperand =>
          ⟨s.inside (s.operand isLive (operands child isOperand)),
            (s.tidy tidies).unused (operands child isOperand)⟩)
        fun _ isInput => by cases isInput
      have same (other) (isDone : other ∈ s.done) := Graph.node_push_of_lt n
        (s.inside (s.doneLive other isDone))
      exact ⟨s.carry _ later same, rfl, rfl, s.carry_later _ later same, s.graph.appends_push _,
        fun before => before, isLive, undone, isValue⟩

/-- Adding a quiet node that takes the place of another. -/
theorem Reaches.yields_push (reaches : Reaches s t id)
    (operands : ∀ child ∈ n.children, child ∈ t.done)
    (values : D.Tidies → ∀ child ∈ n.children, t.graph.isOutput child = false)
    (allowed : D.Allows t.graph n) (isNoInput : ∀ decl, n.kind ≠ .input decl)
    (quiet : isQuiet ops t.graph n = true) (serves : D.Serves ⟨n.type, n.value?⟩ (t.graph.face id))
    (isValue : n.isOutput = false)
    : ∃ u : Draft D (ledger ops), u.graph = t.graph.push n ∧ s.Later u
      ∧ s.Yields id t.graph.size u := by
  have added := t.push_added n (fun child isOperand =>
    ⟨t.doneLive child (operands child isOperand), fun tidies => values tidies child isOperand⟩)
      allowed isNoInput
  have inside {child} (isDone : child ∈ t.done)
    : child < t.graph.size := t.inside (t.doneLive child isDone)
  have same (other) (isDone : other ∈ t.done) := added.appends.node (inside isDone)
  let u := t.carry _ added.later same
  have later : t.Later u := t.carry_later _ added.later same
  have quietly : isQuiet ops u.graph (u.graph.node t.graph.size) = true := by
    rw [show u.graph.node t.graph.size = n from added.node]
    refine isQuiet_kept rfl ?_ quiet
    exact List.map_congr_left fun child isOperand =>
      added.appends.face (inside (operands child isOperand))
  have own (child) (isOperand : child ∈ u.graph.children t.graph.size) : child ∈ u.done := by
    rw [Graph.children, show u.graph.node t.graph.size = n from added.node] at isOperand
    exact operands child isOperand
  have undone : t.graph.size ∉ u.done := fun isDone => Nat.lt_irrefl _ (inside isDone)
  have unretired : ¬ u.retired t.graph.size := fun isRetired =>
    Nat.lt_irrefl _ (t.inside (t.unfinished isRetired).2.1)
  have holds : (ledger ops).Holds () u.graph (t.graph.size :: u.done) :=
    List.forall_mem_cons.mpr ⟨quietly, u.holds⟩
  have idInside := t.inside (reaches.later.state.live reaches.live)
  have finished : Reaches s (u.finish added.live undone unretired own holds) id := by
    refine ⟨(reaches.later.trans later).trans
      (u.finish_later added.live undone unretired own holds), reaches.appends.trans added.appends,
      reaches.spent, reaches.live, fun isDone => ?_, reaches.value⟩
    rcases List.mem_cons.mp isDone with same | before
    · exact Nat.ne_of_lt idInside same
    · exact reaches.undone before
  refine finished.yields List.mem_cons_self ?_ fun _ =>
    (congrArg Node.isOutput added.node).trans isValue
  rw [show (u.finish added.live undone unretired own holds).graph.face id = t.graph.face id
    from added.appends.face idInside]
  have face : (⟨n.type, n.value?⟩ : Face) = u.graph.face t.graph.size :=
    congrArg (fun m : Node => (⟨m.type, m.value?⟩ : Face)) added.node.symm
  exact face ▸ serves

/-- Constants are quiet. -/
theorem value?_of_busy (busy : isQuiet ops g (g.node id) = false) : g.value? id = none := by
  by_contra found
  obtain ⟨v, found⟩ := Option.ne_none_iff_exists'.mp found
  simp [isQuiet, Graph.kind_of_value? found] at busy

/-- Whatever can take the place of a node with finished operands is finished. -/
theorem Follows.yields_of_replaces (follows : Follows D) {new : NodeId}
    (replaces : Replaces ops s.graph id new h) (isLive : s.live id) (undone : id ∉ s.done)
    (operands : ∀ child ∈ s.graph.children id, child ∈ s.done)
    (busy : isQuiet ops s.graph (s.graph.node id) = false) (width : (s.graph.type id).width = 1)
    : ∃ u : Draft D (ledger ops), u.graph = h ∧ s.Later u ∧ s.Yields id new u := by
  have constant := value?_of_busy busy
  have inside := s.inside isLive
  have childInside {child} (isOperand : child ∈ s.graph.children id) :=
    s.inside (s.operand isLive isOperand)
  cases replaces with
  | stays quiet => cases busy.symm.trans quiet
  | operand isOperand pads type isValue =>
      obtain ⟨t, rfl, done, reaches⟩ := exists_padded pads isLive undone isValue
      refine reaches.yields (done ▸ operands _ isOperand) ?_ fun tidies => ?_
      · rw [reaches.appends.face inside, reaches.appends.face (childInside isOperand)]
        exact follows.serves type constant
      · rw [Graph.isOutput, reaches.appends.node (childInside isOperand)]
        exact (s.tidy tidies).unused isOperand
  | @added n h pads only stems sound quiet type isValue =>
      obtain ⟨t, rfl, done, reaches⟩ := exists_padded pads isLive undone isValue
      have allowed : D.Allows t.graph n := by
        have former : D.Allows t.graph (t.graph.node id) :=
          t.allowed (reaches.later.state.live isLive)
        refine follows.allows former ?_ sound ?_ (type ▸ width)
        · rwa [reaches.appends.node inside]
        · rw [type, Graph.type, Graph.type, reaches.appends.node inside]
      refine reaches.yields_push
        (fun child isOperand => done ▸ operands child (only child isOperand))
        (fun tidies child isOperand => ?_) allowed (fun decl isInput => ?_) quiet ?_ ?_
      · rw [Graph.isOutput, reaches.appends.node (childInside (only child isOperand))]
        exact (s.tidy tidies).unused (only child isOperand)
      · exact stems.isNoStream.1 decl isInput
      · rw [reaches.appends.face inside]
        exact follows.serves type constant
      · exact stems.isNoStream.2

theorem Follows.runs_step (follows : Follows D) {fails : Prop} (isLive : s.live id)
    (unretired : ¬ s.retired id) (operands : ∀ child ∈ s.graph.children id, child ∈ s.done)
    : (Draft.invariant D (ledger ops)).Runs fails s
      (Transform.ofEdit (step ops) id) (s.Yields id) := by
  obtain ⟨new, h, ran, rewrites⟩ := step_rewrites ops s.graph id
  obtain ⟨u, rfl, later, yields⟩ : ∃ u : Draft D (ledger ops), u.graph = h ∧ s.Later u
    ∧ s.Yields id new u := by
    cases busy : isQuiet ops s.graph (s.graph.node id) with
    | true =>
        obtain ⟨isId, rfl⟩ := EStateM.Result.ok.inj (ran.symm.trans (step_quiet busy))
        rw [isId]
        by_cases isDone : id ∈ s.done
        · exact ⟨s, rfl, .refl s, Draft.yields_self isLive isDone⟩
        · have holds : (ledger ops).Holds () s.graph (id :: s.done) :=
            List.forall_mem_cons.mpr ⟨busy, s.holds⟩
          exact ⟨s.finish isLive isDone unretired operands holds, rfl,
            s.finish_later isLive isDone unretired operands holds,
            Draft.yields_finish isLive isDone unretired operands holds⟩
    | false =>
        have undone : id ∉ s.done := fun isDone =>
          Bool.false_ne_true (busy.symm.trans (s.holds id isDone))
        have scalars : Scalars s.graph id :=
          follows.scalars (s.allowed isLive)
            (fun child isOperand => s.allowed (s.operand isLive isOperand)) busy
        exact follows.yields_of_replaces (rewrites.replaces scalars) isLive undone
          operands busy scalars.width
  exact .of_ok (t := u) (Transform.ofEdit_of_ok ran s.memory) later yields

end Folding

/-! ## The pass -/

/-- Folding keeps a discipline up that it follows, and leaves nothing to fold. -/
theorem folding_obeys (ops : FloatOps) {D : Discipline}
    (follows : Folding.Follows D) (obeys : g.Obeys D)
    : match Compiler.folding ops g with
      | .ok _ h =>
          h.Obeys D
          ∧ h.Rooted
          ∧ g.Keeps h
          ∧ ∀ id, h.Reachable id → Folding.isQuiet ops h (h.node id) = true
      | .error _ _ => ¬ g.Rooted := by
  have nothing : (Folding.ledger ops).Holds () g [] := fun _ member =>
    (List.not_mem_nil member).elim
  have completes : (Draft.invariant D (Folding.ledger ops)).Completes (¬ g.Rooted)
    (Transform.ofEdit (Folding.step ops)) := Draft.completes follows.runs_step
  have result := Draft.completed completes obeys nothing
  rw [Compiler.folding, Edit.pass]
  cases outcome : Pass.run .postOrder (Transform.ofEdit (Folding.step ops)) ⟨g, ()⟩ with
  | error e w =>
      rw [outcome] at result
      exact result
  | ok _ w =>
      rw [outcome] at result
      obtain ⟨t, rfl, obeysNext, rooted, keeps, finished⟩ := result
      exact ⟨obeysNext, rooted, keeps, fun id reachable => t.holds id (finished id reachable)⟩

/-- Loose typing says enough for folding. -/
theorem Discipline.loose_follows (broad low : Prop) : Folding.Follows (.loose broad low) where
  scalars {ops g id} allowed operands busy := by
    obtain ⟨aside, busy⟩ := Bool.or_eq_false_iff.mp busy
    obtain ⟨isScalar, isKnown⟩ := Bool.or_eq_false_iff.mp aside
    have width : (g.type id).width = 1 := DataType.width_eq_one isScalar
    have plain : (g.node id).kind.isAssembly = false := by
      cases kind : (g.node id).kind <;> rw [kind] at busy <;> first | rfl | cases busy
    refine ⟨Bool.not_eq_false' _ ▸ isKnown, width, allowed.1.signature, fun child isOperand =>
      ⟨?_, fun {v} found => ?_⟩⟩
    · exact allowed.1.scalars plain width child isOperand
    · exact (operands child isOperand).1.register_constant (Graph.kind_of_value? found)
  allows {g id n} allowed stems sound type width := by
    have unmixed := allowed.1.unmixed
    generalize (g.node id).kind = former at stems unmixed
    obtain ⟨kind, _, _⟩ := n
    cases stems with
    | constant =>
        exact ⟨sound.loose rfl fun _ => width, fun _ => rfl,
          fun _ => Graph.isLowered_of_isSettled rfl⟩
    | @turned op exchanged x y exchange =>
        refine ⟨sound.loose ((Folding.isVectorOp_exchanged exchange).trans unmixed)
          fun _ => width, fun _ => rfl,
          fun _ => Graph.isLowered_of_isSettled ?_⟩
        cases op <;> cases exchange <;> rfl
  serves {new old} type _ := by
    change new.type.Narrows old.type
    exact type ▸ .refl _

/-- Folding a graph in good order leaves one in which nothing is left to fold. -/
theorem folding_orders (ops : FloatOps) {broad low : Prop} (orders : g.Orders (.loose broad low))
    : ∃ h, Compiler.folding ops g = .ok () h
        ∧ h.Orders (.loose broad low)
        ∧ g.Keeps h
        ∧ ∀ id, h.Reachable id → Folding.isQuiet ops h (h.node id) = true := by
  have result := folding_obeys ops (Discipline.loose_follows broad low) orders.obeys
  cases outcome : Compiler.folding ops g with
  | error e left =>
      rw [outcome] at result
      exact (result orders.rooted).elim
  | ok _ h =>
      rw [outcome] at result
      obtain ⟨obeys, rooted, keeps, quiet⟩ := result
      exact ⟨h, rfl, obeys.orders trivial rooted, keeps, quiet⟩

end StreamExpr
