import StreamExpr.Proofs.LoweringPieces

/-! Steps of lowering.
A node is replaced by what its recipe makes, until nothing changes.
-/

namespace StreamExpr.Lowering

variable {V : Type} {A : Algebra V} {D : Discipline}
  {s t u : Stock D A} {top id : NodeId} {r : RegisterClass} {fails : Prop}

/-! ## One replacement -/

theorem plain_of_unlowered (unlowered : ¬ Lowered s id)
    : (s.graph.node id).kind.isAssembly = false ∧ (s.graph.node id).kind.isTerminal = false := by
  have unsettled (settled : isSettled (s.graph.node id).kind = true) : False :=
    unlowered (Graph.isLowered_of_isSettled settled)
  cases kind : (s.graph.node id).kind <;>
    first | exact ⟨rfl, rfl⟩ | exact (unsettled (kind ▸ rfl)).elim

/-- A node of the same class that is below an operator stands for it if its value says no less. -/
theorem Computes.stands {new : NodeId} (computes : Computes s id new) (follows : Follows D)
    (isLive : s.live id) (plain : (s.graph.node id).kind.isTerminal = false)
    (register : s.graph.register new = s.graph.register id)
    (covers : ∀ {v}, s.value id = some v → A.order.Covers v (s.value new))
    : s.Stands id new := by
  have isValue : s.graph.isOutput id = false := by
    rw [Graph.isOutput, Node.isOutput]
    cases kind : (s.graph.node id).kind <;> first | rfl | (rw [kind] at plain; cases plain)
  have varies (c : Value) (found : s.graph.value? id = some c) : s.graph.value? new = some c := by
    rw [Graph.kind_of_value? found] at plain
    cases plain
  refine ⟨⟨isLive, computes.live, computes.below.le, covers⟩,
    ⟨isLive, computes.live, ?_, fun tidies _ => computes.isValue tidies, fun isOutput => ?_⟩,
      register, varies⟩
  · exact follows.serves (s.allowed isLive) ⟨register, computes.width⟩ varies
  · cases isValue.symm.trans isOutput

/-- What a node is replaced by in the end: a lowered node that stands for it. -/
structure Settles (powers : Bool) (s : Stock D A) (id new : NodeId) (t : Stock D A) : Prop where
  stands : t.Stands id new
  lowered : Lowered t new
  grows : Grows powers s t

/-- What one replacement comes to: a lowered node stays, an operand is left of a node, or a lowered
node replaces it. -/
inductive Lowers (s : Stock D A) (id : NodeId) : NodeId → Stock D A → Prop
  | stays (lowered : Lowered s id) : Lowers s id id s
  | operand {new : NodeId} (stands : s.Stands id new)
    (below : s.rank new < s.rank id) : Lowers s id new s
  | replaced {new : NodeId} {t : Stock D A} (settles : Settles true s id new t) : Lowers s id new t

/-- The operands of a node that is not lowered. -/
theorem computes_operand {child : NodeId} (follows : Follows D) (isLive : s.live id)
    (unlowered : ¬ Lowered s id) (member : child ∈ s.graph.children id)
    : Computes s id child where
  live := (s.operand isLive member).1
  isValue tidies := (s.tidy tidies).unused member
  below := (s.operand isLive member).2
  width := follows.widths (s.allowed isLive) (fun _ member => s.allowed (s.operand isLive member).1)
    (plain_of_unlowered unlowered).1 _ (List.mem_map_of_mem member)

/-- Follow a recipe on nodes at hand. -/
theorem runs_recipe (powers : Bool) {ids : List NodeId} {pieces : List Piece} (follows : Follows D)
    (grades : Grades A) (isLive : s.live id) (unlowered : ¬ Lowered s id)
    (atHand : ∀ other ∈ ids, Computes s id other)
    (checked : class? (ids.map s.graph.register) pieces = some (s.graph.register id))
    (calm : powers = false → pieces.any Piece.isPower = false)
    (coarsens : pieces.any Piece.isPower = true → Coarsens A)
    (covers : ∀ {v}, s.value id = some v → A.order.Covers v (value? A (ids.map s.value) pieces))
    : (evolution D A).Runs fails s (build ids pieces) (Settles powers s id) := by
  refine (runs_build follows grades isLive atHand checked coarsens).imp ?_
  rintro new t later ⟨adds, lowered⟩
  have face := later.state.face isLive
  have kept : (t.graph.node id).kind.isTerminal = false := by
    have kinds : (t.graph.node id).kind.outline = (s.graph.node id).kind.outline :=
      congrArg Node.kind (later.values.outline isLive)
    rw [← NodeKind.isTerminal_outline, kinds, NodeKind.isTerminal_outline]
    exact (plain_of_unlowered unlowered).2
  have register : t.graph.register id = s.graph.register id :=
    congrArg (fun face : Face => face.type.register) face
  refine ⟨adds.computes.stands follows (later.values.live isLive) kept
    (adds.register.trans register.symm)
    fun {v} hasValue => ?_, lowered,
      { adds.grows with calm := fun none => adds.grows.calm (calm none) }⟩
  rw [later.values.value isLive] at hasValue
  rw [adds.value]
  exact covers hasValue

/-- The classes of an operator and its operands are an entry of its table. -/
theorem entry_of_live (table : List Signature) (follows : Follows D) (isLive : s.live id)
    (found : (s.graph.node id).kind.signatures? = some table)
    : ⟨s.graph.register id, (s.graph.children id).map s.graph.register⟩ ∈ table :=
  follows.signature (s.allowed isLive) found

/-- A power is of integers or of floats. -/
theorem classes_power {x y : NodeId} (follows : Follows D) (isLive : s.live id)
    (kind : (s.graph.node id).kind = .binary .pow x y)
    : s.graph.children id = [x, y]
      ∧ s.graph.register x = s.graph.register id
      ∧ s.graph.register y = s.graph.register id
      ∧ (s.graph.register id = .int ∨ s.graph.register id = .float) := by
  have operands : s.graph.children id = [x, y] := congrArg NodeKind.children kind
  have entry := entry_of_live BinaryOp.pow.signatures follows isLive (by rw [kind]; rfl)
  rw [operands] at entry
  simp only [BinaryOp.signatures, Signature.closed, List.mem_cons, List.not_mem_nil, or_false,
    Signature.mk.injEq] at entry
  rcases entry with ⟨own, classes⟩ | ⟨own, classes⟩ <;> simp_all

/-- A power with a constant exponent is that of the constant. -/
theorem covers_power {x y : NodeId} {n : Int32} {v : V} (isLive : s.live id)
    (kind : (s.graph.node id).kind = .binary .pow x y) (exponent : s.graph.value? y = some (.int n))
    (hasValue : s.value id = some v)
    : ∃ m, s.value x = some m ∧ A.order.Covers v (A.binary .pow m (A.constant (.int n))) := by
  obtain ⟨m, w, valueX, valueY, covers⟩ := Valuation.covers_binary isLive kind hasValue
  have live := (s.operand_kind isLive kind (.tail _ (.head _))).1
  exact ⟨m, valueX, A.binary_mono (A.order.refl m)
    (Valuation.less_constant live exponent valueY) covers⟩

/-- A coarse value is kept by a power of floats. -/
theorem covers_floatPower {x y : NodeId} {v : V} (isLive : s.live id)
    (kind : (s.graph.node id).kind = .binary .pow x y) (isFloat : s.graph.register x = .float)
    (coarse : Coarse A v) (hasValue : s.value id = some v)
    : A.order.Covers v (value? A ((s.graph.children id).map s.value)
        [.unary .log2 0, .binary .multiply 1 2, .unary .pow2 3]) := by
  obtain ⟨a, b, atX, atY, covers⟩ := Valuation.covers_binary isLive kind hasValue
  have values : (s.graph.children id).map s.value = [some a, some b] := by
    rw [Graph.children, Node.children, kind, ← atX, ← atY]
    rfl
  rw [values]
  exact coarse.float (isFloat ▸ s.classed (s.operand_kind isLive kind (.head _)).1 atX) covers

/-- A coarse value is kept by the power of the operands as floats. -/
theorem covers_byFloat {x y : NodeId} {v : V} (isLive : s.live id)
    (kind : (s.graph.node id).kind = .binary .pow x y)
    (isInt : ∀ child ∈ [x, y], s.graph.register child = .int) (coarse : Coarse A v)
    (hasValue : s.value id = some v)
    : A.order.Covers v (value? A ([x, y].map s.value) (floatPower s.graph x y)) := by
  obtain ⟨a, b, atX, atY, covers⟩ := Valuation.covers_binary isLive kind hasValue
  have floats {child c place} {values : List (Option V)} (member : child ∈ [x, y])
      (atChild : s.value child = some c) (atPlace : values.getD place none = some c) :
      A.Classed c .int ∧ Floats A c ((converted s.graph child place).value? A values) := by
    have live := (s.operand_kind isLive kind member).1
    refine ⟨isInt child member ▸ s.classed live atChild, ?_⟩
    rw [converted]
    split
    next w found =>
      obtain ⟨u, isConstant, converts⟩ := Option.bind_eq_some_iff.mp found
      exact .constant (Valuation.less_constant live isConstant atChild) converts
    · rw [Piece.value?, atPlace]
      exact .conversion
  rw [List.map_cons, List.map_singleton, atX, atY]
  obtain ⟨classedX, floatX⟩ := floats (.head _) atX
    (show [some a, some b].getD 0 none = some a from rfl)
  obtain ⟨classedY, floatY⟩ := floats (.tail _ (.head _)) atY
    (show ([some a, some b] ++ [(converted s.graph x 0).value? A [some a, some b]]).getD
    1 none = some b from rfl)
  exact coarse.int classedX classedY floatX floatY covers

/-- One replacement of a node comes to the node, an operand, or a lowered node. -/
theorem runs_lowerOnce (follows : Follows D) (grades : Grades A) (isLive : s.live id)
    : (evolution D A).Runs fails s (lowerOnce id) (Lowers s id) := by
  by_cases lowered : Lowered s id
  · exact .of_ok (t := s) (Graph.lowerOnce_lowered lowered) (.refl s) (.stays lowered)
  have plain := plain_of_unlowered lowered
  have atHand (child) (member : child ∈ s.graph.children id) : Computes s id child :=
    computes_operand follows isLive lowered member
  have handled := (s.handles isLive).resolve_left lowered
  have laws {v} (hasValue : s.value id = some v) : Laws A :=
    handled.elim And.left fun coarsely => (coarsely.2 hasValue).1.laws
  have known := follows.known (s.allowed isLive)
  -- An operand of the class of the node takes its place.
  have operand {x : NodeId} (member : x ∈ s.graph.children id)
      (register : s.graph.register x = s.graph.register id)
      (covers : ∀ {v}, s.value id = some v → A.order.Covers v (s.value x)) : Lowers s id x s :=
    .operand ((atHand x member).stands follows isLive plain.2 register covers)
    (atHand x member).below
  have powers {x y : NodeId} (kind : (s.graph.node id).kind = .binary .pow x y)
      (isInt : s.graph.register id = .int) : s.graph.children id = [x, y]
      ∧ s.graph.register x = .int ∧ s.graph.register y = .int := by
    obtain ⟨operands, atX, atY, _⟩ := classes_power follows isLive kind
    exact ⟨operands, atX.trans isInt, atY.trans isInt⟩
  cases replaces s.graph id with
  | recipe found ran =>
      obtain ⟨checked, powerless⟩ := class?_of_recipe? (entry_of_live _ follows isLive) found
      refine .congr ran ((runs_recipe true follows grades isLive lowered atHand checked nofun
        (fun isPower => by cases powerless.symm.trans isPower) fun {v} hasValue => ?_).imp
          fun _ _ _ => .replaced)
      rcases handled with ⟨laws, exactly⟩ | ⟨_, coarse⟩
      rotate_left
      · obtain ⟨coarse, x, y, kind⟩ := coarse hasValue
        rw [kind] at found
        obtain ⟨isOther, found⟩ := Option.ite_none_left_eq_some.mp found
        obtain rfl := Option.some.inj found
        obtain ⟨_, atX, _, number⟩ := classes_power follows isLive kind
        exact covers_floatPower isLive kind (atX.trans (number.resolve_left isOther)) coarse
          hasValue
      obtain ⟨xs, values, covers⟩ := s.backed isLive hasValue
      have same : (s.graph.children id).map s.value = xs.map some := by
        rw [← List.forall₂_eq_eq_eq, List.forall₂_map_left_iff, List.forall₂_map_right_iff]
        exact values
      rw [same]
      exact laws.covers found exactly
        (s.classes (fun child member => (atHand child member).live) values)
        (s.classed isLive hasValue) covers
  | @operand x kind same ran =>
      refine .of_ok (t := s) ran (.refl s)
        (operand (by rw [Graph.children, Node.children, kind]; exact .head _) same
        fun {v} hasValue => ?_)
      obtain ⟨a, valueX, covers⟩ := Valuation.covers_unary isLive kind hasValue
      have live := (s.operand_kind isLive kind (.head _)).1
      exact ⟨a, valueX, (laws hasValue).same (same ▸ s.classed live valueX) covers⟩
  | @unit x y kind isInt exponent ran =>
      obtain ⟨operands, _, _⟩ := powers kind isInt
      refine .congr ran ((runs_recipe true follows grades isLive lowered
        (fun other member => atHand other
        (by rw [operands]; exact List.mem_singleton.mp member ▸ .head _)) (isInt ▸ rfl) nofun
        (fun isPower => by cases isPower) fun {v} hasValue => ?_).imp fun _ _ _ => .replaced)
      obtain ⟨m, _, covers⟩ := covers_power isLive kind exponent hasValue
      exact ⟨_, rfl, (laws hasValue).powerZero covers⟩
  | @base x y n kind isInt exponent isOne ran =>
      obtain ⟨operands, atX, _⟩ := powers kind isInt
      refine .of_ok (t := s) ran (.refl s)
        (operand (operands ▸ .head _) (atX.trans isInt.symm) fun {v} hasValue => ?_)
      obtain ⟨m, valueX, covers⟩ := covers_power isLive kind exponent hasValue
      rw [valueX]
      exact (laws hasValue).powerSucc isOne covers
  | @product x y n count kind isInt exponent isSucc positive few ran =>
      obtain ⟨operands, atX, _⟩ := powers kind isInt
      have checked := class?_products positive few
      refine .congr ran ((runs_recipe true follows grades isLive lowered
        (fun other member => atHand other
        (by rw [operands]; exact List.mem_singleton.mp member ▸ .head _))
        (by rw [List.map_singleton, atX, isInt]; exact checked) nofun (fun isPower => ?_)
        fun {v} hasValue => ?_).imp fun _ _ _ => .replaced)
      · cases (any_products 0 count).symm.trans isPower
      · obtain ⟨m, valueX, covers⟩ := covers_power isLive kind exponent hasValue
        obtain ⟨count, rfl⟩ := Nat.exists_eq_succ_of_ne_zero (Nat.ne_of_gt positive)
        rw [List.map_singleton, valueX, value?_products rfl]
        exact (laws hasValue).powerSucc isSucc covers
  | @byFloat x y kind isInt inexactly ran =>
      obtain ⟨operands, atX, atY⟩ := powers kind isInt
      obtain ⟨coarsens, coarse⟩ := handled.resolve_left fun exact => by
        cases inexactly.symm.trans exact.2
      have checked := class?_floatPower s.graph x y
      have inside : y < s.graph.size := s.inside (s.operand_kind isLive kind (.tail _ (.head _))).1
      exact .congr (ran.trans (intPowByFloat_eq inside))
        ((runs_recipe true follows grades isLive lowered
          (fun other member => atHand other (operands ▸ member))
          (by rw [List.map_cons, List.map_singleton, atX, atY, isInt]; exact checked) nofun
            (fun _ => coarsens) fun {v} hasValue => covers_byFloat isLive kind
            (List.forall_mem_cons.mpr ⟨atX, List.forall_mem_singleton.mpr atY⟩)
            (coarse hasValue).1 hasValue).imp
            fun _ _ _ => .replaced)
  | fails unknown ran => cases known.symm.trans unknown
  | settled settled ran => exact (lowered (Graph.isLowered_of_isSettled settled)).elim
  | other kind isOther ran =>
      refine (lowered ?_).elim
      rw [Lowered, Graph.isLowered, kind]
      exact decide_eq_true isOther
  | @cast x kind differs missing ran =>
      have knownX : (s.graph.register x).isKnown = true :=
        follows.known (s.allowed (s.operand_kind isLive kind (.head _)).1)
      -- Of known classes that differ, only integers and floats are left.
      refine (lowered ?_).elim
      rw [Lowered, Graph.isLowered, kind, Bool.or_eq_true_iff]
      refine .inr (decide_eq_true ?_)
      have register : (s.graph.node id).register = s.graph.register id := rfl
      rw [register] at known ⊢
      generalize s.graph.register x = source at *
      generalize s.graph.register id = target at *
      cases source <;> cases target <;> simp_all [RegisterClass.isKnown, recipe?]

/-! ## Replacing until nothing changes -/

/-- Lowering leads from some nodes to operands that serve for them and ends with a lowered node. -/
noncomputable def settling (Live : Stock D A → NodeId → Prop) (powers : Bool)
    : (evolution D A).Settling where
  Live := Live
  weight s id := (s.lower id).card
  Moves s id new t := t = s ∧ s.Stands id new
  Ends := Settles powers
  ends_of_moves := by
    rintro s _ u first second third ⟨rfl, stands⟩ later ends
    exact ⟨(stands.later later).trans ends.stands, ends.lowered, ends.grows⟩

theorem runs_settle (Live : Stock D A → NodeId → Prop) {powers : Bool}
    (advances : ∀ {s id}, Live s id →
      (evolution D A).Runs fails s (lowerOnce id) ((settling Live powers).Advances lowerOnce s id))
    (isLive : Live s id)
    : (evolution D A).Runs fails s (step id) (Settles powers s id) :=
  (settling Live powers).runs_settle advances isLive

theorem runs_step (follows : Follows D) (grades : Grades A) (isLive : s.live id)
    : (evolution D A).Runs fails s (step id) (Settles true s id) := by
  refine runs_settle (fun s => s.live) (fun {s id} isLive => ?_) isLive
  refine (runs_lowerOnce follows grades isLive).imp fun new t later lowers => ?_
  cases lowers with
  | stays lowered => exact .stays ⟨.refl isLive, lowered, .refl s⟩
  | operand stands below =>
      have differs : new ≠ id := fun same => lt_irrefl _ (same ▸ below)
      exact .moves ⟨rfl, stands⟩ stands.values.newLive differs
        (s.card_lower_lt stands.values.newLive below)
  | replaced settles => exact .settles settles (Graph.lowerOnce_lowered settles.lowered)

/-- A young power is replaced by other operators. -/
theorem runs_step_young (follows : Follows D) (grades : Grades A) (isYoung : id ∈ s.young)
    (unlowered : ¬ Lowered s id)
    : (evolution D A).Runs fails s (step id) (Settles false s id) := by
  refine runs_settle (fun s id => id ∈ s.young ∧ ¬ Lowered s id)
    (fun {s id} young => ?_) ⟨isYoung, unlowered⟩
  obtain ⟨isYoung, unlowered⟩ := young
  obtain ⟨isLive, isFloat, x, y, kind⟩ := s.powers isYoung
  obtain ⟨operands, atX, atY, _⟩ := classes_power follows isLive kind
  have classes : (s.graph.children id).map s.graph.register = [.float, .float] := by
    rw [operands, List.map_cons, List.map_singleton, atX, atY, isFloat]
  have code : lowerOnce id s.graph
      = build (s.graph.children id) [.unary .log2 0, .binary .multiply 1 2,
        .unary .pow2 3] s.graph := by
    rw [lowerOnce, Edit.read_bind, operands]
    simp only [kind, show (s.graph.node id).register = .float from isFloat]
    rfl
  refine .congr code ((runs_recipe false follows grades isLive unlowered
    (fun other => computes_operand follows isLive unlowered) (by rw [classes, isFloat]; rfl)
    (fun _ => rfl) (fun isPower => by cases isPower) fun {v} hasValue => ?_).imp fun new t later
    settles =>
      .settles settles (Graph.lowerOnce_lowered settles.lowered))
  -- A power of floats is not lowered exactly.
  rcases (s.handles isLive).resolve_left unlowered with ⟨_, exactly⟩ | ⟨_, coarse⟩
  · rw [Graph.lowersExactly, kind, isFloat] at exactly
    cases exactly
  · exact covers_floatPower isLive kind (atX.trans isFloat) (coarse hasValue).1 hasValue

end StreamExpr.Lowering
