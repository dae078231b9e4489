import StreamExpr.Proofs.Rewriting
import StreamExpr.Proofs.LoweringRules

/-! Lowering comes to an end.
An operator on floats is lowered to nodes that are stable, but for a power of two, which is replaced
once more if it is an integer. An integer power may be computed by floats: the conversions and the
float power that are added for it are lowered in turn, and the conversion of the result has an
instruction.
-/

namespace StreamExpr.Lowering

/-! ## What it costs -/

/-- How many nodes it takes to lower a node. Integers may take more than floats do. -/
def need (n : Node) : Nat :=
  if isSettled n.kind then 0
  else
    match n.kind with
    | .unary .pow2 _ => if n.register = .int then 2 else 0
    | _ => if n.register = .int then 25 else 7

theorem need_le {n : Node} : need n ≤ if n.register = .int then 25 else 7 := by
  rw [need]
  split
  · exact Nat.zero_le _
  · split
    · split <;> decide
    · exact Nat.le_refl _

theorem need_outline {n other : Node} (same : n.outline = other.outline) : need n = need other := by
  have forgets (n : Node) : need n.outline = need n := by
    obtain ⟨kind, type, overload⟩ := n
    cases kind with
    | unary op x => cases op <;> rfl
    | _ => rfl
  rw [← forgets, same, forgets]

theorem need_le_grant (n : Node) : need n ≤ 25 := by
  refine need_le.trans ?_
  split <;> decide

/-- What lowering costs. -/
def tariff : Tariff :=
  .flat need 7 25 need_outline need_le_grant

variable {base limit : Nat} {bound : ℚ} {ids : List NodeId} {s : RankedGraph}
    {x y z : NodeId} {r : RegisterClass}

theorem need_of_settled {n : Node} (settled : isSettled n.kind = true) : tariff.need n = 0 :=
  if_pos settled

theorem fits_of_settled {n : Node} (settled : isSettled n.kind = true) : tariff.Fits 0 n :=
  ⟨trivial, Nat.le_of_eq (need_of_settled settled),
    (Nat.le_of_eq (need_of_settled settled)).trans (Nat.zero_le 7)⟩

/-- Nodes of other classes than integers may be added. -/
theorem fits_of_ne {n : Node} (isOther : n.register ≠ .int) : tariff.Fits 7 n := by
  have few : need n ≤ 7 := need_le.trans (Nat.le_of_eq (if_neg isOther))
  exact ⟨trivial, few, few⟩

/-- A node that needs nothing is left alone. -/
theorem lowerOnce_of_need {g : Graph} {id : NodeId} (inert : tariff.need (g.node id) = 0)
    : lowerOnce id g = .ok id g := by
  change need (g.node id) = 0 at inert
  rw [need] at inert
  split at inert
  · exact lowerOnce_settled ‹_›
  · split at inert
    next x kind =>
      split at inert
      case isTrue => cases inert
      case isFalse isOther =>
        rw [lowerOnce, Edit.read_bind, kind]
        simp only [isOther, if_false]
        rfl
    · split at inert <;> cases inert

/-! ## Replacements that are stable -/

/-- Nodes to add that stay as they are, on nodes at hand. -/
def isStable (count : Nat) : List Piece → Bool
  | [] => true
  | piece :: rest =>
      isSettled (piece.kind []) && piece.places.all (· < count) && isStable (count + 1) rest

theorem isSettled_kind (piece : Piece)
    : isSettled (piece.kind ids) = isSettled (piece.kind []) := by
  cases piece <;> rfl

/-- A node that stays as it is may be added. -/
theorem concludes_piece {piece : Piece} (stock : tariff.Stock base bound limit ids s)
    (settled : isSettled (piece.kind []) = true) (places : piece.places.all (· < ids.length) = true)
    : tariff.building.Concludes s (piece.add ids) (tariff.Built base bound (limit + 1) ids) := by
  have settled : isSettled (piece.kind ids) = true := (isSettled_kind piece).trans settled
  have member {place : Nat} (isPlace : place ∈ piece.places) : ids.getD place 0 ∈ ids := by
    have inside : place < ids.length := of_decide_eq_true (List.all_eq_true.mp places place isPlace)
    rw [List.getD_eq_getElem?_getD, List.getElem?_eq_getElem inside]
    exact List.getElem_mem inside
  have built {n : Node} {id : NodeId} {t : RankedGraph} (settled : isSettled n.kind = true)
      (made : tariff.Made base bound (limit + 1) ids n id t) : tariff.Built base
      bound (limit + 1) ids id t :=
    made.built (need_of_settled settled) (Nat.le_refl _) (List.Subset.refl _)
  cases piece with
  | constant value =>
      exact (stock.constant (fits_of_settled settled)).imp fun _ _ _ => built settled
  | unary op x =>
      exact (stock.unary (member (.head _)) (fits_of_settled settled)).imp
        fun _ _ _ => built settled
  | binary op x y =>
      exact (stock.binary (member (.head _)) (member (.tail _ (.head _)))
        (fits_of_settled settled)).imp
        fun _ _ _ => built settled
  | ternary op x y z =>
      exact (stock.ternary (member (.head _)) (member (.tail _ (.head _)))
        (member (.tail _ (.tail _ (.head _)))) (fits_of_settled settled)).imp fun _ _ _ =>
        built settled
  | conversion target x => cases settled

/-- So may several of them. -/
theorem concludes_build {pieces : List Piece} (stock : tariff.Stock base bound limit ids s)
    (stable : isStable ids.length pieces = true) (some : pieces ≠ [])
    : tariff.building.Concludes s (build ids pieces)
      (tariff.Built base bound (limit + pieces.length) ids) := by
  induction pieces generalizing s ids limit with
  | nil => exact (some rfl).elim
  | cons piece rest ih =>
      obtain ⟨atHand, more⟩ := Bool.and_eq_true_iff.mp stable
      obtain ⟨settled, places⟩ := Bool.and_eq_true_iff.mp atHand
      have first := concludes_piece stock settled places
      cases rest with
      | nil => exact first
      | cons next rest =>
          refine .bind first fun id _ _ built => ?_
          have stock := built.stock.mono (Nat.le_refl _) (show ids ++ [id] ⊆ id :: ids by simp)
          refine (ih stock (by simpa using more) (List.cons_ne_nil _ _)).imp fun _ _ _ built => ?_
          exact built.mono (by simp only [List.length_cons]; omega) fun _ member => by simp [member]

theorem isStable_products (place count : Nat)
    : isStable (place + 1) (products place count) = true := by
  induction count generalizing place with
  | zero => rfl
  | succ count ih => simp [products, isStable, Piece.places, Piece.kind, isSettled, ih]

theorem length_products (place count : Nat) : (products place count).length = count := by
  induction count generalizing place with
  | zero => rfl
  | succ count ih => simp [products, ih]

/-- A node that is lowered, other than a power of two, needs as much as its class may. -/
theorem need_of_unsettled {n : Node} (unsettled : isSettled n.kind = false)
    (isOther : ∀ x, n.kind ≠ .unary .pow2 x)
    : tariff.need n = if n.register = .int then 25 else 7 := by
  change need n = _
  rw [need, unsettled, if_neg Bool.false_ne_true]
  split
  · exact (isOther _ ‹_›).elim
  · rfl

/-- Recipes are stable, but for that of a float power, and take no more nodes than there is room
for. -/
theorem stable_of_recipe? {n : Node} {classes : List RegisterClass} {pieces : List Piece}
    (isOther : ∀ x y, n.kind ≠ .binary .pow x y)
    (found : recipe? classes n.register n.kind = some pieces)
    : isSettled n.kind = false
      ∧ isStable n.children.length pieces = true
      ∧ pieces ≠ []
      ∧ pieces.length ≤ tariff.need n := by
  have enough (unsettled : isSettled n.kind = false) (isOther : ∀ x, n.kind ≠ .unary .pow2 x)
    : 4 ≤ tariff.need n := by
    rw [need_of_unsettled unsettled isOther]
    split <;> decide
  obtain ⟨kind, type, overload⟩ := n
  simp only [Node.children] at *
  have closes (unsettled : isSettled kind = false) (proper : ∀ x, kind ≠ .unary .pow2 x)
      (stable : isStable kind.children.length pieces && !pieces.isEmpty && decide
      (pieces.length ≤ 4)) : isSettled kind = false ∧ isStable kind.children.length pieces = true
        ∧ pieces ≠ []
        ∧ pieces.length ≤ tariff.need ⟨kind, type, overload⟩ := by
    simp only [Bool.and_eq_true, Bool.not_eq_true', List.isEmpty_eq_false_iff,
      decide_eq_true_eq] at stable
    exact ⟨unsettled, stable.1.1, stable.1.2, stable.2.trans (enough unsettled proper)⟩
  cases kind with
  | unary op x =>
      cases op with
      | typeConversion =>
          simp only [recipe?] at found
          split at found <;> cases found <;> exact closes rfl
            (fun _ impossible => by cases impossible) rfl
      | negate =>
          obtain ⟨zero, _, rfl⟩ := Option.map_eq_some_iff.mp found
          exact closes rfl (fun _ impossible => by cases impossible) rfl
      | saturate =>
          obtain ⟨zero, _, found⟩ := Option.bind_eq_some_iff.mp found
          obtain ⟨one, _, rfl⟩ := Option.map_eq_some_iff.mp found
          exact closes rfl (fun _ impossible => by cases impossible) rfl
      | radToDeg | degToRad | frac =>
          cases found
          exact closes rfl (fun _ impossible => by cases impossible) rfl
      | pow2 =>
          obtain ⟨isInt, found⟩ := Option.ite_none_right_eq_some.mp found
          cases found
          refine ⟨rfl, rfl, List.cons_ne_nil _ _, ?_⟩
          change 2 ≤ need ⟨.unary .pow2 x, type, overload⟩
          rw [need, if_neg (by exact Bool.false_ne_true), isInt]
          exact Nat.le_refl 2
      | _ => cases found
  | binary op x y =>
      cases op with
      | modulo =>
          simp only [recipe?] at found
          split at found <;> cases found <;> exact closes rfl
            (fun _ impossible => by cases impossible) rfl
      | log =>
          cases found
          exact closes rfl (fun _ impossible => by cases impossible) rfl
      | pow => exact (isOther x y rfl).elim
      | _ => cases found
  | ternary op x y z =>
      cases op with
      | clamp | lerp =>
          cases found
          exact closes rfl (fun _ impossible => by cases impossible) rfl
      | _ => cases found
  | _ => cases found

/-! ## Powers -/

/-- A float power ends with a power of two, which is replaced once more if it is an integer. -/
theorem concludes_floatPow (stock : tariff.Stock base bound limit ids s)
    (left : x ∈ ids) (right : y ∈ ids)
    : tariff.building.Concludes s (floatPow x y) fun id t =>
        need (t.graph.node id) ≤ 2 ∧ tariff.Stock base bound (limit + 5) [id] t := by
  refine .bind (stock.unary left (fits_of_settled rfl)) fun log _ _ built => ?_
  refine .bind (built.stock.binary (by simp [right]) (by simp) (fits_of_settled rfl))
    fun product t _ built => ?_
  have few : need (t.graph.deduced (.ofKind (.unary .pow2 product) .unknown)) ≤ 2 := by
    rw [need, if_neg (by exact Bool.false_ne_true)]
    change (if _ then 2 else 0) ≤ 2
    split <;> decide
  have fits : tariff.Fits 2 (t.graph.deduced (.ofKind (.unary .pow2 product) .unknown)) :=
    ⟨trivial, few, few.trans (by decide)⟩
  refine (built.stock.unary (by simp) fits).imp fun power _ _ made => ⟨made.node ▸ few, ?_⟩
  exact made.stock.mono (by omega) (by simp)

/-- A node is brought to the class of floats. -/
theorem concludes_convert (stock : tariff.Stock base bound limit ids s) (member : x ∈ ids)
    : tariff.building.Concludes s (Typing.convert x .float) fun id t =>
        t.graph.register id = .float ∧ tariff.Stock base bound (limit + 8) (id :: ids) t := by
  rw [Typing.convert, Tariff.concludes_read]
  split
  next value found =>
    obtain ⟨constant, _, converted⟩ := Option.bind_eq_some_iff.mp found
    refine (stock.constant (fits_of_settled rfl)).imp fun id t _ made =>
      ⟨?_, made.stock.mono (by omega) (by simp)⟩
    rw [Graph.register, made.node]
    exact Value.register_of_convert? converted
  · have fits : tariff.Fits 7 ⟨.unary .typeConversion x, (s.graph.type x).withRegister .float,
      some 0⟩ := fits_of_ne fun same => by cases same
    refine (stock.conversion member fits).imp fun id t _ made =>
      ⟨?_, made.stock.mono (by omega) (by simp)⟩
    rw [Graph.register, made.node]
    rfl

/-- A power of floats is a float, or of no known class. -/
theorem register_pow {g : Graph} (left : g.register x = .float) (right : g.register y = .float)
    : (g.deduced (.ofKind (.binary .pow x y) .unknown)).register ∈ [.float, .unknown] := by
  change (g.infer (.ofKind (.binary .pow x y) .unknown)).1.register ∈ _
  rcases g.infer_cases (n := .ofKind (.binary .pow x y) .unknown)
    rfl with unknown | ⟨i, width, resolved, _, inferred⟩
  · rw [unknown]
    exact List.mem_cons_of_mem _ List.mem_cons_self
  · have classes : [x, y].map g.register = [.float, .float] := by
      rw [List.map_cons, List.map_cons, left, right]; rfl
    rw [show (Node.ofKind (.binary .pow x y) .unknown).children.map g.register
      = _ from classes] at resolved
    obtain rfl : 0 = i := Option.some.inj resolved
    rw [inferred]
    exact List.mem_cons_self

/-- The power of two operands as floats, before its conversion. -/
theorem concludes_power (stock : tariff.Stock base bound limit ids s)
    (left : x ∈ ids) (right : y ∈ ids)
    : tariff.building.Concludes s
        (do
          let x ← Typing.convert x .float
          let y ← Typing.convert y .float
          Edit.binary .pow x y)
        fun id t => t.graph.register id ∈ [.float, .unknown]
          ∧ tariff.Stock base bound (limit + 24) [id] t := by
  refine .bind (concludes_convert stock left) fun a _ _ converted => ?_
  obtain ⟨isFloat, stock⟩ := converted
  refine .bind (concludes_convert stock (by simp [right])) fun b t later converted => ?_
  obtain ⟨isFloatToo, grown⟩ := converted
  have inside := (stock.below a List.mem_cons_self).inside
  have kept : t.graph.register a = .float := by
    rw [Graph.register, later.appends.node inside]
    exact isFloat
  have classes := register_pow kept isFloatToo
  have fits : tariff.Fits 7 (t.graph.deduced (.ofKind (.binary .pow a b) .unknown)) :=
    fits_of_ne fun isInt => by
      rw [isInt] at classes
      cases List.mem_pair.mp classes with
      | inl impossible => cases impossible
      | inr impossible => cases impossible
  refine (grown.binary (by simp) (by simp) fits).imp fun power _ _ made =>
    ⟨?_, made.stock.mono (by omega) (by simp)⟩
  rw [Graph.register, made.node]
  exact classes

/-! ## One replacement -/

variable {id : NodeId}

/-- The operands of a node that is lowered are at hand for its replacement. -/
theorem stock_of_unsettled (fair : tariff.Fair base s.graph)
    (unsettled : isSettled (s.graph.node id).kind = false)
    : tariff.Stock base (s.rank id).level (tariff.worth base s.graph) (s.graph.children id) s :=
  fair.stock (s.isShared_of_kind fun v chosen kind => by
    rw [kind] at unsettled
    cases unsettled)

/-- What is built of stable nodes from operands of a node is a stable replacement. -/
theorem advances_of_stable {pieces : List Piece} (fair : tariff.Fair base s.graph)
    (unsettled : isSettled (s.graph.node id).kind = false) (known : ids ⊆ s.graph.children id)
    (ran : lowerOnce id s.graph = build ids pieces s.graph)
    (stable : isStable ids.length pieces = true) (some : pieces ≠ [])
    (few : pieces.length ≤ tariff.need (s.graph.node id))
    : tariff.Advances lowerOnce base s id (lowerOnce id) := by
  have stock := (stock_of_unsettled fair unsettled).mono (Nat.le_refl _) known
  refine .congr ran (Tariff.advances_of_built (le_refl _)
    ((concludes_build stock stable some).imp fun _ _ _ built => ?_))
  exact ⟨lowerOnce_of_need built.inert, built.stock.mono (Nat.add_le_add_left few _) (by simp)⟩

/-- An operand of the same class may be the replacement. Witness: it needs no more. -/
theorem advances_of_operand (fair : tariff.Fair base s.graph)
    (unsettled : isSettled (s.graph.node id).kind = false)
    (isOther : ∀ x, (s.graph.node id).kind ≠ .unary .pow2 x) (operand : x ∈ s.graph.children id)
    (same : s.graph.register x = s.graph.register id ∨ s.graph.register id = .int)
    : (tariff.settling base).Advances lowerOnce s id x s := by
  have own := need_of_unsettled unsettled isOther
  refine Tariff.advances_of_lower fair (s.operand operand).1 (s.operand operand).2 ?_ ?_
  · rw [own]
    rcases same with same | isInt
    · rw [← show s.graph.register x = (s.graph.node id).register from same]
      exact need_le
    · rw [show (s.graph.node id).register = .int from isInt, if_pos rfl]
      exact tariff.granted _
  · rw [own]
    split <;> decide

/-- A float has an instruction for its conversion to an integer. -/
theorem lowerOnce_conversion {g : Graph} (kind : (g.node id).kind = .unary .typeConversion x)
    (isInt : (g.node id).register = .int) (classes : g.register x ∈ [.float, .unknown])
    : lowerOnce id g = .ok id g := by
  rw [lowerOnce, Edit.read_bind, kind, isInt]
  simp only
  rw [conversion, Edit.read_bind]
  rcases List.mem_pair.mp classes with isFloat | isUnknown
  · rw [isFloat]
    rfl
  · rw [isUnknown]
    rfl

/-- An integer power that is computed by floats. Witness: the conversion of the result is stable. -/
theorem advances_intPowByFloat (fair : tariff.Fair base s.graph)
    (kind : (s.graph.node id).kind = .binary .pow x y) (isInt : s.graph.register id = .int)
    : tariff.Advances lowerOnce base s id (intPowByFloat x y) := by
  have unsettled : isSettled (s.graph.node id).kind = false := kind ▸ rfl
  have operands : s.graph.children id = [x, y] := congrArg NodeKind.children kind
  have stock := operands ▸ stock_of_unsettled fair unsettled
  have split : intPowByFloat x y
      = (do
          let x ← Typing.convert x .float
          let y ← Typing.convert y .float
          Edit.binary .pow x y) >>= Edit.conversion .int := by
    simp only [intPowByFloat, bind_assoc]
  rw [split]
  have power := concludes_power stock (x := x) (y := y) (.head _) (.tail _ (.head _))
  refine .bind (Tariff.concludes_of_building power) fun power t later found => ?_
  obtain ⟨building, classes, stock⟩ := found
  have below := stock.below power (List.mem_singleton_self power)
  refine (RankedGraph.concludes_conversion below trivial).imp fun new u later added => ?_
  have node := added.node
  refine .settles ⟨⟨stock.fair.covers.trans later.appends.size, fun _ _ => trivial⟩,
    added.below.inside, le_of_lt (added.below.rank_lt (le_refl _)), fun {i} isNew isInside => ?_,
    ?_⟩ ?_
  · by_cases before : i < t.graph.size
    · rw [later.appends.node before]
      exact .inr (building.added isNew before).2
    · left
      rw [added.graph, Graph.size_push] at isInside
      exact (Nat.le_antisymm (Nat.le_of_lt_succ isInside) (Nat.le_of_not_lt before)).trans
        added.isNew.symm
  · have worth := stock.worth
    have hard
        : ¬ tariff.need
          (⟨.unary .typeConversion power, (t.graph.type power).withRegister .int, some 0⟩ : Node)
          ≤ tariff.mild :=
      show ¬ 25 ≤ 7 by decide
    rw [added.graph, Tariff.worth_push stock.fair.covers, Tariff.reserve, if_neg hard,
      need_of_unsettled unsettled fun _ other => (by cases kind.symm.trans other),
      show (s.graph.node id).register = .int from isInt]
    exact Nat.add_le_add_right worth 1
  · refine lowerOnce_conversion (congrArg Node.kind node) (congrArg Node.register node) ?_
    change u.graph.register power ∈ _
    rw [Graph.register, later.appends.node below.inside]
    exact classes

theorem covers_lowerOnce : tariff.Covers lowerOnce where
  output {g id} isOutput := lowerOnce_settled
    (isSettled_of_isFixed (Node.isFixed_of_isOutput isOutput))
  advances {base s id} fair inside := by
    have stays (ran : lowerOnce id s.graph = .ok id s.graph)
      : tariff.Advances lowerOnce base s id (lowerOnce id) :=
        .congr ran (.pure (.stays (Tariff.Ends.refl fair inside)))
    have power {x y : NodeId} (kind : (s.graph.node id).kind = .binary .pow x y) :
        isSettled (s.graph.node id).kind = false ∧ s.graph.children id = [x, y]
          ∧ ∀ z, (s.graph.node id).kind ≠ .unary .pow2 z :=
      ⟨kind ▸ rfl, congrArg NodeKind.children kind, fun _ other => by cases kind.symm.trans other⟩
    cases replaces s.graph id with
    | @recipe pieces found ran =>
        by_cases isPower : ∃ x y, (s.graph.node id).kind = .binary .pow x y
        · obtain ⟨x, y, kind⟩ := isPower
          obtain ⟨unsettled, operands, isOther⟩ := power kind
          rw [kind] at found
          obtain ⟨_, found⟩ := Option.ite_none_left_eq_some.mp found
          cases found
          rw [operands] at ran
          have few : 7 ≤ tariff.need (s.graph.node id) := by
            rw [need_of_unsettled unsettled isOther]
            split <;> decide
          refine .congr ran (Tariff.advances_of_nearly inside (le_refl _) (by omega)
            (Nat.add_le_add_left few _) ?_)
          exact concludes_floatPow (operands ▸ stock_of_unsettled fair unsettled)
            (.head _) (.tail _ (.head _))
        · obtain ⟨unsettled, stable, some, few⟩ :=
            stable_of_recipe? (fun x y kind => isPower ⟨x, y, kind⟩) found
          exact advances_of_stable fair unsettled (List.Subset.refl _) ran stable some few
    | operand kind same ran =>
        have operands : s.graph.children id = _ := congrArg NodeKind.children kind
        refine .congr ran
          (.pure (advances_of_operand fair (kind ▸ rfl) (fun _ other => ?_)
          (operands ▸ .head _) (.inl same)))
        cases kind.symm.trans other
    | unit kind isInt _ ran =>
        obtain ⟨unsettled, operands, isOther⟩ := power kind
        refine advances_of_stable fair unsettled (by simp [operands]) ran rfl
          (List.cons_ne_nil _ _) ?_
        rw [need_of_unsettled unsettled isOther]
        split <;> decide
    | base kind isInt _ _ ran =>
        obtain ⟨unsettled, operands, isOther⟩ := power kind
        exact .congr ran
          (.pure (advances_of_operand fair unsettled isOther (operands ▸ .head _) (.inr isInt)))
    | @product _ _ _ count kind isInt _ _ positive few ran =>
        obtain ⟨unsettled, operands, isOther⟩ := power kind
        refine advances_of_stable fair unsettled (by simp [operands]) ran
          (isStable_products 0 count) ?_ ?_
        · exact List.ne_nil_of_length_pos ((length_products 0 count).symm ▸ positive)
        · rw [need_of_unsettled unsettled isOther, length_products,
            if_pos (show (s.graph.node id).register = .int from isInt)]
          omega
    | byFloat kind isInt _ ran => exact .congr ran (advances_intPowByFloat fair kind isInt)
    | fails _ ran => exact .congr ran (.throw fun same => by cases same)
    | settled _ ran | other _ _ ran | cast _ _ _ ran => exact stays ran

end StreamExpr.Lowering
