import StreamExpr.Proofs.LoweringStock

/-! New nodes of lowering.
Recipes are checked on the classes of the operands that they start from. New nodes rank between the
node that they replace and its operands. All of them are lowered, but for powers of floats.
-/

namespace StreamExpr.Lowering

variable {V : Type} {A : Algebra V} {D : Discipline}
  {s t u : Stock D A} {top id : NodeId} {r : RegisterClass} {fails : Prop}

/-- A node below another, and no wider. -/
structure Computes (s : Stock D A) (top id : NodeId) : Prop where
  live : s.live id
  isValue : D.Tidies → s.graph.isOutput id = false
  below : s.rank id < s.rank top
  width : (s.graph.type id).width = 1 ∨ (s.graph.type id).width = (s.graph.type top).width

theorem Computes.later (computes : Computes s top id) (topLive : s.live top) (later : s.Later t)
    : Computes t top id := by
  have typeTop : t.graph.type top = s.graph.type top :=
    congrArg Face.type (later.state.face topLive)
  have type : t.graph.type id = s.graph.type id :=
    congrArg Face.type (later.state.face computes.live)
  refine ⟨later.values.live computes.live, fun tidies =>
    (later.state.isOutput computes.live).trans (computes.isValue tidies), ?_, ?_⟩
  · rw [later.values.rank computes.live, later.values.rank topLive]
    exact computes.below
  · rw [type, typeTop]
    exact computes.width

/-- Nodes were added that are lowered or young, the latter only if powers are among them. -/
structure Grows (powers : Bool) (s t : Stock D A) : Prop where
  appends : s.graph.Appends t.graph
  young : s.young ⊆ t.young
  calm : powers = false → t.young = s.young
  lowered : ∀ {id}, t.live id → s.live id ∨ Lowered t id ∨ id ∈ t.young

theorem Grows.refl {powers : Bool} (s : Stock D A) : Grows powers s s :=
  ⟨.refl _, fun _ isYoung => isYoung, fun _ => rfl, .inl⟩

theorem Grows.trans {first second : Bool} (grows : Grows first s t) (more : Grows second t u)
    : Grows (first || second) s u where
  appends := grows.appends.trans more.appends
  young _ isYoung := more.young (grows.young isYoung)
  calm none := by
    obtain ⟨noFirst, noSecond⟩ := Bool.or_eq_false_iff.mp none
    rw [more.calm noSecond, grows.calm noFirst]
  lowered isLive := by
    rcases more.lowered isLive with wasLive | isNew
    · refine (grows.lowered wasLive).imp_right (Or.imp ?_ fun isYoung => more.young isYoung)
      exact Stock.lowered_appends more.appends wasLive
    · exact .inr isNew

/-- A node was added below another, the last of some. -/
structure Adds (powers : Bool) (s t : Stock D A) (top new : NodeId) (r : RegisterClass)
    (made : Option V) : Prop where
  computes : Computes t top new
  register : t.graph.register new = r
  value : t.value new = made
  grows : Grows powers s t

/-- What a new node can be: typed, of a class and a value, no wider than the node that it is added
below, and no vector that is put together. -/
structure Fits (s : Stock D A) (top : NodeId) (n : Node) (r : RegisterClass) (made : Option V)
    : Prop where
  operand : ∀ child ∈ n.children, Computes s top child
  sound : s.graph.Sound n
  unmixed : n.kind.mixes = false
  whole : n.kind.isAssembly = false ∧ n.kind.isTerminal = false
    ∨ n.isConstant = true ∧ n.type.width = 1
  register : n.register = r
  width : n.type.width = 1 ∨ n.type.width = (s.graph.type top).width
  value : s.derived n = made
  classed : ∀ {v}, made = some v → A.Classed v r

/-- The state with a node added below another. -/
structure Pushed (s t : Stock D A) (top : NodeId) (n : Node) (r : RegisterClass) (made : Option V)
    : Prop where
  graph : t.graph = s.graph.push n
  later : s.Later t
  young : t.young = s.young
  computes : Computes t top s.graph.size
  value : t.value s.graph.size = made
  live : ∀ {id}, t.live id → s.live id ∨ id = s.graph.size

theorem Fits.exists_pushed {n : Node} {made : Option V} (follows : Follows D)
    (fits : Fits s top n r made) (topLive : s.live top)
    (handles : s.graph.isLowered n = true ∨ Coarsely A n made)
    : ∃ t, Pushed s t top n r made := by
  have kinds : n.kind.isAssembly = false ∧ (∀ decl, n.kind ≠ .input decl) ∧ n.isOutput = false
      ∧ (n.kind.isTerminal = true → n.type.width = 1) := by
    have whole := fits.whole
    rw [Node.isConstant] at whole
    rw [Node.isOutput]
    cases kind : n.kind <;> simp [kind, NodeKind.isAssembly, NodeKind.isTerminal] at whole ⊢
    exact whole
  obtain rfl := fits.register
  obtain rfl := fits.value
  have allowed : D.Allows s.graph n :=
    follows.allows (s.allowed topLive) fits.sound fits.unmixed kinds.1 kinds.2.2.2 fits.width
  have operand (child : NodeId) (isOperand : child ∈ n.children) :=
    And.intro (fits.operand child isOperand).live (fits.operand child isOperand).isValue
  obtain ⟨rank, lower, above⟩ := s.toValuation.exists_rank fun child isOperand =>
    And.intro (fits.operand child isOperand).live (fits.operand child isOperand).below
  let t := s.push n rank above operand allowed fits.classed handles
  have later : s.Later t :=
    ⟨s.toValuation.push_later n rank above, s.state.push_later n operand allowed kinds.2.1,
      Stock.lowered_appends (s.graph.appends_push n)⟩
  have isNode : (s.graph.push n).node s.graph.size = n := s.graph.node_push_self n
  refine ⟨t, rfl, later, rfl, ⟨.inr rfl, fun _ => (congrArg Node.isOutput isNode).trans kinds.2.2.1,
    ?_, ?_⟩, Function.update_self .., fun isLive => isLive⟩
  · rw [later.values.rank topLive, show t.rank s.graph.size = rank from Function.update_self ..]
    exact lower
  · have typeTop : t.graph.type top = s.graph.type top :=
      congrArg Face.type (later.state.face topLive)
    rw [typeTop, show t.graph.type s.graph.size = n.type from congrArg Node.type isNode]
    exact fits.width

/-- A node that was added is lowered, or a float power that is young from then on. -/
theorem Pushed.adds {n : Node} {made : Option V} (pushed : Pushed s t top n r made) (powers : Bool)
    (register : n.register = r)
    (way : Lowered t s.graph.size ∨ (n.register = .float ∧ ∃ x y, n.kind = .binary .pow x y)
    ∧ powers = true)
    : ∃ u, u.graph = t.graph ∧ s.Later u ∧ Adds powers s u top s.graph.size r made := by
  have appends : s.graph.Appends t.graph := pushed.graph ▸ s.graph.appends_push n
  have isNode : t.graph.node s.graph.size = n := pushed.graph ▸ s.graph.node_push_self n
  have isRegister : t.graph.register s.graph.size = r :=
    (congrArg Node.register isNode).trans register
  rcases way with lowered | ⟨⟨isFloat, isPower⟩, rfl⟩
  · refine ⟨t, rfl, pushed.later, pushed.computes, isRegister, pushed.value, appends,
      ?_, fun _ => pushed.young,
      fun isLive => ?_⟩
    · exact pushed.young ▸ fun _ isYoung => isYoung
    · rcases pushed.live isLive with before | rfl
      · exact .inl before
      · exact .inr (.inl lowered)
  · let u := t.mark pushed.computes.live ((congrArg Node.register isNode).trans isFloat)
      (isNode.symm ▸ isPower)
    have marked : u.young = insert s.graph.size s.young :=
      congrArg (insert s.graph.size) pushed.young
    refine ⟨u, rfl, ⟨pushed.later.values, pushed.later.state, pushed.later.lowered⟩,
      ⟨pushed.computes.live, pushed.computes.isValue, pushed.computes.below,
        pushed.computes.width⟩, isRegister,
      pushed.value, appends, ?_, nofun, fun isLive => ?_⟩
    · exact marked ▸ Finset.subset_insert _ _
    · rcases pushed.live isLive with before | rfl
      · exact .inl before
      · exact .inr (.inr (marked ▸ Finset.mem_insert_self _ _))

/-- An operator on nodes below another whose classes are those of an entry. -/
theorem fits_operator (kind : NodeKind) {table : List Signature} (grades : Grades A)
    (found : kind.signatures? = some table) (unmixed : kind.mixes = false)
    (entry : ⟨r, kind.children.map s.graph.register⟩ ∈ table ∧ r.isKnown = true)
    (computes : ∀ child ∈ kind.children, Computes s top child)
    : (s.graph.deduced (.ofKind kind .unknown)).kind = kind
      ∧ Fits s top (s.graph.deduced (.ofKind kind .unknown)) r
        (s.derived (s.graph.deduced (.ofKind kind .unknown))) := by
  have widths : ∀ t ∈ kind.children.map s.graph.type,
    t.width = 1 ∨ t.width = (s.graph.type top).width := List.forall_mem_map.mpr
    fun child isOperand => (computes child isOperand).width
  obtain ⟨isKind, sound, register, width⟩ := Graph.sound_deduced found
    unmixed entry.1 entry.2 widths
  have children : (s.graph.deduced (.ofKind kind .unknown)).children = kind.children :=
    congrArg NodeKind.children isKind
  refine ⟨isKind, children ▸ computes, sound, isKind.symm ▸ unmixed,
    .inl (isKind.symm ▸ Graph.plain_of_found found), register, width, rfl, fun {v} made => ?_⟩
  obtain ⟨xs, values, result⟩ := Option.bind_eq_some_iff.mp made
  rw [children] at values
  have classes := s.classes (fun child isOperand => (computes child isOperand).live)
    (mapM_eq_some.mp values)
  exact grades.operator (isKind.symm ▸ found) entry.1
    (List.forall₂_map_right_iff.mpr classes.flip) result

/-- A place with a class holds one of the nodes at hand. -/
theorem mem_of_place {ids : List NodeId} {x : Nat} {a : RegisterClass}
    (atPlace : (ids.map s.graph.register)[x]? = some a)
    : ids.getD x 0 ∈ ids
      ∧ s.graph.register (ids.getD x 0) = a
      ∧ (ids.map s.value).getD x none = s.value (ids.getD x 0) := by
  rw [List.getElem?_map] at atPlace
  obtain ⟨id, isPlace, register⟩ := Option.map_eq_some_iff.mp atPlace
  have here : ids.getD x 0 = id := by simp [isPlace]
  exact here ▸ ⟨List.mem_of_getElem? isPlace, register, by simp [isPlace]⟩

/-- A piece on nodes below another fits there. -/
theorem fits_piece {ids : List NodeId} {piece : Piece} (grades : Grades A)
    (atHand : ∀ id ∈ ids, Computes s top id)
    (checked : piece.class? (ids.map s.graph.register) = some r)
    : (piece.node s.graph ids).kind = piece.kind ids
      ∧ Fits s top (piece.node s.graph ids) r (piece.value? A (ids.map s.value)) := by
  have place {x : Nat} {a : RegisterClass} (atPlace : (ids.map s.graph.register)[x]? = some a) :
      Computes s top (ids.getD x 0) ∧ s.graph.register (ids.getD x 0) = a
        ∧ (ids.map s.value).getD x none = s.value (ids.getD x 0) :=
    (mem_of_place atPlace).imp_left (atHand _)
  cases piece with
  | constant c =>
      obtain rfl := Option.some.inj checked
      refine ⟨rfl, fun _ impossible => (List.not_mem_nil impossible).elim,
        s.graph.sound_constant c, rfl, .inr ⟨rfl, rfl⟩,
        rfl, .inl rfl, Valuation.derived_constant rfl, fun made => ?_⟩
      exact Option.some.inj made ▸ grades.constant c
  | unary op x =>
      obtain ⟨plain, checked⟩ := Option.ite_none_left_eq_some.mp checked
      obtain ⟨a, atX, entry⟩ := Option.bind_eq_some_iff.mp checked
      obtain ⟨below, rfl, value⟩ := place atX
      have proper : op ≠ .typeConversion := by
        rintro rfl
        cases entry
      obtain ⟨isKind, fits⟩ := fits_operator (.unary op (ids.getD x 0)) grades (if_neg proper)
        (Bool.eq_false_iff.mpr plain) (Piece.mem_of_entry? entry)
        (List.forall_mem_singleton.mpr below)
      have made := Valuation.derived_unary (s := s.toValuation) isKind
      rw [grades.target proper _ .unknown, ← value] at made
      rw [made] at fits
      exact ⟨isKind, fits⟩
  | binary op x y =>
      obtain ⟨plain, checked⟩ := Option.ite_none_left_eq_some.mp checked
      obtain ⟨a, atX, checked⟩ := Option.bind_eq_some_iff.mp checked
      obtain ⟨b, atY, entry⟩ := Option.bind_eq_some_iff.mp checked
      obtain ⟨belowX, rfl, valueX⟩ := place atX
      obtain ⟨belowY, rfl, valueY⟩ := place atY
      have proper : op ≠ .cross := by
        rintro rfl
        exact plain rfl
      obtain ⟨isKind, fits⟩ := fits_operator (.binary op (ids.getD x 0) (ids.getD y 0)) grades
        (if_neg proper) (Bool.eq_false_iff.mpr plain) (Piece.mem_of_entry? entry)
        (List.forall_mem_cons.mpr ⟨belowX, List.forall_mem_singleton.mpr belowY⟩)
      have made := Valuation.derived_binary (s := s.toValuation) isKind
      rw [← valueX, ← valueY] at made
      rw [made] at fits
      exact ⟨isKind, fits⟩
  | ternary op x y z =>
      obtain ⟨a, atX, checked⟩ := Option.bind_eq_some_iff.mp checked
      obtain ⟨b, atY, checked⟩ := Option.bind_eq_some_iff.mp checked
      obtain ⟨c, atZ, entry⟩ := Option.bind_eq_some_iff.mp checked
      obtain ⟨belowX, rfl, valueX⟩ := place atX
      obtain ⟨belowY, rfl, valueY⟩ := place atY
      obtain ⟨belowZ, rfl, valueZ⟩ := place atZ
      obtain ⟨isKind, fits⟩ := fits_operator
        (.ternary op (ids.getD x 0) (ids.getD y 0) (ids.getD z 0)) grades rfl rfl
        (Piece.mem_of_entry? entry)
        (List.forall_mem_cons.mpr
        ⟨belowX, List.forall_mem_cons.mpr ⟨belowY, List.forall_mem_singleton.mpr belowZ⟩⟩)
      have made := Valuation.derived_ternary (s := s.toValuation) isKind
      rw [← valueX, ← valueY, ← valueZ] at made
      rw [made] at fits
      exact ⟨isKind, fits⟩
  | conversion target x =>
      obtain ⟨a, found, same⟩ := Option.map_eq_some_iff.mp checked
      subst same
      obtain ⟨atX, number⟩ := Option.filter_eq_some_iff.mp found
      obtain ⟨below, rfl, value⟩ := place atX
      have known : target.isKnown = true := by
        rcases of_decide_eq_true number with ⟨_, rfl⟩ | ⟨_, rfl⟩ <;> rfl
      have width : ((s.graph.type (ids.getD x 0)).withRegister target).width
        = (s.graph.type (ids.getD x 0)).width := DataType.width_of (DataType.width_pos _)
          (DataType.width_le_four _)
      refine ⟨rfl, List.forall_mem_singleton.mpr below, Graph.sound_conversion known, rfl,
        .inl ⟨rfl, rfl⟩, rfl, width ▸ below.width, ?_, fun made => ?_⟩
      · rw [Valuation.derived_unary rfl, ← value]
        rfl
      · obtain ⟨_, _, made⟩ := Option.bind_eq_some_iff.mp made
        exact grades.conversion made

/-- A piece that has an instruction is lowered. -/
theorem isLowered_piece {ids : List NodeId} {piece : Piece}
    (checked : piece.class? (ids.map s.graph.register) = some r)
    (isKind : (piece.node s.graph ids).kind = piece.kind ids)
    (register : (piece.node s.graph ids).register = r) (lowered : piece.isLowered r = true)
    : s.graph.isLowered (piece.node s.graph ids) = true := by
  rw [Graph.isLowered, isKind, register]
  cases piece with
  | constant _ => rfl
  | unary op x =>
      rcases Bool.or_eq_true_iff.mp lowered with settled | isOther
      · rw [show isSettled (Piece.kind ids (.unary op x)) = true from settled, Bool.true_or]
      · obtain ⟨isPow2, isOther⟩ := Bool.and_eq_true_iff.mp isOther
        rw [of_decide_eq_true isPow2]
        exact isOther
  | binary op x y =>
      rw [show isSettled (Piece.kind ids (.binary op x y)) = true from lowered, Bool.true_or]
  | ternary op x y z =>
      rw [show isSettled (Piece.kind ids (.ternary op x y z)) = true from lowered, Bool.true_or]
  | conversion target x =>
      obtain ⟨a, found, same⟩ := Option.map_eq_some_iff.mp checked
      subst same
      obtain ⟨atX, number⟩ := Option.filter_eq_some_iff.mp found
      obtain ⟨_, rfl, _⟩ := mem_of_place atX
      exact number

theorem coarsely_power {ids : List NodeId} {piece : Piece} (coarsens : Coarsens A)
    (isPower : piece.isPower = true) (atHand : ∀ id ∈ ids, Computes s top id)
    (checked : piece.class? (ids.map s.graph.register) = some .float)
    (isKind : (piece.node s.graph ids).kind = piece.kind ids)
    : Coarsely A (piece.node s.graph ids) (piece.value? A (ids.map s.value)) := by
  refine ⟨coarsens, fun made => ?_⟩
  rw [isKind]
  cases piece with
  | binary op x y =>
      cases op with
      | pow =>
          obtain ⟨a, _, checked⟩ := Option.bind_eq_some_iff.mp checked
          obtain ⟨b, atY, entry⟩ := Option.bind_eq_some_iff.mp checked
          have member := Piece.mem_of_entry? entry
          obtain ⟨rfl, rfl⟩ : a = .float ∧ b = .float := by
            simpa [BinaryOp.signatures, Signature.closed, RegisterClass.isKnown] using member
          obtain ⟨isHere, register, value⟩ := mem_of_place atY
          obtain ⟨_, _, made⟩ := Option.bind_eq_some_iff.mp made
          obtain ⟨w, found, made⟩ := Option.bind_eq_some_iff.mp made
          refine ⟨coarsens (register ▸ s.classed (atHand _ isHere).live (value.symm.trans found))
            made, _, _, rfl⟩
      | _ => cases isPower
  | _ => cases isPower

/-- A piece that has an instruction is added as it is, and a power of floats stays young. -/
theorem runs_piece {ids : List NodeId} {piece : Piece} (follows : Follows D) (grades : Grades A)
    (topLive : s.live top) (atHand : ∀ id ∈ ids, Computes s top id)
    (checked : piece.class? (ids.map s.graph.register) = some r)
    (way : piece.isLowered r = true ∨ (piece.isPower = true ∧ r = .float) ∧ Coarsens A)
    : (evolution D A).Runs fails s (piece.add ids) fun new t =>
        Adds piece.isPower s t top new r (piece.value? A (ids.map s.value))
        ∧ (piece.isLowered r = true → Lowered t new) := by
  obtain ⟨isKind, fits⟩ := fits_piece grades atHand checked
  have isLowered := isLowered_piece checked isKind fits.register
  obtain ⟨t, pushed⟩ := fits.exists_pushed follows topLive (by
    rcases way with lowered | ⟨⟨isPower, rfl⟩, coarsens⟩
    · exact .inl (isLowered lowered)
    · exact .inr (coarsely_power coarsens isPower atHand checked isKind))
  have lowers (lowered : piece.isLowered r = true) : Lowered t s.graph.size := by
    rw [Lowered, pushed.graph, s.graph.node_push_self]
    refine (isLowered_passes rfl (passes_appends (s.graph.appends_push _) ?_)).trans
      (isLowered lowered)
    exact fun child isOperand => s.inside (fits.operand child isOperand).live
  obtain ⟨u, graph, later, adds⟩ := pushed.adds piece.isPower fits.register (by
    rcases way with lowered | ⟨⟨isPower, rfl⟩, _⟩
    · exact .inl (lowers lowered)
    · refine .inr ⟨⟨fits.register, ?_⟩, isPower⟩
      rw [isKind]
      cases piece with
      | binary op _ _ => cases op <;> first | exact ⟨_, _, rfl⟩ | cases isPower
      | _ => cases isPower)
  have ran : piece.add ids s.graph = .ok s.graph.size u.graph := by
    rw [graph, pushed.graph]
    rfl
  refine .of_ok ran later ⟨adds, fun lowered => ?_⟩
  rw [Lowered, graph]
  exact lowers lowered

theorem runs_build {ids : List NodeId} {pieces : List Piece} (follows : Follows D)
    (grades : Grades A) (topLive : s.live top) (atHand : ∀ id ∈ ids, Computes s top id)
    (checked : class? (ids.map s.graph.register) pieces = some r)
    (coarsens : pieces.any Piece.isPower = true → Coarsens A)
    : (evolution D A).Runs fails s (build ids pieces) fun new t =>
        Adds (pieces.any Piece.isPower) s t top new r (value? A (ids.map s.value) pieces)
          ∧ Lowered t new := by
  induction pieces generalizing s ids with
  | nil => cases checked
  | cons piece rest ih =>
      cases rest with
      | nil =>
          obtain ⟨checked, lowered⟩ := Option.filter_eq_some_iff.mp checked
          rw [List.any_cons, List.any_nil, Bool.or_false]
          exact (runs_piece follows grades topLive atHand checked (.inl lowered)).imp
            fun _ _ _ added =>
            added.imp_right fun lowers => lowers lowered
      | cons next rest =>
          obtain ⟨a, found, checked⟩ := Option.bind_eq_some_iff.mp checked
          obtain ⟨found, way⟩ := Option.filter_eq_some_iff.mp found
          refine .bind (runs_piece follows grades topLive atHand found ?_) fun new t later added =>
            ?_
          · refine (Bool.or_eq_true_iff.mp way).imp_right fun young => ?_
            obtain ⟨isPower, isFloat⟩ := Bool.and_eq_true_iff.mp young
            exact ⟨⟨isPower, of_decide_eq_true isFloat⟩,
              coarsens (by rw [List.any_cons, isPower, Bool.true_or])⟩
          have moreAtHand (id : NodeId) (member : id ∈ ids ++ [new]) : Computes t top id := by
            rcases List.mem_append.mp member with before | isNew
            · exact (atHand id before).later topLive later
            · exact List.mem_singleton.mp isNew ▸ added.1.computes
          have registers : (ids ++ [new]).map t.graph.register = ids.map s.graph.register
            ++ [a] := by
            rw [List.map_append, List.map_singleton, added.1.register]
            refine congrArg (· ++ [a]) (List.map_congr_left fun id member => ?_)
            exact congrArg (fun face : Face => face.type.register)
              (later.state.face (atHand id member).live)
          have values : (ids ++ [new]).map t.value = ids.map s.value
            ++ [piece.value? A (ids.map s.value)] := by
            rw [List.map_append, List.map_singleton, added.1.value]
            exact congrArg (· ++ _) (List.map_congr_left fun id member =>
              later.values.value (atHand id member).live)
          refine (ih (later.values.live topLive) moreAtHand (registers ▸ checked)
            fun isPower => coarsens ?_).imp ?_
          · rw [List.any_cons, isPower, Bool.or_true]
          · rintro last u _ ⟨atLast, lowered⟩
            have value := atLast.value
            rw [values] at value
            exact ⟨⟨atLast.computes, atLast.register, value, added.1.grows.trans atLast.grows⟩,
              lowered⟩

end StreamExpr.Lowering
