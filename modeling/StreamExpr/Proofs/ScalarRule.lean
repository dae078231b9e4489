import StreamExpr.Proofs.ScalarEdits

/-! The rule of scalarization.
The components of the vectors that were there before are asked for, four of each at most, and every
one of them is replaced once. Replacing leads from a vector to the operands it is made of.
-/

namespace StreamExpr.Scalarization

variable {α : Type} {M : ScalarModel α} {streams : StreamDecl → Nat → α} {broad : Prop} {base : Nat}
  {s t : TypedScope M streams (stage α broad base)} {bound : ℚ} {id v a b new : NodeId} {c : Nat}
  {x y : VectorValue α}

/-- A node is left as it is, or it is one of a few that are replaced. -/
inductive Busy (g : Graph) (id : NodeId) : Prop
  | select {v : NodeId} {chosen : Selection} (kind : (g.node id).kind = .swizzle v chosen)
    (single : chosen.count = 1)
  | reduction {op : UnaryOp} {v : NodeId} (kind : (g.node id).kind = .unary op v)
    (reduces : op = .all ∨ op = .any)
  | dot {a b : NodeId} (kind : (g.node id).kind = .binary .dot a b)

theorem scalarizeOnce_or_busy (g : Graph) (id : NodeId)
    : (g.node id).isSettled = true ∧ scalarizeOnce id g = .ok id g
      ∨ (g.node id).isSettled = false ∧ Busy g id := by
  rw [Node.isSettled, scalarizeOnce, Edit.read_bind]
  cases kind : (g.node id).kind with
  | swizzle v chosen =>
      by_cases single : chosen.count = 1
      · exact .inr ⟨by simp [single], .select kind single⟩
      · refine .inl ⟨by simp [single], ?_⟩
        simp only
        rw [if_neg single]
        rfl
  | unary op v =>
      cases op with
      | all => exact .inr ⟨rfl, .reduction kind (.inl rfl)⟩
      | any => exact .inr ⟨rfl, .reduction kind (.inr rfl)⟩
      | _ => exact .inl ⟨rfl, rfl⟩
  | binary op a b =>
      cases op with
      | dot => exact .inr ⟨rfl, .dot kind⟩
      | _ => exact .inl ⟨rfl, rfl⟩
  | _ => exact .inl ⟨rfl, rfl⟩

theorem scalarizeOnce_of_settled {g : Graph} (settled : (g.node id).isSettled = true)
    : scalarizeOnce id g = .ok id g := by
  rcases scalarizeOnce_or_busy g id with found | busy
  · exact found.2
  · cases settled.symm.trans busy.1

/-- The components of the first nodes that nobody has asked for. -/
def unasked (base : Nat) (g : Graph) : Finset (NodeId × Nat) :=
  (Finset.range base ×ˢ Finset.range 4).filter (g.selections[·]? = none)

theorem card_unasked_le (base : Nat) (g : Graph) : (unasked base g).card ≤ 4 * base := by
  refine (Finset.card_filter_le _ _).trans (Nat.le_of_eq ?_)
  rw [Finset.card_product, Finset.card_range, Finset.card_range, Nat.mul_comm]

theorem mem_unasked {g : Graph}
    : (v, c) ∈ unasked base g ↔ (v < base ∧ c < 4) ∧ g.selections[(v, c)]? = none := by
  rw [unasked, Finset.mem_filter, Finset.mem_product, Finset.mem_range, Finset.mem_range]

theorem card_unasked_share {g : Graph} {n : Node} (inside : v < base) (small : c < 4)
    (unshared : g.selections[(v, c)]? = none) (id : NodeId)
    : (unasked base ((g.push n).share v c id)).card + 1 ≤ (unasked base g).card := by
  refine Finset.card_lt_card (Finset.ssubset_iff_of_subset ?_ |>.mpr ⟨(v, c), ?_, ?_⟩)
  · rintro ⟨w, d⟩ member
    obtain ⟨bounds, free⟩ := mem_unasked.mp member
    refine mem_unasked.mpr ⟨bounds, ?_⟩
    simp only [Graph.share, Std.TreeMap.getElem?_insert] at free
    split at free
    · cases free
    · exact free
  · exact mem_unasked.mpr ⟨⟨inside, small⟩, unshared⟩
  · intro member
    have free := (mem_unasked.mp member).2
    simp only [Graph.share, Std.TreeMap.getElem?_insert_self] at free
    cases free

/-- Nodes are replaced by scalars that are settled, and by selections of components that nobody had
asked for. -/
def rule (α : Type) (broad : Prop) (base : Nat) : (supply α broad base).Rule scalarizeOnce where
  unasked g := (unasked base g).card
  same same := by rw [unasked, unasked, same]
  output isOutput := Node.isSettled_of_isOutput isOutput
  fixed {g id} settled := scalarizeOnce_of_settled (g.isSettled_shape id ▸ settled)
  accepted fresh := fresh.settled
  select isNew inside small := .inl (card_unasked_share inside small isNew _)

theorem not_stays {g : Graph} (busy : (g.node id).isSettled = false)
    : ¬ (stage α broad base).Stays (g.shape id) := by
  change ¬ (g.shape id).node.isSettled = true
  rw [g.isSettled_shape, busy]
  exact Bool.false_ne_true

/-- An edit leads from a node to another one that is to be scalarized in its place, or replaces
it. -/
abbrev Advances (s : TypedScope M streams (stage α broad base)) (id : NodeId) (edit : Edit NodeId)
    : Prop :=
  TypedScope.Advances (supply α broad base) scalarizeOnce s id edit

/-- A node is replaced by another that is found below its level, or by a selection that is added
there. -/
theorem advances_of_builds {edit : Edit NodeId}
    (builds : s.Builds (supply α broad base) edit fun new t =>
      t.Computes (s.level id) new x ∧ s.KeepsLevels t)
    (isLive : s.live id) (hasValue : s.value id = some x)
    (busy : (s.graph.node id).isSettled = false)
    : Advances s id edit := by
  refine builds.runs.imp fun new t later built => ?_
  obtain ⟨⟨computes, keeps⟩, grows⟩ := built
  have level : s.level id = t.level id := (congrArg Rank.level (later.rank isLive)).symm
  have stays : ¬ (stage α broad base).Stays (t.graph.shape id) :=
    (later.shape isLive).symm ▸ not_stays busy
  have replaces := (level ▸ computes).replaces (later.live isLive)
    ((later.value isLive).trans hasValue) stays
  have differs : new ≠ id := by
    rintro rfl
    exact lt_irrefl _ (level ▸ computes.below)
  exact .moves ⟨replaces, grows⟩ computes.live differs
    (TypedScope.weight_lt keeps computes.live (Rank.lt_of_level computes.below))

/-! ## Selected components -/

/-- A selection of one component has the value of that component. -/
theorem selects_part {chosen : Selection} (isLive : s.live id)
    (kind : (s.graph.node id).kind = .swizzle v chosen) (single : chosen.count = 1)
    : ∃ x, s.live v ∧ s.graph.isOutput v = false ∧ s.rank v < s.rank id ∧ s.value v = some x
        ∧ (s.graph.type v).Yields α (chosen.lane 0)
        ∧ s.value id = some (x.part (chosen.lane 0)) := by
  obtain ⟨xs, lanes, operands, made, hasValue⟩ := s.exists_operands isLive
  have within : (s.graph.shape id).Within α := (s.allowed isLive).1.1
  have yields : (s.graph.type v).Yields α (chosen.lane 0) := by
    refine @within chosen ?_ _ ?_ 0 (by omega)
    · rw [Graph.shape, Graph.shapeOf, Node.selection?_outline, Node.selection?, kind]
    · rw [Graph.shape, Graph.shapeOf, Node.children, kind]
      exact .head _
  have type : s.graph.type id = (s.graph.type v).scalar := by
    have inferred := congrArg Prod.fst (s.sound isLive).inferred
    rw [Graph.infer.eq_def] at inferred
    simp only [kind, single] at inferred
    exact inferred.symm
  rw [Graph.children, Node.children, kind] at operands
  cases operands with
  | @cons _ x _ _ computed rest =>
      cases rest
      obtain ⟨operandLive, isValue, below, value⟩ := computed
      have own : x.type = s.graph.type v := Valuation.type_of_value operandLive value
      rw [Node.lanes?_swizzle kind] at made
      obtain rfl := Option.some.inj made
      refine ⟨x, operandLive, isValue, below, value, yields, hasValue.trans (congrArg some ?_)⟩
      refine VectorValue.eq_part (type.trans (congrArg DataType.scalar own.symm)) ?_
      exact VectorValue.lane_of _ (DataType.width_pos _)

/-- A component of a vector that is still selected, with what the vector is made of. -/
structure Picks (s : TypedScope M streams (stage α broad base)) (id v : NodeId) (c : Nat)
    (xs : List (VectorValue α)) (lanes : Nat → α)
    : Prop where
  isLive : s.live id
  busy : (s.graph.node id).isSettled = false
  vectorLive : s.live v
  isVector : (s.graph.type v).isVector = true
  yields : (s.graph.type v).Yields α c
  operands : List.Forall₂ (s.Computes (s.level id)) (s.graph.children v) xs
  made : (s.graph.node v).lanes? M streams xs = some lanes
  hasValue : s.value id = some (.of (s.graph.type v).scalar fun _ => lanes c)

/-- A component of a vector is made of what the vector is made of. -/
theorem exists_picks {chosen : Selection} (isLive : s.live id)
    (kind : (s.graph.node id).kind = .swizzle v chosen) (single : chosen.count = 1)
    (isVector : (s.graph.type v).isVector = true)
    : ∃ xs lanes, Picks s id v (chosen.lane 0) xs lanes := by
  obtain ⟨x, vectorLive, _, below, value, yields, hasValue⟩ := selects_part isLive kind single
  obtain ⟨xs, lanes, operands, made, made'⟩ :=
    TypedScope.exists_computes vectorLive (TypedScope.isShared_of_vector vectorLive isVector) rfl
  obtain rfl := Option.some.inj (value.symm.trans made')
  refine ⟨xs, lanes, isLive, by simp [Node.isSettled, kind, single], vectorLive, isVector, yields,
    operands.imp fun _ _ computes => computes.mono (Rank.level_le below), made, ?_⟩
  rw [hasValue, VectorValue.part_of isVector yields]

theorem yields_operand {t u : DataType} (yields : t.Yields α c) (isVector : t.isVector = true)
    (width : u.width = 1 ∨ u.width = t.width)
    : u.Yields α c := by
  rcases width with scalar | wide
  · exact .inl (.inr (by simp [DataType.isVector, scalar]))
  · rcases yields with (inside | scalar) | single
    · exact .inl (.inl (wide ▸ inside))
    · cases scalar.symm.trans isVector
    · exact .inr single

/-- A component of a vector that is built from parts is a component of a part, or zero. -/
theorem runs_constructed {arguments : List NodeId} {xs : List (VectorValue α)} (isLive : s.live id)
    (busy : (s.graph.node id).isSettled = false) (known : (s.graph.register v).isKnown = true)
    (small : c < 4) (operands : List.Forall₂ (s.Computes (s.level id)) arguments xs)
    (classes : ∀ x ∈ xs, x.type.register = s.graph.register v)
    (hasValue : s.value id
      = some (.of (s.graph.type v).scalar fun _ => M.constructLane (s.graph.register v) xs c))
    : Advances s id (constructed v arguments c) := by
  rw [Advances, TypedScope.Advances, constructed, TypedScope.runs_read]
  -- A single scalar is in every component. Otherwise the component is looked for among the parts.
  by_cases only : ∃ x, xs = [x] ∧ x.type.isVector = false
  · obtain ⟨x, rfl, scalar⟩ := only
    cases operands with
    | @cons a _ _ _ atX rest =>
        cases rest
        simp only [atX.type, scalar, Bool.false_eq_true, if_false]
        have builds : s.Builds (supply α broad base) (pure a) fun new t =>
            t.Computes (s.level id) new x ∧ s.KeepsLevels t := .pure ⟨atX, .refl⟩
        refine advances_of_builds builds isLive (hasValue.trans (congrArg some ?_)) busy
        have type : x.type = (s.graph.type v).scalar :=
          DataType.ext (classes x (.head _)) (DataType.width_eq_one scalar)
        refine VectorValue.ext_lane type.symm fun d _ => ?_
        have single : M.constructLane (s.graph.register v) [x] c = x.lane 0 := by
          rw [ScalarModel.constructLane, scalar]
          rfl
        rw [DataType.scalar, VectorValue.lane_of_scalar, single,
          VectorValue.lane_eq_of_scalar scalar d]
  · have parts (x) (isOnly : xs = [x]) : x.type.isVector = true :=
      Bool.eq_true_of_not_eq_false fun scalar => only ⟨x, isOnly, scalar⟩
    have widths : List.Forall₂ (fun argument x => (s.graph.type argument).width = x.type.width)
        arguments xs := operands.imp fun _ _ computes => congrArg DataType.width computes.type
    have spec := locate?_spec (M.zero (s.graph.register v)) small (Nat.zero_le c) widths
    rw [Nat.sub_zero, ← M.constructLane_of_parts parts] at spec
    split
    next argument found =>
      split at found
      · cases operands with
        | cons atX rest =>
            cases rest
            rw [atX.type, parts _ rfl] at found
            cases found
      · cases found
    rw [TypedScope.runs_read]
    split
    next argument place located =>
      rw [located] at spec
      obtain ⟨x, paired, inside, lane⟩ := spec
      have atX := (List.forall₂_iff_zip.mp operands).2 paired
      refine advances_of_builds (TypedScope.builds_component atX (.inl (.inl inside))) isLive
        (hasValue.trans (congrArg some ?_)) busy
      rw [lane, VectorValue.part, DataType.scalar, DataType.scalar,
        classes x (List.of_mem_zip paired).2]
      rfl
    next located =>
      rw [located] at spec
      rw [TypedScope.runs_read]
      obtain ⟨zero, found, register⟩ : ∃ zero, Value.zero? (s.graph.register v) = some zero
          ∧ zero.register = s.graph.register v := by
        cases own : s.graph.register v with
        | unknown =>
            rw [own] at known
            cases known
        | _ => exact ⟨_, rfl, rfl⟩
      rw [found]
      refine (TypedScope.adds_constant (fresh_of_kind rfl (.inr (.inl ⟨zero, rfl⟩)))).advances
        (rule α broad base) isLive (hasValue.trans ?_) (not_stays busy)
      rw [spec, ScalarModel.zero, found, register]
      rfl

end StreamExpr.Scalarization
