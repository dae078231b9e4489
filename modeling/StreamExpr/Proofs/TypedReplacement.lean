import StreamExpr.Proofs.TypedDelivery
import StreamExpr.Proofs.TypedEdits

/-! Passes that replace what does not stay.
A node that does not stay is replaced, over others if need be, by one that does. What is added on
the way stays too, or is a selection of a component that nobody had asked for. Of these there are
finitely many, and each node that is there is replaced once, so such a pass comes to an end.
-/

namespace StreamExpr

variable {α : Type} {M : ScalarModel α} {streams : StreamDecl → Nat → α}
    {T : Stage α} {P : Supply T}
  {once : NodeId → Edit NodeId}

/-- A rule that replaces the nodes that do not stay, outputs never among them, by what a stage
supplies. It adds nodes that stay, and selections that stay or are less and less to be asked for. -/
structure Supply.Rule (P : Supply T) (once : NodeId → Edit NodeId) where
  unasked : Graph → Nat
  same : ∀ {g h : Graph}, h.selections = g.selections → unasked h = unasked g
  output : ∀ {shape : Shape}, shape.node.isOutput = true → T.Stays shape
  fixed : ∀ {g : Graph} {id}, T.Stays (g.shape id) → once id g = .ok id g
  accepted : ∀ {shape}, P.Accepts shape → T.Stays shape
  select : ∀ {g : Graph} {v c : Nat}, g.selections[(v, c)]? = none → P.Splits v → c < 4 →
    unasked ((g.push (g.selectionOf v c)).share v c g.size) < unasked g
    ∨ unasked ((g.push (g.selectionOf v c)).share v c g.size) = unasked g
      ∧ T.Stays ((g.type v).selection c)

namespace Graph

variable {g h : Graph}

theorem Grows.enclosed (grows : g.Grows P h) (enclosed : g.Enclosed) : h.Enclosed := by
  induction grows with
  | refl => exact enclosed
  | push _ operands _ ih => exact ih.push operands
  | @select h v c _ inside _ _ _ ih =>
      have pushed : (h.push (h.selectionOf v c)).Enclosed :=
        ih.push fun child member => List.mem_singleton.mp member ▸ inside
      exact ⟨pushed.operand, pushed.output, pushed.input⟩

/-- If the nodes from a place on stay, they do so with one more that does. -/
theorem stays_push {n : Node} {start : Nat} (enclosed : h.Enclosed)
    (operands : ∀ child ∈ n.children, child < h.size)
    (before : ∀ id, start ≤ id → id < h.size → T.Stays (h.shape id)) (stays : T.Stays (h.shapeOf n))
    : ∀ id, start ≤ id → id < (h.push n).size → T.Stays ((h.push n).shape id) := by
  intro id since inside
  rw [size_push] at inside
  rcases Nat.lt_succ_iff_lt_or_eq.mp inside with isOld | rfl
  · rw [shape_appends (h.appends_push n) enclosed isOld]
    exact before id since isOld
  · rw [shape, node_push_self, shapeOf_appends (h.appends_push n) operands]
    exact stays

end Graph

/-- What a rule adds stays, or there is less left to be asked for. -/
theorem Supply.Rule.stays_or_lt (rule : P.Rule once) {g h : Graph}
    (enclosed : g.Enclosed) (grows : g.Grows P h)
    : rule.unasked h < rule.unasked g
      ∨ rule.unasked h = rule.unasked g ∧ ∀ id, g.size ≤ id → id < h.size
        → T.Stays (h.shape id) := by
  induction grows with
  | refl => exact .inr ⟨rfl, fun id since inside => absurd inside (Nat.not_lt.mpr since)⟩
  | @push h n grows operands accepted ih =>
      rw [rule.same (h := h.push n) (g := h) rfl]
      exact ih.imp_right fun ⟨unchanged, before⟩ =>
        ⟨unchanged, Graph.stays_push (grows.enclosed enclosed) operands before
          (rule.accepted accepted)⟩
  | @select h v c grows inside isNew splits small ih =>
      rcases rule.select isNew splits small with fewer | ⟨unchanged, stays⟩
      -- Such a selection need not stay, and neither need what was added before it.
      · exact .inl
          (Nat.lt_of_lt_of_le fewer (ih.elim Nat.le_of_lt fun before => Nat.le_of_eq before.1))
      · rw [unchanged]
        exact ih.imp_right fun before => ⟨before.1, Graph.stays_push (grows.enclosed enclosed)
          (fun child member => List.mem_singleton.mp member ▸ inside) before.2 stays⟩

namespace TypedScope

variable {s t : TypedScope M streams T} {id new : NodeId} {x : VectorValue α}

/-! ## One replacement -/

open Classical in
/-- The levels below a node. -/
noncomputable def lowerLevels (s : TypedScope M streams T) (id : NodeId) : Finset ℚ :=
  (((Finset.range s.graph.size).filter s.live).image s.level).filter (· < s.level id)

theorem mem_lowerLevels {level : ℚ}
    : level ∈ lowerLevels s id ↔ (∃ other, s.live other ∧ s.level other = level)
      ∧ level < s.level id := by
  simp only [lowerLevels, Finset.mem_filter, Finset.mem_image, Finset.mem_range, and_congr_left_iff]
  refine fun _ => exists_congr fun other => and_congr_left fun _ => ?_
  exact ⟨fun both => both.2, fun isLive => ⟨s.inside isLive, isLive⟩⟩

/-- How far down replacing may lead. A shared selection is above its vector. -/
noncomputable def weight (s : TypedScope M streams T) (id : NodeId) : Nat :=
  2 * (lowerLevels s id).card + (s.rank id).isShared.toNat

theorem weight_lt (keeps : s.KeepsLevels t) (isLive : t.live new) (lower : t.rank new < s.rank id)
    : weight t new < weight s id := by
  have subset : lowerLevels t new ⊆ lowerLevels s id := by
    intro level member
    obtain ⟨⟨other, otherLive, rfl⟩, below⟩ := mem_lowerLevels.mp member
    obtain ⟨old, oldLive, same⟩ := keeps other otherLive
    exact mem_lowerLevels.mpr ⟨⟨old, oldLive, same.symm⟩,
      lt_of_lt_of_le below (Rank.level_le lower)⟩
  have few := Bool.toNat_le (t.rank new).isShared
  rw [weight, weight]
  rcases Prod.Lex.lt_iff.mp lower with below | ⟨_, shared⟩
  · obtain ⟨old, oldLive, same⟩ := keeps new isLive
    have proper : lowerLevels t new ⊂ lowerLevels s id := by
      refine Finset.ssubset_iff_subset_ne.mpr ⟨subset, fun equal => ?_⟩
      have member : t.level new ∈ lowerLevels s id :=
        mem_lowerLevels.mpr ⟨⟨old, oldLive, same.symm⟩, below⟩
      rw [← equal] at member
      exact lt_irrefl _ (mem_lowerLevels.mp member).2
    have fewer := Finset.card_lt_card proper
    omega
  · have fewer := Finset.card_le_card subset
    obtain ⟨plain, isShared⟩ : (t.rank new).isShared = false ∧ (s.rank id).isShared = true :=
      Bool.lt_iff.mp shared
    rw [plain, isShared, Bool.toNat_false, Bool.toNat_true]
    omega

/-- What a replacement comes to: a node that stays and replaces the one it is made for. -/
structure Replaced (P : Supply T) (s : TypedScope M streams T) (id new : NodeId)
    (t : TypedScope M streams T)
    : Prop where
  replaces : t.Replaces id new
  stays : T.Stays (t.graph.shape new)
  grows : Graph.Grows P s.graph t.graph

/-- Replacing leads to nodes that are there or to selections, and ends with a node that stays. -/
noncomputable def settling (P : Supply T) : (edits M streams T).Settling where
  Live s := s.live
  weight := weight
  Moves s id new t := t.Replaces id new ∧ Graph.Grows P s.graph t.graph
  Ends := Replaced P
  ends_of_moves := by
    rintro s t u first second third ⟨replaces, grows⟩ later ends
    exact ⟨(replaces.later later).trans ends.replaces, ends.stays, grows.trans ends.grows⟩

/-- An edit leads from a node to another one that is to be replaced in its place, or replaces it. -/
abbrev Advances (P : Supply T) (once : NodeId → Edit NodeId) (s : TypedScope M streams T)
    (id : NodeId) (edit : Edit NodeId)
    : Prop :=
  (edits M streams T).Runs False s edit ((settling P).Advances once s id)

/-- What has been built for a node stays and replaces it. -/
theorem Adds.advances {edit : Edit NodeId} (adds : s.Adds P edit (s.level id) x)
    (rule : P.Rule once) (isLive : s.live id) (hasValue : s.value id = some x)
    (busy : ¬ T.Stays (s.graph.shape id))
    : Advances P once s id edit := by
  refine (adds.replaces isLive hasValue busy).runs.imp fun new t later built => ?_
  obtain ⟨⟨replaces, accepted⟩, grows⟩ := built
  have stays := rule.accepted accepted
  exact .settles ⟨replaces, stays, grows⟩ (rule.fixed stays)

/-! ## The pass -/

open Classical in
/-- The nodes from a place on that do not stay. -/
noncomputable def busyFrom (T : Stage α) (g : Graph) (start : Nat) : Finset NodeId :=
  (Finset.range g.size).filter fun id => start ≤ id ∧ ¬ T.Stays (g.shape id)

theorem mem_busyFrom {g : Graph} {start : Nat}
    : id ∈ busyFrom T g start ↔ id < g.size ∧ start ≤ id ∧ ¬ T.Stays (g.shape id) := by
  simp only [busyFrom, Finset.mem_filter, Finset.mem_range]

/-- A scope with the nodes that may still be replaced. -/
structure Pending (M : ScalarModel α) (streams : StreamDecl → Nat → α) (T : Stage α)
    extends TypedScope M streams T where
  fresh : Finset NodeId

namespace Pending

/-- What is left to be done: nodes are replaced by others that stay and by selections that nobody
had asked for. -/
def left (rule : P.Rule once) (s : Pending M streams T) : ℕ ×ₗ ℕ :=
  toLex (rule.unasked s.graph, s.fresh.card)

def Spent (s : Pending M streams T) (id : NodeId) : Prop :=
  id < s.graph.size ∧ ¬ T.Stays (s.graph.shape id) ∧ id ∉ s.fresh

/-- What the pass keeps up. -/
def invariant (M : ScalarModel α) (streams : StreamDecl → Nat → α) (rule : P.Rule once)
    : Pass.Invariant Unit (Pending M streams T) :=
  TypedScope.invariant (fun s => s.toTypedScope) (left rule) Spent
    (fun {s _ _ _ _} atSlot replaces =>
      ⟨{ s.toTypedScope.setChild atSlot replaces with fresh := s.fresh }, rfl,
        congrArg (fun count => toLex (count, s.fresh.card)) (rule.same rfl),
        fun id ⟨inside, busy, missing⟩ => by
          have same : (s.toTypedScope.setChild atSlot replaces).graph.shape id = s.graph.shape id :=
            Graph.shape_setChild atSlot (type_of_stands replaces.toStands)
          exact ⟨Nat.lt_of_lt_of_eq inside (Graph.size_setChild ..), same ▸ busy, missing⟩⟩)
    (fun {s _} index isLive =>
      ⟨{ s.toTypedScope.setOutput index isLive with fresh := s.fresh }, rfl,
        congrArg (fun count => toLex (count, s.fresh.card)) (rule.same rfl), fun _ spent => spent⟩)

theorem admits_settle (rule : P.Rule once)
    (advances : ∀ {s : TypedScope M streams T} {id}, s.live id → Advances P once s id (once id))
    : (invariant M streams rule).Admits False (Transform.ofEdit (Edit.settle once)) where
  operand {s _ _} isLive member := (s.operand isLive member).1
  step {s id} isLive unspent := by
    by_cases stays : T.Stays (s.graph.shape id)
    · refine .ofEdit (.of_ok (t := s) (Edit.settle_of_fixed (rule.fixed stays))
        ⟨.refl _, le_refl _⟩ ?_)
      exact ⟨⟨.refl isLive, ⟨isLive, stays⟩, .inl, fun _ _ => rfl, rfl⟩, fun _ => .inl⟩
    have noOutput : s.graph.isOutput id = false := by
      rw [← Graph.isOutput_shape]
      exact Bool.eq_false_iff.mpr (mt rule.output stays)
    have isFresh : id ∈ s.fresh := by
      by_contra missing
      cases noOutput.symm.trans (unspent ⟨s.inside isLive, stays, missing⟩)
    refine .ofEdit (((settling P).runs_settle advances (s := s.toTypedScope) isLive).lift rfl
      fun new t later replaced => ?_)
    have appends := replaced.grows.appends
    -- The node is spent, and what was added and does not stay may be replaced in its place.
    refine ⟨⟨t, s.fresh.erase id ∪ busyFrom T t.graph s.graph.size⟩, rfl, ⟨later, ?_⟩,
      ⟨replaced.replaces, ⟨replaced.replaces.newLive, replaced.stays⟩, fun isOutput =>
        (by cases noOutput.symm.trans isOutput),
      fun parent parentLive => ?_, appends.outputs⟩, fun other spent => ?_⟩
    · refine Prod.Lex.toLex_le_toLex.mpr (.inl (Prod.Lex.toLex_lt_toLex.mpr ?_))
      refine (rule.stays_or_lt s.tidy.toEnclosed replaced.grows).imp_right
        fun ⟨unchanged, stay⟩ => ⟨unchanged, ?_⟩
      have empty : busyFrom T t.graph s.graph.size = ∅ := by
        refine Finset.eq_empty_of_forall_notMem fun other member => ?_
        obtain ⟨inside, since, busy⟩ := mem_busyFrom.mp member
        exact busy (stay other since inside)
      rw [empty, Finset.union_empty]
      exact Finset.card_erase_lt_of_mem isFresh
    · exact congrArg Node.children (appends.node (s.inside parentLive))
    · obtain ⟨inside, busy, missing⟩ := spent
      rw [Finset.mem_union, not_or] at missing
      have wasThere : other < s.graph.size := by
        by_contra isNew
        exact missing.2 (mem_busyFrom.mpr ⟨inside, Nat.le_of_not_lt isNew, busy⟩)
      by_cases here : other = id
      · exact .inr ⟨here, noOutput⟩
      · rw [Graph.shape_appends appends s.tidy.toEnclosed wasThere] at busy
        exact .inl ⟨wasThere, busy, fun member => missing.1 (Finset.mem_erase.mpr ⟨here, member⟩)⟩

end Pending

/-- A rule can be followed all over a typed graph. What is left over stays, is typed and delivers
the same. -/
theorem settle_follows {D E : Dialect α} {g : Graph} (conforms : g.Conforms D) (rule : P.Rule once)
    (advances : ∀ {s : TypedScope M streams T} {id}, s.live id → Advances P once s id (once id))
    (allowed : ∀ {id shape}, id < g.size → D.Allows id shape → T.Allows id shape)
    (allows : ∀ {id shape}, T.Allows id shape → T.Stays shape → E.Allows id shape)
    : ∃ h, Edit.pass .preOrder (Edit.settle once) g = .ok () h
        ∧ h.Conforms E
        ∧ g.Follows M streams h := by
  let start : Pending M streams T :=
    { toTypedScope := .ofConforms M streams conforms
        (fun reachable => allowed (conforms.lt_size reachable) (conforms.allowed reachable))
        (fun shares => P.selects shares.2.1 (conforms.sound shares.1).known shares.2.2.1 _)
      fresh := Finset.range g.size }
  exact preOrder_follows (Pending.admits_settle rule advances) start conforms.rooted
    (fun _ isRoot => .inl (.root isRoot)) (fun id spent => spent.2.2 (Finset.mem_range.mpr spent.1))
    rule.output allows

end TypedScope

end StreamExpr
