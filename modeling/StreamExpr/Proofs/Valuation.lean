import Mathlib.Order.WellFoundedSet
import StreamExpr.Proofs.Meaning
import StreamExpr.Proofs.Pass
import StreamExpr.Proofs.TidyGraph

/-! Graphs with a value and a rank for their nodes.
While a pass works on a graph, nodes in use keep the values they had at the start, or come to values
that say more. Operands rank below their users, so what is put together from values in this way is a
value in the sense of the graph.
-/

namespace StreamExpr

/-- An element can be replaced by one that is related to all that it is related to. -/
theorem forall₂_set {α β : Type} {P : α → β → Prop} {xs : List α} {ys : List β}
    (related : List.Forall₂ P xs ys) {slot : Nat} {old new : α} (atSlot : xs[slot]? = some old)
    (carried : ∀ y, P old y → P new y)
    : List.Forall₂ P (xs.set slot new) ys := by
  induction related generalizing slot with
  | nil => exact .nil
  | cons head tail ih =>
      cases slot with
      | zero => exact .cons (carried _ (Option.some.inj atSlot ▸ head)) tail
      | succ slot => exact .cons head (ih atSlot)

theorem forall₂_comp {α β γ : Type} {P : α → β → Prop} {Q : β → γ → Prop} {R : α → γ → Prop}
    {xs : List α} {ys : List β} {zs : List γ} (carried : ∀ {x y z}, P x y → Q y z → R x z)
    (first : List.Forall₂ P xs ys) (second : List.Forall₂ Q ys zs)
    : List.Forall₂ R xs zs := by
  induction first generalizing zs with
  | nil =>
      cases second
      exact .nil
  | cons head _ ih =>
      cases second with
      | cons atHead rest => exact .cons (carried head atHead) (ih rest)

theorem exists_of_forall₂ {α β : Type} {P : α → β → Prop} {xs : List α} {ys : List β}
    (related : List.Forall₂ P xs ys) {slot : Nat} {x : α} (atSlot : xs[slot]? = some x)
    : ∃ y, ys[slot]? = some y ∧ P x y := by
  induction related generalizing slot with
  | nil => cases atSlot
  | @cons _ y _ _ head _ ih =>
      cases slot with
      | zero => exact ⟨y, rfl, Option.some.inj atSlot ▸ head⟩
      | succ slot => exact ih atSlot

theorem mapM_eq_some {α β : Type} {f : α → Option β} {xs : List α} {ys : List β}
    : xs.mapM f = some ys ↔ List.Forall₂ (fun x y => f x = some y) xs ys := by
  induction xs generalizing ys with
  | nil => simp [eq_comm]
  | cons x xs ih =>
      simp only [List.mapM_cons, Option.bind_eq_bind, Option.bind_eq_some_iff, Option.pure_def,
        Option.some.injEq, ih]
      constructor
      · rintro ⟨y, atHead, rest, atTail, rfl⟩
        exact .cons atHead atTail
      · rintro (_ | ⟨atHead, atTail⟩)
        exact ⟨_, atHead, _, atTail, rfl⟩

/-- What a node makes of the values of its operands, whatever their names. -/
structure Meaning (V : Type) where
  apply : Node → List V → Option V
  apply_outline : ∀ {n other : Node}, n.outline = other.outline → apply n = apply other

variable {V R : Type} [LinearOrder R] {M : Meaning V}

/-- Values of which some say less than others. A node makes more of operands that say more. -/
structure Meaning.Order (M : Meaning V) where
  Less : V → V → Prop
  refl : ∀ v, Less v v
  trans : ∀ {u v w}, Less u v → Less v w → Less u w
  mono : ∀ {n xs ys v}, List.Forall₂ Less xs ys → M.apply n xs = some v → ∃ w,
    M.apply n ys = some w ∧ Less v w

/-- Values that say no less than themselves only. -/
def Meaning.flat (M : Meaning V) : M.Order where
  Less := Eq
  refl _ := rfl
  trans := .trans
  mono {_ xs ys v} related result := by
    have same : xs = ys := List.forall₂_eq_eq_eq ▸ related
    exact ⟨v, same ▸ result, rfl⟩

/-- There is a value that says no less than another. -/
def Meaning.Order.Covers (O : M.Order) (v : V) (found : Option V) : Prop :=
  ∃ w, found = some w ∧ O.Less v w

theorem Meaning.Order.Covers.of_eq {O : M.Order} {v : V} {found : Option V} (same : found = some v)
    : O.Covers v found :=
  ⟨v, same, O.refl v⟩

theorem Meaning.Order.Covers.trans {O : M.Order} {u v : V} {found : Option V} (less : O.Less u v)
    (covers : O.Covers v found)
    : O.Covers u found := by
  obtain ⟨w, isFound, more⟩ := covers
  exact ⟨w, isFound, O.trans less more⟩

theorem Meaning.Order.Covers.mono {O : M.Order} {n : Node} {v : V} {xs ys : List V}
    (related : List.Forall₂ O.Less xs ys) (covers : O.Covers v (M.apply n xs))
    : O.Covers v (M.apply n ys) := by
  obtain ⟨_, made, less⟩ := covers
  exact .trans less (O.mono related made)

theorem Meaning.flat_covers {v : V} {found : Option V}
    : M.flat.Covers v found ↔ found = some v := by
  refine ⟨?_, .of_eq⟩
  rintro ⟨_, isFound, rfl⟩
  exact isFound

variable {O : M.Order}

/-- One of some values is replaced by one that says no less, along with the node that has it. -/
theorem Meaning.Order.forall₂_set {value : NodeId → Option V} {ids : List NodeId} {xs : List V}
    {slot : Nat} {old new : NodeId} (values : List.Forall₂ (fun id x => value id = some x) ids xs)
    (atSlot : ids[slot]? = some old) (covers : ∀ {x}, value old = some x → O.Covers x (value new))
    : ∃ ys, List.Forall₂ (fun id y => value id = some y) (ids.set slot new) ys
      ∧ List.Forall₂ O.Less xs ys := by
  induction values generalizing slot with
  | nil => exact ⟨[], .nil, .nil⟩
  | @cons id x ids xs head tail ih =>
      cases slot with
      | zero =>
          obtain rfl := Option.some.inj atSlot
          obtain ⟨y, found, less⟩ := covers head
          exact ⟨y :: xs, .cons found tail, .cons less (List.forall₂_same.mpr fun x _ => O.refl x)⟩
      | succ slot =>
          obtain ⟨ys, found, related⟩ := ih atSlot
          exact ⟨x :: ys, .cons head found, .cons (O.refl x) related⟩

/-- The node has a value in the graph. -/
abbrev Graph.Has (g : Graph) (M : Meaning V) : NodeId → V → Prop :=
  g.Evaluates fun id => M.apply (g.node id)

/-- Values depend on the nodes only. -/
theorem Graph.Has.congr {g h : Graph} (same : ∀ id, h.node id = g.node id) {id : NodeId} {v : V}
    (has : g.Has M id v)
    : h.Has M id v := by
  induction has using Evaluates.induct with
  | step id operands value values result =>
      have kept : M.apply (h.node id) operands = some value := (same id).symm ▸ result
      exact .of_kind (congrArg Node.kind (same id))
        (values.imp fun _ _ found => found.choose_spec) kept

/-- A graph with its nodes in use, their ranks and values. A node in use without a value is one that
has none. A node makes of the values of its operands one that says no less than its own. -/
structure Valuation (M : Meaning V) (R : Type) [LinearOrder R] (O : M.Order := M.flat) where
  graph : Graph
  live : NodeId → Prop
  rank : NodeId → R
  value : NodeId → Option V
  inside : ∀ {id}, live id → id < graph.size
  operand : ∀ {id child}, live id → child ∈ graph.children id → live child ∧ rank child < rank id
  backed : ∀ {id v}, live id → value id = some v →
    ∃ operands,
      List.Forall₂ (fun child x => value child = some x) (graph.children id) operands
      ∧ O.Covers v (M.apply (graph.node id) operands)

theorem Valuation.valued (s : Valuation M R) {id : NodeId} {v : V} (isLive : s.live id)
    (hasValue : s.value id = some v)
    : ∃ operands,
        List.Forall₂ (fun child x => s.value child = some x) (s.graph.children id) operands
        ∧ M.apply (s.graph.node id) operands = some v := by
  obtain ⟨operands, values, covers⟩ := s.backed isLive hasValue
  exact ⟨operands, values, Meaning.flat_covers.mp covers⟩

/-- What passes from operands to users holds of all nodes in use. Witness: only places in the arena
are in use, so ranks are well-founded on them. -/
theorem Valuation.induction (s : Valuation M R O) {P : NodeId → Prop}
    (step : ∀ {id}, s.live id → (∀ child ∈ s.graph.children id, P child) → P id) {id : NodeId}
    (isLive : s.live id)
    : P id := by
  have strict : IsStrictOrder NodeId fun a b => s.rank a < s.rank b :=
    { irrefl := fun _ => lt_irrefl _, trans := fun _ _ _ => lt_trans }
  have finite : {id | s.live id}.Finite :=
    (Set.finite_Iio s.graph.size).subset fun _ live => s.inside live
  have founded : {id | s.live id}.WellFoundedOn fun a b => s.rank a < s.rank b :=
    finite.wellFoundedOn
  refine founded.induction isLive fun id isLive ih => step isLive fun child member => ?_
  obtain ⟨childLive, below⟩ := s.operand isLive member
  exact ih child childLive below

theorem Valuation.live_of_reachable (s : Valuation M R O)
    (roots : ∀ {root}, root ∈ s.graph.outputs → s.live root) {id : NodeId}
    (reachable : s.graph.Reachable id)
    : s.live id := by
  obtain ⟨root, isRoot, path⟩ := reachable
  induction path with
  | refl => exact roots isRoot
  | tail _ uses ih => exact (s.operand ih uses).1

theorem Valuation.acyclic (s : Valuation M R O)
    (roots : ∀ {root}, root ∈ s.graph.outputs → s.live root)
    : s.graph.Acyclic :=
  Graph.acyclic_of_rank s.rank fun reachable uses =>
    (s.operand (s.live_of_reachable roots reachable) uses).2

/-- The nodes in use have values that say no less than those of the valuation. -/
theorem Valuation.exists_has (s : Valuation M R O) {id : NodeId} {v : V} (isLive : s.live id)
    (hasValue : s.value id = some v)
    : ∃ w, s.graph.Has M id w ∧ O.Less v w := by
  refine s.induction (P := fun id => ∀ v, s.value id = some v → ∃ w, s.graph.Has M id w
    ∧ O.Less v w) (fun {id} isLive ih v hasValue => ?_) isLive v hasValue
  obtain ⟨operands, values, u, result, less⟩ := s.backed isLive hasValue
  obtain ⟨others, has, related⟩ : ∃ others, List.Forall₂ (s.graph.Has M)
      (s.graph.children id) others
      ∧ List.Forall₂ O.Less operands others := by
    clear result
    generalize s.graph.children id = children at ih values
    induction values with
    | nil => exact ⟨[], .nil, .nil⟩
    | cons atHead _ rest =>
        obtain ⟨w, head, more⟩ := ih _ List.mem_cons_self _ atHead
        obtain ⟨others, tail, related⟩ := rest fun child member =>
          ih child (List.mem_cons_of_mem _ member)
        exact ⟨w :: others, .cons head tail, .cons more related⟩
  obtain ⟨w, made, more⟩ := O.mono related result
  exact ⟨w, .intro has made, O.trans less more⟩

/-- The values of a valuation are the values of its graph. -/
theorem Valuation.has (s : Valuation M R) {id : NodeId} {v : V} (isLive : s.live id)
    (hasValue : s.value id = some v)
    : s.graph.Has M id v := by
  obtain ⟨_, has, rfl⟩ := s.exists_has isLive hasValue
  exact has

theorem Valuation.operand_kind (s : Valuation M R O) {id child : NodeId} {kind : NodeKind}
    (isLive : s.live id) (found : (s.graph.node id).kind = kind) (member : child ∈ kind.children)
    : s.live child ∧ s.rank child < s.rank id := by
  subst found
  exact s.operand isLive member

/-- The operands of a node of a known kind have the values that its own is made of. -/
theorem Valuation.backed_kind (s : Valuation M R O) {id : NodeId} {kind : NodeKind} {v : V}
    (isLive : s.live id) (found : (s.graph.node id).kind = kind) (hasValue : s.value id = some v)
    : ∃ operands,
        List.Forall₂ (fun child x => s.value child = some x) kind.children operands
        ∧ O.Covers v (M.apply (s.graph.node id) operands) := by
  subst found
  exact s.backed isLive hasValue

open Classical in
/-- The nodes in use that rank below a node. -/
noncomputable def Valuation.lower (s : Valuation M R O) (id : NodeId) : Finset NodeId :=
  {other ∈ Finset.range s.graph.size | s.live other ∧ s.rank other < s.rank id}

theorem Valuation.mem_lower {s : Valuation M R O} {id other : NodeId}
    : other ∈ s.lower id ↔ s.live other ∧ s.rank other < s.rank id := by
  simp only [lower, Finset.mem_filter, Finset.mem_range, and_iff_right_iff_imp]
  exact fun found => s.inside found.1

theorem Valuation.card_lower_lt (s : Valuation M R O) {id below : NodeId} (isLive : s.live below)
    (lower : s.rank below < s.rank id)
    : (s.lower below).card < (s.lower id).card := by
  refine Finset.card_lt_card ((Finset.ssubset_iff_of_subset fun other member => ?_).mpr ?_)
  · obtain ⟨otherLive, otherLower⟩ := mem_lower.mp member
    exact mem_lower.mpr ⟨otherLive, otherLower.trans lower⟩
  · exact ⟨below, mem_lower.mpr ⟨isLive, lower⟩, fun member => lt_irrefl _ (mem_lower.mp member).2⟩

open Classical in
/-- The value of a node, if it has one. -/
noncomputable def Graph.valueOf? (g : Graph) (M : Meaning V) (id : NodeId) : Option V :=
  if found : ∃ v, g.Has M id v then some found.choose else none

theorem Graph.valueOf?_eq_some {g : Graph} {id : NodeId} {v : V}
    : g.valueOf? M id = some v ↔ g.Has M id v := by
  rw [Graph.valueOf?]
  split
  case isTrue found =>
    constructor
    · intro same
      exact Option.some.inj same ▸ found.choose_spec
    · intro has
      rw [found.choose_spec.unique has]
  case isFalse missing =>
    exact ⟨fun impossible => (by cases impossible), fun has => (missing ⟨v, has⟩).elim⟩

/-- The valuation of a graph by the values its nodes have. -/
noncomputable def Valuation.ofGraph (O : M.Order) (g : Graph) (live : NodeId → Prop)
    (rank : NodeId → R) (inside : ∀ {id}, live id → id < g.size)
    (operand : ∀ {id child}, live id → child ∈ g.children id → live child ∧ rank child < rank id)
    : Valuation M R O where
  graph := g
  live := live
  rank := rank
  value := g.valueOf? M
  inside := inside
  operand := operand
  backed _ hasValue := by
    obtain ⟨operands, values, result⟩ := (Graph.valueOf?_eq_some.mp hasValue).operands
    exact ⟨operands, values.imp fun _ _ => Graph.valueOf?_eq_some.mpr, .of_eq result⟩

namespace Valuation

/-! ## Valuations that follow each other -/

/-- A later valuation: what was in use still is, with its rank, its value and its outline. -/
structure Later (s t : Valuation M R O) : Prop where
  live : ∀ {id}, s.live id → t.live id
  rank : ∀ {id}, s.live id → t.rank id = s.rank id
  value : ∀ {id}, s.live id → t.value id = s.value id
  outline : ∀ {id}, s.live id → (t.graph.node id).outline = (s.graph.node id).outline

theorem Later.refl (s : Valuation M R O) : s.Later s :=
  ⟨id, fun _ => rfl, fun _ => rfl, fun _ => rfl⟩

theorem Later.trans {s t u : Valuation M R O} (first : s.Later t) (second : t.Later u)
    : s.Later u where
  live isLive := second.live (first.live isLive)
  rank isLive := (second.rank (first.live isLive)).trans (first.rank isLive)
  value isLive := (second.value (first.live isLive)).trans (first.value isLive)
  outline isLive := (second.outline (first.live isLive)).trans (first.outline isLive)

/-- A node that can be used in place of another: its value says no less, and it ranks no higher. -/
structure Stands (s : Valuation M R O) (old new : NodeId) : Prop where
  oldLive : s.live old
  newLive : s.live new
  rank : s.rank new ≤ s.rank old
  covers : ∀ {v}, s.value old = some v → O.Covers v (s.value new)

theorem Stands.value {s : Valuation M R} {old new : NodeId} {v : V} (stands : s.Stands old new)
    (hasValue : s.value old = some v)
    : s.value new = some v :=
  Meaning.flat_covers.mp (stands.covers hasValue)

theorem Stands.refl {s : Valuation M R O} {id : NodeId} (isLive : s.live id) : s.Stands id id :=
  ⟨isLive, isLive, le_rfl, .of_eq⟩

theorem Stands.trans {s : Valuation M R O} {first second third : NodeId}
    (left : s.Stands first second) (right : s.Stands second third)
    : s.Stands first third :=
  ⟨left.oldLive, right.newLive, right.rank.trans left.rank, fun found => by
    obtain ⟨_, found, less⟩ := left.covers found
    exact .trans less (right.covers found)⟩

theorem Stands.later {s t : Valuation M R O} {old new : NodeId} (stands : s.Stands old new)
    (later : s.Later t)
    : t.Stands old new where
  oldLive := later.live stands.oldLive
  newLive := later.live stands.newLive
  rank := by
    rw [later.rank stands.oldLive, later.rank stands.newLive]
    exact stands.rank
  covers := by
    rw [later.value stands.oldLive, later.value stands.newLive]
    exact stands.covers

/-! ## Edits -/

/-- Point a slot at what stands in for its operand. -/
def setChild (s : Valuation M R O) {parent child new : NodeId} {slot : Nat}
    (atSlot : (s.graph.children parent)[slot]? = some child) (stands : s.Stands child new)
    : Valuation M R O where
  graph := s.graph.setChild parent slot new
  live := s.live
  rank := s.rank
  value := s.value
  inside isLive := by
    rw [Graph.size_setChild]
    exact s.inside isLive
  operand {id other} isLive member := by
    rcases Graph.uses_setChild member with before | ⟨rfl, rfl⟩
    · exact s.operand isLive before
    · have below := (s.operand isLive (List.mem_of_getElem? atSlot)).2
      exact ⟨stands.newLive, lt_of_le_of_lt stands.rank below⟩
  backed {id v} isLive hasValue := by
    obtain ⟨operands, values, u, result, less⟩ := s.backed isLive hasValue
    rw [Graph.children, Graph.node_setChild]
    split
    case isTrue same =>
      subst same
      rw [Node.children_setChild]
      obtain ⟨others, found, related⟩ := Meaning.Order.forall₂_set values atSlot stands.covers
      obtain ⟨w, made, more⟩ := O.mono related result
      refine ⟨others, found, w, ?_, O.trans less more⟩
      rw [congrFun (M.apply_outline (Node.outline_setChild _ _ _)) others]
      exact made
    case isFalse => exact ⟨operands, values, u, result, less⟩

theorem setChild_later (s : Valuation M R O) {parent child new : NodeId} {slot : Nat}
    (atSlot : (s.graph.children parent)[slot]? = some child) (stands : s.Stands child new)
    : s.Later (s.setChild atSlot stands) := by
  refine ⟨fun isLive => isLive, fun _ => rfl, fun _ => rfl, fun _ => ?_⟩
  simp only [setChild, Graph.node_setChild]
  split
  · exact Node.outline_setChild _ _ _
  · rfl

/-- There is a rank above some nodes that rank below another, and below that one. -/
theorem exists_rank [DenselyOrdered R] [NoMinOrder R] (s : Valuation M R O) {top : NodeId}
    {ids : List NodeId} (below : ∀ child ∈ ids, s.live child ∧ s.rank child < s.rank top)
    : ∃ rank < s.rank top, ∀ child ∈ ids, s.live child ∧ s.rank child < rank := by
  induction ids with
  | nil =>
      obtain ⟨rank, lower⟩ := exists_lt (s.rank top)
      exact ⟨rank, lower, fun child member => (List.not_mem_nil member).elim⟩
  | cons id ids ih =>
      obtain ⟨others, othersLower, aboveOthers⟩ :=
        ih fun child member => below child (List.mem_cons_of_mem _ member)
      obtain ⟨isLive, lower⟩ := below id List.mem_cons_self
      obtain ⟨rank, above, rankLower⟩ := exists_between (max_lt othersLower lower)
      refine ⟨rank, rankLower, fun child member => ?_⟩
      rcases List.mem_cons.mp member with rfl | later
      · exact ⟨isLive, (le_max_right _ _).trans_lt above⟩
      · obtain ⟨childLive, lowerChild⟩ := aboveOthers child later
        exact ⟨childLive, lowerChild.trans ((le_max_left _ _).trans_lt above)⟩

/-- Replace a root. -/
def setOutput (s : Valuation M R O) (index : Nat) (root : NodeId) : Valuation M R O :=
  { s with graph := s.graph.setOutput index root }

theorem setOutput_later (s : Valuation M R O) (index : Nat) (root : NodeId)
    : s.Later (s.setOutput index root) :=
  ⟨fun isLive => isLive, fun _ => rfl, fun _ => rfl, fun _ => rfl⟩

/-- What a node makes of the values that its operands have. -/
def derived (s : Valuation M R O) (n : Node) : Option V :=
  (n.children.mapM s.value).bind (M.apply n)

/-- Add a node whose operands are in use. -/
def push (s : Valuation M R O) (n : Node) (rank : R)
    (operand : ∀ child ∈ n.children, s.live child ∧ s.rank child < rank)
    : Valuation M R O where
  graph := s.graph.push n
  live id := s.live id ∨ id = s.graph.size
  rank := Function.update s.rank s.graph.size rank
  value := Function.update s.value s.graph.size (s.derived n)
  inside {id} isLive := by
    rw [Graph.size_push]
    rcases isLive with before | rfl
    · exact Nat.lt_succ_of_lt (s.inside before)
    · exact Nat.lt_succ_self _
  operand {id child} isLive member := by
    rcases Graph.uses_push member with ⟨rfl, isOwn⟩ | ⟨isOld, before⟩
    · obtain ⟨childLive, below⟩ := operand child isOwn
      rw [Function.update_self, Function.update_of_ne (Nat.ne_of_lt (s.inside childLive))]
      exact ⟨.inl childLive, below⟩
    · obtain ⟨childLive, below⟩ := s.operand (isLive.resolve_right isOld) before
      rw [Function.update_of_ne isOld, Function.update_of_ne (Nat.ne_of_lt (s.inside childLive))]
      exact ⟨.inl childLive, below⟩
  backed {id v} isLive hasValue := by
    have keeps {ids operands} (liveAll : ∀ child ∈ ids, s.live child)
        (values : List.Forall₂ (fun child x => s.value child = some x) ids operands) :
        List.Forall₂ (fun child x =>
          Function.update s.value s.graph.size (s.derived n) child = some x) ids operands := by
      refine List.forall₂_iff_zip.mpr ⟨values.length_eq, fun {child x} paired => ?_⟩
      rw [Function.update_of_ne
        (Nat.ne_of_lt (s.inside (liveAll child (List.of_mem_zip paired).1)))]
      exact (List.forall₂_iff_zip.mp values).2 paired
    rw [Graph.children, Graph.node_push]
    split
    case isTrue same =>
      rw [same, Function.update_self] at hasValue
      obtain ⟨operands, values, result⟩ := Option.bind_eq_some_iff.mp hasValue
      exact ⟨operands, keeps (fun child member => (operand child member).1)
        (mapM_eq_some.mp values), .of_eq result⟩
    case isFalse differs =>
      rw [Function.update_of_ne differs] at hasValue
      have wasLive := isLive.resolve_right differs
      obtain ⟨operands, values, covers⟩ := s.backed wasLive hasValue
      exact ⟨operands, keeps (fun child member => (s.operand wasLive member).1) values, covers⟩

theorem push_later (s : Valuation M R O) (n : Node) (rank : R)
    (operand : ∀ child ∈ n.children, s.live child ∧ s.rank child < rank)
    : s.Later (s.push n rank operand) where
  live isLive := .inl isLive
  rank isLive := Function.update_of_ne (Nat.ne_of_lt (s.inside isLive)) _ _
  value isLive := Function.update_of_ne (Nat.ne_of_lt (s.inside isLive)) _ _
  outline isLive := by rw [push, Graph.node_push_of_lt n (s.inside isLive)]

/-! ## Passes on valuations -/

section Passes

-- States carry a valuation, and perhaps more that a pass relies on.
variable {S : Type} {val : S → Valuation M R O}

/-- States in the order of time, seen as graphs. -/
def evolution (val : S → Valuation M R O) : Evolution Graph S where
  view s := (val s).graph
  Later s t := (val s).Later (val t)
  refl s := .refl (val s)
  trans := .trans

/-- What a pass keeps up that replaces nodes by nodes of the same value. Constants and outputs stay
in place. -/
def invariant (val : S → Valuation M R O) (Spent : S → NodeId → Prop)
    (point : ∀ {s parent child new slot}
      (atSlot : ((val s).graph.children parent)[slot]? = some child)
      (stands : (val s).Stands child new),
      (val s).live parent → (((val s).graph.node child).isFixed = true → new = child) →
        ∃ t, val t = (val s).setChild atSlot stands ∧ ∀ id, Spent t id → Spent s id)
    (redirect : ∀ s index root,
      ∃ t, val t = (val s).setOutput index root ∧ ∀ id, Spent t id → Spent s id)
    : Pass.Invariant Unit S where
  toEvolution := (evolution val).workspace
  Live s := (val s).live
  Stands s old new :=
    (val s).Stands old new ∧ (((val s).graph.node old).isFixed = true → new = old)
  Spent := Spent
  live_later later := later.live
  stands_later later := fun ⟨stands, stays⟩ =>
    ⟨stands.later later, fun isFixed =>
      stays ((Node.isFixed_eq_of_outline (later.outline stands.oldLive)).symm.trans isFixed)⟩
  stands_refl isLive := ⟨.refl isLive, fun _ => rfl⟩
  live_of_stands stands := stands.1.newLive
  isOutput_later later isLive := Node.isOutput_eq_of_outline (later.outline isLive)
  point {s _ _ _ _} isLive atSlot stands := by
    obtain ⟨t, carried, spent⟩ := point atSlot stands.1 isLive stands.2
    refine ⟨t, ?_, ?_, spent⟩
    · exact congrArg (fun u : Valuation M R O => (⟨u.graph, ()⟩ : Workspace Unit)) carried
    · exact (congrArg (val s).Later carried).mpr ((val s).setChild_later atSlot stands.1)
  redirect {s index _ new} _ _ := by
    obtain ⟨t, carried, spent⟩ := redirect s index new
    refine ⟨t, ?_, ?_, spent⟩
    · exact congrArg (fun u : Valuation M R O => (⟨u.graph, ()⟩ : Workspace Unit)) carried
    · exact (congrArg (val s).Later carried).mpr ((val s).setOutput_later index new)

/-- Outputs stay in place. -/
theorem outputs_eq_of_succeeds {I : Pass.Invariant Unit S} {t : S} {roots new : List NodeId}
    (stays : ∀ {old new}, I.Stands t old new → ((I.graph t).node old).isFixed = true → new = old)
    (succeeds : List.Forall₂ (I.Succeeds t) roots new)
    : new = roots := by
  induction succeeds with
  | nil => rfl
  | cons head _ ih =>
      rw [stays head.stands (Node.isFixed_of_isOutput head.isOutput), ih]

end Passes

end Valuation

end StreamExpr
