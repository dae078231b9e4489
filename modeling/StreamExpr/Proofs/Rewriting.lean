import StreamExpr.Proofs.RankedGraph

/-! Passes that rewrite a node until it is stable.
A node may need some further nodes before it is stable, and mild nodes among those need some again.
What a node still needs is set aside when it is added, and set free when it is rewritten. So a pass
that starts with a fixed grant for each node of the arena never adds more than it was granted.
-/

namespace StreamExpr

open Finset (range)

/-! ## What rewriting costs -/

/-- How many nodes it takes to rewrite a node, told from its outline. For a node that is added while
others are rewritten this is set aside if the node is mild, and for a node that was there a fixed
grant is. Shared selections may be paid for in advance, out of what is spared for those that are not
shared yet. -/
structure Tariff where
  need : Node → Nat
  mild : Nat
  grant : Nat
  spare : Nat → Graph → Nat
  /-- Nodes that may be added. -/
  Allows : Node → Prop
  need_outline : ∀ {n other : Node}, n.outline = other.outline → need n = need other
  allows_outline : ∀ {n other : Node}, n.outline = other.outline → Allows n → Allows other
  spare_selections : ∀ {base : Nat} {g h : Graph}, h.selections = g.selections
    → spare base h = spare base g
  granted : ∀ n, need n ≤ grant

namespace Tariff

/-- A tariff by which all nodes may be added and nothing is spared. -/
def flat (need : Node → Nat) (mild grant : Nat)
    (need_outline : ∀ {n other : Node}, n.outline = other.outline → need n = need other)
    (granted : ∀ n, need n ≤ grant)
    : Tariff where
  need := need
  mild := mild
  grant := grant
  spare _ _ := 0
  Allows _ := True
  need_outline := need_outline
  allows_outline _ _ := trivial
  spare_selections _ := rfl
  granted := granted

variable {T : Tariff} {base : Nat} {g h : Graph} {n : Node} {id : NodeId} {spent : Finset NodeId}

/-- What is set aside for a node that is added. -/
def reserve (T : Tariff) (n : Node) : Nat :=
  if T.need n ≤ T.mild then T.need n else 0

/-- What is set aside for a node. -/
def price (T : Tariff) (base : Nat) (g : Graph) (id : NodeId) : Nat :=
  if id < base then T.grant else T.reserve (g.node id)

/-- The size of a graph with all that is set aside, save for nodes that are spent. -/
def load (T : Tariff) (base : Nat) (g : Graph) (spent : Finset NodeId) : Nat :=
  g.size + T.spare base g + ∑ id ∈ range g.size \ spent, T.price base g id

/-- The size of a graph with all that is set aside. -/
def worth (T : Tariff) (base : Nat) (g : Graph) : Nat :=
  g.size + T.spare base g + ∑ id ∈ range g.size, T.price base g id

/-- The nodes that were added are allowed. -/
structure Fair (T : Tariff) (base : Nat) (g : Graph) : Prop where
  covers : base ≤ g.size
  allows : ∀ {id}, base ≤ id → id < g.size → T.Allows (g.node id)

theorem reserve_outline {other : Node} (same : n.outline = other.outline)
    : T.reserve n = T.reserve other := by
  rw [reserve, reserve, T.need_outline same]

theorem price_of_node (same : h.node id = g.node id) : T.price base h id = T.price base g id := by
  rw [price, price, same]

theorem need_le_price (known : id < base ∨ T.need (g.node id) ≤ T.mild)
    : T.need (g.node id) ≤ T.price base g id := by
  rw [price]
  split
  case isTrue => exact T.granted _
  case isFalse added =>
    rw [reserve, if_pos (known.resolve_left added)]

theorem worth_push (covers : base ≤ g.size) (n : Node)
    : T.worth base (g.push n) = T.worth base g + 1 + T.reserve n := by
  have old : ∑ id ∈ range g.size, T.price base (g.push n) id = ∑ id ∈ range g.size,
    T.price base g id := Finset.sum_congr rfl fun id inside =>
    price_of_node (Graph.node_push_of_lt n (Finset.mem_range.mp inside))
  have new : T.price base (g.push n) g.size = T.reserve n := by
    rw [price, if_neg (Nat.not_lt_of_le covers), Graph.node_push_self]
  rw [worth, worth, Graph.size_push, Finset.sum_range_succ, old, new,
    T.spare_selections (g := g) (h := g.push n) rfl]
  omega

theorem worth_share (v : NodeId) (c : Nat) (selection : NodeId)
    : T.worth base (g.share v c selection) + T.spare base g
      = T.worth base g + T.spare base (g.share v c selection) := by
  change g.size + T.spare base (g.share v c selection) + ∑ id ∈ range g.size,
    T.price base g id + T.spare base g
    = g.size + T.spare base g + ∑ id ∈ range g.size,
      T.price base g id + T.spare base (g.share v c selection)
  omega

/-- What is set aside stays the same if all nodes keep their outlines. -/
theorem load_eq_of_outline (size : h.size = g.size) (selections : h.selections = g.selections)
    (outline : ∀ id, (h.node id).outline = (g.node id).outline)
    : T.load base h spent = T.load base g spent := by
  rw [load, load, size, T.spare_selections selections]
  refine congrArg _ (Finset.sum_congr rfl fun id _ => ?_)
  rw [price, price, reserve_outline (outline id)]

/-- A node that costs no more than was set aside for it is paid for once it is spent. Witness: what
is set aside for the nodes that are added is part of the cost. -/
theorem load_spend (appends : g.Appends h) (inside : id < g.size) (unspent : id ∉ spent)
    (new : NodeId) (paid : T.worth base h ≤ T.worth base g + T.price base g id)
    : T.load base h (insert id (insert new spent)) ≤ T.load base g spent := by
  have old : ∑ i ∈ range g.size, T.price base h i = ∑ i ∈ range g.size, T.price base g i :=
    Finset.sum_congr rfl fun i isOld => price_of_node (appends.node (Finset.mem_range.mp isOld))
  have all : ∑ i ∈ range h.size, T.price base h i
      = ∑ i ∈ range g.size, T.price base g i + ∑ i ∈ range h.size \ range g.size,
        T.price base h i := by
    rw [← old, add_comm, Finset.sum_sdiff (Finset.range_subset_range.mpr appends.size)]
  have left : ∑ i ∈ range h.size \ insert id (insert new spent), T.price base h i
      ≤ ∑ i ∈ (range g.size \ spent).erase id, T.price base g i
        + ∑ i ∈ range h.size \ range g.size, T.price base h i := by
    have kept : ∑ i ∈ (range g.size \ spent).erase id, T.price base g i
        = ∑ i ∈ (range g.size \ spent).erase id, T.price base h i := by
      refine Finset.sum_congr rfl fun i member => (price_of_node (appends.node ?_)).symm
      exact Finset.mem_range.mp (Finset.mem_sdiff.mp (Finset.mem_of_mem_erase member)).1
    rw [kept, ← Finset.sum_union]
    · refine Finset.sum_le_sum_of_subset fun i member => ?_
      simp only [Finset.mem_sdiff, Finset.mem_insert, Finset.mem_union, Finset.mem_erase,
        Finset.mem_range, not_or] at member ⊢
      by_cases isOld : i < g.size
      · exact .inl ⟨member.2.1, isOld, member.2.2.2⟩
      · exact .inr ⟨member.1, isOld⟩
    · refine Finset.disjoint_left.mpr fun i isOld isNew => ?_
      exact (Finset.mem_sdiff.mp isNew).2 (Finset.mem_sdiff.mp (Finset.mem_of_mem_erase isOld)).1
  have own : ∑ i ∈ (range g.size \ spent).erase id, T.price base g i + T.price base g id
      = ∑ i ∈ range g.size \ spent, T.price base g i :=
    Finset.sum_erase_add _ _ (Finset.mem_sdiff.mpr ⟨Finset.mem_range.mpr inside, unspent⟩)
  rw [load, load]
  rw [worth, worth, all] at paid
  omega

/-- At the start every node has its grant. -/
theorem load_empty (T : Tariff) (g : Graph)
    : T.load g.size g ∅ = g.size + T.spare g.size g + T.grant * g.size := by
  have each (id : NodeId) (inside : id ∈ range g.size) : T.price g.size g id = T.grant :=
    if_pos (Finset.mem_range.mp inside)
  rw [load, Finset.sdiff_empty, Finset.sum_const_nat each, Finset.card_range, Nat.mul_comm]

theorem size_le_load (T : Tariff) (base : Nat) (g : Graph) (spent : Finset NodeId)
    : g.size ≤ T.load base g spent := by
  rw [load]
  omega

/-! ## One node -/

variable {s t : RankedGraph} {new : NodeId} {once : NodeId → Edit NodeId}

/-- What is left once a node is rewritten: a node that ranks no higher, at no more than it needs.
All that was added is allowed, and what is no answer is mild. -/
structure Ends (T : Tariff) (base : Nat) (s : RankedGraph) (id new : NodeId) (t : RankedGraph)
    : Prop where
  fair : T.Fair base t.graph
  inside : new < t.graph.size
  rank : t.rank new ≤ s.rank id
  mild : ∀ {i}, s.graph.size ≤ i → i < t.graph.size → i = new ∨ T.need (t.graph.node i) ≤ T.mild
  worth : T.worth base t.graph ≤ T.worth base s.graph + T.need (s.graph.node id)

/-- One replacement leads to a node of lower rank that needs less. -/
structure Moves (T : Tariff) (base : Nat) (s : RankedGraph) (id new : NodeId) (t : RankedGraph)
    : Prop where
  rank : t.rank new < s.rank id
  mild : ∀ {i}, s.graph.size ≤ i → i < t.graph.size → T.need (t.graph.node i) ≤ T.mild
  worth : T.worth base t.graph + T.need (t.graph.node new) ≤ T.worth base s.graph
    + T.need (s.graph.node id)

/-- How replacements lead from node to node. A node that needs two further nodes at most is replaced
once. -/
noncomputable def settling (T : Tariff) (base : Nat)
    : (RankedGraph.edits fun _ => True).Settling where
  Live s id := T.Fair base s.graph ∧ id < s.graph.size
  weight s id := if T.need (s.graph.node id) ≤ 2 then 0 else s.depth id + 1
  Moves := T.Moves base
  Ends := T.Ends base
  ends_of_moves {s t u first second third} moves later ends := by
    refine ⟨ends.fair, ends.inside, ends.rank.trans (le_of_lt moves.rank),
      fun {i} added inside => ?_, ?_⟩
    · by_cases before : i < t.graph.size
      · rw [later.appends.node before]
        exact .inr (moves.mild added before)
      · exact ends.mild (Nat.le_of_not_lt before) inside
    · have first := moves.worth
      have rest := ends.worth
      omega

/-- An edit replaces a node at no more than it needs, or leads to one that needs less. -/
abbrev Advances (T : Tariff) (once : NodeId → Edit NodeId) (base : Nat) (s : RankedGraph)
    (id : NodeId) (edit : Edit NodeId)
    : Prop :=
  (RankedGraph.edits fun _ => True).Concludes s edit ((T.settling base).Advances once s id)

/-- A step whose replacements a tariff covers. Outputs are left alone. -/
structure Covers (T : Tariff) (once : NodeId → Edit NodeId) : Prop where
  advances : ∀ {base s id}, T.Fair base s.graph → id < s.graph.size →
    T.Advances once base s id (once id)
  output : ∀ {g id}, g.isOutput id = true → once id g = .ok id g

/-- A node becomes stable. -/
theorem Covers.stabilizes (covers : T.Covers once) (fair : T.Fair base s.graph)
    (inside : id < s.graph.size)
    : Edit.Stabilizes once id s.graph :=
  (T.settling base).stabilizes (fun live => covers.advances live.1 live.2) ⟨fair, inside⟩

theorem Covers.concludes_settle (covers : T.Covers once) (fair : T.Fair base s.graph)
    (inside : id < s.graph.size)
    : (RankedGraph.edits fun _ => True).Concludes s (Edit.settle once id) (T.Ends base s id) :=
  (T.settling base).runs_settle (fun live => covers.advances live.1 live.2) ⟨fair, inside⟩

/-! ## Replacements that are built -/

/-- A node that may be added for what is set aside for it. -/
structure Fits (T : Tariff) (need : Nat) (n : Node) : Prop where
  allows : T.Allows n
  need_le : T.need n ≤ need
  mild : T.need n ≤ T.mild

/-- Graphs that replacements are built in. -/
def building (T : Tariff) : Evolution Graph RankedGraph :=
  RankedGraph.edits fun n => T.Allows n ∧ T.need n ≤ T.mild

theorem concludes_read {α β : Type} {f : Graph → α} {next : α → Edit β}
    {post : β → RankedGraph → Prop}
    : T.building.Concludes s (Edit.read f >>= next) post ↔ T.building.Concludes s
      (next (f s.graph)) post :=
  Evolution.runs_read (E := T.building)

/-- What is built is added. -/
theorem concludes_of_building {α : Type} {x : Edit α} {post : α → RankedGraph → Prop}
    (concludes : T.building.Concludes s x post)
    : (RankedGraph.edits fun _ => True).Concludes s x fun a t =>
      T.building.Later s t ∧ post a t := by
  refine concludes.weaken rfl fun {s t} later => ?_
  exact RankedGraph.Extends.weaken later fun _ _ => trivial

theorem Fair.later (fair : T.Fair base s.graph) (later : T.building.Later s t)
    : T.Fair base t.graph where
  covers := fair.covers.trans later.appends.size
  allows {id} added inside := by
    by_cases before : id < s.graph.size
    · rw [later.appends.node before]
      exact fair.allows added before
    · exact (later.added (Nat.le_of_not_lt before) inside).1

/-- Nodes at hand that are below a bound, in a graph that is worth no more than a limit. -/
structure Stock (T : Tariff) (base : Nat) (bound : ℚ) (limit : Nat) (ids : List NodeId)
    (s : RankedGraph) : Prop where
  fair : T.Fair base s.graph
  below : ∀ id ∈ ids, s.Below bound id
  worth : T.worth base s.graph ≤ limit

variable {bound : ℚ} {limit need : Nat} {ids : List NodeId}

theorem Stock.mono {more : Nat} {fewer : List NodeId} (stock : T.Stock base bound limit ids s)
    (enough : limit ≤ more) (known : fewer ⊆ ids)
    : T.Stock base bound more fewer s :=
  ⟨stock.fair, fun id member => stock.below id (known member), stock.worth.trans enough⟩

/-- The nodes at hand stay at hand, and another may join them. -/
theorem Stock.grow (stock : T.Stock base bound limit ids s) (later : T.building.Later s t)
    (below : t.Below bound new) {more : Nat} (worth : T.worth base t.graph ≤ more)
    : T.Stock base bound more (new :: ids) t := by
  refine ⟨stock.fair.later later, fun id member => ?_, worth⟩
  rcases List.mem_cons.mp member with rfl | before
  · exact below
  · exact (stock.below id before).later later

/-- A node is added to those at hand. -/
structure Made (T : Tariff) (base : Nat) (bound : ℚ) (limit : Nat) (ids : List NodeId) (n : Node)
    (id : NodeId) (t : RankedGraph)
    : Prop where
  node : t.graph.node id = n
  stock : T.Stock base bound limit (id :: ids) t

theorem Stock.concludes_of_added {x : Edit NodeId} (stock : T.Stock base bound limit ids s)
    (fits : T.Fits need n) (concludes : T.building.Concludes s x (s.Added n bound))
    : T.building.Concludes s x (T.Made base bound (limit + (need + 1)) ids n) := by
  refine concludes.imp fun id t later added => ⟨added.node, stock.grow later added.below ?_⟩
  have worth := stock.worth
  have few := fits.need_le
  rw [added.graph, worth_push stock.fair.covers, reserve, if_pos fits.mild]
  omega

section Add

variable (stock : T.Stock base bound limit ids s)

include stock

theorem Stock.constant {value : Value}
    (fits : T.Fits need (.ofKind (.constant value) (.scalarOf value.register)))
    : T.building.Concludes s (Edit.constant value)
        (T.Made base bound (limit + (need + 1)) ids
        (.ofKind (.constant value) (.scalarOf value.register))) :=
  stock.concludes_of_added fits (RankedGraph.concludes_constant ⟨fits.allows, fits.mild⟩)

theorem Stock.conversion {target : RegisterClass} {x : NodeId} (member : x ∈ ids)
    (fits : T.Fits need ⟨.unary .typeConversion x, (s.graph.type x).withRegister target, some 0⟩)
    : T.building.Concludes s (Edit.conversion target x)
        (T.Made base bound (limit + (need + 1)) ids
          ⟨.unary .typeConversion x, (s.graph.type x).withRegister target, some 0⟩) :=
  stock.concludes_of_added fits (RankedGraph.concludes_conversion (stock.below x member)
    ⟨fits.allows, fits.mild⟩)

theorem Stock.operation {kind : NodeKind} (proper : ∀ v chosen, kind ≠ .swizzle v chosen)
    (known : ∀ x ∈ kind.children, x ∈ ids)
    (fits : T.Fits need (s.graph.deduced (.ofKind kind .unknown)))
    : T.building.Concludes s (Edit.add (·.pushDeduced kind))
        (T.Made base bound (limit + (need + 1)) ids (s.graph.deduced (.ofKind kind .unknown))) :=
  stock.concludes_of_added fits
    (RankedGraph.concludes_pushDeduced proper (fun x member => stock.below x (known x member))
    ⟨fits.allows, fits.mild⟩)

theorem Stock.unary {op : UnaryOp} {x : NodeId} (member : x ∈ ids)
    (fits : T.Fits need (s.graph.deduced (.ofKind (.unary op x) .unknown)))
    : T.building.Concludes s (Edit.unary op x)
        (T.Made base bound (limit + (need + 1)) ids
        (s.graph.deduced (.ofKind (.unary op x) .unknown))) :=
  stock.operation (fun _ _ impossible => by cases impossible)
    (by simpa [NodeKind.children] using member) fits

theorem Stock.binary {op : BinaryOp} {x y : NodeId} (left : x ∈ ids) (right : y ∈ ids)
    (fits : T.Fits need (s.graph.deduced (.ofKind (.binary op x y) .unknown)))
    : T.building.Concludes s (Edit.binary op x y)
        (T.Made base bound (limit + (need + 1)) ids
        (s.graph.deduced (.ofKind (.binary op x y) .unknown))) :=
  stock.operation (fun _ _ impossible => by cases impossible)
    (by simp [NodeKind.children, left, right]) fits

theorem Stock.ternary {op : TernaryOp} {x y z : NodeId} (first : x ∈ ids) (second : y ∈ ids)
    (third : z ∈ ids) (fits : T.Fits need (s.graph.deduced (.ofKind (.ternary op x y z) .unknown)))
    : T.building.Concludes s (Edit.ternary op x y z)
        (T.Made base bound (limit + (need + 1)) ids
        (s.graph.deduced (.ofKind (.ternary op x y z) .unknown))) :=
  stock.operation (fun _ _ impossible => by cases impossible)
    (by simp [NodeKind.children, first, second, third]) fits

theorem Stock.construct {type : DataType} {arguments : List NodeId}
    (known : ∀ x ∈ arguments, x ∈ ids) (fits : T.Fits need (.ofKind (.construct arguments) type))
    : T.building.Concludes s (Edit.construct type arguments)
        (T.Made base bound (limit + (need + 1)) ids (.ofKind (.construct arguments) type)) :=
  stock.concludes_of_added fits
    (RankedGraph.concludes_construct (fun x member => stock.below x (known x member))
    ⟨fits.allows, fits.mild⟩)

/-- A component is asked for, at what a new selection costs beyond what is spared. -/
theorem Stock.component {v : NodeId} {c cost : Nat} (member : v ∈ ids)
    (paid : (s.graph.type v).isVector = true → s.graph.selections[(v, c)]? = none →
      T.Fits need (s.graph.selectionOf v c)
      ∧ T.spare base ((s.graph.push (s.graph.selectionOf v c)).share v c s.graph.size) + (need + 1)
        ≤ T.spare base s.graph + cost)
    : T.building.Concludes s (Edit.component v c) fun id t =>
        s.Component v c id t ∧ T.Stock base bound (limit + cost) (id :: ids) t := by
  have below := stock.below v member
  have worth := stock.worth
  refine (RankedGraph.concludes_component below.inside fun isVector unshared => ?_).imp
    fun id t later component =>
    ⟨component, stock.grow later (component.below below) ?_⟩
  · exact ⟨(paid isVector unshared).1.allows, (paid isVector unshared).1.mild⟩
  · cases component.yields with
    | there => omega
    | added isVector unshared isNew graph _ =>
        obtain ⟨fits, spared⟩ := paid isVector unshared
        have few := fits.need_le
        have shares : T.worth base ((s.graph.push (s.graph.selectionOf v c)).share v c s.graph.size)
          + _ = _ := worth_share v c s.graph.size
        rw [worth_push stock.fair.covers, reserve, if_pos fits.mild,
          T.spare_selections (g := s.graph) (h := s.graph.push (s.graph.selectionOf v c))
          rfl] at shares
        rw [graph, isNew]
        omega

end Add

/-- What is built for a node: a node that needs nothing, at a certain cost. -/
structure Built (T : Tariff) (base : Nat) (bound : ℚ) (limit : Nat) (ids : List NodeId)
    (id : NodeId) (t : RankedGraph)
    : Prop where
  inert : T.need (t.graph.node id) = 0
  stock : T.Stock base bound limit (id :: ids) t

theorem Built.mono {more : Nat} {fewer : List NodeId} (built : T.Built base bound limit ids new t)
    (enough : limit ≤ more) (known : fewer ⊆ ids)
    : T.Built base bound more fewer new t :=
  ⟨built.inert, built.stock.mono enough (List.cons_subset_cons new known)⟩

theorem Made.built {more : Nat} {fewer : List NodeId} (made : T.Made base bound limit ids n new t)
    (inert : T.need n = 0) (enough : limit ≤ more) (known : fewer ⊆ ids)
    : T.Built base bound more fewer new t :=
  Built.mono ⟨made.node ▸ inert, made.stock⟩ enough known

/-- A node that is built at no more than a node needs is what is left of it. -/
theorem Stock.ends (later : T.building.Later s t)
    (stock : T.Stock base bound (T.worth base s.graph + T.need (s.graph.node id)) [new] t)
    (atMost : bound ≤ (s.rank id).level)
    : T.Ends base s id new t := by
  have below := stock.below new (List.mem_singleton_self new)
  exact ⟨stock.fair, below.inside, le_of_lt (below.rank_lt atMost),
    fun added inside => .inr (later.added added inside).2, stock.worth⟩

theorem Ends.refl (fair : T.Fair base s.graph) (inside : id < s.graph.size)
    : T.Ends base s id id s :=
  ⟨fair, inside, le_refl _, fun added isInside => absurd isInside (Nat.not_lt_of_le added),
    Nat.le_add_right _ _⟩

/-- The operands of a node are at hand. -/
theorem Fair.stock (fair : T.Fair base s.graph) (plain : (s.rank id).isShared = false)
    : T.Stock base (s.rank id).level (T.worth base s.graph) (s.graph.children id) s :=
  ⟨fair, fun _ uses => RankedGraph.below_operand plain uses, Nat.le_refl _⟩

/-- A replacement that is built is stable. -/
theorem advances_of_built {x : Edit NodeId} (atMost : bound ≤ (s.rank id).level)
    (concludes : T.building.Concludes s x fun new t =>
      once new t.graph = .ok new t.graph
      ∧ T.Stock base bound (T.worth base s.graph + T.need (s.graph.node id)) [new] t)
    : T.Advances once base s id x := by
  refine (concludes_of_building concludes).imp fun new t _ found => ?_
  obtain ⟨later, fixed, stock⟩ := found
  exact .settles (stock.ends later atMost) fixed

/-- What is built from the operands of a node other than a selection is a stable replacement if it
needs nothing. -/
theorem advances_of_operands {x : Edit NodeId} {kind : NodeKind} {cost : Nat}
    (fair : T.Fair base s.graph) (fixed : ∀ {g : Graph} {id : NodeId}, T.need (g.node id) = 0
    → once id g = .ok id g) (own : (s.graph.node id).kind = kind)
      (proper : ∀ v chosen, kind ≠ .swizzle v chosen)
    (few : cost ≤ T.need (s.graph.node id))
    (built : T.Stock base (s.rank id).level (T.worth base s.graph) kind.children s →
      T.building.Concludes s x
        (T.Built base (s.rank id).level (T.worth base s.graph + cost) kind.children))
    : T.Advances once base s id x := by
  subst own
  refine advances_of_built (le_refl _) ((built (fair.stock (s.isShared_of_kind proper))).imp ?_)
  intro new t _ built
  exact ⟨fixed built.inert, built.stock.mono (Nat.add_le_add_left few _) (by simp)⟩

/-- A replacement that is built and needs two further nodes at most is replaced once more at
most. -/
theorem advances_of_nearly {x : Edit NodeId} (inside : id < s.graph.size)
    (atMost : bound ≤ (s.rank id).level) (large : 2 < T.need (s.graph.node id))
    (few : limit + 2 ≤ T.worth base s.graph + T.need (s.graph.node id))
    (concludes : T.building.Concludes s x fun new t =>
      T.need (t.graph.node new) ≤ 2 ∧ T.Stock base bound limit [new] t)
    : T.Advances once base s id x := by
  refine (concludes_of_building concludes).imp fun new t _ found => ?_
  obtain ⟨later, small, stock⟩ := found
  have below := stock.below new (List.mem_singleton_self new)
  have lower : t.rank new < s.rank id := below.rank_lt atMost
  refine .moves ⟨lower, fun added isInside => (later.added added isInside).2, ?_⟩
    ⟨stock.fair, below.inside⟩ (fun same => ?_) ?_
  · exact (Nat.add_le_add stock.worth small).trans few
  · rw [same, later.rank inside] at lower
    exact lt_irrefl _ lower
  · change (if T.need (t.graph.node new) ≤ 2 then 0 else _) < if T.need (s.graph.node id)
      ≤ 2 then 0 else s.depth id + 1
    rw [if_pos small, if_neg (Nat.not_le_of_lt large)]
    exact Nat.succ_pos _

/-- A replacement of lower rank that needs no more and is less deep brings a node nearer to the
end. -/
theorem advances_of_moves (moves : T.Moves base s id new t) (fair : T.Fair base t.graph)
    (inside : new < t.graph.size) (kept : t.rank id = s.rank id) (deeper : t.depth new < s.depth id)
    (large : 2 < T.need (s.graph.node id))
    : (T.settling base).Advances once s id new t := by
  refine .moves moves ⟨fair, inside⟩ (fun same => ?_) ?_
  · have lower := moves.rank
    rw [same, kept] at lower
    exact lt_irrefl _ lower
  · change (if T.need (t.graph.node new) ≤ 2 then 0 else t.depth new + 1)
      < if T.need (s.graph.node id) ≤ 2 then 0 else s.depth id + 1
    rw [if_neg (Nat.not_le_of_lt large)]
    split <;> omega

/-- A node of lower rank that was there may be the replacement. -/
theorem advances_of_lower (fair : T.Fair base s.graph) (inside : new < s.graph.size)
    (lower : s.rank new < s.rank id) (less : T.need (s.graph.node new) ≤ T.need (s.graph.node id))
    (large : 2 < T.need (s.graph.node id))
    : (T.settling base).Advances once s id new s :=
  advances_of_moves ⟨lower, fun added isInside => absurd isInside (Nat.not_lt_of_le added),
    Nat.add_le_add_left less _⟩ fair inside rfl (RankedGraph.depth_lt_of_rank inside lower) large

/-! ## The whole pass -/

/-- What is known of a call: the node becomes stable or a replacement fails, in a graph that is no
larger than the limit. -/
structure Kept (once : NodeId → Edit NodeId) (limit : Nat) (call : Handover) : Prop where
  stabilizes : Edit.Stabilizes once call.id call.graph
  ends : ∀ h, Edit.settle once call.id call.graph ≠ .error .endless h
  small : (∀ id, Edit.Clean (once id)) → ∀ {e h},
    Edit.settle once call.id call.graph = .error e h → h.size ≤ limit

/-- A state of a pass: what is set aside is within a limit, and what is not spent is paid for. -/
structure Progress (T : Tariff) (once : NodeId → Edit NodeId) (base limit : Nat) where
  scope : RankedGraph
  spent : Finset NodeId
  calls : List Handover
  fair : T.Fair base scope.graph
  mild : ∀ {i}, i < scope.graph.size → i ∉ spent → i < base ∨ T.need (scope.graph.node i) ≤ T.mild
  room : T.load base scope.graph spent ≤ limit
  kept : ∀ call ∈ calls, Kept once limit call

namespace Progress

variable {limit : Nat}

/-- Put a graph in which all nodes keep their outlines in place of a graph. -/
def retell (p : T.Progress once base limit) (t : RankedGraph)
    (size : t.graph.size = p.scope.graph.size)
    (selections : t.graph.selections = p.scope.graph.selections)
    (outline : ∀ id, (t.graph.node id).outline = (p.scope.graph.node id).outline)
    : T.Progress once base limit where
  scope := t
  spent := p.spent
  calls := p.calls
  fair := ⟨size.symm ▸ p.fair.covers, fun {id} added inside =>
    T.allows_outline (outline id).symm (p.fair.allows added (size ▸ inside))⟩
  mild {i} inside unspent := by
    rw [T.need_outline (outline i)]
    exact p.mild (size ▸ inside) unspent
  room := (load_eq_of_outline size selections outline).trans_le p.room
  kept := p.kept

/-- Note a call. -/
def note (p : T.Progress once base limit) (call : Handover) (kept : Kept once limit call)
    : T.Progress once base limit where
  scope := p.scope
  spent := p.spent
  calls := call :: p.calls
  fair := p.fair
  mild := p.mild
  room := p.room
  kept other member := by
    rcases List.mem_cons.mp member with rfl | before
    · exact kept
    · exact p.kept other before

/-- Put the graph in which a node is rewritten in place of a graph, and spend the node and the
answer. -/
def spend (p : T.Progress once base limit) {t : RankedGraph}
    (later : RankedGraph.Extends (fun _ => True) p.scope t) (inside : id < p.scope.graph.size)
    (unspent : id ∉ p.spent) (ends : T.Ends base p.scope id new t)
    : T.Progress once base limit where
  scope := t
  spent := insert id (insert new p.spent)
  calls := p.calls
  fair := ends.fair
  mild {i} isInside isUnspent := by
    simp only [Finset.mem_insert, not_or] at isUnspent
    by_cases before : i < p.scope.graph.size
    · rw [later.appends.node before]
      exact p.mild before isUnspent.2.2
    · exact .inr ((ends.mild (Nat.le_of_not_lt before) isInside).resolve_left isUnspent.2.1)
  room := by
    refine (load_spend later.appends inside unspent new (ends.worth.trans ?_)).trans p.room
    exact Nat.add_le_add_left (need_le_price (p.mild inside unspent)) _
  kept := p.kept

end Progress

variable {limit : Nat}

/-- What a pass over ranked graphs keeps up. -/
def invariant (T : Tariff) (once : NodeId → Edit NodeId) (base limit : Nat)
    : Pass.Invariant (List Handover) (T.Progress once base limit) where
  view p := ⟨p.scope.graph, p.calls⟩
  Later p q := p.scope.Precedes q.scope
  refl p := .refl p.scope
  trans := RankedGraph.Precedes.trans
  Live p id := id < p.scope.graph.size
  Stands p := p.scope.Stands
  Spent p id := id ∈ p.spent
  live_later later inside := Nat.lt_of_lt_of_le inside later.size
  stands_later later stands := stands.later later
  stands_refl := .refl
  live_of_stands := RankedGraph.Stands.inside
  isOutput_later later inside := later.isOutput inside
  point {p parent slot child new} _ atSlot stands := by
    have lower := stands.lower (List.mem_of_getElem? atSlot)
    let t := p.scope.setChild slot stands.inside lower
    refine ⟨p.retell t (Graph.size_setChild ..) rfl fun id => ?_, rfl,
      RankedGraph.precedes_setChild slot stands.inside lower, fun _ isSpent => isSpent⟩
    change ((p.scope.graph.setChild parent slot new).node id).outline = _
    rw [Graph.node_setChild]
    split
    · exact Node.outline_setChild _ _ _
    · rfl
  redirect {p index root new} atIndex stands := by
    have isOutput := stands.isOutput (List.mem_of_getElem? atIndex)
    exact ⟨p.retell (p.scope.setOutput index isOutput) rfl rfl fun _ => rfl, rfl,
      RankedGraph.precedes_setOutput index isOutput, fun _ isSpent => isSpent⟩

/-- The graph in which rewriting a node fails is one in which it could have ended. -/
theorem Covers.exists_ends_of_error (covers : T.Covers once) (clean : ∀ id, Edit.Clean (once id))
    (fair : T.Fair base s.graph) (inside : id < s.graph.size) {e : Fault} {h : Graph}
    (failed : Edit.settle once id s.graph = .error e h)
    : ∃ new t, RankedGraph.Extends (fun _ => True) s t ∧ T.Ends base s id new t ∧ t.graph = h :=
  (T.settling base).ends_of_error (fun live => covers.advances live.1 live.2) clean
    (fun live => .refl live.1 live.2) ⟨fair, inside⟩ failed

theorem Covers.kept (covers : T.Covers once) {p : T.Progress once base limit}
    (inside : id < p.scope.graph.size) (unspent : p.scope.graph.isOutput id = false → id ∉ p.spent)
    : Kept once limit ⟨p.scope.graph, id⟩ where
  stabilizes := covers.stabilizes p.fair inside
  ends := (covers.concludes_settle p.fair inside).ends
  small clean {e h} failed := by
    cases output : p.scope.graph.isOutput id with
    | true => cases (Edit.settle_of_fixed (covers.output output)).symm.trans failed
    | false =>
        obtain ⟨new, t, later, ends, rfl⟩ := covers.exists_ends_of_error clean p.fair inside failed
        exact (T.size_le_load _ _ _).trans (p.spend later inside (unspent output) ends).room

/-- A node is answered with one that takes its place, or with itself where rewriting it fails. -/
theorem Covers.runs_node (covers : T.Covers once) {p : T.Progress once base limit}
    (inside : id < p.scope.graph.size) (output : p.scope.graph.isOutput id = false)
    (unspent : id ∉ p.spent)
    : (T.invariant once base limit).Runs False p
      (Edit.announced (Edit.persistent (Edit.settle once)) id) fun new q =>
        (T.invariant once base limit).Answers False p id new q
        ∧ ∀ other ∈ q.spent, other ∈ p.spent ∨ (other = id ∨ other = new)
          ∧ p.scope.graph.isOutput id = false := by
  have never {P : Prop} (isOutput : p.scope.graph.isOutput id = true) : P := by
    cases output.symm.trans isOutput
  have kept := covers.kept inside fun _ => unspent
  have spends {new : NodeId} {q : T.Progress once base limit}
      (same : q.spent = insert id (insert new p.spent)) (other : NodeId) (isSpent : other ∈ q.spent)
      : other ∈ p.spent ∨ (other = id ∨ other = new) ∧ p.scope.graph.isOutput id = false := by
    rw [same, Finset.mem_insert, Finset.mem_insert] at isSpent
    rcases isSpent with isNode | isAnswer | before
    · exact .inr ⟨.inl isNode, output⟩
    · exact .inr ⟨.inr isAnswer, output⟩
    · exact .inl before
  cases ran : Edit.settle once id p.scope.graph with
  | error e h =>
      let q := (p.spend ((RankedGraph.edits _).refl _) inside unspent
        (.refl p.fair inside)).note _ kept
      refine .of_ok (a := id) (t := q) ?_ (.refl _)
        ⟨⟨.refl inside, trivial, never, fun _ _ => rfl, rfl⟩, spends rfl⟩
      change Edit.announced (Edit.persistent (Edit.settle once)) id ⟨p.scope.graph, p.calls⟩ = _
      simp only [Edit.announced, Edit.persistent, ran]
      rfl
  | ok new h =>
      obtain ⟨t, rfl, later, ends⟩ := (covers.concludes_settle p.fair inside).state_of_ok ran
      let q := (p.spend later inside unspent ends).note _ kept
      refine .of_ok (a := new) (t := q) ?_ later.precedes
        ⟨⟨⟨?_, ends.inside, ?_, fun isOutput => never ?_⟩, trivial, never,
        fun parent parentInside => ?_, later.appends.outputs⟩, spends rfl⟩
      · change Edit.announced (Edit.persistent (Edit.settle once)) id ⟨p.scope.graph, p.calls⟩ = _
        simp only [Edit.announced, Edit.persistent, ran]
        rfl
      · exact Nat.lt_of_lt_of_le inside later.appends.size
      · change t.rank new ≤ t.rank id
        rw [later.rank inside]
        exact ends.rank
      · exact (congrArg Node.isOutput (later.appends.node inside)).symm.trans isOutput
      · exact congrArg Node.children (later.appends.node parentInside)

theorem Covers.leads (covers : T.Covers once)
    : (T.invariant once base limit).Leads False
      (Edit.announced (Edit.persistent (Edit.settle once))) where
  operand {p _ _} _ uses := (p.scope.operand uses).1
  step {p id} inside unspent := by
    cases output : p.scope.graph.isOutput id with
    | false =>
        refine covers.runs_node inside output fun isSpent => ?_
        cases output.symm.trans (unspent isSpent)
    | true =>
        have fixed : Edit.settle once id p.scope.graph = .ok id p.scope.graph :=
          Edit.settle_of_fixed (covers.output output)
        let q := p.note _ (covers.kept inside fun isNone => (by cases output.symm.trans isNone))
        refine .of_ok (a := id) (t := q) ?_ (.refl _)
          ⟨⟨.refl inside, trivial, .inl, fun _ _ => rfl, rfl⟩, fun _ => .inl⟩
        change Edit.announced (Edit.persistent (Edit.settle once)) id ⟨p.scope.graph, p.calls⟩ = _
        simp only [Edit.announced, Edit.persistent, fixed]
        rfl

end Tariff

/-- A pass that rewrites each node until it is stable comes to an end: it is not endless, and every
node that it rewrites becomes stable after finitely many replacements, unless one fails. -/
structure Edit.Terminates (once : NodeId → Edit NodeId) (g : Graph) : Prop where
  ends : ∀ h, Edit.pass .preOrder (Edit.settle once) g ≠ .error .endless h
  loops : ∀ call ∈ Pass.handovers .preOrder (Edit.settle once) g,
    Edit.Stabilizes once call.id call.graph

/-- A pass over a ranked graph with roots that goes on where a replacement fails keeps within what
it was granted. -/
theorem Tariff.Covers.exists_progress {T : Tariff} {once : NodeId → Edit NodeId}
    (covers : T.Covers once) (s : RankedGraph) (rooted : s.graph.outputs ≠ [])
    : ∃ q : T.Progress once s.graph.size (T.load s.graph.size s.graph ∅),
        Pass.run .preOrder (Edit.announced (Edit.persistent (Edit.settle once))) ⟨s.graph, []⟩
          = .ok () ⟨q.scope.graph, q.calls⟩ := by
  let p : T.Progress once s.graph.size (T.load s.graph.size s.graph ∅) :=
    ⟨s, ∅, [], ⟨Nat.le_refl _, fun added inside => absurd inside (Nat.not_lt_of_le added)⟩,
      fun inside _ => .inl inside, Nat.le_refl _, fun _ member => (by cases member)⟩
  have isRooted : s.graph.Rooted := ⟨rooted, fun _ isRoot => s.root isRoot⟩
  have runs := covers.leads.runs_preOrder_finished (s := p)
    (.inr ⟨.ofBound _ fun {q _} inside =>
      Nat.lt_of_lt_of_le inside ((T.size_le_load _ _ _).trans q.room)⟩)
    (fun unrooted => unrooted isRooted)
    (fun root isRoot => Graph.lt_size_of_isOutput (s.root isRoot)) fun _ isSpent => by cases isSpent
  obtain ⟨_, q, ran, _⟩ := runs.exists_ok
  exact ⟨q, ran⟩

/-- A pass over a graph without roots fails at once. -/
theorem Edit.pass_of_no_outputs {order : PassOrder} {step : NodeId → Edit NodeId} {g : Graph}
    (none : g.outputs = [])
    : Edit.pass order step g = .error
      (.abandoned (.malformedInput "the expression has no outputs")) g := by
  rw [Edit.pass_eq, Pass.run_of_no_outputs none]

/-- A pass over a ranked graph whose replacements a tariff covers comes to an end, and its result is
ranked. -/
theorem Tariff.Covers.terminates {T : Tariff} {once : NodeId → Edit NodeId}
    (covers : T.Covers once) (s : RankedGraph)
    : Edit.Terminates once s.graph
      ∧ ∀ h, Edit.pass .preOrder (Edit.settle once) s.graph = .ok () h
        → ∃ t : RankedGraph, t.graph = h := by
  by_cases unrooted : s.graph.outputs = []
  · have failed : Edit.pass .preOrder (Edit.settle once) s.graph = _ :=
      Edit.pass_of_no_outputs unrooted
    refine ⟨⟨fun h same => ?_, fun call made => ?_⟩, fun h same => ?_⟩
    · cases failed.symm.trans same
    · rw [Pass.handovers, PassM.remains, Pass.run_of_no_outputs unrooted] at made
      cases made
    · cases failed.symm.trans same
  · obtain ⟨q, ran⟩ := covers.exists_progress s unrooted
    obtain ⟨made, done, failed⟩ := Edit.pass_of_persistent ran
    refine ⟨⟨fun h same => ?_, fun call isMade => ?_⟩, fun h same => ⟨q.scope, (done h same).symm⟩⟩
    · obtain ⟨call, isMade, callFailed⟩ := failed _ _ same
      exact (q.kept call isMade).ends h callFailed
    · exact (q.kept call (made isMade)).stabilizes

/-- A pass over a ranked graph whose replacements a tariff covers leaves a graph no larger than what
it was granted, also if a replacement fails. -/
theorem Tariff.Covers.size_le {T : Tariff} {once : NodeId → Edit NodeId} (covers : T.Covers once)
    (clean : ∀ id, Edit.Clean (once id)) (s : RankedGraph)
    : match Edit.pass .preOrder (Edit.settle once) s.graph with
      | .ok _ h => h.size ≤ T.load s.graph.size s.graph ∅
      | .error _ h => h.size ≤ T.load s.graph.size s.graph ∅ := by
  by_cases unrooted : s.graph.outputs = []
  · rw [Edit.pass_of_no_outputs unrooted]
    exact T.size_le_load _ _ _
  · obtain ⟨q, ran⟩ := covers.exists_progress s unrooted
    obtain ⟨_, done, failed⟩ := Edit.pass_of_persistent ran
    cases outcome : Edit.pass .preOrder (Edit.settle once) s.graph with
    | ok _ h =>
        rw [done h outcome]
        exact (T.size_le_load _ _ _).trans q.room
    | error e h =>
        obtain ⟨call, isMade, callFailed⟩ := failed e h outcome
        exact (q.kept call isMade).small clean callFailed

end StreamExpr
