import StreamExpr.Compiler
import StreamExpr.Proofs.Folding
import StreamExpr.Proofs.LoweringRewriting
import StreamExpr.Proofs.ScalarRewriting
import StreamExpr.Proofs.TypingStep
import StreamExpr.Proofs.VectorRewriting

/-! Graphs on their way through the stages.
A graph that is built is ranked by the places of its nodes, and every stage up to lowering leaves a
ranked graph. So a pass that rewrites nodes until they are stable comes to an end on any of these
graphs, whether it is well-typed or not.
-/

namespace StreamExpr

/-! ## Graphs that are built -/

namespace Graph

variable {g : Graph} {v id child : NodeId} {c : Nat}

/-- A selection that is shared for a component. -/
def IsShared (g : Graph) (id : NodeId) : Prop :=
  ∃ v c : Nat, g.selections[(v, c)]? = some id

open Classical in
/-- The rank of a place of an arena in which operands stand before their users. A shared selection
is on the level of its vector. -/
noncomputable def placeRank (g : Graph) (id : NodeId) : Rank :=
  if g.IsShared id then toLex (((g.children id).headD 0 : ℚ), true)
  else toLex ((id : ℚ), false)

namespace Orderly

variable (orderly : g.Orderly)

include orderly

theorem placeRank_of_shared (found : g.selections[(v, c)]? = some id)
    : g.placeRank id = toLex ((v : ℚ), true) := by
  rw [placeRank, if_pos ⟨v, c, found⟩, children, (orderly.cached found).2.2]
  rfl

theorem placeRank_of_vector (isVector : (g.type v).isVector = true)
    : g.placeRank v = toLex ((v : ℚ), false) := by
  rw [placeRank, if_neg]
  rintro ⟨w, c, found⟩
  rw [type, (orderly.cached found).2.2] at isVector
  cases isVector

/-- Shared selections are no higher than their places. -/
theorem level_placeRank_le (id : NodeId) : (g.placeRank id).level ≤ id := by
  by_cases shared : g.IsShared id
  · obtain ⟨v, c, found⟩ := shared
    have uses : v ∈ g.children id := by
      rw [children, (orderly.cached found).2.2]
      exact List.mem_singleton_self v
    rw [orderly.placeRank_of_shared found]
    exact Nat.cast_le.mpr (Nat.le_of_lt (orderly.before uses))
  · rw [placeRank, if_neg shared]
    exact le_refl _

theorem placeRank_lt (uses : g.Uses id child) : g.placeRank child < g.placeRank id := by
  by_cases shared : g.IsShared id
  · obtain ⟨v, c, found⟩ := shared
    obtain ⟨isVector, _, node⟩ := orderly.cached found
    rw [Uses, children, node] at uses
    rw [List.mem_singleton.mp uses, orderly.placeRank_of_shared found,
      orderly.placeRank_of_vector isVector]
    exact Prod.Lex.lt_iff.mpr (.inr ⟨rfl, Bool.false_lt_true⟩)
  · refine Rank.lt_of_level ((orderly.level_placeRank_le child).trans_lt ?_)
    rw [placeRank, if_neg shared]
    exact Nat.cast_lt.mpr (orderly.before uses)

theorem selects (id : NodeId) : (g.node id).Selects := by
  by_cases inside : id < g.size
  · cases kind : (g.node id).kind with
    | swizzle v chosen =>
        have formed := orderly.formed inside
        obtain ⟨components, rfl⟩ := formed.selection kind
        have inferred := congrArg Prod.fst (formed.inferred (kind ▸ rfl))
        simp only [infer, kind] at inferred
        exact Node.selects_swizzle kind inferred.symm
    | _ => exact Node.selects_of_ne fun _ _ found => by cases kind.symm.trans found
  · rw [node_of_size_le (Nat.le_of_not_lt inside)]
    exact Node.selects_of_ne fun _ _ found => by cases found

/-- A graph whose operands stand before their users is ranked by its places. -/
noncomputable def ranked : RankedGraph where
  graph := g
  rank := g.placeRank
  operand {parent child} uses := by
    refine ⟨?_, orderly.placeRank_lt uses⟩
    have inside : parent < g.size := by
      by_contra outside
      rw [Uses, children, node_of_size_le (Nat.le_of_not_lt outside)] at uses
      cases uses
    exact (orderly.before uses).trans inside
  root := orderly.isOutput
  selects := orderly.selects
  shared {id} isShared := by
    by_cases shared : g.IsShared id
    · obtain ⟨v, c, found⟩ := shared
      rw [(orderly.cached found).2.2]
      rfl
    · rw [placeRank, if_neg shared] at isShared
      cases isShared
  cached {v c selection} found := by
    obtain ⟨isVector, inside, node⟩ := orderly.cached found
    have uses : v ∈ g.children selection := by
      rw [children, node]
      exact List.mem_singleton_self v
    refine ⟨(orderly.before uses).trans inside, inside, ?_, node ▸ rfl⟩
    rw [orderly.placeRank_of_shared found, orderly.placeRank_of_vector isVector]
    exact le_refl _

end Orderly

end Graph

/-! ## Stages that keep graphs ranked -/

namespace RankedGraph

/-- Graphs that may be edited in any way that keeps the ranks. -/
def passing : Evolution Graph RankedGraph where
  view := graph
  Later := Precedes
  refl := .refl
  trans := .trans

variable {s t : RankedGraph} {id new : NodeId}

theorem runs_read {α β : Type} {f : Graph → α} {next : α → Edit β} {post : β → RankedGraph → Prop}
    : passing.Runs True s (Edit.read f >>= next) post ↔ passing.Runs True s
      (next (f s.graph)) post :=
  Evolution.runs_read

/-- What adds nodes keeps the ranks. -/
theorem runs_of_edits {α : Type} {x : Edit α} {post : α → RankedGraph → Prop}
    (concludes : (edits fun _ => True).Concludes s x post)
    : passing.Runs True s x fun a t => Extends (fun _ => True) s t ∧ post a t := by
  have weaker := Evolution.Concludes.weaken (E := edits fun _ => True) (F := passing) rfl
    Extends.precedes concludes
  exact weaker.runs

/-- What a pass keeps up whose answers rank no higher than the nodes they take the place of. -/
def invariant : Pass.Invariant Unit RankedGraph where
  toEvolution := passing.workspace
  Live s id := id < s.graph.size
  Stands := Stands
  Spent _ _ := False
  live_later later inside := Nat.lt_of_lt_of_le inside later.size
  stands_later later stands := stands.later later
  stands_refl := .refl
  live_of_stands := Stands.inside
  isOutput_later later inside := later.isOutput inside
  point {s parent slot child new} _ atSlot stands := by
    have lower := stands.lower (List.mem_of_getElem? atSlot)
    exact ⟨s.setChild slot stands.inside lower, rfl, precedes_setChild slot stands.inside lower,
      fun _ impossible => impossible⟩
  redirect {s index root new} atIndex stands := by
    have isOutput := stands.isOutput (List.mem_of_getElem? atIndex)
    exact ⟨s.setOutput index isOutput, rfl, precedes_setOutput index isOutput,
      fun _ impossible => impossible⟩

/-! ## Folding -/

/-- A node that may take the place of another: it ranks no higher. -/
structure Serves (s : RankedGraph) (id new : NodeId) (t : RankedGraph) : Prop where
  inside : new < t.graph.size
  rank : t.rank new ≤ s.rank id

theorem Serves.refl (inside : id < s.graph.size) : s.Serves id id s :=
  ⟨inside, le_refl _⟩

theorem Below.serves (below : t.Below (s.rank id).level new) : s.Serves id new t :=
  ⟨below.inside, le_of_lt (below.rank_lt (le_refl _))⟩

theorem exists_constant (extends_ : Extends (fun _ => True) s t) (v : Value)
    : ∃ u : RankedGraph,
        u.graph = t.graph.pushConstant v ∧ Extends (fun _ => True) s u
        ∧ s.Serves id t.graph.size u := by
  obtain ⟨u, later, added⟩ : ∃ u, Extends (fun _ => True) t u
      ∧ t.Added (.ofKind (.constant v) (.scalarOf v.register)) (s.rank id).level t.graph.size u :=
    exists_added (fun _ member => by cases member)
    (Node.selects_of_ne fun _ _ impossible => by cases impossible) trivial
  exact ⟨u, added.graph, (edits _).trans extends_ later, added.below.serves⟩

/-- A node with its operands turned around is no higher. -/
theorem exists_aligned {op : BinaryOp} {x y place : NodeId} {constant : Value} {h : Graph}
    (inside : id < s.graph.size) (aligns : Folding.Aligns s.graph id op x y constant h place)
    : ∃ t : RankedGraph,
        t.graph = h
        ∧ Extends (fun _ => True) s t
        ∧ t.Below (s.rank id).level x
        ∧ s.Serves id place t
        ∧ s.graph.isOutput id = false := by
  have operand {op : BinaryOp} {x y child : NodeId} (kind : (s.graph.node id).kind = .binary op x y)
      (member : child ∈ [x, y]) : s.Below (s.rank id).level child :=
    below_operand (s.isShared_of_kind fun _ _ found => by cases kind.symm.trans found)
      (show child ∈ (s.graph.node id).kind.children from kind ▸ member)
  cases aligns with
  | there kind _ _ =>
      exact ⟨s, rfl, (edits _).refl s, operand kind List.mem_cons_self, .refl inside,
        by rw [Graph.isOutput, Node.isOutput, kind]⟩
  | turned kind _ _ _ =>
      obtain ⟨t, later, added⟩ : ∃ t, Extends (fun _ => True) s t
          ∧ s.Added (s.graph.deduced (.ofKind (.binary op x y) .unknown))
            (s.rank id).level s.graph.size t :=
        exists_added (fun child member => operand kind
          (List.mem_pair.mpr (List.mem_pair.mp member).symm))
          (Node.selects_of_ne fun _ _ impossible => by cases impossible) trivial
      exact ⟨t, added.graph, later, (operand kind (by simp)).later later, added.below.serves,
        by rw [Graph.isOutput, Node.isOutput, kind]⟩

/-- What a node is folded to ranks no higher, and only operators are folded. -/
theorem exists_folded {ops : FloatOps} {h : Graph} (inside : id < s.graph.size)
    (rewrites : Folding.Rewrites ops s.graph id new h)
    : ∃ t : RankedGraph,
        t.graph = h
        ∧ Extends (fun _ => True) s t
        ∧ s.Serves id new t
        ∧ (s.graph.isOutput id = true → new = id) := by
  have never {p : Prop} (isValue : s.graph.isOutput id = false)
    (isOutput : s.graph.isOutput id = true) : p := by
    cases isValue.symm.trans isOutput
  cases rewrites with
  | quiet => exact ⟨s, rfl, (edits _).refl s, .refl inside, fun _ => rfl⟩
  | value evaluates _ =>
      obtain ⟨t, graph, later, serves⟩ := exists_constant ((edits _).refl s) _
      refine ⟨t, graph, later, serves, never ?_⟩
      rw [Graph.isOutput, Node.isOutput]
      split
      next kind =>
        rw [Graph.constantValue?, kind] at evaluates
        cases evaluates
      · rfl
  | identity aligns _ =>
      obtain ⟨t, graph, later, below, _, isValue⟩ := exists_aligned inside aligns
      exact ⟨t, graph, later, below.serves, never isValue⟩
  | settled aligns _ =>
      obtain ⟨t, rfl, later, _, _, isValue⟩ := exists_aligned inside aligns
      obtain ⟨u, graph, further, serves⟩ := exists_constant later _
      exact ⟨u, graph, further, serves, never isValue⟩
  | turned aligns _ =>
      obtain ⟨t, graph, later, _, serves, isValue⟩ := exists_aligned inside aligns
      exact ⟨t, graph, later, serves, never isValue⟩
  | @chosen x y z condition kind _ =>
      have member : (if condition.toBool = true then y else z) ∈ [x, y, z] := by split <;> simp
      have below := below_operand
        (s.isShared_of_kind fun _ _ found => by cases kind.symm.trans found)
        (by rw [Graph.Uses, Graph.children, Node.children, kind]; exact member)
      exact ⟨s, rfl, (edits _).refl s, below.serves,
        never (by rw [Graph.isOutput, Node.isOutput, kind])⟩

theorem admits_fold (ops : FloatOps)
    : invariant.Admits True (Transform.ofEdit (Folding.step ops)) where
  operand {s _ _} _ uses := (s.operand uses).1
  step {s id} inside _ := by
    obtain ⟨new, h, ran, rewrites⟩ := Folding.step_rewrites ops s.graph id
    obtain ⟨t, rfl, extends_, serves, output⟩ := exists_folded inside rewrites
    have later := extends_.precedes
    refine .ofEdit
      (.of_ok ran later
      ⟨⟨⟨Nat.lt_of_lt_of_le inside later.size, serves.inside, ?_, fun isOutput => ?_⟩,
      trivial, fun _ => .inr trivial, fun parent parentInside => ?_, extends_.appends.outputs⟩,
        fun _ => False.elim⟩)
    · rw [later.rank inside]
      exact serves.rank
    · exact output ((later.isOutput inside).symm.trans isOutput)
    · exact congrArg Node.children (extends_.appends.node parentInside)

theorem runs_folding (s : RankedGraph) (ops : FloatOps)
    : passing.Runs True s (Compiler.folding ops) fun _ _ => True := by
  have runs := (admits_fold ops).runs_postOrder (s := s) s.acyclic (fun _ => trivial)
    (fun root isRoot => Graph.lt_size_of_isOutput (s.root isRoot))
    fun _ impossible => impossible.elim
  exact (runs.imp fun _ _ _ _ => trivial).pass

/-! ## Typing -/

/-- A deduced node has its operands still, and selects as before. -/
theorem accepts_deduced (s : RankedGraph) (id : NodeId)
    : s.Accepts id (s.graph.deduced (s.graph.node id)) where
  operand child member := s.operand (Graph.mem_children_of_deduced member)
  selects := by
    rcases s.graph.kind_deduced_cases (s.graph.node id) with same
      | ⟨candidates, _, arguments, _, isCall⟩
    · refine ⟨fun {v chosen} found => (s.selects id).lane (same.symm.trans found), fun isPick => ?_⟩
      obtain ⟨v, chosen, found, single⟩ := Node.exists_of_isPick isPick
      change (s.graph.infer (s.graph.node id)).1.isVector = false
      rw [Graph.infer, same.symm.trans found]
      simp only [single]
      rfl
    · exact Node.selects_of_ne fun _ _ found => by cases isCall.symm.trans found
  isPick isPick := by
    rcases s.graph.kind_deduced_cases (s.graph.node id) with same
      | ⟨candidates, arguments, _, kind, _⟩
    · rw [Node.isPick, same]
      exact isPick
    · rw [Node.isPick, kind] at isPick
      cases isPick
  isOutput isOutput := (s.graph.isOutput_deduced _).trans isOutput

theorem precedes_replace {n : Node} (inside : id < s.graph.size) (accepts : s.Accepts id n)
    (output : n.isOutput = (s.graph.node id).isOutput)
    : s.Precedes (s.replace inside accepts) := by
  refine ⟨Nat.le_of_eq (Graph.size_replace ..).symm, fun _ => rfl, fun {other} _ => ?_⟩
  change ((s.graph.replace id n).node other).isOutput = _
  rw [Graph.node_replace _ _ inside]
  split
  case isTrue here =>
    rw [here]
    exact output
  case isFalse => rfl

/-- A new node over operands of another may be put in a slot of that one. -/
theorem exists_replaced {n : Node} {slot : Nat} (inside : id < s.graph.size)
    (plain : (s.rank id).isShared = false) (operands : ∀ child ∈ n.children, s.graph.Uses id child)
    (selects : n.Selects)
    : ∃ t : RankedGraph, t.graph = (s.graph.push n).setChild id slot
      s.graph.size ∧ s.Precedes t := by
  obtain ⟨t, later, added⟩ := exists_added (P := fun _ => True)
    (fun child member => below_operand plain (operands child member)) selects trivial
  have lower : t.rank s.graph.size < t.rank id := by
    rw [later.rank inside]
    exact added.below.rank_lt (le_refl _)
  exact ⟨t.setChild slot added.below.inside lower,
    congrArg (·.setChild id slot s.graph.size) added.graph,
    later.precedes.trans (precedes_setChild slot added.below.inside lower)⟩

/-- Operands of a node may be converted, and the expression of an output adapted. -/
theorem exists_amended {h : Graph} (inside : id < s.graph.size)
    (amends : Typing.Amends id s.graph h)
    : ∃ t : RankedGraph, t.graph = h ∧ s.Precedes t := by
  cases amends with
  | converted atSlot asked _ _ converts =>
      -- Selections ask for no class, so the node is no shared one.
      have plain : (s.rank id).isShared = false := s.isShared_of_kind fun v chosen kind => by
        rw [Graph.expected?, kind] at asked
        cases asked
      refine exists_replaced inside plain (fun other member => ?_) ?_
      · cases converts with
        | constant => cases member
        | conversion => exact List.mem_singleton.mp member ▸ List.mem_of_getElem? atSlot
      · cases converts <;> exact Node.selects_of_ne fun _ _ impossible => (by cases impossible)
  | adapted kind _ register _ adapts =>
      have plain : (s.rank id).isShared = false := s.isShared_of_kind fun v chosen found => by
        cases kind.symm.trans found
      refine exists_replaced inside plain (fun other member => ?_) ?_
      · rw [Graph.Uses, Graph.children, Node.children, kind]
        cases adapts <;> exact member
      · cases adapts with
        | cut range _ =>
            obtain ⟨_, deduced⟩ := Typing.deduced_firstComponents range register
            subst range
            exact Node.selects_swizzle rfl (congrArg Node.type deduced).symm
        | padded => exact Node.selects_of_ne fun _ _ impossible => (by cases impossible)

theorem exists_amends {h : Graph} (inside : id < s.graph.size)
    (amends : Relation.ReflTransGen (Typing.Amends id) s.graph h)
    : ∃ t : RankedGraph, t.graph = h ∧ s.Precedes t := by
  induction amends with
  | refl => exact ⟨s, rfl, .refl s⟩
  | tail _ amends ih =>
      obtain ⟨t, rfl, later⟩ := ih
      obtain ⟨u, same, further⟩ := exists_amended (Nat.lt_of_lt_of_le inside later.size) amends
      exact ⟨u, same, later.trans further⟩

/-- Deducing the type of a node and converting its operands changes that node only. -/
theorem runs_type (inside : id < s.graph.size)
    : passing.Runs True s (Typing.step id) fun new t =>
        new = id
        ∧ t.graph.outputs = s.graph.outputs
        ∧ ∀ {other}, other < s.graph.size → other ≠ id → t.graph.node other = s.graph.node
          other := by
  have node := Graph.node_replace s.graph (s.graph.deduced (s.graph.node id)) inside
  let deduced := s.replace inside (s.accepts_deduced id)
  have size : deduced.graph.size = s.graph.size := Graph.size_replace ..
  have deducedInside : id < deduced.graph.size := size ▸ inside
  rcases Typing.step_eq s.graph id ⟨deducedInside, fun _ member => (deduced.operand member).1⟩ with
    ⟨_, e, failed⟩ | ⟨h, ran, stepped⟩
  · exact .of_error failed trivial
  · obtain ⟨t, rfl, later⟩ := exists_amends deducedInside stepped.amends
    refine .of_ok ran ((precedes_replace inside _ (s.graph.isOutput_deduced _)).trans later)
      ⟨rfl, stepped.amended.outputs, fun {other} otherInside differs => ?_⟩
    exact (stepped.amended.node (size ▸ otherInside) differs).trans
      ((node other).trans (if_neg differs))

theorem completes_type : invariant.Completes True (Transform.ofEdit Typing.step) := by
  intro s id inside _ _
  refine .imp (.ofEdit (runs_type inside)) ?_
  rintro new t later ⟨rfl, outputs, others⟩
  exact ⟨.refl (invariant.live_later later inside), trivial, fun _ => .inr trivial, .inr trivial,
    fun other otherInside differs => congrArg Node.children (others otherInside differs),
      outputs, fun _ => False.elim⟩

theorem exists_of_typing {h : Graph} (ran : Compiler.typing s.graph = .ok () h) : ∃ t
    : RankedGraph, t.graph = h := by
  have reaches (id) (reachable : s.graph.Reachable id) : id < s.graph.size := by
    obtain ⟨root, isRoot, path⟩ := reachable
    induction path with
    | refl => exact Graph.lt_size_of_isOutput (s.root isRoot)
    | tail _ uses _ => exact (s.operand uses).1
  have runs := completes_type.runs_postOrder (s := s) s.acyclic (fun _ => trivial) reaches
    fun _ impossible => impossible
  obtain ⟨t, same, _⟩ := runs.pass.state_of_ok ran
  exact ⟨t, same⟩

/-! ## Splitting -/

/-- Put other tables of streams in place of those of a graph. -/
def rewire (s : RankedGraph) (inputs outputs : List NodeId) (declared : List StreamDecl)
    (roots : ∀ root ∈ outputs, s.graph.isOutput root = true)
    : RankedGraph where
  graph := { s.graph with inputs, outputs, declared }
  rank := s.rank
  operand := s.operand
  root {root} := roots root
  selects := s.selects
  shared := s.shared
  cached := s.cached

theorem concludes_scalarInputs (s : RankedGraph) (bound : ℚ) (decls : List StreamDecl)
    : (edits fun _ => True).Concludes s (StreamSplitting.scalarInputs decls) fun ids t =>
        ∀ id ∈ ids, t.Below bound id := by
  induction decls generalizing s with
  | nil => exact .pure fun _ member => by cases member
  | cons decl decls ih =>
      have adds : (edits fun _ => True).Concludes s (Edit.input decl)
          (s.Added (.ofKind (.input decl) decl.type) bound) :=
        concludes_add rfl (fun _ member => by cases member)
          (Node.selects_of_ne fun _ _ impossible => by cases impossible) trivial
      refine .bind adds fun first t _ added => .bind (ih t) fun rest u later below =>
        .pure fun id member => ?_
      rcases List.mem_cons.mp member with rfl | others
      · exact added.below.later later
      · exact below id others

theorem runs_splitInput (inside : id < s.graph.size)
    : passing.Runs True s (StreamSplitting.splitInput id) fun _ _ => True := by
  rw [StreamSplitting.splitInput, runs_read]
  cases kind : (s.graph.node id).kind with
  | input decl =>
      simp only
      split
      · have adds := runs_of_edits (s.concludes_scalarInputs (s.rank id).level decl.components)
        refine .bind adds fun scalars t later found => ?_
        obtain ⟨extends_, below⟩ := found
        have node := extends_.appends.node inside
        have accepts : t.Accepts id (.ofKind (.construct scalars) decl.type) := by
          refine ⟨fun child member => ⟨(below child member).inside, ?_⟩,
            Node.selects_of_ne fun _ _ impossible => (by cases impossible),
            fun isPick => ?_, fun isOutput => ?_⟩
          · rw [extends_.rank inside]
            exact (below child member).rank_lt (le_refl _)
          · rw [node, Node.isPick, kind] at isPick
            cases isPick
          · rw [node, Node.isOutput, kind] at isOutput
            cases isOutput
        have output : (Node.ofKind (.construct scalars) decl.type).isOutput
          = (t.graph.node id).isOutput := by
          rw [node, Node.isOutput, Node.isOutput, kind]
          rfl
        have insideNext := Nat.lt_of_lt_of_le inside later.size
        have replaces
          : passing.Runs True t
            (modify (·.replace id (.ofKind (.construct scalars) decl.type)) : Edit Unit)
            fun _ _ => True :=
          .of_ok (a := ()) (t := t.replace insideNext accepts) rfl
          (precedes_replace insideNext accepts output) trivial
        exact .bind replaces fun _ _ _ _ => .pure trivial
      · exact .pure trivial
  | _ => exact .pure trivial

theorem runs_splitAll {ids : List NodeId} (inside : ∀ id ∈ ids, id < s.graph.size)
    (carriers : StreamSplitting.Carriers)
    : passing.Runs True s (StreamSplitting.splitAll ids carriers) fun _ _ => True := by
  induction ids generalizing s carriers with
  | nil => exact .pure trivial
  | cons id ids ih =>
      refine .bind (runs_splitInput (inside id List.mem_cons_self)) fun scalars t later _ => ?_
      have rest (other) (member : other ∈ ids) : other < t.graph.size :=
        Nat.lt_of_lt_of_le (inside other (List.mem_cons_of_mem id member)) later.size
      cases scalars with
      | none => exact ih rest carriers
      | some scalars => exact ih rest _

theorem runs_splitInputs (s : RankedGraph)
    : passing.Runs True s StreamSplitting.splitInputs fun _ _ => True := by
  rw [StreamSplitting.splitInputs, runs_read]
  refine .bind (runs_splitAll (fun id member => List.mem_range.mp member) {})
    fun carriers t _ _ => ?_
  exact .of_ok (a := ()) (t := t.rewire _ t.graph.outputs t.graph.declared fun _ => t.root) rfl
    ⟨Nat.le_refl _, fun _ => rfl, fun _ => rfl⟩ trivial

theorem concludes_scalarOutputs {e : NodeId} {decl : StreamDecl}
    (inside : e < s.graph.size) (cs : List Nat)
    : (edits fun _ => True).Concludes s (StreamSplitting.scalarOutputs e decl cs) fun ids t =>
        ∀ id ∈ ids, t.graph.isOutput id = true := by
  induction cs generalizing s with
  | nil => exact .pure fun _ member => by cases member
  | cons c cs ih =>
      refine .bind (concludes_component inside fun _ _ => trivial) fun part t first component => ?_
      obtain ⟨bound, above⟩ := exists_gt (t.rank part).level
      have adds : (edits fun _ => True).Concludes t (Edit.output (decl.component c) part)
          (t.Added (.ofKind (.output (decl.component c) part) (decl.component c).type) bound) :=
        concludes_add rfl (fun _ member => List.mem_singleton.mp member ▸ ⟨component.inside, above⟩)
          (Node.selects_of_ne fun _ _ impossible => by cases impossible) trivial
      refine .bind adds fun output u second added => ?_
      have insideNext : e < u.graph.size :=
        Nat.lt_of_lt_of_le inside (first.appends.size.trans second.appends.size)
      refine .bind (ih insideNext) fun rest w last outputs => .pure fun id member => ?_
      rcases List.mem_cons.mp member with rfl | others
      · rw [Graph.isOutput, last.appends.node added.below.inside, added.node]
        rfl
      · exact outputs id others

theorem concludes_splitRoot (s : RankedGraph) (root : NodeId)
    : (edits fun _ => True).Concludes s (StreamSplitting.splitRoot root) fun ids t =>
        ∀ id ∈ ids, t.graph.isOutput id = true := by
  rw [StreamSplitting.splitRoot, concludes_read]
  cases kind : (s.graph.node root).kind with
  | output decl e =>
      have uses : s.graph.Uses root e := by
        rw [Graph.Uses, Graph.children, Node.children, kind]
        exact List.mem_singleton_self e
      simp only
      split
      · exact concludes_scalarOutputs (s.operand uses).1 _
      · refine .pure fun id member => ?_
        rw [List.mem_singleton.mp member, Graph.isOutput, Node.isOutput, kind]
  | _ => exact concludes_read.mpr (.throw fun same => by cases same)

theorem concludes_splitRoots (s : RankedGraph) (roots : List NodeId)
    : (edits fun _ => True).Concludes s (StreamSplitting.splitRoots roots) fun ids t =>
        ∀ id ∈ ids, t.graph.isOutput id = true := by
  induction roots generalizing s with
  | nil => exact .pure fun _ member => by cases member
  | cons root roots ih =>
      refine .bind (s.concludes_splitRoot root) fun outputs t _ first => ?_
      refine .bind (ih t) fun others u later rest => .pure fun id member => ?_
      rcases List.mem_append.mp member with before | after
      · have isOutput := first id before
        rw [Graph.isOutput, later.appends.node (Graph.lt_size_of_isOutput isOutput)]
        exact isOutput
      · exact rest id after

theorem runs_splitOutputs (s : RankedGraph)
    : passing.Runs True s StreamSplitting.splitOutputs fun _ _ => True := by
  rw [StreamSplitting.splitOutputs, runs_read]
  refine .bind (runs_of_edits (s.concludes_splitRoots _)) fun outputs t _ found => ?_
  exact .of_ok (a := ()) (t := t.rewire t.graph.inputs outputs _ found.2) rfl
    ⟨Nat.le_refl _, fun _ => rfl, fun _ => rfl⟩ trivial

end RankedGraph

/-! ## Rewriting at any stage -/

/-- The stages up to lowering. Scalarization splits the inputs and the outputs before it replaces
components. -/
inductive EarlyStage : Edit Unit → Prop
  | typing : EarlyStage Compiler.typing
  | vectorOperators : EarlyStage Compiler.vectorOperators
  | inputs : EarlyStage StreamSplitting.splitInputs
  | outputs : EarlyStage StreamSplitting.splitOutputs
  | components : EarlyStage (Edit.pass .preOrder Scalarization.step)
  | folding (ops : FloatOps) : EarlyStage (Compiler.folding ops)
  | lowering : EarlyStage Compiler.lowering

/-- Graphs that are built and have passed some stages, in any order. -/
inductive Staged : Graph → Prop
  | built {g : Graph} (built : Built g) : Staged g
  | passed {g h : Graph} {stage : Edit Unit} (isStage : EarlyStage stage) (staged : Staged g)
    (ran : stage g = .ok () h)
    : Staged h

/-- A stage leaves a ranked graph. -/
theorem EarlyStage.exists_ranked {stage : Edit Unit} {s : RankedGraph} {h : Graph}
    (isStage : EarlyStage stage) (ran : stage s.graph = .ok () h)
    : ∃ t : RankedGraph, t.graph = h := by
  have keeps (runs : RankedGraph.passing.Runs True s stage fun _ _ => True) : ∃ t
    : RankedGraph, t.graph = h := by
    obtain ⟨t, same, _⟩ := runs.state_of_ok ran
    exact ⟨t, same⟩
  cases isStage with
  | typing => exact RankedGraph.exists_of_typing ran
  | vectorOperators => exact (VectorOperators.covers_replaceOnce.terminates s).2 h ran
  | inputs => exact keeps s.runs_splitInputs
  | outputs => exact keeps s.runs_splitOutputs
  | components => exact (Scalarization.covers_scalarizeOnce.terminates s).2 h ran
  | folding ops => exact keeps (s.runs_folding ops)
  | lowering => exact (Lowering.covers_lowerOnce.terminates s).2 h ran

theorem Staged.exists_ranked {g : Graph} (staged : Staged g) : ∃ s : RankedGraph, s.graph = g := by
  induction staged with
  | built built => exact ⟨built.orderly.ranked, rfl⟩
  | passed isStage _ ran ih =>
      obtain ⟨s, rfl⟩ := ih
      exact isStage.exists_ranked ran

/-- The passes that rewrite nodes until they are stable come to an end on every graph that is built,
well-typed or not, whichever stages it has passed. Witness: the graph is ranked, and a tariff covers
the replacements of each pass. -/
theorem rewriting_terminates {g : Graph} (staged : Staged g)
    : Edit.Terminates VectorOperators.replaceOnce g
      ∧ Edit.Terminates Scalarization.scalarizeOnce g
      ∧ Edit.Terminates Lowering.lowerOnce g := by
  obtain ⟨s, rfl⟩ := staged.exists_ranked
  exact ⟨(VectorOperators.covers_replaceOnce.terminates s).1,
    (Scalarization.covers_scalarizeOnce.terminates s).1, (Lowering.covers_lowerOnce.terminates s).1⟩

/-- An integer power whose operands are no constants, in a vector that is normalized and of which a
component is cut. -/
def powerVector : Graph :=
  let g := (Graph.empty.declareInput ⟨"n", .scalarOf .int⟩).declareInput ⟨"v", .of .float 3⟩
  let g := (g.pushBinary .pow 0 0).pushBinary .multiply 2 1
  let g := (g.pushUnary .normalize 3).pushBinary .cross 4 1
  (g.pushSwizzle 5 [1]).declareOutput ⟨"y", .scalarOf .float⟩ 6

theorem rewriting_terminates_powerVector
    : ∃ typed,
        Compiler.typing powerVector = .ok () typed
        ∧ Staged typed
        ∧ Edit.Terminates VectorOperators.replaceOnce typed
        ∧ Edit.Terminates Scalarization.scalarizeOnce typed
        ∧ Edit.Terminates Lowering.lowerOnce typed := by
  have built : Built powerVector := by
    refine .declareOutput _ (by decide) (.swizzle _ (by decide) (.binary _ (by decide) ?_))
    refine .unary _ (by decide) (.binary _ (by decide) (.binary _ (by decide) ?_))
    exact .declareInput _ (.declareInput _ .empty)
  obtain ⟨typed, ran⟩ : ∃ typed, Compiler.typing powerVector = .ok () typed := ⟨_, rfl⟩
  have staged : Staged typed := .passed .typing (.built built) ran
  exact ⟨typed, ran, staged, rewriting_terminates staged⟩

/-- The replacement of components makes a graph that is built at most 64 times as large, whichever
stages it has passed, however deep it is and however often its vectors are shared. This holds of
what is left where a replacement fails as well. Witness: all replacements together cost no more than
40 nodes for each node that was there. -/
theorem scalarization_stays_linear {g : Graph} (staged : Staged g)
    : match Edit.pass .preOrder Scalarization.step g with
      | .ok _ h => h.size ≤ 64 * g.size
      | .error _ h => h.size ≤ 64 * g.size := by
  obtain ⟨s, rfl⟩ := staged.exists_ranked
  have granted : Scalarization.tariff.load s.graph.size s.graph ∅ ≤ 64 * s.graph.size :=
    (Scalarization.load_le s.graph).trans (Nat.mul_le_mul_right _ (by decide))
  have small := Scalarization.covers_scalarizeOnce.size_le Scalarization.clean_scalarizeOnce s
  change match Edit.pass .preOrder (Edit.settle Scalarization.scalarizeOnce) s.graph with
    | .ok _ h => h.size ≤ 64 * s.graph.size
    | .error _ h => h.size ≤ 64 * s.graph.size
  cases outcome : Edit.pass .preOrder (Edit.settle Scalarization.scalarizeOnce) s.graph with
  | ok _ h =>
      rw [outcome] at small
      exact small.trans granted
  | error e h =>
      rw [outcome] at small
      exact small.trans granted

/-- The stages before components are replaced, in the order of the compiler. -/
def beforeComponents : Edit Unit := do
  Compiler.typing
  Compiler.vectorOperators
  StreamSplitting.splitInputs
  StreamSplitting.splitOutputs

theorem Staged.beforeComponents {g h : Graph} (staged : Staged g)
    (ran : beforeComponents g = .ok () h)
    : Staged h := by
  obtain ⟨_, typed, ranTyping, ran⟩ := Edit.bind_eq_ok ran
  obtain ⟨_, plain, ranOperators, ran⟩ := Edit.bind_eq_ok ran
  obtain ⟨_, split, ranInputs, ranOutputs⟩ := Edit.bind_eq_ok ran
  have isPlain : Staged plain := .passed .vectorOperators
    (.passed .typing staged ranTyping) ranOperators
  exact .passed .outputs (.passed .inputs isPlain ranInputs) ranOutputs

/-- Vectors that are each used twice by the next, under a normalization. -/
def doubledVector : Graph :=
  let g := Graph.empty.declareInput ⟨"v", .of .float 3⟩
  let g := (g.pushBinary .add 0 0).pushBinary .multiply 1 1
  let g := (g.pushUnary .normalize 2).pushBinary .add 3 3
  g.declareOutput ⟨"w", .of .float 3⟩ 4

theorem scalarization_stays_linear_doubledVector
    : ∃ ready,
        beforeComponents doubledVector = .ok () ready
        ∧ Staged ready
        ∧ match Edit.pass .preOrder Scalarization.step ready with
          | .ok _ h => h.size ≤ 64 * ready.size
          | .error _ h => h.size ≤ 64 * ready.size := by
  have built : Built doubledVector := by
    refine .declareOutput _ (by decide) (.binary _ (by decide) (.unary _ (by decide) ?_))
    exact .binary _ (by decide) (.binary _ (by decide) (.declareInput _ .empty))
  have succeeds : (match beforeComponents doubledVector with
      | .ok _ _ => true
      | .error _ _ => false) = true := by
    decide +kernel
  cases ran : beforeComponents doubledVector with
  | error e h =>
      rw [ran] at succeeds
      cases succeeds
  | ok _ ready =>
      have staged := (Staged.built built).beforeComponents ran
      exact ⟨ready, rfl, staged, scalarization_stays_linear staged⟩

end StreamExpr
