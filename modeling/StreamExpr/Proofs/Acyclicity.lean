import StreamExpr.Proofs.Memoization
import StreamExpr.Proofs.Pass

/-! Passes keep a graph free of cycles, as long as their transforms build on the right nodes.
When operands go first, a transform may build on the node it is given: users of the node are pointed
at what was built, but not what was built itself. When parents go first, the operands of what was
built are visited in turn, and a node that is built on the one it replaces ends up as its own
operand. Only what is below the given node will do.
-/

namespace StreamExpr

open Pass Relation

variable {σ : Type}

/-! ## What a call may build -/

/-- A node is below the one that a call was for. -/
def Call.Below (call : Call) (id : NodeId) : Prop :=
  TransGen call.before.Uses call.id id

/-- A call that builds on its node, on what is below it and on nodes that have been added before,
and that answers one of these or a node that has been added. -/
structure Call.Wraps (start : Graph) (call : Call) : Prop extends call.Grows where
  built : ∀ {id child}, call.before.size ≤ id → child ∈ call.after.children id →
    child = call.id ∨ call.Below child ∨ start.size ≤ child ∧ child < id
  leads : call.answer = call.id ∨ call.Below call.answer ∨ start.size ≤ call.answer

/-- A call that builds on what is below its node and on nodes that it has added itself, and that
answers its node, one below it or one that it has added. -/
structure Call.Expands (call : Call) : Prop extends call.Grows where
  built : ∀ {id child}, call.before.size ≤ id → child ∈ call.after.children id →
    call.Below child ∨ call.before.size ≤ child ∧ child < id
  leads : call.answer = call.id ∨ call.Below call.answer ∨ call.before.size ≤ call.answer

/-- What the calls of a pass may do in either order. -/
def PassOrder.Permits (order : PassOrder) (start : Graph) (call : Call) : Prop :=
  match order with
  | .preOrder => call.Expands
  | .postOrder => call.Wraps start

/-! ## Operands first: layers of calls -/

/-- A node that has been handed to the transform or added by it. -/
def Settled (start : Graph) (calls : List Call) (id : NodeId) : Prop :=
  id ∈ calls.map Call.id ∨ start.size ≤ id ∧ id < lastSize start calls

/-- What is known of the calls of a pass, or of its first few, and of the graph that it ends
with. -/
structure Account (start final : Graph) (memo : Memo) (calls : List Call) : Prop where
  history : History start calls
  wraps : ∀ call ∈ calls, call.Wraps start
  apart : ∀ call ∈ calls, ¬ TransGen start.Uses call.id call.id
  unused : ∀ {parent child}, start.Uses parent child → child ∉ start.outputs
  handed : ∀ call ∈ calls, call.id ∉ start.outputs → memo[call.id]? = some call.answer
  replaced : ∀ call ∈ calls,
    List.Forall₂ (fun child operand => memo[child]? = some operand) (start.children call.id)
      (final.children call.id)
  added : ∀ id, start.size ≤ id → id < lastSize start calls →
    final.children id = firstOperands start calls id

namespace Account

variable {start final : Graph} {memo : Memo} {call : Call} {earlier : List Call} {id : NodeId}

theorem lastSize_le (account : Account start final memo (call :: earlier))
    : lastSize start earlier ≤ call.after.size := by
  rw [← account.history.1.size]
  exact (account.wraps call List.mem_cons_self).appends.size

theorem settled (account : Account start final memo (call :: earlier))
    (settled : Settled start earlier id)
    : Settled start (call :: earlier) id := by
  rcases settled with before | ⟨added, inside⟩
  · exact .inl (List.mem_cons_of_mem _ before)
  · exact .inr ⟨added, Nat.lt_of_lt_of_le inside account.lastSize_le⟩

theorem tail (account : Account start final memo (call :: earlier))
    : Account start final memo earlier where
  history := account.history.2
  wraps other member := account.wraps other (List.mem_cons_of_mem _ member)
  apart other member := account.apart other (List.mem_cons_of_mem _ member)
  unused := account.unused
  handed other member := account.handed other (List.mem_cons_of_mem _ member)
  replaced other member := account.replaced other (List.mem_cons_of_mem _ member)
  added id isNew inside := by
    rw [account.added id isNew (Nat.lt_of_lt_of_le inside account.lastSize_le)]
    rw [← account.history.1.size] at inside
    exact firstOperands_of_lt inside

/-- A call finds its node, and the nodes that are settled, with the operands that they keep to the
end. Witness: all answers to calls for one node are the same. -/
theorem before_children (account : Account start final memo (call :: earlier))
    (found : id = call.id ∨ Settled start earlier id)
    : call.before.children id = final.children id := by
  have ofHanded (handed : id = call.id ∨ id ∈ earlier.map Call.id)
      : call.before.children id = final.children id := by
    obtain ⟨other, member, rfl⟩ : ∃ other ∈ call :: earlier, other.id = id := by
      rcases handed with rfl | before
      · exact ⟨call, List.mem_cons_self, rfl⟩
      · obtain ⟨other, isCall, same⟩ := List.mem_map.mp before
        exact ⟨other, List.mem_cons_of_mem _ isCall, same⟩
    have noRoots (child) (uses : child ∈ start.children other.id) : child ∉ start.outputs :=
      account.unused uses
    have answered := account.history.1.replaced other.id handed (account.apart other member)
    refine List.right_unique_forall₂'
      (fun _ _ _ left right => Option.some.inj (left.symm.trans right)) ?_
      (account.replaced other member)
    refine (List.forall₂_and_left _ _ |>.mpr ⟨noRoots, answered⟩).imp ?_
    rintro child operand ⟨noRoot, earliest, isCall, rfl, rfl⟩
    exact account.handed earliest (List.mem_cons_of_mem _ isCall) noRoot
  rcases found with here | before | ⟨isNew, inside⟩
  · exact ofHanded (.inl here)
  · exact ofHanded (.inr before)
  · rw [account.history.1.added id isNew, account.tail.added id isNew inside]

end Account

/-- A rank for the nodes that are settled: operands are settled as well, and rank lower. -/
structure Layered (start final : Graph) (calls : List Call) (rank : NodeId → Nat) (bound : Nat)
    : Prop where
  bounded : ∀ id, Settled start calls id → rank id < bound
  operand : ∀ id, Settled start calls id → ∀ child ∈ final.children id,
    Settled start calls child ∧ rank child < rank id
  answer : ∀ call ∈ calls, Settled start calls call.answer

namespace Layered

variable {start final : Graph} {memo : Memo} {call : Call}
    {earlier : List Call} {rank : NodeId → Nat}
  {bound : Nat}

/-- What a call finds below its node is settled. -/
theorem settled_of_below (layered : Layered start final earlier rank bound)
    (account : Account start final memo (call :: earlier)) {id : NodeId} (below : call.Below id)
    : Settled start earlier id := by
  have answered := account.history.1.replaced call.id (.inl rfl)
    (account.apart call List.mem_cons_self)
  induction below with
  | single uses =>
      obtain ⟨slot, inside, rfl⟩ := List.getElem_of_mem uses
      obtain ⟨other, isCall, _, same⟩ := answered.get (answered.length_eq ▸ inside) inside
      rw [List.get_eq_getElem] at same
      exact same ▸ layered.answer other isCall
  | @tail parent child _ uses ih =>
      rw [Graph.Uses, account.before_children (.inr ih)] at uses
      exact (layered.operand parent ih child uses).1

open Classical in
/-- A call adds a layer above those of the earlier ones: its node comes first, then the nodes that
it has added. -/
theorem cons (layered : Layered start final earlier rank bound)
    (account : Account start final memo (call :: earlier))
    : Layered start final (call :: earlier)
        (fun id =>
          if Settled start earlier id then rank id
          else if id = call.id then bound
          else bound + 1 + id)
        (bound + 1 + call.after.size) := by
  have wraps := account.wraps call List.mem_cons_self
  refine ⟨fun id settled => ?_, fun id settled child uses => ?_, fun other member => ?_⟩
  · split
    case isTrue before =>
      have lower := layered.bounded id before
      omega
    case isFalse isLater =>
      split
      case isTrue => omega
      case isFalse other =>
        rcases settled with isHanded | ⟨_, inside⟩
        · rcases List.mem_cons.mp isHanded with here | before
          · exact (other here).elim
          · exact (isLater (.inl before)).elim
        · exact Nat.add_lt_add_left inside _
  · by_cases before : Settled start earlier id
    -- What was settled keeps its rank, and so do its operands.
    · obtain ⟨childSettled, lower⟩ := layered.operand id before child uses
      rw [if_pos before, if_pos childSettled]
      exact ⟨account.settled childSettled, lower⟩
    · rw [if_neg before]
      by_cases here : id = call.id
      · rw [if_pos here]
        have below : call.Below child := by
          refine .single ?_
          rw [Graph.Uses, ← here, account.before_children (.inl here)]
          exact uses
        have childSettled := layered.settled_of_below account below
        rw [if_pos childSettled]
        exact ⟨account.settled childSettled, layered.bounded child childSettled⟩
      · rw [if_neg here]
        obtain ⟨isNew, inside⟩ : start.size ≤ id ∧ id < call.after.size := by
          refine settled.resolve_left fun isHanded => ?_
          exact (List.mem_cons.mp isHanded).elim here fun earlier => before (.inl earlier)
        -- What is left is a node that the call has added.
        have added : call.before.size ≤ id := by
          rw [account.history.1.size]
          exact Nat.le_of_not_lt fun old => before (.inr ⟨isNew, old⟩)
        rw [account.added id isNew inside, firstOperands_of_le added] at uses
        have lowest {other} (settled : Settled start earlier other) : rank other < bound + 1 + id :=
          Nat.lt_of_lt_of_le (layered.bounded other settled) (by omega)
        rcases wraps.built added uses with rfl | below | ⟨childNew, lower⟩
        · refine ⟨.inl List.mem_cons_self, ?_⟩
          split
          case isTrue childSettled =>
            exact lowest childSettled
          case isFalse =>
            rw [if_pos rfl]
            omega
        · have childSettled := layered.settled_of_below account below
          rw [if_pos childSettled]
          exact ⟨account.settled childSettled, lowest childSettled⟩
        · refine ⟨.inr ⟨childNew, Nat.lt_trans lower inside⟩, ?_⟩
          split
          case isTrue childSettled =>
            exact lowest childSettled
          case isFalse =>
            split
            · omega
            · exact Nat.add_lt_add_left lower _
  · rcases List.mem_cons.mp member with rfl | before
    · rcases wraps.leads with same | below | isNew
      · exact .inl (same ▸ List.mem_cons_self)
      · exact account.settled (layered.settled_of_below account below)
      · exact .inr ⟨isNew, wraps.answer⟩
    · exact account.settled (layered.answer other before)

end Layered

theorem Account.exists_layered {start final : Graph} {memo : Memo} {calls : List Call}
    (account : Account start final memo calls)
    : ∃ rank bound, Layered start final calls rank bound := by
  induction calls with
  | nil =>
      have none (id) : ¬ Settled start [] id := by
        rintro (impossible | ⟨isNew, inside⟩)
        · cases impossible
        · exact Nat.lt_irrefl _ (Nat.lt_of_lt_of_le inside isNew)
      exact ⟨id, 0, fun id settled => (none id settled).elim, fun id settled =>
        (none id settled).elim,
        fun _ member => by cases member⟩
  | cons call earlier ih =>
      obtain ⟨rank, bound, layered⟩ := ih account.tail
      exact ⟨_, _, layered.cons account⟩

/-- A graph whose roots are answers has no cycle. -/
theorem Account.acyclic {start final : Graph} {memo : Memo} {calls : List Call}
    (account : Account start final memo calls)
    (answers : ∀ root ∈ final.outputs, ∃ call ∈ calls, call.answer = root)
    : final.Acyclic := by
  obtain ⟨rank, bound, layered⟩ := account.exists_layered
  have settled {id} (reachable : final.Reachable id) : Settled start calls id := by
    obtain ⟨root, isRoot, path⟩ := reachable
    induction path with
    | refl =>
        obtain ⟨call, isCall, same⟩ := answers root isRoot
        exact same ▸ layered.answer call isCall
    | tail _ uses ih => exact (layered.operand _ ih _ uses).1
  exact Graph.acyclic_of_rank rank fun reachable uses =>
    (layered.operand _ (settled reachable) _ uses).2

theorem acyclic_postOrder {transform : Transform σ} {g : Graph} {memory : σ}
    {w : Workspace (σ × List Call)} (enclosed : g.Enclosed) (acyclic : g.Acyclic)
    (unused : ∀ root ∈ g.outputs, ∀ parent, ¬ g.Uses parent root)
    (obeys : transform.Obeys (Call.Wraps g))
    (ran : Pass.run .postOrder transform.recorded ⟨g, memory, []⟩ = .ok () w)
    (wraps : ∀ call ∈ w.calls, call.Wraps g)
    : w.graph.Acyclic := by
  have growing := obeys.imp fun _ => Call.Wraps.toGrows
  obtain ⟨memo, middle, finished, _⟩ := ensures_postOrder growing enclosed unused _ _ ran
  have replacing := finished.replacing
  have apart (call) (member : call ∈ w.calls) : ¬ TransGen g.Uses call.id call.id :=
    acyclic call.id (replacing.reachable call member)
  have account : Account g w.graph memo w.calls :=
    { history := replacing.history
      wraps := wraps
      apart := apart
      unused := fun uses isRoot => unused _ isRoot _ uses
      handed := replacing.remembers.handed
      replaced := fun call member =>
        replacing.replaced call.id (replacing.handed call member (apart call member))
      added := fun id isNew _ => replacing.added id isNew }
  exact account.acyclic finished.answers

/-! ## Parents first: an order that calls extend -/

/-- A workspace with an order on its nodes. Operands of the nodes in use are below them. -/
structure Ordered (σ : Type) where
  workspace : Workspace σ
  live : NodeId → Prop
  below : NodeId → NodeId → Prop
  inside : ∀ {id}, live id → id < workspace.graph.size
  trans : ∀ {first second third}, below first second → below second third → below first third
  irrefl : ∀ {id}, live id → ¬ below id id
  operand : ∀ {parent child}, live parent → workspace.graph.Uses parent child →
    live child ∧ below child parent

namespace Ordered

variable {s t : Ordered σ}

/-- What a state keeps of an earlier one. -/
structure Later (s t : Ordered σ) : Prop where
  live : ∀ {id}, s.live id → t.live id
  below : ∀ {id other}, s.live id → s.live other → s.below id other → t.below id other
  isOutput : ∀ {id}, s.live id → t.workspace.graph.isOutput id = s.workspace.graph.isOutput id

/-- A node in use that is the given one or below it. -/
structure Stands (s : Ordered σ) (old new : NodeId) : Prop where
  oldLive : s.live old
  newLive : s.live new
  low : new = old ∨ s.below new old

/-- The nodes below one in use are in use, and come below it in the order. -/
theorem of_path (s : Ordered σ) {id child : NodeId} (isLive : s.live id)
    (path : TransGen s.workspace.graph.Uses id child)
    : s.live child ∧ s.below child id := by
  induction path with
  | single uses => exact s.operand isLive uses
  | tail _ uses ih => exact (s.operand ih.1 uses).imp_right (s.trans · ih.2)

/-- The order with a call's new nodes put in just below its node. -/
inductive Inserted (s : Ordered σ) (id : NodeId) : NodeId → NodeId → Prop
  | old {child parent : NodeId} (childOld : child < s.workspace.graph.size)
    (parentOld : parent < s.workspace.graph.size) (below : s.below child parent)
    : Inserted s id child parent
  | beneath {child parent : NodeId} (childOld : child < s.workspace.graph.size)
    (parentNew : s.workspace.graph.size ≤ parent) (below : s.below child id)
    : Inserted s id child parent
  | above {child parent : NodeId} (childNew : s.workspace.graph.size ≤ child)
    (parentOld : parent < s.workspace.graph.size) (reaches : parent = id ∨ s.below id parent)
    : Inserted s id child parent
  | new {child parent : NodeId} (childNew : s.workspace.graph.size ≤ child) (lower : child < parent)
    : Inserted s id child parent

theorem Inserted.trans {id first second third : NodeId} (isLive : s.live id)
    (left : s.Inserted id first second) (right : s.Inserted id second third)
    : s.Inserted id first third := by
  cases left with
  | old firstOld secondOld below =>
      cases right with
      | old _ thirdOld belowOn => exact .old firstOld thirdOld (s.trans below belowOn)
      | beneath _ thirdNew belowOn => exact .beneath firstOld thirdNew (s.trans below belowOn)
      | above secondNew => exact (Nat.not_lt.mpr secondNew secondOld).elim
      | new secondNew => exact (Nat.not_lt.mpr secondNew secondOld).elim
  | beneath firstOld secondNew below =>
      cases right with
      | old secondOld => exact (Nat.not_lt.mpr secondNew secondOld).elim
      | beneath secondOld => exact (Nat.not_lt.mpr secondNew secondOld).elim
      | above _ thirdOld reaches =>
          rcases reaches with rfl | reaches
          · exact .old firstOld thirdOld below
          · exact .old firstOld thirdOld (s.trans below reaches)
      | new _ lower => exact .beneath firstOld (Nat.le_trans secondNew (Nat.le_of_lt lower)) below
  | above firstNew secondOld reaches =>
      cases right with
      | old _ thirdOld belowOn =>
          refine .above firstNew thirdOld (.inr ?_)
          rcases reaches with rfl | reaches
          · exact belowOn
          · exact s.trans reaches belowOn
      | beneath _ _ belowOn =>
          rcases reaches with rfl | reaches
          · exact (s.irrefl isLive belowOn).elim
          · exact (s.irrefl isLive (s.trans reaches belowOn)).elim
      | above secondNew => exact (Nat.not_lt.mpr secondNew secondOld).elim
      | new secondNew => exact (Nat.not_lt.mpr secondNew secondOld).elim
  | new firstNew lower =>
      have secondNew := Nat.le_trans firstNew (Nat.le_of_lt lower)
      cases right with
      | old secondOld => exact (Nat.not_lt.mpr secondNew secondOld).elim
      | beneath secondOld => exact (Nat.not_lt.mpr secondNew secondOld).elim
      | above _ thirdOld reaches => exact .above firstNew thirdOld reaches
      | new _ lowerOn => exact .new firstNew (Nat.lt_trans lower lowerOn)

/-- The state after a call. -/
def extend (s : Ordered σ) {id answer : NodeId} {w : Workspace σ} (isLive : s.live id)
    (expands : Call.Expands ⟨s.workspace.graph, id, answer, w.graph⟩)
    : Ordered σ where
  workspace := w
  live other := s.live other ∨ s.workspace.graph.size ≤ other ∧ other < w.graph.size
  below := s.Inserted id
  inside {other} otherLive := by
    rcases otherLive with before | ⟨_, inside⟩
    · exact Nat.lt_of_lt_of_le (s.inside before) expands.appends.size
    · exact inside
  trans := Inserted.trans isLive
  irrefl {other} otherLive below := by
    cases below with
    | old otherOld _ below =>
        exact s.irrefl (otherLive.resolve_right fun isNew => Nat.not_lt.mpr isNew.1 otherOld) below
    | beneath otherOld otherNew => exact Nat.not_lt.mpr otherNew otherOld
    | above otherNew otherOld => exact Nat.not_lt.mpr otherNew otherOld
    | new _ lower => exact Nat.lt_irrefl _ lower
  operand {parent child} parentLive uses := by
    by_cases parentOld : parent < s.workspace.graph.size
    · rw [Graph.Uses, expands.appends.children parentOld] at uses
      have wasLive := parentLive.resolve_right fun isNew => Nat.not_lt.mpr isNew.1 parentOld
      obtain ⟨childLive, below⟩ := s.operand wasLive uses
      exact ⟨.inl childLive, .old (s.inside childLive) parentOld below⟩
    · have parentNew := Nat.le_of_not_lt parentOld
      rcases expands.built parentNew uses with path | ⟨childNew, lower⟩
      · obtain ⟨childLive, below⟩ := s.of_path isLive path
        exact ⟨.inl childLive, .beneath (s.inside childLive) parentNew below⟩
      · have parentInside := uses.lt_size
        exact ⟨.inr ⟨childNew, Nat.lt_trans lower parentInside⟩, .new childNew lower⟩

theorem later_extend {id answer : NodeId} {w : Workspace σ} (isLive : s.live id)
    (expands : Call.Expands ⟨s.workspace.graph, id, answer, w.graph⟩)
    : s.Later (s.extend isLive expands) where
  live := .inl
  below firstLive secondLive below := .old (s.inside firstLive) (s.inside secondLive) below
  isOutput otherLive := expands.appends.isOutput (s.inside otherLive)

theorem stands_extend {id answer : NodeId} {w : Workspace σ} (isLive : s.live id)
    (expands : Call.Expands ⟨s.workspace.graph, id, answer, w.graph⟩)
    : (s.extend isLive expands).Stands id answer := by
  rcases expands.leads with (rfl : answer = id) | below | isNew
  · exact ⟨.inl isLive, .inl isLive, .inl rfl⟩
  · obtain ⟨answerLive, below⟩ := s.of_path isLive below
    exact ⟨.inl isLive, .inl answerLive, .inr (.old (s.inside answerLive) (s.inside isLive) below)⟩
  · exact ⟨.inl isLive, .inr ⟨isNew, expands.answer⟩,
      .inr (.above isNew (s.inside isLive) (.inl rfl))⟩

/-- The state after a slot is pointed at a node that stands in for its operand. -/
def point (s : Ordered σ) {parent child new : NodeId} {slot : Nat}
    (atSlot : (s.workspace.graph.children parent)[slot]? = some child) (stands : s.Stands child new)
    : Ordered σ :=
  { s with
    workspace := { s.workspace with graph := s.workspace.graph.setChild parent slot new }
    inside := fun otherLive => (Graph.size_setChild ..).symm ▸ s.inside otherLive
    operand := fun {user operand} userLive uses => by
      rcases Graph.uses_setChild uses with before | ⟨rfl, rfl⟩
      · exact s.operand userLive before
      · have below := (s.operand userLive (List.mem_of_getElem? atSlot)).2
        refine ⟨stands.newLive, ?_⟩
        rcases stands.low with rfl | lower
        · exact below
        · exact s.trans lower below }

/-- What a pass keeps up. -/
def invariant (σ : Type) : Pass.Invariant σ (Ordered σ) where
  view := workspace
  Later := Later
  refl _ := ⟨fun isLive => isLive, fun _ _ below => below, fun _ => rfl⟩
  trans first second :=
    { live := fun isLive => second.live (first.live isLive)
      below := fun idLive otherLive below =>
        second.below (first.live idLive) (first.live otherLive) (first.below idLive otherLive below)
      isOutput := fun isLive => (second.isOutput (first.live isLive)).trans
        (first.isOutput isLive) }
  Live := live
  Stands := Stands
  Spent _ _ := False
  live_later later := later.live
  stands_later later stands :=
    ⟨later.live stands.oldLive, later.live stands.newLive,
      stands.low.imp_right (later.below stands.newLive stands.oldLive)⟩
  stands_refl isLive := ⟨isLive, isLive, .inl rfl⟩
  live_of_stands := Stands.newLive
  isOutput_later later := later.isOutput
  point {s _ _ _ _} _ atSlot stands :=
    ⟨s.point atSlot stands, rfl,
      ⟨fun isLive => isLive, fun _ _ below => below, fun _ => Graph.isOutput_setChild ..⟩,
        fun _ spent => spent⟩
  redirect {s index _ new} _ _ :=
    ⟨{ s with workspace := { s.workspace with graph := s.workspace.graph.setOutput index new } },
      rfl, ⟨fun isLive => isLive, fun _ _ below => below, fun _ => rfl⟩, fun _ spent => spent⟩

end Ordered

theorem Transform.Obeys.admits {transform : Transform σ} (expands : transform.Obeys Call.Expands)
    : (Ordered.invariant σ).Admits True transform where
  operand {s _ _} isLive uses := (s.operand isLive uses).1
  step {s id} isLive _ := by
    cases ran : transform id s.workspace with
    | error e v => exact .of_error ran trivial
    | ok new v =>
        have call := expands _ id new v ran
        refine .of_ok (t := s.extend isLive call) ran (Ordered.later_extend isLive call) ?_
        exact ⟨⟨Ordered.stands_extend isLive call, trivial, fun _ => .inr trivial,
          fun parent parentLive => call.appends.children (s.inside parentLive),
            call.appends.outputs⟩, fun _ => .inl⟩

theorem Transform.Obeys.recorded {transform : Transform σ} {P : Call → Prop}
    (obeys : transform.Obeys P)
    : transform.recorded.Obeys P :=
  fun _ id answer v ran => (obeys.ensures_call id answer v ran).2

theorem acyclic_preOrder {transform : Transform σ} {g : Graph} {memory : σ} {w : Workspace σ}
    (enclosed : g.Enclosed) (acyclic : g.Acyclic) (expands : transform.Obeys Call.Expands)
    (ran : Pass.run .preOrder transform ⟨g, memory⟩ = .ok () w)
    : w.graph.Acyclic := by
  let start : Ordered σ :=
    { workspace := ⟨g, memory⟩
      live := g.Reachable
      below := fun child parent => TransGen g.Uses parent child
      inside := enclosed.lt_size
      trans := fun left right => right.trans left
      irrefl := acyclic _
      operand := fun reachable uses => ⟨reachable.operand uses, .single uses⟩ }
  obtain ⟨t, rfl, _, _, finished⟩ :=
    (expands.admits.leads.runs_preOrder_finished (s := start) (.inl trivial)
    (fun _ => trivial) (fun _ => .root) fun _ => id).state_of_ok ran
  intro id reachable cycle
  have isLive := (finished id reachable).1
  exact t.irrefl isLive (t.of_path isLive cycle).2

/-! ## Both orders -/

/-- The calls of a pass, if it succeeds, do what its order permits. -/
def Transform.BuildsOver (transform : Transform σ) (order : PassOrder) (g : Graph) (memory : σ)
    : Prop :=
  ∀ w, Pass.run order transform.recorded ⟨g, memory, []⟩ = .ok () w
  → ∀ call ∈ w.calls, order.Permits g call

/-- A pass over a graph without cycles, none of whose roots is an operand, leaves a graph without
cycles. What a call builds is based on what is below its node and on other new nodes, and when
operands go first on the node as well. Witness: when operands go first, nodes are settled call by
call, in layers; when parents go first, the nodes that a call adds find a place in the order just
below its node. -/
theorem pass_keeps_acyclic {transform : Transform σ} {order : PassOrder} {g : Graph} {memory : σ}
    {w : Workspace σ} (enclosed : g.Enclosed) (acyclic : g.Acyclic)
    (unused : ∀ root ∈ g.outputs, ∀ parent, ¬ g.Uses parent root)
    (builds : transform.BuildsOver order g memory)
    (ran : Pass.run order transform ⟨g, memory⟩ = .ok () w)
    : w.graph.Acyclic := by
  obtain ⟨calls, recorded⟩ := run_recorded ran
  have permitted := builds _ recorded
  have guarded := run_guarded recorded permitted
  have obeys := transform.guarded_obeys (order.Permits g)
  cases order with
  | preOrder =>
      exact acyclic_preOrder (w := ⟨w.graph, w.memory, calls⟩) enclosed
        acyclic obeys.recorded guarded
  | postOrder => exact acyclic_postOrder enclosed acyclic unused obeys guarded permitted

/-- A call that builds on its node and on new nodes only. -/
def Call.WrapsOnly (start : Graph) (call : Call) : Prop :=
  call.Appends
  ∧ (∀ id < call.after.size, call.before.size ≤ id → ∀ child ∈ call.after.children id,
      child = call.id ∨ start.size ≤ child ∧ child < id)
  ∧ (call.answer = call.id ∨ start.size ≤ call.answer)

instance (start : Graph) (call : Call) : Decidable (call.WrapsOnly start) :=
  inferInstanceAs (Decidable (_ ∧ _ ∧ _))

theorem Call.WrapsOnly.wraps {start : Graph} {call : Call} (only : call.WrapsOnly start)
    : call.Wraps start where
  toGrows := only.1.toGrows
  built added uses := (only.2.1 _ (Graph.Uses.lt_size uses) added _ uses).imp_right .inr
  leads := only.2.2.imp_right .inr

/-- A call that builds on the operands of its node and on nodes that it has added itself. -/
def Call.ExpandsOnly (call : Call) : Prop :=
  call.Appends
  ∧ (∀ id < call.after.size, call.before.size ≤ id → ∀ child ∈ call.after.children id,
      child ∈ call.before.children call.id ∨ call.before.size ≤ child ∧ child < id)
  ∧ (call.answer = call.id ∨ call.before.size ≤ call.answer)

instance (call : Call) : Decidable call.ExpandsOnly :=
  inferInstanceAs (Decidable (_ ∧ _ ∧ _))

theorem Call.ExpandsOnly.expands {call : Call} (only : call.ExpandsOnly) : call.Expands where
  toGrows := only.1.toGrows
  built added uses := (only.2.1 _ (Graph.Uses.lt_size uses) added _ uses).imp_left .single
  leads := only.2.2.imp_right .inr

/-- A pass has only one record of its calls. -/
theorem Transform.buildsOver_of_run {transform : Transform σ} {order : PassOrder} {g : Graph}
    {memory : σ} {w : Workspace (σ × List Call)}
    (ran : Pass.run order transform.recorded ⟨g, memory, []⟩ = .ok () w)
    (permits : ∀ call ∈ w.calls, order.Permits g call)
    : transform.BuildsOver order g memory := by
  intro v ranAlso
  cases ran.symm.trans ranAlso
  exact permits

/-- Inputs are wrapped in pairs. -/
def pairInputs : Transform Unit :=
  .ofEdit (Catalog.copyInput (.of .float 2) 2)

theorem pass_keeps_acyclic_sharedRoot
    : sharedRoot.Enclosed
      ∧ sharedRoot.Acyclic
      ∧ (∀ root ∈ sharedRoot.outputs, ∀ parent, ¬ sharedRoot.Uses parent root)
      ∧ pairInputs.BuildsOver .postOrder sharedRoot ()
      ∧ negateRoots.BuildsOver .preOrder sharedRoot ()
      ∧ (∃ w, Pass.run .postOrder pairInputs ⟨sharedRoot, ()⟩ = .ok () w ∧ w.graph.Acyclic)
      ∧ ∃ w, Pass.run .preOrder negateRoots ⟨sharedRoot, ()⟩ = .ok () w ∧ w.graph.Acyclic := by
  have enclosed : sharedRoot.Enclosed := by decide +kernel
  have acyclic : sharedRoot.Acyclic := Graph.acyclic_of_lt (by decide +kernel)
  have apart : sharedRoot.RootsApart := by decide +kernel
  have operandsFirst : pairInputs.BuildsOver .postOrder sharedRoot () := by
    obtain ⟨w, ran, wraps⟩ : ∃ w, Pass.run .postOrder pairInputs.recorded
        ⟨sharedRoot, (), []⟩ = .ok () w
        ∧ ∀ call ∈ w.calls, call.WrapsOnly sharedRoot :=
      ⟨_, rfl, by decide +kernel⟩
    exact Transform.buildsOver_of_run ran fun call member => (wraps call member).wraps
  have parentsFirst : negateRoots.BuildsOver .preOrder sharedRoot () := by
    obtain ⟨w, ran, expands⟩ : ∃ w, Pass.run .preOrder negateRoots.recorded
        ⟨sharedRoot, (), []⟩ = .ok () w
        ∧ ∀ call ∈ w.calls, call.ExpandsOnly :=
      ⟨_, rfl, by decide +kernel⟩
    exact Transform.buildsOver_of_run ran fun call member => (expands call member).expands
  exact ⟨enclosed, acyclic, apart.unused, operandsFirst, parentsFirst,
    ⟨_, rfl, pass_keeps_acyclic enclosed acyclic apart.unused operandsFirst rfl⟩,
    ⟨_, rfl, pass_keeps_acyclic enclosed acyclic apart.unused parentsFirst rfl⟩⟩

/-- An output of an input. -/
def passedThrough : Graph :=
  let float : DataType := .scalarOf .float
  (Graph.empty.declareInput ⟨"x", float⟩).declareOutput ⟨"y", float⟩ 0

/-- When parents go first, a pair of an input ends up as a pair of itself, although its call wraps
the input only. -/
theorem wrapping_parents_first_is_cyclic
    : passedThrough.Enclosed
      ∧ passedThrough.Acyclic
      ∧ passedThrough.RootsApart
      ∧ ∃ w,
          Pass.run .preOrder pairInputs.recorded ⟨passedThrough, (), []⟩ = .ok () w
          ∧ (∀ call ∈ w.calls, call.WrapsOnly passedThrough)
          ∧ ¬ w.graph.Acyclic := by
  have ran : ∃ w, Pass.run .preOrder pairInputs.recorded ⟨passedThrough, (), []⟩ = .ok () w
      ∧ (∀ call ∈ w.calls, call.WrapsOnly passedThrough)
        ∧ 1 ∈ w.graph.outputs ∧ 2 ∈ w.graph.children 1 ∧ 2 ∈ w.graph.children 2 := by
    decide +kernel
  obtain ⟨w, ran, wraps, isRoot, operand, loop⟩ := ran
  refine ⟨by decide +kernel, Graph.acyclic_of_lt (by decide +kernel), by decide +kernel, w, ran,
    wraps, ?_⟩
  exact fun acyclic => acyclic 2 (.operand (.root isRoot) operand) (.single loop)

end StreamExpr
