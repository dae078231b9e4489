import StreamExpr.Proofs.Discipline

/-! Drafts of a graph that a pass works on, operands first.
The finished nodes of a draft are listed, operands before their users, and are not edited again. A
node that has been replaced is retired and never finished. So what is reachable in the end is
finished, and has no cycles.
-/

namespace StreamExpr

open Traversal

namespace Traversal

variable {operands others : NodeId → List NodeId} {listed : List NodeId}

theorem Linear.congr (linear : Linear operands listed)
    (same : ∀ id ∈ listed, others id = operands id)
    : Linear others listed := by
  induction listed with
  | nil => trivial
  | cons id rest ih =>
      refine ⟨linear.1, fun child isOperand => linear.2.1 child ?_,
        ih linear.2.2 fun other member => same other (List.mem_cons_of_mem id member)⟩
      rwa [same id List.mem_cons_self] at isOperand

/-- Listed nodes rank by their places. -/
theorem Linear.exists_rank (linear : Linear operands listed)
    : ∃ rank : NodeId → Nat, (∀ id ∈ listed, rank id ≤ listed.length)
        ∧ ∀ parent ∈ listed, ∀ child ∈ operands parent, rank child < rank parent := by
  induction listed with
  | nil => exact ⟨fun _ => 0, by simp, by simp⟩
  | cons id rest ih =>
      obtain ⟨rank, bounded, below⟩ := ih linear.2.2
      have differs {other} (member : other ∈ rest)
        : other ≠ id := fun same => linear.1 (same ▸ member)
      refine ⟨Function.update rank id (rest.length + 1), fun other member => ?_,
        fun parent member child isOperand => ?_⟩
      · rcases List.mem_cons.mp member with rfl | before
        · rw [Function.update_self]
          exact Nat.le_refl _
        · rw [Function.update_of_ne (differs before)]
          exact Nat.le_succ_of_le (bounded other before)
      · rcases List.mem_cons.mp member with rfl | before
        · have childBefore := linear.2.1 child isOperand
          rw [Function.update_self, Function.update_of_ne (differs childBefore)]
          exact Nat.lt_succ_of_le (bounded child childBefore)
        · have childBefore := linear.2.2.operand_mem before isOperand
          rw [Function.update_of_ne (differs before), Function.update_of_ne (differs childBefore)]
          exact below parent before child isOperand

end Traversal

/-- What is listed with the operands before their users, and closed under operands, has no
cycles. -/
theorem Graph.acyclic_of_linear {g : Graph} {listed : List NodeId}
    (linear : Linear g.children listed) (covered : ∀ id, g.Reachable id → id ∈ listed)
    : g.Acyclic := by
  obtain ⟨rank, _, below⟩ := linear.exists_rank
  exact acyclic_of_rank rank fun reachable uses => below _ (covered _ reachable) _ uses

/-! ## Drafts -/

/-- What a pass keeps up about its memory and the finished nodes. -/
structure Ledger (σ : Type) where
  Holds : σ → Graph → List NodeId → Prop
  congr : ∀ {memory g h done}, Linear g.children done → (∀ id ∈ done, h.node id = g.node id) →
    Holds memory g done → Holds memory h done

variable {σ : Type} {D : Discipline} {L : Ledger σ}

/-- A graph that a pass works on, with its finished nodes and those that have been replaced. -/
structure Draft (D : Discipline) (L : Ledger σ) extends D.State where
  memory : σ
  done : List NodeId
  retired : NodeId → Prop
  linear : Linear graph.children done
  doneLive : ∀ id ∈ done, live id
  unfinished : ∀ {id}, retired id → id ∉ done ∧ live id ∧ graph.isOutput id = false
  holds : L.Holds memory graph done

namespace Draft

/-- A draft in which nothing is done. -/
def ofGraph {g : Graph} (obeys : g.Obeys D) {memory : σ} (holds : L.Holds memory g [])
    : Draft D L where
  toState := .ofGraph obeys
  memory := memory
  done := []
  retired _ := False
  linear := trivial
  doneLive _ member := (List.not_mem_nil member).elim
  unfinished := False.elim
  holds := holds

/-- A later draft: finished nodes are left alone, and what is retired stays so. -/
structure Later (s t : Draft D L) : Prop where
  state : s.toState.Later t.toState
  done : ∀ {id}, id ∈ s.done → id ∈ t.done
  node : ∀ {id}, id ∈ s.done → t.graph.node id = s.graph.node id
  retired : ∀ {id}, s.retired id → t.retired id

theorem Later.refl (s : Draft D L) : s.Later s :=
  ⟨.refl _, id, fun _ => rfl, id⟩

theorem Later.trans {s t u : Draft D L} (first : s.Later t) (second : t.Later u) : s.Later u where
  state := first.state.trans second.state
  done isDone := second.done (first.done isDone)
  node isDone := (second.node (first.done isDone)).trans (first.node isDone)
  retired isRetired := second.retired (first.retired isRetired)

/-- A user of a retired node is not finished. -/
theorem not_done_of_retired (s : Draft D L) {parent child : NodeId}
    (isOperand : child ∈ s.graph.children parent) (isRetired : s.retired child)
    : parent ∉ s.done :=
  fun isDone => (s.unfinished isRetired).1 (s.linear.operand_mem isDone isOperand)

/-! ## Edits -/

/-- A draft of another graph in which the finished nodes are the same. -/
def carry (s : Draft D L) (t : D.State) (later : s.toState.Later t)
    (same : ∀ id ∈ s.done, t.graph.node id = s.graph.node id)
    : Draft D L where
  toState := t
  memory := s.memory
  done := s.done
  retired := s.retired
  linear := s.linear.congr fun id isDone => congrArg Node.children (same id isDone)
  doneLive id isDone := later.live (s.doneLive id isDone)
  unfinished isRetired := by
    obtain ⟨undone, isLive, isValue⟩ := s.unfinished isRetired
    exact ⟨undone, later.live isLive, (later.isOutput isLive).trans isValue⟩
  holds := L.congr s.linear same s.holds

theorem carry_later (s : Draft D L) (t : D.State) (later : s.toState.Later t)
    (same : ∀ id ∈ s.done, t.graph.node id = s.graph.node id)
    : s.Later (s.carry t later same) :=
  ⟨later, id, fun isDone => same _ isDone, id⟩

/-- Finish a node whose operands are finished. -/
def finish (s : Draft D L) {id : NodeId} {memory : σ} (isLive : s.live id) (undone : id ∉ s.done)
    (unretired : ¬ s.retired id) (operands : ∀ child ∈ s.graph.children id, child ∈ s.done)
    (holds : L.Holds memory s.graph (id :: s.done))
    : Draft D L where
  toState := s.toState
  memory := memory
  done := id :: s.done
  retired := s.retired
  linear := ⟨undone, operands, s.linear⟩
  doneLive := List.forall_mem_cons.mpr ⟨isLive, s.doneLive⟩
  unfinished {other} isRetired := by
    obtain ⟨otherUndone, otherLive, isValue⟩ := s.unfinished isRetired
    refine ⟨fun member => ?_, otherLive, isValue⟩
    rcases List.mem_cons.mp member with rfl | isDone
    · exact unretired isRetired
    · exact otherUndone isDone
  holds := holds

theorem finish_later (s : Draft D L) {id : NodeId} {memory : σ} (isLive : s.live id)
    (undone : id ∉ s.done) (unretired : ¬ s.retired id)
    (operands : ∀ child ∈ s.graph.children id, child ∈ s.done)
    (holds : L.Holds memory s.graph (id :: s.done))
    : s.Later (s.finish isLive undone unretired operands holds) :=
  ⟨.refl _, List.mem_cons_of_mem _, fun _ => rfl, fun isRetired => isRetired⟩

/-- Retire a node that is not finished. -/
def retire (s : Draft D L) {id : NodeId} (isLive : s.live id) (undone : id ∉ s.done)
    (isValue : s.graph.isOutput id = false)
    : Draft D L where
  toState := s.toState
  memory := s.memory
  done := s.done
  retired other := other = id ∨ s.retired other
  linear := s.linear
  doneLive := s.doneLive
  unfinished {other} isRetired := by
    rcases isRetired with rfl | before
    · exact ⟨undone, isLive, isValue⟩
    · exact s.unfinished before
  holds := s.holds

theorem retire_later (s : Draft D L) {id : NodeId} (isLive : s.live id) (undone : id ∉ s.done)
    (isValue : s.graph.isOutput id = false)
    : s.Later (s.retire isLive undone isValue) :=
  ⟨.refl _, fun isDone => isDone, fun _ => rfl, .inr⟩

/-! ## Passes -/

/-- What a pass on drafts keeps up. -/
def invariant (D : Discipline) (L : Ledger σ) : Pass.Invariant σ (Draft D L) where
  view s := ⟨s.graph, s.memory⟩
  Later := Later
  refl := .refl
  trans := .trans
  Live s := s.live
  Stands s old new := s.toState.Stands old new ∧ (new = old ∨ s.retired old)
  Spent s := s.retired
  Finished s id := id ∈ s.done
  live_later later := later.state.live
  stands_later later stands := ⟨stands.1.later later.state, stands.2.imp_right later.retired⟩
  finished_later later isDone := later.done isDone
  stands_refl isLive := ⟨.refl isLive, .inl rfl⟩
  live_of_stands stands := stands.1.newLive
  isOutput_later later isLive := later.state.isOutput isLive
  point {s parent slot child new} isLive atSlot := by
    rintro ⟨stands, rfl | isRetired⟩
    · exact ⟨s, congrArg (Workspace.mk · s.memory) (Graph.setChild_self atSlot).symm,
        .refl s, fun _ => id⟩
    · have undone := s.not_done_of_retired (List.mem_of_getElem? atSlot) isRetired
      refine ⟨s.carry (s.toState.setChild atSlot stands) (s.setChild_later atSlot stands) fun id
        isDone => ?_, rfl, s.carry_later _ _ _, fun _ => id⟩
      have differs : id ≠ parent := fun same => undone (same ▸ isDone)
      simp only [Discipline.State.setChild, Graph.node_setChild, if_neg differs]
  redirect {s index _ new} _ stands :=
    ⟨s.carry (s.toState.setOutput index stands.1.newLive) (s.setOutput_later index stands.1.newLive)
      fun _ _ => rfl, rfl, s.carry_later _ _ _, fun _ => id⟩

/-- What a transform leaves: a finished node that stands in for the given one, which is retired if
it is another. -/
structure Yields (s : Draft D L) (id new : NodeId) (t : Draft D L) : Prop where
  stands : t.toState.Stands id new
  finished : new ∈ t.done
  moved : new = id ∨ t.retired id
  appends : s.graph.Appends t.graph
  spent : ∀ {other}, t.retired other → s.retired other ∨ other = id ∧ s.graph.isOutput id = false

/-- A finished node is left alone. -/
theorem yields_self {s : Draft D L} {id : NodeId} (isLive : s.live id) (isDone : id ∈ s.done)
    : s.Yields id id s :=
  ⟨.refl isLive, isDone, .inl rfl, .refl _, .inl⟩

/-- A node that stays is finished. -/
theorem yields_finish {s : Draft D L} {id : NodeId} {memory : σ} (isLive : s.live id)
    (undone : id ∉ s.done) (unretired : ¬ s.retired id)
    (operands : ∀ child ∈ s.graph.children id, child ∈ s.done)
    (holds : L.Holds memory s.graph (id :: s.done))
    : s.Yields id id (s.finish isLive undone unretired operands holds) :=
  ⟨.refl isLive, List.mem_cons_self, .inl rfl, .refl _, .inl⟩

/-- A node is retired in favour of a finished one that stands in for it. -/
theorem yields_retire {s t : Draft D L} {id new : NodeId} (isLive : t.live id)
    (undone : id ∉ t.done) (isValue : t.graph.isOutput id = false)
    (stands : t.toState.Stands id new) (finished : new ∈ t.done) (appends : s.graph.Appends t.graph)
    (spent : ∀ {other}, t.retired other → s.retired other) (wasValue : s.graph.isOutput id = false)
    : s.Yields id new (t.retire isLive undone isValue) :=
  ⟨stands, finished, .inr (.inl rfl), appends, fun isRetired =>
    isRetired.elim (fun same => .inr ⟨same, wasValue⟩) fun before => .inl (spent before)⟩

/-- A transform completes drafts if it yields a finished node for every node with finished
operands. -/
theorem completes {transform : Transform σ} {fails : Prop}
    (yields : ∀ {s : Draft D L} {id : NodeId}, s.live id → ¬ s.retired id →
      (∀ child ∈ s.graph.children id, child ∈ s.done) →
        (invariant D L).Runs fails s (transform id) (s.Yields id))
    : (invariant D L).Completes fails transform := by
  intro s id isLive unspent due
  have unretired : ¬ s.retired id := fun isRetired =>
    Bool.false_ne_true ((s.unfinished isRetired).2.2.symm.trans (unspent isRetired))
  have ready : (invariant D L).Ready s id :=
    due.elim (fun ready => ready) fun isDone _ isOperand => s.linear.operand_mem isDone isOperand
  refine (yields isLive unretired ready).imp fun new t later found => ?_
  have kept {parent} (parentLive : s.live parent)
    : t.graph.children parent = s.graph.children parent :=
      congrArg Node.children (found.appends.node (s.inside parentLive))
  refine ⟨⟨found.stands, found.moved⟩, found.finished, fun isOutput => .inl ?_,
    .inl (ready.later later (kept isLive)),
    fun _ parentLive _ => kept parentLive, found.appends.outputs, fun _ => found.spent⟩
  have stillOutput : t.graph.isOutput id = true := (later.state.isOutput isLive).trans isOutput
  exact (found.stands.output stillOutput) ▸ stillOutput

/-- A pass that completes drafts fails on graphs whose roots are no outputs only, and finishes all
that is reachable. -/
theorem completed {transform : Transform σ} {g : Graph}
    (completes : (invariant D L).Completes (¬ g.Rooted) transform) (obeys : g.Obeys D) {memory : σ}
    (holds : L.Holds memory g [])
    : match Pass.run .postOrder transform ⟨g, memory⟩ with
      | .ok _ w =>
          ∃ t : Draft D L,
            w = ⟨t.graph, t.memory⟩
            ∧ t.graph.Obeys D
            ∧ t.graph.Rooted
            ∧ g.Keeps t.graph
            ∧ ∀ id, t.graph.Reachable id → id ∈ t.done
      | .error _ _ => ¬ g.Rooted := by
  have runs := completes.runs_postOrder (s := ofGraph obeys holds) obeys.acyclic
    (fun unrooted => unrooted) (fun _ reachable => reachable) fun _ => id
  cases outcome : Pass.run .postOrder transform ⟨g, memory⟩ with
  | error e w => exact runs.fails_of_error outcome
  | ok _ w =>
      obtain ⟨t, rfl, later, succeeds, _⟩ := runs.state_of_ok outcome
      have outputs : t.graph.outputs = g.outputs := by
        refine List.forall₂_eq_eq_eq ▸ List.Forall₂.flip (succeeds.imp fun root new found => ?_)
        exact found.stands.1.output found.isOutput
      have root {root} (isRoot : root ∈ t.graph.outputs)
        : root ∈ t.done ∧ t.graph.isOutput root = true := by
        obtain ⟨place, inside, rfl⟩ := List.getElem_of_mem isRoot
        have found := (List.forall₂_iff_get.mp succeeds).2 place (succeeds.length_eq ▸ inside)
          inside
        have same := found.stands.1.output found.isOutput
        exact ⟨found.finished, (congrArg t.graph.isOutput same).trans found.isOutput⟩
      have finished (id) (reachable : t.graph.Reachable id) : id ∈ t.done := by
        obtain ⟨start, isRoot, path⟩ := reachable
        induction path with
        | refl => exact (root isRoot).1
        | tail _ uses ih => exact t.linear.operand_mem ih uses
      have live {id} (reachable : t.graph.Reachable id)
        : t.live id := t.doneLive id (finished id reachable)
      have some : t.graph.outputs ≠ [] := by
        intro none
        rw [Pass.run_of_no_outputs (outputs ▸ none)] at outcome
        cases outcome
      exact ⟨t, rfl, ⟨t.tidy, fun reachable => t.inside (live reachable),
        Graph.acyclic_of_linear t.linear finished,
        fun reachable => t.allowed (live reachable)⟩, ⟨some, fun _ isRoot => (root isRoot).2⟩,
        later.state.keeps (fun _ => .root) outputs, finished⟩

/-- A pass that completes drafts leaves a graph in good order as one, all of whose reachable nodes
are finished. -/
theorem exists_completed {transform : Transform σ} {g : Graph}
    (completes : (invariant D L).Completes (¬ g.Rooted) transform) (tidies : D.Tidies)
    (orders : g.Orders D) {memory : σ} (holds : L.Holds memory g [])
    : ∃ t : Draft D L,
        Pass.run .postOrder transform ⟨g, memory⟩ = .ok () ⟨t.graph, t.memory⟩
        ∧ t.graph.Orders D
        ∧ g.Keeps t.graph
        ∧ ∀ id, t.graph.Reachable id → id ∈ t.done := by
  have result := completed completes orders.obeys holds
  cases outcome : Pass.run .postOrder transform ⟨g, memory⟩ with
  | error e w =>
      rw [outcome] at result
      exact (result orders.rooted).elim
  | ok _ w =>
      rw [outcome] at result
      obtain ⟨t, rfl, obeys, rooted, keeps, finished⟩ := result
      have tidy := obeys.tidy tidies
      exact ⟨t, rfl, ⟨tidy, obeys.acyclic, rooted, obeys.allowed⟩, keeps, finished⟩

end Draft

end StreamExpr
