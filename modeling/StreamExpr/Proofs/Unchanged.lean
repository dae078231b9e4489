import StreamExpr.Proofs.Completion

/-! Passes that leave a graph as it is.
Where a transform answers every reachable node with itself, a pass ends with the graph it was given.
If parents come first, the transform has then agreed to every reachable node.
-/

namespace StreamExpr

variable {σ S : Type}

/-- States that differ in what a pass remembers, over one graph. -/
def Evolution.still (g : Graph) (memory : S → σ) : Evolution (Workspace σ) S where
  view s := ⟨g, memory s⟩
  Later _ _ := True
  refl _ := trivial
  trans _ _ := trivial

namespace Pass

/-- A graph that a pass leaves as it is. The finished nodes are those that the transform approves
of. -/
def Invariant.still (g : Graph) (memory : S → σ) (Approved : NodeId → Prop) : Invariant σ S where
  toEvolution := .still g memory
  Live _ := g.Reachable
  Stands _ old new := g.Reachable old ∧ new = old
  Spent _ _ := False
  Finished _ := Approved
  live_later _ reachable := reachable
  stands_later _ stands := stands
  finished_later _ approved := approved
  stands_refl reachable := ⟨reachable, rfl⟩
  live_of_stands := by
    rintro _ old _ ⟨reachable, rfl⟩
    exact reachable
  isOutput_later _ _ := rfl
  point := by
    rintro s parent slot child _ _ atSlot ⟨_, rfl⟩
    exact ⟨s, congrArg (Workspace.mk · (memory s)) (Graph.setChild_self atSlot).symm,
      trivial, by simp⟩
  redirect := by
    rintro s index root _ atIndex ⟨_, rfl⟩
    exact ⟨s, congrArg (Workspace.mk · (memory s)) (Graph.setOutput_self atIndex).symm,
      trivial, by simp⟩

/-- A transform that answers every reachable node of a graph with itself, or fails where that is
allowed. -/
def Agrees (g : Graph) (memory : S → σ) (Approved : NodeId → Prop) (fails : Prop)
    (transform : Transform σ)
    : Prop :=
  ∀ s id, g.Reachable id →
    (Evolution.still g memory).Runs fails s (transform id) fun new _ => new = id ∧ Approved id

variable {g : Graph} {memory : S → σ} {Approved : NodeId → Prop} {fails : Prop}
    {transform : Transform σ}

theorem Agrees.admits (agrees : Agrees g memory Approved fails transform)
    : (Invariant.still g memory Approved).Admits fails transform where
  operand reachable member := reachable.operand member
  step {s id} reachable _ := (agrees s id reachable).imp fun new t _ found =>
    ⟨⟨⟨reachable, found.1⟩, found.1 ▸ found.2, fun isOutput => .inl (found.1 ▸ isOutput),
      fun _ _ => rfl, rfl⟩, by simp [Invariant.still]⟩

/-- A pass whose transform agrees to parents first has all reachable nodes approved in the end. -/
theorem Agrees.runs_preOrder (agrees : Agrees g memory Approved fails transform)
    (enough : fails ∨ g.Enclosed) (unrooted : ¬ g.Rooted → fails) (s : S)
    : (Evolution.still g memory).Runs fails s (run .preOrder transform) fun _ _ =>
        (∀ root ∈ g.outputs, g.isOutput root = true) ∧ ∀ id, g.Reachable id → Approved id := by
  refine (agrees.admits.leads.runs_preOrder_finished
    (enough.imp id fun enclosed => ⟨.ofBound g.size fun reachable => enclosed.lt_size reachable⟩)
    unrooted (fun _ => .root) fun _ => id).imp ?_
  rintro _ t _ ⟨succeeds, finished⟩
  refine ⟨fun root isRoot => ?_, fun id reachable => (finished id reachable).2⟩
  obtain ⟨place, inside, rfl⟩ := List.getElem_of_mem isRoot
  exact ((List.forall₂_iff_get.mp succeeds).2 place inside inside).isOutput

theorem Agrees.runs_postOrder (agrees : Agrees g memory Approved fails transform)
    (acyclic : g.Acyclic) (unrooted : ¬ g.Rooted → fails) (s : S)
    : (Evolution.still g memory).Runs fails s (run .postOrder transform) fun _ _ => True :=
  (agrees.admits.runs_postOrder acyclic unrooted (fun _ => .root) fun _ => id).imp
    fun _ _ _ _ => trivial

end Pass

/-! ## Passes without memory -/

/-- One graph, to which nothing happens. -/
def Evolution.constant (g : Graph) : Evolution Graph Unit where
  view _ := g
  Later _ _ := True
  refl _ := trivial
  trans _ _ := trivial

/-- A step that answers every reachable node of a graph with itself, or fails where that is
allowed. -/
def Edit.Agrees (g : Graph) (Approved : NodeId → Prop) (fails : Prop) (step : NodeId → Edit NodeId)
    : Prop :=
  ∀ id, g.Reachable id →
    (Evolution.constant g).Runs fails () (step id) fun new _ => new = id ∧ Approved id

variable {g : Graph} {Approved : NodeId → Prop} {fails : Prop} {step : NodeId → Edit NodeId}

theorem Edit.Agrees.transform (agrees : Edit.Agrees g Approved fails step)
    : Pass.Agrees g (fun _ : Unit => ()) Approved fails (Transform.ofEdit step) :=
  fun _ id reachable => (agrees id reachable).ofEdit

theorem Edit.Agrees.runs_preOrder (agrees : Edit.Agrees g Approved fails step)
    (enough : fails ∨ g.Enclosed) (unrooted : ¬ g.Rooted → fails)
    : (Evolution.constant g).Runs fails () (Edit.pass .preOrder step) fun _ _ =>
        (∀ root ∈ g.outputs, g.isOutput root = true) ∧ ∀ id, g.Reachable id → Approved id :=
  .pass (agrees.transform.runs_preOrder enough unrooted ())

theorem Edit.Agrees.runs_postOrder (agrees : Edit.Agrees g Approved fails step)
    (acyclic : g.Acyclic) (unrooted : ¬ g.Rooted → fails)
    : (Evolution.constant g).Runs fails () (Edit.pass .postOrder step) fun _ _ => True :=
  .pass (agrees.transform.runs_postOrder acyclic unrooted ())

end StreamExpr
