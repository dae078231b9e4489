import StreamExpr.Proofs.Calls

/-! Computations that come to an end.
A step is repeated finitely often if each node it leads to weighs less than the one before. A pass
comes to an end if it does so with a transform that goes on where the given one fails: up to its
failure the pass does the same.
-/

namespace StreamExpr

variable {σ S α β : Type}

/-! ## Computations that are not endless -/

/-- A computation ends in a later state with the given property, or it is abandoned. -/
abbrev Evolution.Concludes (E : Evolution σ S) (s : S) (x : EStateM Fault σ α) (post : α → S → Prop)
    : Prop :=
  E.Runs (· ≠ .endless) s x post

namespace Evolution.Concludes

variable {E : Evolution σ S} {s : S} {post : α → S → Prop} {x : EStateM Fault σ α}

theorem runs (concludes : E.Concludes s x post) : E.Runs True s x post :=
  concludes.allow fun _ _ => trivial

theorem ends (concludes : E.Concludes s x post) (w : σ) : x (E.view s) ≠ .error .endless w :=
  fun failed => concludes.fails_of_error failed rfl

/-- The states may be taken to follow each other in a weaker sense. -/
theorem weaken {F : Evolution σ S} (view : F.view = E.view)
    (order : ∀ {s t}, E.Later s t → F.Later s t) (concludes : E.Concludes s x post)
    : F.Concludes s x fun a t => E.Later s t ∧ post a t :=
  concludes.lift (congrFun view s) fun _ t later holds =>
    ⟨t, congrFun view t, order later, later, holds⟩

end Evolution.Concludes

/-! ## Steps that are repeated finitely often -/

/-- A step, repeated on its own answers, reaches a node that it answers with itself, or it fails. -/
inductive Edit.Stabilizes (step : NodeId → Edit NodeId) : NodeId → Graph → Prop
  | stable {id : NodeId} {g h : Graph} (ran : step id g = .ok id h) : Stabilizes step id g
  | fails {id : NodeId} {g h : Graph} {e : Fault}
    (ran : step id g = .error e h) : Stabilizes step id g
  | moves {id next : NodeId} {g h : Graph} (ran : step id g = .ok next h) (differs : next ≠ id)
    (rest : Stabilizes step next h)
    : Stabilizes step id g

/-- An edit that does not fail. -/
def Edit.Total (x : Edit α) : Prop :=
  ∀ g, ∃ a h, x g = .ok a h

namespace Edit.Total

theorem pure {a : α} : Edit.Total (Pure.pure a) :=
  fun g => ⟨a, g, rfl⟩

theorem read {f : Graph → α} : Edit.Total (Edit.read f) :=
  fun g => ⟨f g, g, rfl⟩

theorem add {push : Graph → Graph} : Edit.Total (Edit.add push) :=
  fun g => ⟨g.size, push g, rfl⟩

theorem component {id : NodeId} {c : Nat} : Edit.Total (Edit.component id c) :=
  fun g => ⟨(g.component id c).1, (g.component id c).2, rfl⟩

theorem bind {x : Edit α} {f : α → Edit β} (first : x.Total) (next : ∀ a, (f a).Total)
    : Edit.Total (x >>= f) := by
  intro g
  obtain ⟨a, h, ran⟩ := first g
  simp only [Bind.bind, EStateM.bind, ran]
  exact next a h

end Edit.Total

/-- An edit that leaves the graph as it is where it fails. -/
def Edit.Clean (x : Edit α) : Prop :=
  ∀ g h e, x g = .error e h → h = g

namespace Edit.Clean

theorem of_total {x : Edit α} (total : x.Total) : x.Clean := by
  intro g h e failed
  obtain ⟨_, _, ran⟩ := total g
  cases ran.symm.trans failed

theorem throw {e : Fault} : Edit.Clean (MonadExcept.throw e : Edit α) :=
  fun _ _ _ failed => (EStateM.Result.error.inj failed).2.symm

theorem read {f : Graph → α} {next : α → Edit β} (clean : ∀ a, (next a).Clean)
    : Edit.Clean (Edit.read f >>= next) :=
  fun g => clean (f g) g

end Edit.Clean

namespace Evolution.Settling

variable {E : Evolution Graph S} (L : E.Settling) {step : NodeId → Edit NodeId}
  (advances : ∀ {s id}, L.Live s id → E.Concludes s (step id) (L.Advances step s id))
  {s : S} {id : NodeId}

include advances

/-- A step that moves to less weight comes to an end. Witness: induction on the weight. -/
theorem stabilizes (isLive : L.Live s id) : Edit.Stabilizes step id (E.view s) := by
  generalize size : L.weight s id = weight
  induction weight using Nat.strong_induction_on generalizing s id with
  | h weight ih =>
      cases ran : step id (E.view s) with
      | error e g => exact .fails ran
      | ok next g =>
          by_cases same : next = id
          · exact .stable (same ▸ ran)
          · obtain ⟨t, rfl, later, outcome⟩ := (advances isLive).runs.state_of_ok ran
            cases outcome with
            | stays => exact (same rfl).elim
            | moves _ nextLive _ lighter =>
                exact .moves ran same (ih _ (size ▸ lighter) nextLive rfl)
            | settles _ fixed => exact .moves ran same (.stable fixed)

/-- A step that leaves the graph as it is where it fails fails in a state that it could have ended
in. -/
theorem ends_of_error {e : Fault} {g : Graph} (clean : ∀ id, Edit.Clean (step id))
    (ends_refl : ∀ {s id}, L.Live s id → L.Ends s id id s) (isLive : L.Live s id)
    (failed : Edit.settle step id (E.view s) = .error e g)
    : ∃ new t, E.Later s t ∧ L.Ends s id new t ∧ E.view t = g := by
  rcases untilDone_cases (Edit.attempt step) id (E.view s) with finishes | ⟨endless, _⟩
  · rw [show untilDone (Edit.attempt step) id (E.view s) = .error e g from failed] at finishes
    clear failed
    generalize outcome : EStateM.Result.error e g = r at finishes
    generalize start : E.view s = w at finishes
    induction finishes generalizing s with
    | done => cases outcome
    | @fails id e _ h ran =>
        subst start
        cases outcome
        cases answered : step id (E.view s) with
        | ok next h => cases (Edit.attempt_of_ok answered).symm.trans ran
        | error cause h =>
            cases (Edit.attempt_of_error answered).symm.trans ran
            exact ⟨id, s, E.refl s, ends_refl isLive, (clean id _ _ _ answered).symm⟩
    | @again id next _ h _ ran rest ih =>
        subst start
        cases answered : step id (E.view s) with
        | error cause h => cases (Edit.attempt_of_error answered).symm.trans ran
        | ok new h =>
            have same := (Edit.attempt_of_ok answered).symm.trans ran
            obtain ⟨t, rfl, later, advances⟩ := (advances isLive).runs.state_of_ok answered
            by_cases stays : new = id
            · rw [if_pos stays] at same
              cases same
            · rw [if_neg stays] at same
              cases same
              cases advances with
              | stays => exact (stays rfl).elim
              | moves moves nextLive =>
                  obtain ⟨new, u, rest, ends, view⟩ := ih nextLive outcome rfl
                  exact ⟨new, u, E.trans later rest, L.ends_of_moves moves rest ends, view⟩
              | settles ends fixed =>
                  have settled := rest.untilDone.symm.trans (Edit.settle_of_fixed fixed)
                  cases outcome.trans settled
  · cases endless.symm.trans failed
    exact ⟨id, s, E.refl s, ends_refl isLive, rfl⟩

end Evolution.Settling

/-! ## Passes that go on where a transform fails -/

/-- What a transform is given: a graph and one of its nodes. -/
structure Handover where
  graph : Graph
  id : NodeId

/-- What a computation has left behind, whether it failed or not. -/
def PassM.remains (x : PassM σ α) (w : Workspace σ) : Workspace σ :=
  match x w with
  | .ok _ v => v
  | .error _ v => v

/-- A transform that notes its calls, the last first, also one that fails. -/
def Edit.announced (step : NodeId → Edit NodeId) : Transform (List Handover) :=
  fun id w =>
    match step id w.graph with
    | .ok done graph => .ok done ⟨graph, ⟨w.graph, id⟩ :: w.memory⟩
    | .error e graph => .error e ⟨graph, ⟨w.graph, id⟩ :: w.memory⟩

/-- The calls that a pass makes of its transform. -/
def Pass.handovers (order : PassOrder) (step : NodeId → Edit NodeId) (g : Graph) : List Handover :=
  ((Pass.run order (Edit.announced step)).remains ⟨g, []⟩).memory

/-- A step that goes on where another fails, as if it had left the node alone. -/
def Edit.persistent (step : NodeId → Edit NodeId) : NodeId → Edit NodeId :=
  fun id g =>
    match step id g with
    | .ok done h => .ok done h
    | .error _ _ => .ok id g

/-- A computation that fails where another goes on, as a call that the other makes fails: for the
same cause and with the same graph. All calls it makes the other makes as well. -/
inductive Pass.GivesUp (step : NodeId → Edit NodeId) (e : Fault)
    (v left : Workspace (List Handover)) : Prop
  | intro (handovers : v.memory ⊆ left.memory) (call : Handover) (made : call ∈ left.memory)
    (failed : step call.id call.graph = .error e v.graph)

theorem Pass.GivesUp.later {step : NodeId → Edit NodeId} {e : Fault}
    {v left later : Workspace (List Handover)} (givesUp : Pass.GivesUp step e v left)
    (kept : left.memory ⊆ later.memory)
    : Pass.GivesUp step e v later := by
  obtain ⟨handovers, call, made, failed⟩ := givesUp
  exact ⟨List.Subset.trans handovers kept, call, kept made, failed⟩

/-- Computations that do the same until one of them gives up, as far as the other ends. -/
def Pass.persisting (step : NodeId → Edit NodeId)
    : Pass.Likeness (List Handover) (List Handover) where
  Alike x y := ∀ w b u, y w = .ok b u →
    w.memory ⊆ u.memory ∧ (x w = .ok b u ∨ ∃ e v, x w = .error e v ∧ GivesUp step e v u)
  pure _ _ _ _ ran := by
    cases ran
    exact ⟨List.Subset.refl _, .inl rfl⟩
  throw _ _ _ _ ran := by cases ran
  read _ _ _ _ ran := by
    cases ran
    exact ⟨List.Subset.refl _, .inl rfl⟩
  point _ _ _ _ _ _ ran := by
    cases ran
    exact ⟨List.Subset.refl _, .inl rfl⟩
  redirect _ _ _ _ _ ran := by
    cases ran
    exact ⟨List.Subset.refl _, .inl rfl⟩
  bind := by
    intro _ _ x f y h first next w b u ran
    simp only [Bind.bind, EStateM.bind] at ran ⊢
    cases ranFirst : y w with
    | error e between =>
        rw [ranFirst] at ran
        cases ran
    | ok a between =>
        rw [ranFirst] at ran
        obtain ⟨kept, outcome⟩ := first w a between ranFirst
        obtain ⟨keptOn, outcomeOn⟩ := next a between b u ran
        refine ⟨List.Subset.trans kept keptOn, ?_⟩
        rcases outcome with same | ⟨e, v, failed, givesUp⟩
        · rw [same]
          exact outcomeOn
        · exact .inr ⟨e, v, by rw [failed], givesUp.later keptOn⟩
  loop := by
    intro _ _ body other alike a w b u ran
    have finishes := finishes_of_untilDone ran
    clear ran
    have both : w.memory ⊆ u.memory
        ∧ (Finishes body a w (.ok b u) ∨ ∃ e v, Finishes body a w (.error e v)
          ∧ GivesUp step e v u) := by
      generalize outcome : EStateM.Result.ok b u = r at finishes
      induction finishes with
      | done ran =>
          cases outcome
          refine (alike _ _ _ _ ran).imp_right (Or.imp .done ?_)
          exact fun ⟨e, v, failed, givesUp⟩ => ⟨e, v, .fails failed, givesUp⟩
      | fails => cases outcome
      | again ran _ ih =>
          obtain ⟨kept, first⟩ := alike _ _ _ _ ran
          obtain ⟨keptOn, rest⟩ := ih outcome
          refine ⟨List.Subset.trans kept keptOn, ?_⟩
          rcases first with same | ⟨e, v, failed, givesUp⟩
          · exact rest.imp (.again same) fun ⟨e, v, failed, givesUp⟩ =>
              ⟨e, v, .again same failed, givesUp⟩
          · exact .inr ⟨e, v, .fails failed, givesUp.later keptOn⟩
    exact both.imp_right (Or.imp Finishes.untilDone fun ⟨e, v, failed, givesUp⟩ =>
      ⟨e, v, failed.untilDone, givesUp⟩)

theorem Pass.persisting_announced (step : NodeId → Edit NodeId) (id : NodeId)
    : (persisting step).Alike (Edit.announced step id)
      (Edit.announced (Edit.persistent step) id) := by
  intro w b u ran
  cases answered : step id w.graph with
  | ok done h =>
      simp only [Edit.announced, Edit.persistent, answered] at ran ⊢
      cases ran
      exact ⟨List.subset_cons_self _ _, .inl rfl⟩
  | error cause h =>
      simp only [Edit.announced, Edit.persistent, answered] at ran ⊢
      cases ran
      exact ⟨List.subset_cons_self _ _,
        .inr ⟨cause, _, rfl, List.Subset.refl _, ⟨w.graph, id⟩, List.mem_cons_self, answered⟩⟩

theorem Pass.forgetting_announced (step : NodeId → Edit NodeId) (id : NodeId)
    : (Pass.forgetting fun _ => ()).Alike (Transform.ofEdit step id) (Edit.announced step id) := by
  intro w
  cases ran : step id w.graph with
  | ok done h =>
      refine .of_ok (b := done) (u := ⟨h, ⟨w.graph, id⟩ :: w.memory⟩)
        (by simp only [Edit.announced, ran]) ?_ rfl
      simp only [Transform.ofEdit, PassM.edit, Workspace.forget, ran]
  | error cause h =>
      refine .of_error (e := cause) (u := ⟨h, ⟨w.graph, id⟩ :: w.memory⟩)
        (by simp only [Edit.announced, ran]) ?_
      simp only [Transform.ofEdit, PassM.edit, Workspace.forget, ran]

/-- A pass does the same whether its calls are noted or not. -/
theorem Edit.pass_eq (order : PassOrder) (step : NodeId → Edit NodeId) (g : Graph)
    : Edit.pass order step g
      = match Pass.run order (Edit.announced step) ⟨g, []⟩ with
        | .ok _ w => .ok () w.graph
        | .error e w => .error e w.graph := by
  have mirrors := (Pass.forgetting fun _ => ()).run (Pass.forgetting_announced step) order ⟨g, []⟩
  rw [Edit.pass]
  cases ran : Pass.run order (Edit.announced step) ⟨g, []⟩ with
  | ok a w =>
      obtain ⟨_, same, _⟩ := mirrors.of_eq_ok ran
      rw [show Pass.run order (Transform.ofEdit step) ⟨g, ()⟩ = _ from same]
      rfl
  | error e w =>
      rw [show Pass.run order (Transform.ofEdit step) ⟨g, ()⟩ = _ from mirrors.of_eq_error ran]
      rfl

/-- What a pass with a transform that never fails tells of the pass that it stands for. -/
theorem Edit.pass_of_persistent {order : PassOrder} {step : NodeId → Edit NodeId} {g : Graph}
    {w : Workspace (List Handover)}
    (ran : Pass.run order (Edit.announced (Edit.persistent step)) ⟨g, []⟩ = .ok () w)
    : Pass.handovers order step g ⊆ w.memory
      ∧ (∀ h, Edit.pass order step g = .ok () h → h = w.graph)
      ∧ ∀ e h, Edit.pass order step g = .error e h → ∃ call ∈ w.memory,
        step call.id call.graph = .error e h := by
  obtain ⟨_, outcome⟩ := (Pass.persisting step).run
    (Pass.persisting_announced step) order ⟨g, []⟩ () w ran
  rw [Edit.pass_eq, Pass.handovers, PassM.remains]
  rcases outcome with same | ⟨e, v, failed, handovers, call, made, callFailed⟩
  · rw [same]
    exact ⟨List.Subset.refl _, fun h same => (by cases same; rfl), fun e h same => (by cases same)⟩
  · rw [failed]
    refine ⟨handovers, fun h same => (by cases same), fun cause h same => ?_⟩
    obtain ⟨rfl, rfl⟩ := EStateM.Result.error.inj same
    exact ⟨call, made, callFailed⟩

end StreamExpr
