import Mathlib.Data.List.Forall2
import Mathlib.Data.Prod.Lex
import StreamExpr.Pass
import StreamExpr.Proofs.Graph
import StreamExpr.Proofs.Loop

/-! Computations on states that carry facts.
A computation leads from a state to a later one. What it comes to is told state by state, and a loop
comes to an end where each round leads nearer to it.
-/

namespace StreamExpr

variable {ε σ S α β : Type}

instance decidableExistsOk (x : EStateM ε σ Unit) (s : σ) (P : σ → Prop) [DecidablePred P]
    : Decidable (∃ t, x s = .ok () t ∧ P t) :=
  match ran : x s with
  | .ok () t =>
      decidable_of_iff (P t)
        ⟨fun holds => ⟨t, rfl, holds⟩, fun ⟨other, again, holds⟩ => by cases again; exact holds⟩
  | .error e t => isFalse fun ⟨other, again, _⟩ => by cases again


/-- What is allowed whatever the failure. -/
instance everyFailure : Coe Prop (ε → Prop) :=
  ⟨fun allowed _ => allowed⟩

/-- States that carry facts about what a computation works on, and how they may follow each
other. -/
structure Evolution (σ S : Type) where
  view : S → σ
  Later : S → S → Prop
  refl : ∀ s, Later s s
  trans : ∀ {s t u}, Later s t → Later t u → Later s u

-- Irreducible, so that nothing runs a computation to find out what it does.
/-- A computation either ends in a later state with the given property, or it fails in a way that is
allowed. -/
@[irreducible]
def Evolution.Runs (E : Evolution σ S) (fails : ε → Prop) (s : S) (x : EStateM ε σ α)
    (post : α → S → Prop) : Prop :=
  match x (E.view s) with
  | .ok a w => ∃ t, E.view t = w ∧ E.Later s t ∧ post a t
  | .error e _ => fails e

namespace Evolution.Runs

variable {E : Evolution σ S} {fails : ε → Prop} {s : S} {post : α → S → Prop}

theorem of_ok {x : EStateM ε σ α} {a : α} {t : S} (ran : x (E.view s) = .ok a (E.view t))
    (later : E.Later s t) (holds : post a t)
    : E.Runs fails s x post := by
  rw [Runs, ran]
  exact ⟨t, rfl, later, holds⟩

theorem of_error {x : EStateM ε σ α} {e : ε} {w : σ}
    (failed : x (E.view s) = .error e w) (allowed : fails e)
    : E.Runs fails s x post := by
  rw [Runs, failed]
  exact allowed

/-- Computations that do the same run alike. -/
theorem congr {x y : EStateM ε σ α} (same : x (E.view s) = y (E.view s))
    (runs : E.Runs fails s y post)
    : E.Runs fails s x post := by
  rw [Runs] at runs ⊢
  rwa [same]

theorem pure {a : α} (holds : post a s)
    : E.Runs fails s (Pure.pure a : EStateM ε σ α) post :=
  of_ok rfl (E.refl s) holds

theorem throw {e : ε} (allowed : fails e)
    : E.Runs fails s (MonadExcept.throw e : EStateM ε σ α) post :=
  of_error rfl allowed

theorem bind {x : EStateM ε σ α} {f : α → EStateM ε σ β} {between : α → S → Prop}
    {post : β → S → Prop} (first : E.Runs fails s x between)
    (next : ∀ a t, E.Later s t → between a t → E.Runs fails t (f a) post)
    : E.Runs fails s (x >>= f) post := by
  rw [Runs] at first ⊢
  cases ran : x (E.view s) with
  | error e w =>
      rw [ran] at first
      simpa only [Bind.bind, EStateM.bind, ran] using first
  | ok a w =>
      rw [ran] at first
      obtain ⟨t, rfl, later, holds⟩ := first
      have second := next a t later holds
      rw [Runs] at second
      simp only [Bind.bind, EStateM.bind, ran]
      cases ranOn : f a (E.view t) with
      | error e w => simpa only [ranOn] using second
      | ok b w =>
          rw [ranOn] at second
          obtain ⟨u, same, laterOn, holdsOn⟩ := second
          exact ⟨u, same, E.trans later laterOn, holdsOn⟩

theorem bind_ok {x : EStateM ε σ α} {f : α → EStateM ε σ β} {a : α} {t : S} {post : β → S → Prop}
    (ran : x (E.view s) = .ok a (E.view t)) (later : E.Later s t) (next : E.Runs fails t (f a) post)
    : E.Runs fails s (x >>= f) post := by
  have first : E.Runs fails s x fun b u => b = a ∧ u = t := of_ok ran later ⟨rfl, rfl⟩
  refine first.bind ?_
  rintro _ _ _ ⟨rfl, rfl⟩
  exact next

/-- States that carry other facts may be put in place of those that are seen alike. -/
theorem lift {U : Type} {F : Evolution σ U} {u : U} {x : EStateM ε σ α} {more : α → U → Prop}
    (runs : E.Runs fails s x post) (view : F.view u = E.view s)
    (build : ∀ a t, E.Later s t → post a t → ∃ w, F.view w = E.view t ∧ F.Later u w ∧ more a w)
    : F.Runs fails u x more := by
  rw [Runs] at runs ⊢
  rw [view]
  cases ran : x (E.view s) with
  | error e v => simpa only [ran] using runs
  | ok a v =>
      rw [ran] at runs
      obtain ⟨t, same, later, holds⟩ := runs
      obtain ⟨w, alike, laterW, extra⟩ := build a t later holds
      exact ⟨w, alike.trans same, laterW, extra⟩

theorem imp {x : EStateM ε σ α} {more : α → S → Prop} (runs : E.Runs fails s x post)
    (implied : ∀ a t, E.Later s t → post a t → more a t)
    : E.Runs fails s x more :=
  runs.lift rfl fun a t later holds => ⟨t, rfl, later, implied a t later holds⟩

/-- More failures may be allowed. -/
theorem allow {more : ε → Prop} {x : EStateM ε σ α} (runs : E.Runs fails s x post)
    (allowed : ∀ e, fails e → more e)
    : E.Runs more s x post := by
  rw [Runs] at runs ⊢
  cases ran : x (E.view s) with
  | error e w => exact allowed e (by simpa only [ran] using runs)
  | ok a w => simpa only [ran] using runs

theorem state_of_ok {x : EStateM ε σ α} {a : α} {w : σ} (runs : E.Runs fails s x post)
    (ran : x (E.view s) = .ok a w)
    : ∃ t, E.view t = w ∧ E.Later s t ∧ post a t := by
  rwa [Runs, ran] at runs

/-- A computation that cannot fail ends. -/
theorem exists_ok {x : EStateM ε σ α} (runs : E.Runs False s x post)
    : ∃ a t, x (E.view s) = .ok a (E.view t) ∧ E.Later s t ∧ post a t := by
  rw [Runs] at runs
  cases ran : x (E.view s) with
  | error e w =>
      rw [ran] at runs
      exact runs.elim
  | ok a w =>
      rw [ran] at runs
      obtain ⟨t, rfl, later, holds⟩ := runs
      exact ⟨a, t, rfl, later, holds⟩

theorem fails_of_error {x : EStateM ε σ α} {e : ε} {w : σ} (runs : E.Runs fails s x post)
    (ran : x (E.view s) = .error e w)
    : fails e := by
  rwa [Runs, ran] at runs

/-- A computation does what another one does from a later state. -/
theorem follow {x y : EStateM ε σ α} {t : S} (runs : E.Runs fails t y post) (later : E.Later s t)
    (same : x (E.view s) = y (E.view t))
    : E.Runs fails s x post := by
  cases ran : y (E.view t) with
  | error e w => exact .of_error (same.trans ran) (runs.fails_of_error ran)
  | ok a w =>
      obtain ⟨u, rfl, laterOn, holds⟩ := runs.state_of_ok ran
      exact .of_ok (t := u) (same.trans ran) (E.trans later laterOn) holds

section Loops

variable {fails : Fault → Prop} {body : Body Fault σ α β} {post : β → S → Prop} {a : α}

/-- A loop runs if its first round does and what is left of it does. -/
theorem again
    (first : E.Runs fails s (body a) fun outcome t =>
      match outcome with
      | .inl next => E.Runs fails t (StreamExpr.untilDone body next) post
      | .inr b => post b t)
    : E.Runs fails s (StreamExpr.untilDone body a) post := by
  cases ran : body a (E.view s) with
  | error e w => exact .of_error (Finishes.fails ran).untilDone (first.fails_of_error ran)
  | ok outcome w =>
      obtain ⟨t, rfl, later, holds⟩ := first.state_of_ok ran
      cases outcome with
      | inr b => exact .of_ok (t := t) (untilDone_of_done ran) later holds
      | inl next =>
          rcases untilDone_cases body next (E.view t) with finishes | ⟨same, endless⟩
          · exact holds.follow later (untilDone_of_again ran finishes)
          · exact .of_error (untilDone_of_endless ran endless) (holds.fails_of_error same)

/-- A loop runs if every round keeps up what its next one needs. Each round brings the loop nearer
to its end, which it reaches unless it is allowed to be endless. -/
theorem untilDone (Holds : α → S → Prop) (Nearer : α × S → α × S → Prop)
    (ends : fails .endless ∨ WellFounded Nearer)
    (round : ∀ {a t}, Holds a t → E.Runs fails t (body a) fun outcome u =>
      match outcome with
      | .inl next => Holds next u ∧ Nearer (next, u) (a, t)
      | .inr b => post b u)
    (holds : Holds a s)
    : E.Runs fails s (StreamExpr.untilDone body a) post := by
  rcases ends with allowed | wellFounded
  -- If the loop may be endless, it suffices to follow the rounds of one that is not.
  · rcases untilDone_cases body a (E.view s) with finishes | ⟨endless, _⟩
    · generalize StreamExpr.untilDone body a (E.view s) = r at finishes
      generalize start : E.view s = w at finishes
      induction finishes generalizing s with
      | done ran =>
          subst start
          obtain ⟨t, rfl, later, last⟩ := (round holds).state_of_ok ran
          exact .of_ok (t := t) (untilDone_of_done ran) later last
      | fails ran =>
          subst start
          exact .of_error (Finishes.fails ran).untilDone ((round holds).fails_of_error ran)
      | again ran rest ih =>
          subst start
          obtain ⟨t, rfl, later, next, _⟩ := (round holds).state_of_ok ran
          exact (ih next rfl).follow later ((untilDone_of_again ran rest).trans rest.untilDone.symm)
    · exact .of_error endless allowed
  -- Otherwise its rounds are not known beforehand, and the order they descend in has to end it.
  · generalize start : (a, s) = p
    induction p using wellFounded.induction generalizing a s with
    | _ p ih =>
        subst start
        refine .again ((round holds).imp fun outcome t _ kept => ?_)
        cases outcome with
        | inr b => exact kept
        | inl next => exact ih _ kept.2 kept.1 rfl

end Loops

end Evolution.Runs

/-- The same states, in which the graph grows only if less is left to be done. -/
def Evolution.declining {σ S : Type} (E : Evolution σ S) (left : S → ℕ ×ₗ ℕ) (size : S → Nat)
    : Evolution σ S where
  view := E.view
  Later s t := E.Later s t ∧ toLex (left t, size t) ≤ toLex (left s, size s)
  refl s := ⟨E.refl s, le_refl _⟩
  trans first second := ⟨E.trans first.1 second.1, second.2.trans first.2⟩

/-! ## Steps that are repeated until they settle -/

theorem Edit.attempt_of_ok {step : NodeId → Edit NodeId} {id next : NodeId} {g h : Graph}
    (ran : step id g = .ok next h)
    : Edit.attempt step id g = .ok (if next = id then .inr id else .inl next) h := by
  simp only [Edit.attempt, bind, EStateM.bind, ran]
  rfl

theorem Edit.attempt_of_error {step : NodeId → Edit NodeId} {id : NodeId} {g h : Graph} {e : Fault}
    (ran : step id g = .error e h)
    : Edit.attempt step id g = .error e h := by
  simp only [Edit.attempt, bind, EStateM.bind, ran]

/-- A node that a step answers with itself is settled. -/
theorem Edit.settle_of_fixed {step : NodeId → Edit NodeId} {id : NodeId} {g : Graph}
    (fixed : step id g = .ok id g)
    : Edit.settle step id g = .ok id g :=
  untilDone_of_done ((Edit.attempt_of_ok fixed).trans (by rw [if_pos rfl]))

/-- How a step leads from node to node. It may move to a node of less weight any number of times,
and it ends with the node it was given or with one that is settled. -/
structure Evolution.Settling (E : Evolution Graph S) where
  Live : S → NodeId → Prop
  weight : S → NodeId → Nat
  Moves : S → NodeId → NodeId → S → Prop
  Ends : S → NodeId → NodeId → S → Prop
  ends_of_moves : ∀ {s t u first second third}, Moves s first second t → E.Later t u →
    Ends t second third u → Ends s first third u

/-- What a step comes to. -/
inductive Evolution.Settling.Advances {E : Evolution Graph S} (L : E.Settling)
    (step : NodeId → Edit NodeId) (s : S) (id : NodeId)
    : NodeId → S → Prop
  | stays (ends : L.Ends s id id s) : Advances L step s id id s
  | moves {new : NodeId} {t : S} (moves : L.Moves s id new t) (live : L.Live t new)
    (differs : new ≠ id) (lighter : L.weight t new < L.weight s id)
    : Advances L step s id new t
  | settles {new : NodeId} {t : S} (ends : L.Ends s id new t)
    (fixed : step new (E.view t) = .ok new (E.view t))
    : Advances L step s id new t

/-- A step that moves to less weight settles. -/
theorem Evolution.Settling.runs_settle {E : Evolution Graph S} (L : E.Settling)
    {step : NodeId → Edit NodeId} {fails : Fault → Prop}
    (advances : ∀ {s id}, L.Live s id → E.Runs fails s (step id) (L.Advances step s id)) {s : S}
    {id : NodeId} (isLive : L.Live s id)
    : E.Runs fails s (Edit.settle step id) (L.Ends s id) := by
  generalize size : L.weight s id = weight
  induction weight using Nat.strong_induction_on generalizing s id with
  | h weight ih =>
      refine .again (.bind (advances isLive) fun next t later outcome => .pure ?_)
      cases outcome with
      | stays ends =>
          rw [if_pos rfl]
          exact ends
      | moves moves nextLive differs lighter =>
          rw [if_neg differs]
          exact (ih _ (size ▸ lighter) nextLive rfl).imp fun new u later ends =>
            L.ends_of_moves moves later ends
      | settles ends fixed =>
          by_cases same : next = id
          · subst same
            rw [if_pos rfl]
            exact ends
          · rw [if_neg same]
            exact .of_ok (t := t) (Edit.settle_of_fixed fixed) (E.refl t) ends

end StreamExpr
