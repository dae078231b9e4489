import StreamExpr.Proofs.Loop

/-! Computations that do the same on what is seen of their states. -/

namespace StreamExpr

variable {ε σ τ α β γ κ : Type}

-- Irreducible, so that nothing runs a computation to find out what it does.
/-- A computation does what another one does on the part of its state that is seen. If it ends, then
so does the other one, and what both answer is related. If it fails, then so does the other one, for
the same cause. -/
@[irreducible]
def Mirrors (see : τ → σ) (t : τ) (y : EStateM ε τ β) (x : EStateM ε σ α) (post : β → τ → α → Prop)
    : Prop :=
  match y t with
  | .ok b u => ∃ a, x (see t) = .ok a (see u) ∧ post b u a
  | .error e u => x (see t) = .error e (see u)

namespace Mirrors

variable {see : τ → σ} {t : τ} {y : EStateM ε τ β} {x : EStateM ε σ α} {post : β → τ → α → Prop}

theorem of_ok {a : α} {b : β} {u : τ} (ran : y t = .ok b u)
    (same : x (see t) = .ok a (see u)) (holds : post b u a)
    : Mirrors see t y x post := by
  rw [Mirrors, ran]
  exact ⟨a, same, holds⟩

theorem of_error {e : ε} {u : τ} (failed : y t = .error e u) (same : x (see t) = .error e (see u))
    : Mirrors see t y x post := by
  rw [Mirrors, failed]
  exact same

theorem pure {a : α} {b : β} (holds : post b t a)
    : Mirrors see t (Pure.pure b : EStateM ε τ β) (Pure.pure a) post :=
  of_ok rfl rfl holds

theorem throw (e : ε)
    : Mirrors see t (MonadExcept.throw e : EStateM ε τ β)
      (MonadExcept.throw e : EStateM ε σ α) post :=
  of_error rfl rfl

theorem bind {f : β → EStateM ε τ κ} {g : α → EStateM ε σ γ} {after : κ → τ → γ → Prop}
    (first : Mirrors see t y x post) (next : ∀ b u a, post b u a → Mirrors see u (f b) (g a) after)
    : Mirrors see t (y >>= f) (x >>= g) after := by
  rw [Mirrors] at first
  cases ran : y t with
  | error e u =>
      rw [ran] at first
      refine of_error (e := e) (u := u) ?_ ?_
      · simp only [Bind.bind, EStateM.bind, ran]
      · simp only [Bind.bind, EStateM.bind, first]
  | ok b u =>
      rw [ran] at first
      obtain ⟨a, same, holds⟩ := first
      have second := next b u a holds
      rw [Mirrors] at second ⊢
      simp only [Bind.bind, EStateM.bind, ran, same]
      exact second

theorem throw_bind (e : ε) {f : β → EStateM ε τ κ} {g : α → EStateM ε σ γ}
    {after : κ → τ → γ → Prop}
    : Mirrors see t (MonadExcept.throw e >>= f) (MonadExcept.throw e >>= g) after :=
  of_error rfl rfl

/-- A first step that only the other computation takes, and that only looks. -/
theorem look {g : α → EStateM ε σ γ} {a : α} {after : β → τ → γ → Prop}
    (found : x (see t) = .ok a (see t)) (next : Mirrors see t y (g a) after)
    : Mirrors see t y (x >>= g) after := by
  rw [Mirrors] at next ⊢
  simp only [Bind.bind, EStateM.bind, found]
  exact next

/-- A first step that nothing is seen of. -/
theorem silent {f : β → EStateM ε τ κ} {b : β} {u : τ} {after : κ → τ → α → Prop}
    (ran : y t = .ok b u) (unseen : see u = see t) (next : Mirrors see u (f b) x after)
    : Mirrors see t (y >>= f) x after := by
  rw [Mirrors] at next ⊢
  simp only [Bind.bind, EStateM.bind, ran]
  rwa [unseen] at next

theorem imp {weaker : β → τ → α → Prop} (mirrors : Mirrors see t y x post)
    (implied : ∀ b u a, post b u a → weaker b u a)
    : Mirrors see t y x weaker := by
  rw [Mirrors] at mirrors ⊢
  cases ran : y t with
  | error e u =>
      rw [ran] at mirrors
      exact mirrors
  | ok b u =>
      rw [ran] at mirrors
      obtain ⟨a, same, holds⟩ := mirrors
      exact ⟨a, same, implied b u a holds⟩

theorem of_eq_ok {b : β} {u : τ} (mirrors : Mirrors see t y x post) (ran : y t = .ok b u)
    : ∃ a, x (see t) = .ok a (see u) ∧ post b u a := by
  rwa [Mirrors, ran] at mirrors

theorem of_eq_error {e : ε} {u : τ} (mirrors : Mirrors see t y x post) (failed : y t = .error e u)
    : x (see t) = .error e (see u) := by
  rwa [Mirrors, failed] at mirrors

/-! ## Loops -/

section Loops

variable {body : Body Fault τ β κ} {other : Body Fault σ α γ} {after : κ → τ → γ → Prop}
  {Like : β → τ → α → Prop} {b : β} {a : α}
  (round : ∀ {b t a}, Like b t a → Mirrors see t (body b) (other a) fun outcome u seen =>
    Sum.LiftRel (Like · u ·) (after · u ·) outcome seen)

include round

/-- Where a loop ends the other one does, with an outcome that is related. -/
theorem finishes {r : EStateM.Result Fault τ κ}
    (finishes : Finishes body b t r) (alike : Like b t a)
    : (∃ k u c, r = .ok k u ∧ Finishes other a (see t) (.ok c (see u)) ∧ after k u c)
      ∨ ∃ e u, r = .error e u ∧ Finishes other a (see t) (.error e (see u)) := by
  induction finishes generalizing a with
  | done ran =>
      obtain ⟨_, same, _ | last⟩ := (round alike).of_eq_ok ran
      exact .inl ⟨_, _, _, rfl, .done same, last⟩
  | fails ran => exact .inr ⟨_, _, rfl, .fails ((round alike).of_eq_error ran)⟩
  | again ran _ ih =>
      obtain ⟨_, same, ⟨alike⟩⟩ := (round alike).of_eq_ok ran
      rcases ih alike with ⟨k, u, c, isOk, rest, last⟩ | ⟨e, u, isError, rest⟩
      · exact .inl ⟨k, u, c, isOk, .again same rest, last⟩
      · exact .inr ⟨e, u, isError, .again same rest⟩

/-- A loop ends with its next round, or both loops go on. -/
theorem finishes_or_moves (alike : Like b t a)
    : (∃ r, Finishes body b t r)
      ∨ ∃ next u seen,
          body b t = .ok (.inl next) u ∧ other a (see t) = .ok (.inl seen) (see u)
            ∧ Like next u seen := by
  cases ran : body b t with
  | error e u => exact .inl ⟨_, .fails ran⟩
  | ok outcome u =>
      cases outcome with
      | inr k => exact .inl ⟨_, .done ran⟩
      | inl next =>
          obtain ⟨_, same, ⟨alike⟩⟩ := (round alike).of_eq_ok ran
          exact .inr ⟨next, u, _, rfl, same, alike⟩

theorem finishes_of_seen {s : σ} {r : EStateM.Result Fault σ γ} (finishes : Finishes other a s r)
    (alike : Like b t a) (start : see t = s)
    : ∃ r, Finishes body b t r := by
  induction finishes generalizing b t with
  | done ran | fails ran =>
      subst start
      refine (finishes_or_moves round alike).resolve_right fun ⟨next, u, seen, _, same, _⟩ => ?_
      cases same.symm.trans ran
  | again ran _ ih =>
      subst start
      rcases finishes_or_moves round alike with ends | ⟨next, u, seen, moves, same, alike⟩
      · exact ends
      · cases same.symm.trans ran
        obtain ⟨r, rest⟩ := ih alike rfl
        exact ⟨r, .again moves rest⟩

variable (Like) in
/-- Loops mirror each other if their rounds do. -/
theorem untilDone (alike : Like b t a)
    : Mirrors see t (StreamExpr.untilDone body b) (StreamExpr.untilDone other a) after := by
  rcases untilDone_cases body b t with ends | ⟨endless, never⟩
  · rcases finishes round ends alike with ⟨k, u, c, isOk, rest, last⟩ | ⟨e, u, isError, rest⟩
    · exact .of_ok isOk rest.untilDone last
    · exact .of_error isError rest.untilDone
  · refine .of_error endless ((untilDone_cases other a (see t)).resolve_left fun ends => ?_).1
    obtain ⟨r, ends⟩ := finishes_of_seen round ends alike rfl
    exact never r ends

end Loops

end Mirrors

end StreamExpr
