import StreamExpr.Loop

/-! What loops come to.
A loop has an outcome exactly if it takes finitely many rounds to it. So what every round keeps up
holds of the outcome, by induction on the rounds.
-/

namespace StreamExpr

variable {ε σ τ α β γ δ : Type}

/-- A loop comes to an outcome in finitely many rounds. -/
inductive Finishes (body : Body ε σ α β) : α → σ → EStateM.Result ε σ β → Prop
  | done {a : α} {b : β} {s t : σ} (ran : body a s = .ok (.inr b) t) : Finishes body a s (.ok b t)
  | fails {a : α} {e : ε} {s t : σ} (ran : body a s = .error e t) : Finishes body a s (.error e t)
  | again {a next : α} {s t : σ} {r : EStateM.Result ε σ β} (ran : body a s = .ok (.inl next) t)
    (rest : Finishes body next t r)
    : Finishes body a s r

section Outcomes

variable {body : Body ε σ α β} {a : α} {s : σ} {r : EStateM.Result ε σ β}

/-- Loops have the outcomes that they take finitely many rounds to. Witness: every approximation of
a loop takes finitely many rounds. -/
theorem Body.repeat?_eq_some_iff : body.repeat? a s = some r ↔ Finishes body a s r := by
  constructor
  -- The fixed point has what its approximations have, and one more round keeps them sound.
  · refine Body.repeat?.partial_correctness body (Finishes body)
      (fun approximation sound a s r found => ?_) a s r
    cases ran : body a s with
    | error e t =>
        rw [ran] at found
        cases found
        exact .fails ran
    | ok outcome t =>
        rw [ran] at found
        cases outcome with
        | inl next => exact .again ran (sound next t r found)
        | inr b =>
            cases found
            exact .done ran
  · intro finishes
    induction finishes with
    | done ran => rw [Body.repeat?, ran]
    | fails ran => rw [Body.repeat?, ran]
    | again ran _ ih =>
        rw [Body.repeat?, ran]
        exact ih

/-- It makes no difference how many rounds are counted. -/
theorem Body.repeatFrom?_eq (rounds : Nat) : body.repeatFrom? rounds a s = body.repeat? a s := by
  induction rounds generalizing a s with
  | zero => rfl
  | succ rounds ih =>
      rw [Body.repeatFrom?, Body.repeat?]
      simp only [ih]

end Outcomes

section Faults

variable {body : Body Fault σ α β} {a : α} {s t : σ} {b : β}

theorem Finishes.untilDone {r : EStateM.Result Fault σ β} (finishes : Finishes body a s r)
    : untilDone body a s = r := by
  rw [StreamExpr.untilDone, Body.repeatFrom?_eq, Body.repeat?_eq_some_iff.mpr finishes]
  rfl

/-- A loop without an outcome is endless. -/
theorem untilDone_cases (body : Body Fault σ α β) (a : α) (s : σ)
    : Finishes body a s (untilDone body a s)
      ∨ untilDone body a s = .error .endless s ∧ ∀ r, ¬ Finishes body a s r := by
  cases found : body.repeat? a s with
  | some r =>
      have finishes := Body.repeat?_eq_some_iff.mp found
      exact .inl (finishes.untilDone.symm ▸ finishes)
  | none =>
      refine .inr ⟨by rw [untilDone, Body.repeatFrom?_eq, found]; rfl, fun r finishes => ?_⟩
      cases found.symm.trans (Body.repeat?_eq_some_iff.mpr finishes)

/-- A loop that is endless after a round was endless before. -/
theorem untilDone_of_endless {next : α} (ran : body a s = .ok (.inl next) t)
    (endless : ∀ r, ¬ Finishes body next t r)
    : untilDone body a s = .error .endless s := by
  refine ((untilDone_cases body a s).resolve_left fun finishes => ?_).1
  generalize untilDone body a s = r at finishes
  cases finishes with
  | done other => cases ran.symm.trans other
  | fails other => cases ran.symm.trans other
  | again other rest =>
      cases ran.symm.trans other
      exact endless _ rest

theorem finishes_of_untilDone (ran : untilDone body a s = .ok b t)
    : Finishes body a s (.ok b t) := by
  rcases untilDone_cases body a s with finishes | ⟨endless, _⟩
  · exact ran ▸ finishes
  · cases endless.symm.trans ran

/-- A loop whose body is done at once. -/
theorem untilDone_of_done (ran : body a s = .ok (.inr b) t) : untilDone body a s = .ok b t :=
  (Finishes.done ran).untilDone

/-- A loop goes on after a round if it is known to end from there. -/
theorem untilDone_of_again {next : α} {r : EStateM.Result Fault σ β}
    (ran : body a s = .ok (.inl next) t) (rest : Finishes body next t r)
    : untilDone body a s = r :=
  (Finishes.again ran rest).untilDone

end Faults

end StreamExpr
