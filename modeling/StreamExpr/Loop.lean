import StreamExpr.CompileError

/-! Loops that nothing bounds.
A loop repeats a body on its own answers until the body is done or fails. Whether that happens is
not known beforehand, and a loop that goes on forever has no outcome.
-/

namespace StreamExpr

variable {ε σ α β : Type}

/-- One round of a loop. A body that is not done answers what to go on with. -/
abbrev Body (ε σ α β : Type) : Type :=
  α → EStateM ε σ (α ⊕ β)

namespace Body

/-- Repeat a body until it is done or fails. -/
def repeat? (body : Body ε σ α β) (a : α) (s : σ) : Option (EStateM.Result ε σ β) :=
  match body a s with
  | .ok (.inl next) s => body |>.repeat? next s
  | .ok (.inr b) s => some (.ok b s)
  | .error e s => some (.error e s)
partial_fixpoint

/-- Repeat a body likewise, with the first rounds counted. A loop of fewer rounds can be evaluated
round by round, and one of more rounds goes on without a count. -/
def repeatFrom? (body : Body ε σ α β) : Nat → α → σ → Option (EStateM.Result ε σ β)
  | 0, a, s => body.repeat? a s
  | rounds + 1, a, s =>
      match body a s with
      | .ok (.inl next) s => body.repeatFrom? rounds next s
      | .ok (.inr b) s => some (.ok b s)
      | .error e s => some (.error e s)

end Body

/-- Repeat a body until it is done or fails. -/
def untilDone (body : Body Fault σ α β) (a : α) : EStateM Fault σ β := fun s =>
  (body.repeatFrom? 1024 a s).getD (.error .endless s)

end StreamExpr
