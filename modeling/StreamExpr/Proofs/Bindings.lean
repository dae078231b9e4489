import StreamExpr.Compiler
import StreamExpr.Proofs.Calls
import StreamExpr.Proofs.Construction

/-! What a graph is bound to outside itself.
Nodes read and write streams and call functions, and all of these are known by their names alone.
Passes bind a graph to nothing new: a stream or a function that a node names after a pass was named
by some node before it, and the nodes that named one before do so still.
-/

namespace StreamExpr

variable {ε σ S α β : Type}

/-! ## Computations that stay within a relation -/

/-- A computation that ends in a later state or fails, whatever state it is started from. -/
def Evolution.Stays (E : Evolution σ S) (x : EStateM ε σ α) : Prop :=
  ∀ s, E.Runs True s x fun _ _ => True

namespace Evolution.Stays

variable {E : Evolution σ S}

theorem pure (a : α) : E.Stays (Pure.pure a : EStateM ε σ α) :=
  fun _ => .pure trivial

theorem throw (e : ε) : E.Stays (MonadExcept.throw e : EStateM ε σ α) :=
  fun _ => .throw trivial

theorem bind {x : EStateM ε σ α} {f : α → EStateM ε σ β} (first : E.Stays x)
    (next : ∀ a, E.Stays (f a))
    : E.Stays (x >>= f) :=
  fun s => .bind (first s) fun a t _ _ => next a t

end Evolution.Stays

/-- Slots and roots may be pointed anywhere. -/
structure Evolution.Pointable (E : Evolution Graph S) : Prop where
  point : ∀ s parent slot new, ∃ t, E.view t = (E.view s).setChild parent slot new ∧ E.Later s t
  redirect : ∀ s index root, ∃ t, E.view t = (E.view s).setOutput index root ∧ E.Later s t

/-- The states of a graph, beside what a transform remembers. -/
def Evolution.remembering (E : Evolution Graph S) (σ : Type) : Evolution (Workspace σ) (S × σ) where
  view s := ⟨E.view s.1, s.2⟩
  Later s t := E.Later s.1 t.1
  refl s := E.refl s.1
  trans first second := E.trans first second

theorem Evolution.remembering_modify (E : Evolution Graph S) {f : Graph → Graph} {s : S × σ} {t : S}
    (same : E.view t = f (E.view s.1)) (later : E.Later s.1 t)
    : (E.remembering σ).Runs True s (PassM.edit (modify f)) fun _ _ => True := by
  refine .of_ok (a := ()) (t := (t, s.2)) ?_ later trivial
  simp only [remembering, same]
  rfl

/-- A pass stays where its transform does. -/
def Evolution.Pointable.staying {E : Evolution Graph S} (pointable : E.Pointable) (σ : Type)
    : Pass.Likeness σ σ where
  Alike x _ := (E.remembering σ).Stays x
  pure a := .pure a
  throw e := .throw e
  read _ s := .of_ok rfl (E.refl s.1) trivial
  point parent slot new s := by
    obtain ⟨t, same, later⟩ := pointable.point s.1 parent slot new
    exact E.remembering_modify same later
  redirect index root s := by
    obtain ⟨t, same, later⟩ := pointable.redirect s.1 index root
    exact E.remembering_modify same later
  bind := .bind
  loop alike a s := .untilDone (fun _ _ => True) (fun _ _ => True) (.inl trivial)
    (fun {a s} _ => (alike a s).imp fun outcome _ _ _ => by cases outcome <;> simp) trivial

namespace Evolution

variable {E : Evolution Graph S} {step : NodeId → Edit NodeId}

theorem Stays.ofEdit (stays : ∀ id, E.Stays (step id)) (id : NodeId)
    : (E.remembering σ).Stays (Transform.ofEdit step id) := by
  intro s
  have runs := stays id s.1
  rw [Runs] at runs ⊢
  simp only [Transform.ofEdit, PassM.edit, remembering]
  cases ran : step id (E.view s.1) with
  | error e g => trivial
  | ok a g =>
      rw [ran] at runs
      obtain ⟨t, rfl, later, _⟩ := runs
      exact ⟨(t, s.2), rfl, later, trivial⟩

theorem Pointable.stays_pass (pointable : E.Pointable)
    (stays : ∀ id, E.Stays (step id)) (order : PassOrder)
    : E.Stays (Edit.pass order step) := by
  intro s
  have alike (id : NodeId) : (pointable.staying Unit).Alike (Transform.ofEdit step id)
    (Transform.ofEdit step id) := Stays.ofEdit stays id
  have runs := (pointable.staying Unit).run alike order (s, ())
  rw [Runs] at runs ⊢
  rw [Edit.pass]
  cases ran : Pass.run order (Transform.ofEdit step) ⟨E.view s, ()⟩ with
  | error e w => trivial
  | ok a w =>
      simp only [remembering, ran] at runs
      obtain ⟨t, same, later, _⟩ := runs
      exact ⟨t.1, congrArg Workspace.graph same, later, trivial⟩

theorem Stays.read (f : Graph → α) : E.Stays (Edit.read f) :=
  fun s => .of_ok rfl (E.refl s) trivial

theorem Stays.settle (stays : ∀ id, E.Stays (step id)) (id : NodeId)
    : E.Stays (Edit.settle step id) :=
  fun _ => .untilDone (fun _ _ => True) (fun _ _ => True) (.inl trivial) (fun {id s} _ =>
    .bind (stays id s) fun next _ _ _ => .pure (by split <;> simp)) trivial

end Evolution

/-! ## Bindings -/

/-- What a node refers to outside its graph. -/
inductive Binding where
  | input (decl : StreamDecl)
  | output (decl : StreamDecl)
  | call (candidates : List FunctionSig)
deriving DecidableEq

def Binding.stream? : Binding → Option StreamDecl
  | .input decl | .output decl => some decl
  | .call _ => none

namespace NodeKind

def binding? : NodeKind → Option Binding
  | .input decl => some (.input decl)
  | .output decl _ => some (.output decl)
  | .call candidates _ => some (.call candidates)
  | _ => none

theorem binding?_eq_input {kind : NodeKind} {decl : StreamDecl}
    : kind.binding? = some (.input decl) ↔ kind = .input decl := by
  cases kind <;> simp [binding?]

theorem binding?_eq_output {kind : NodeKind} {decl : StreamDecl}
    : kind.binding? = some (.output decl) ↔ ∃ expression, kind = .output decl expression := by
  cases kind <;> simp [binding?]

theorem binding?_eq_call {kind : NodeKind} {candidates : List FunctionSig}
    : kind.binding? = some (.call candidates) ↔ ∃ arguments, kind = .call candidates arguments := by
  cases kind <;> simp [binding?]

@[simp]
theorem binding?_setChild (kind : NodeKind) (slot : Nat) (child : NodeId)
    : (kind.setChild slot child).binding? = kind.binding? := by
  cases kind <;> rfl

end NodeKind

namespace Graph

variable {g h : Graph} {id : NodeId}

/-- Every node that reads or writes a stream has the type of the stream. -/
def StreamsTyped (g : Graph) : Prop :=
  ∀ {id decl}, (g.node id).kind.binding?.bind Binding.stream? = some decl
  → (g.node id).type = decl.type

/-- A graph that is bound to nothing that another one is not bound to, and to all of that. -/
structure Binds (g h : Graph) : Prop where
  origin : ∀ {id b}, (h.node id).kind.binding? = some b → ∃ source,
    (g.node source).kind.binding? = some b
  kept : ∀ {id b}, (g.node id).kind.binding? = some b → (h.node id).kind.binding? = some b
  typed : g.StreamsTyped → h.StreamsTyped
  inputs : h.inputs = g.inputs
  declared : h.declared = g.declared

theorem Binds.refl (g : Graph) : g.Binds g :=
  ⟨fun {id _} found => ⟨id, found⟩, id, id, rfl, rfl⟩

theorem Binds.trans {first second third : Graph} (left : first.Binds second)
    (right : second.Binds third)
    : first.Binds third where
  origin found := by
    obtain ⟨source, foundBefore⟩ := right.origin found
    exact left.origin foundBefore
  kept found := right.kept (left.kept found)
  typed streams := right.typed (left.typed streams)
  inputs := right.inputs.trans left.inputs
  declared := right.declared.trans left.declared

/-- A graph whose nodes have the bindings that they had, and the types that they had or that their
streams have. -/
theorem Binds.of_nodes (same : ∀ id, (h.node id).kind.binding? = (g.node id).kind.binding?)
    (types : ∀ id decl, (h.node id).kind.binding?.bind Binding.stream? = some decl →
      (h.node id).type = (g.node id).type ∨ (h.node id).type = decl.type)
    (inputs : h.inputs = g.inputs) (declared : h.declared = g.declared)
    : g.Binds h where
  origin {id _} found := ⟨id, same id ▸ found⟩
  kept {id _} found := (same id).trans found
  typed streams {id decl} found := by
    rcases types id decl found with old | new
    · rw [old]
      exact streams (same id ▸ found)
    · exact new
  inputs := inputs
  declared := declared

theorem binds_setChild (g : Graph) (parent : NodeId) (slot : Nat) (new : NodeId)
    : g.Binds (g.setChild parent slot new) := by
  refine .of_nodes (fun id => ?_) (fun id _ _ => .inl (type_setChild g parent id slot new)) rfl rfl
  rw [node_setChild]
  split
  · exact NodeKind.binding?_setChild ..
  · rfl

theorem binds_setOutput (g : Graph) (index : Nat) (root : NodeId)
    : g.Binds (g.setOutput index root) :=
  .of_nodes (fun _ => rfl) (fun _ _ _ => .inl rfl) rfl rfl

/-- A new node that refers to nothing, or to functions that some node refers to. -/
theorem binds_push {n : Node}
    (known : ∀ b, n.kind.binding? = some b → b.stream? = none ∧ ∃ source,
    (g.node source).kind.binding? = some b)
    : g.Binds (g.push n) where
  origin {id b} found := by
    rw [node_push] at found
    split at found
    · exact (known b found).2
    · exact ⟨id, found⟩
  kept {id b} found := by
    rw [node_push]
    split
    case isTrue here =>
      rw [here, node_of_size_le (Nat.le_refl _)] at found
      cases found
    case isFalse => exact found
  typed streams {id decl} found := by
    rw [node_push] at found ⊢
    split at found
    case isTrue =>
      obtain ⟨b, isBinding, isStream⟩ := Option.bind_eq_some_iff.mp found
      rw [(known b isBinding).1] at isStream
      cases isStream
    case isFalse elsewhere =>
      rw [if_neg elsewhere]
      exact streams found
  inputs := rfl
  declared := rfl

theorem binds_push_of_none {n : Node} (unbound : n.kind.binding? = none) : g.Binds (g.push n) :=
  binds_push fun b found => by
    rw [unbound] at found
    cases found

theorem binding?_deduced (g : Graph) (n : Node)
    : (g.deduced n).kind.binding? = n.kind.binding? := by
  cases kind : n.kind with
  | call candidates arguments =>
      simp only [deduced, trimArguments, kind]
      split
      next same _ =>
        cases same
        rfl
      · rfl
  | _ => simp only [deduced, trimArguments, kind]

theorem type_deduced_stream (g : Graph) {n : Node} {decl : StreamDecl}
    (stream : n.kind.binding?.bind Binding.stream? = some decl)
    : (g.deduced n).type = decl.type := by
  cases kind : n.kind with
  | input own =>
      rw [kind] at stream
      cases stream
      simp only [deduced, infer, kind]
  | output own expression =>
      rw [kind] at stream
      cases stream
      simp only [deduced, infer, kind]
  | _ =>
      rw [kind] at stream
      cases stream

theorem binds_pushDeduced {kind : NodeKind}
    (known : ∀ b, kind.binding? = some b → b.stream? = none ∧ ∃ source,
    (g.node source).kind.binding? = some b)
    : g.Binds (g.pushDeduced kind) :=
  binds_push fun b found => known b ((binding?_deduced g _).symm.trans found)

theorem binds_pushDeduced_of_none {kind : NodeKind} (unbound : kind.binding? = none)
    : g.Binds (g.pushDeduced kind) :=
  binds_push_of_none ((binding?_deduced g _).trans unbound)

theorem binds_deduce (g : Graph) (id : NodeId) : g.Binds (g.deduce id) := by
  by_cases inside : id < g.size
  · have node (other : NodeId)
        : (g.deduce id).node other = if other = id then g.deduced (g.node id) else g.node other :=
      node_replace g _ inside other
    refine .of_nodes (fun other => ?_) (fun other decl found => ?_) rfl rfl
    · rw [node]
      split
      case isTrue here =>
        rw [here, binding?_deduced]
      case isFalse => rfl
    · rw [node] at found ⊢
      split at found
      case isTrue here =>
        rw [if_pos here]
        rw [binding?_deduced] at found
        exact .inr (type_deduced_stream g found)
      case isFalse elsewhere =>
        rw [if_neg elsewhere]
        exact .inl rfl
  · have same : g.deduce id = g := by
      simp only [deduce, replace, Array.setIfInBounds_eq_of_size_le (Nat.le_of_not_lt inside)]
    rw [same]
    exact .refl g

theorem binds_component (g : Graph) (id : NodeId) (c : Nat) : g.Binds (g.component id c).2 := by
  rw [component]
  split
  · split
    · exact .refl g
    · exact (binds_pushDeduced_of_none rfl).trans
        (.of_nodes (fun _ => rfl) (fun _ _ _ => .inl rfl) rfl rfl)
  · exact .refl g

end Graph

end StreamExpr
