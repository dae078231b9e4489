import StreamExpr.Proofs.Mirrors
import StreamExpr.Proofs.Pass
import StreamExpr.Proofs.TidyGraph

/-! The calls that a pass makes.
A transform can be run with a record of its calls, which changes nothing else. From the record one
can tell which operands every node had at first: those in the graph that the pass started from, or
those that it was added with.
-/

namespace StreamExpr

variable {σ τ α β : Type}

/-- A call of a transform, with the graph as it was found and as it was left. -/
structure Call where
  before : Graph
  id : NodeId
  answer : NodeId
  after : Graph

/-- A transform that also records its calls, the last first. -/
def Transform.recorded (transform : Transform σ) : Transform (σ × List Call) :=
  fun id ⟨graph, memory, calls⟩ =>
    match transform id ⟨graph, memory⟩ with
    | .ok answer ⟨after, memory⟩ => .ok answer ⟨after, memory, ⟨graph, id, answer, after⟩ :: calls⟩
    | .error e ⟨after, memory⟩ => .error e ⟨after, memory, calls⟩

/-- The calls made so far, the last first. -/
def Workspace.calls (w : Workspace (σ × List Call)) : List Call :=
  w.memory.2

/-! ## Passes that run alike -/

namespace Pass

/-- A relation between computations that is kept by all that a pass does between two calls. -/
structure Likeness (σ τ : Type) where
  Alike : {α : Type} → PassM σ α → PassM τ α → Prop
  pure : ∀ {α : Type} (a : α), Alike (Pure.pure a) (Pure.pure a)
  throw : ∀ {α : Type} (e : Fault),
    Alike (MonadExcept.throw e : PassM σ α) (MonadExcept.throw e : PassM τ α)
  read : ∀ {α : Type} (f : Graph → α), Alike (PassM.read f) (PassM.read f)
  point : ∀ parent slot new,
    Alike (PassM.edit (modify (·.setChild parent slot new)))
    (PassM.edit (modify (·.setChild parent slot new)))
  redirect : ∀ index root,
    Alike (PassM.edit (modify (·.setOutput index root)))
    (PassM.edit (modify (·.setOutput index root)))
  bind : ∀ {α β : Type} {x : PassM σ α} {f : α → PassM σ β} {y : PassM τ α} {h : α → PassM τ β},
    Alike x y → (∀ a, Alike (f a) (h a)) → Alike (x >>= f) (y >>= h)
  loop : ∀ {α β : Type} {body : α → PassM σ (α ⊕ β)} {other : α → PassM τ (α ⊕ β)},
    (∀ a, Alike (body a) (other a)) → ∀ a, Alike (untilDone body a) (untilDone other a)

namespace Likeness

variable {τ : Type} (L : Likeness σ τ) {transform : Transform σ} {other : Transform τ}

theorem pointSlot (parent : NodeId) (slot : Nat) (old new : NodeId)
    : L.Alike (Pass.pointSlot parent slot old new) (Pass.pointSlot parent slot old new) := by
  unfold Pass.pointSlot
  split
  · exact L.pure ()
  · exact L.point _ _ _

variable (calls : ∀ id, L.Alike (transform id) (other id))

include calls

theorem transformRoot (root : NodeId)
    : L.Alike (Pass.transformRoot transform root) (Pass.transformRoot other root) := by
  refine L.bind (L.read _) fun old => ?_
  cases old.kind with
  | output decl expression =>
      refine L.bind (calls root) fun new => L.bind (L.read _) fun isOutput => ?_
      split
      · exact L.bind (L.read _) fun _ => L.bind (L.throw _) fun _ => L.pure new
      · exact L.pure new
  | _ => exact L.throw _

theorem resolve (memo : Memo) (id : NodeId)
    : L.Alike (Pass.resolve transform memo id) (Pass.resolve other memo id) := by
  unfold Pass.resolve
  cases memo[id]? with
  | some done => exact L.pure _
  | none => exact L.bind (calls id) fun _ => L.pure _

theorem descend (parent : NodeId) (slots : List Nat) (f : Frontier)
    : L.Alike (Pass.descend transform parent slots f) (Pass.descend other parent slots f) := by
  induction slots generalizing f with
  | nil => exact L.pure f
  | cons slot slots ih =>
      refine L.bind (L.read _) fun children => ?_
      cases children[slot]? with
      | none => exact ih f
      | some child =>
          exact L.bind (L.resolve calls f.memo child) fun _ =>
            L.bind (L.pointSlot _ _ _ _) fun _ => ih _

theorem visit (f : Frontier)
    : L.Alike (Pass.visit transform f) (Pass.visit other f) := by
  unfold Pass.visit
  cases f.pending with
  | nil => exact L.pure _
  | cons parent pending =>
      exact L.bind (L.read _) fun _ => L.bind (L.descend calls parent _ _) fun _ => L.pure _

theorem drain (f : Frontier)
    : L.Alike (Pass.drain transform f) (Pass.drain other f) :=
  L.loop (L.visit calls) f

theorem preOrderRoots (roots : List (Nat × NodeId)) (f : Frontier)
    : L.Alike (Pass.preOrderRoots transform roots f) (Pass.preOrderRoots other roots f) := by
  induction roots generalizing f with
  | nil => exact L.pure ()
  | cons root roots ih =>
      exact L.bind (L.transformRoot calls root.2) fun _ => L.bind (L.redirect _ _) fun _ =>
        L.bind (L.drain calls _) fun next => ih next

theorem replaceSlots (parent : NodeId) (slots : List Nat) (memo : Memo)
    : L.Alike (Pass.replaceSlots transform parent slots memo)
        (Pass.replaceSlots other parent slots memo) := by
  induction slots generalizing memo with
  | nil => exact L.pure memo
  | cons slot slots ih =>
      refine L.bind (L.read _) fun children => ?_
      cases children[slot]? with
      | none => exact ih memo
      | some child =>
          simp only
          cases memo[child]? with
          | some done => exact L.bind (L.pointSlot _ _ _ _) fun _ => ih memo
          | none => exact L.bind (calls child) fun _ => L.bind (L.pointSlot _ _ _ _) fun _ => ih _

theorem replaceAll (nodes : List NodeId) (memo : Memo)
    : L.Alike (Pass.replaceAll transform nodes memo) (Pass.replaceAll other nodes memo) := by
  induction nodes generalizing memo with
  | nil => exact L.pure ()
  | cons parent rest ih =>
      exact L.bind (L.read _) fun _ =>
        L.bind (L.replaceSlots calls parent _ memo) fun next => ih next

theorem postOrderRoots (roots : List (Nat × NodeId))
    : L.Alike (Pass.postOrderRoots transform roots) (Pass.postOrderRoots other roots) := by
  induction roots with
  | nil => exact L.pure ()
  | cons root roots ih =>
      exact L.bind (L.transformRoot calls root.2) fun _ => L.bind (L.redirect _ _) fun _ => ih

/-- Passes are alike if their transforms are. -/
theorem run (order : PassOrder)
    : L.Alike (Pass.run order transform) (Pass.run order other) := by
  cases order with
  | preOrder =>
      refine L.bind (L.read _) fun roots => ?_
      have goesOn := L.preOrderRoots calls (roots.zipIdx.map Prod.swap)
        { memo := {}, met := {}, pending := [] }
      simp only
      split
      · exact L.bind (L.throw _) fun _ => goesOn
      · exact goesOn
  | postOrder =>
      refine L.bind (L.read _) fun roots => ?_
      have goesOn := L.bind (L.read fun g => g.postOrder g.children roots) fun nodes =>
        L.bind (L.replaceAll calls nodes {}) fun _ =>
        L.postOrderRoots calls (roots.zipIdx.map Prod.swap)
      simp only
      split
      · exact L.bind (L.throw _) fun _ => goesOn
      · exact goesOn

end Likeness

end Pass

theorem PassM.edit_eq_ok {e : Edit α} {w v : Workspace σ} {a : α} (ran : PassM.edit e w = .ok a v)
    : e w.graph = .ok a v.graph ∧ v.memory = w.memory := by
  simp only [PassM.edit] at ran
  cases edited : e w.graph with
  | error e after =>
      rw [edited] at ran
      cases ran
  | ok b after =>
      rw [edited] at ran
      cases ran
      exact ⟨rfl, rfl⟩

theorem PassM.calls_edit {e : Edit α} {w v : Workspace (σ × List Call)} {a : α}
    (ran : PassM.edit e w = .ok a v)
    : v.calls = w.calls :=
  congrArg Prod.snd (PassM.edit_eq_ok ran).2

/-- A workspace with less memory. -/
def Workspace.forget (keep : τ → σ) (w : Workspace τ) : Workspace σ :=
  ⟨w.graph, keep w.memory⟩

/-- What a computation does with some memory another does with less. -/
def Pass.forgetting (keep : τ → σ) : Pass.Likeness σ τ where
  Alike x y := ∀ w, Mirrors (Workspace.forget keep) w y x fun b _ a => a = b
  pure _ _ := .pure rfl
  throw e _ := .throw e
  read _ _ := .of_ok rfl rfl rfl
  point _ _ _ _ := .of_ok rfl rfl rfl
  redirect _ _ _ := .of_ok rfl rfl rfl
  bind first next w := (first w).bind fun b u a same => same ▸ next b u
  loop := by
    intro _ _ body other alike a w
    refine .untilDone (fun b _ a => a = b) (fun {b t a} same => ?_) rfl
    subst same
    refine (alike a t).imp fun outcome u seen same => ?_
    subst same
    cases seen with
    | inl _ => exact .inl rfl
    | inr _ => exact .inr rfl

theorem Pass.forgetting_recorded (transform : Transform σ) (id : NodeId)
    : (Pass.forgetting Prod.fst).Alike (transform id) (transform.recorded id) := by
  intro w
  cases ran : transform id ⟨w.graph, w.memory.1⟩ with
  | ok answer v =>
      exact .of_ok (u := ⟨v.graph, v.memory, ⟨w.graph, id, answer, v.graph⟩ :: w.memory.2⟩)
        (by simp only [Transform.recorded, ran]) ran rfl
  | error e v =>
      exact .of_error (u := ⟨v.graph, v.memory, w.memory.2⟩)
        (by simp only [Transform.recorded, ran]) ran

/-- A pass does the same whether its calls are recorded or not. -/
theorem mirrors_recorded (order : PassOrder) (transform : Transform σ)
    (w : Workspace (σ × List Call))
    : Mirrors (Workspace.forget Prod.fst) w (Pass.run order transform.recorded)
      (Pass.run order transform)
        fun _ _ _ => True :=
  ((Pass.forgetting Prod.fst).run (Pass.forgetting_recorded transform) order w).imp
    fun _ _ _ _ => trivial

/-- A pass can be run with a record of its calls. -/
theorem run_recorded {order : PassOrder} {transform : Transform σ} {g : Graph} {memory : σ}
    {w : Workspace σ} (ran : Pass.run order transform ⟨g, memory⟩ = .ok () w)
    : ∃ calls, Pass.run order transform.recorded ⟨g, memory, []⟩ = .ok ()
      ⟨w.graph, w.memory, calls⟩ := by
  have mirrors := mirrors_recorded order transform ⟨g, memory, []⟩
  cases recorded : Pass.run order transform.recorded ⟨g, memory, []⟩ with
  | error e v => cases ran.symm.trans (mirrors.of_eq_error recorded)
  | ok _ v =>
      obtain ⟨_, same, _⟩ := mirrors.of_eq_ok recorded
      cases ran.symm.trans same
      exact ⟨v.memory.2, rfl⟩

/-- The record may be left out. -/
theorem run_of_recorded {order : PassOrder} {transform : Transform σ} {g : Graph} {memory : σ}
    {w : Workspace (σ × List Call)}
    (ran : Pass.run order transform.recorded ⟨g, memory, []⟩ = .ok () w)
    : Pass.run order transform ⟨g, memory⟩ = .ok () ⟨w.graph, w.memory.1⟩ := by
  obtain ⟨_, same, _⟩ := (mirrors_recorded order transform ⟨g, memory, []⟩).of_eq_ok ran
  exact same

/-! ## Transforms that only add nodes -/

/-- A call that only adds nodes. All handles stay inside the arena. -/
structure Call.Grows (call : Call) : Prop where
  appends : call.before.Appends call.after
  enclosed : call.after.Enclosed
  answer : call.answer < call.after.size

/-- A call that only adds nodes and makes no output an operand. -/
structure Call.Appends (call : Call) : Prop extends call.Grows where
  operand : ∀ {id child}, call.before.size ≤ id → child ∈ call.after.children id →
    call.after.isOutput child = false

instance (call : Call) : Decidable call.Appends :=
  decidable_of_iff
    ((∀ id < call.before.size, call.after.node id = call.before.node id)
      ∧ call.before.size ≤ call.after.size
      ∧ call.after.outputs = call.before.outputs
      ∧ call.after.Enclosed
      ∧ call.answer < call.after.size
      ∧ ∀ id < call.after.size, call.before.size ≤ id → ∀ child ∈ call.after.children id,
          call.after.isOutput child = false)
    ⟨fun ⟨node, size, outputs, enclosed, answer, operand⟩ =>
      ⟨⟨⟨node _, size, outputs⟩, enclosed, answer⟩, fun added member =>
        operand _ (Graph.Uses.lt_size member) added _ member⟩,
    fun appends =>
      ⟨fun _ => appends.appends.node, appends.appends.size, appends.appends.outputs,
        appends.enclosed, appends.answer, fun _ _ added _ => appends.operand added⟩⟩

/-- A transform all of whose calls have a property, whatever graph and memory it is called with. -/
def Transform.Obeys (transform : Transform σ) (P : Call → Prop) : Prop :=
  ∀ w id answer v, transform id w = .ok answer v → P ⟨w.graph, id, answer, v.graph⟩

theorem Transform.Obeys.imp {transform : Transform σ} {P Q : Call → Prop}
    (obeys : transform.Obeys P) (implied : ∀ call, P call → Q call)
    : transform.Obeys Q :=
  fun w id answer v ran => implied _ (obeys w id answer v ran)

open Classical in
/-- A transform that fails where a call would not have a property. -/
noncomputable def Transform.guarded (transform : Transform σ) (P : Call → Prop) : Transform σ :=
  fun id w =>
    match transform id w with
    | .ok answer v => if P ⟨w.graph, id, answer, v.graph⟩ then .ok answer v else .error .endless v
    | .error e v => .error e v

theorem Transform.guarded_obeys (transform : Transform σ) (P : Call → Prop)
    : (transform.guarded P).Obeys P := by
  intro w id answer v ran
  rw [guarded] at ran
  split at ran
  · split at ran
    case isTrue holds =>
      cases ran
      exact holds
    case isFalse => cases ran
  · cases ran

/-- What a computation does with calls that have a property another does as well. -/
def guarding (σ : Type) (P : Call → Prop) : Pass.Likeness (σ × List Call) (σ × List Call) where
  Alike x y := ∀ w a v, x w = .ok a v →
    (∀ call ∈ w.calls, call ∈ v.calls) ∧ ((∀ call ∈ v.calls, P call) → y w = .ok a v)
  pure := by
    intro _ a w b v ran
    cases ran
    exact ⟨fun _ => id, fun _ => rfl⟩
  throw := by
    intro _ e w a v ran
    cases ran
  read _ _ _ _ ran := ⟨fun call member => (PassM.calls_edit ran).symm ▸ member, fun _ => ran⟩
  point _ _ _ _ _ _ ran := ⟨fun call member => (PassM.calls_edit ran).symm ▸ member, fun _ => ran⟩
  redirect _ _ _ _ _ ran := ⟨fun call member => (PassM.calls_edit ran).symm ▸ member, fun _ => ran⟩
  bind := by
    intro _ _ x f y h first next w b v ran
    simp only [Bind.bind, EStateM.bind] at ran ⊢
    cases ranFirst : x w with
    | error e u =>
        rw [ranFirst] at ran
        cases ran
    | ok a u =>
        rw [ranFirst] at ran
        obtain ⟨earlier, guarded⟩ := first w a u ranFirst
        obtain ⟨later, guardedNext⟩ := next a u b v ran
        refine ⟨fun call member => later call (earlier call member), fun holds => ?_⟩
        rw [guarded fun call member => holds call (later call member)]
        exact guardedNext holds
  loop := by
    intro _ _ body other alike a w b v ran
    have finishes := finishes_of_untilDone ran
    clear ran
    -- Calls are only added, so those of the first rounds are among those of the last.
    have both : (∀ call ∈ w.calls, call ∈ v.calls)
      ∧ ((∀ call ∈ v.calls, P call) → Finishes other a w (.ok b v)) := by
      generalize outcome : EStateM.Result.ok b v = r at finishes
      induction finishes with
      | done ran =>
          cases outcome
          exact (alike _ _ _ _ ran).imp_right fun guarded holds => .done (guarded holds)
      | fails ran => cases outcome
      | again ran _ ih =>
          obtain ⟨earlier, guarded⟩ := alike _ _ _ _ ran
          obtain ⟨later, rest⟩ := ih outcome
          exact ⟨fun call member => later call (earlier call member), fun holds =>
            .again (guarded fun call member => holds call (later call member)) (rest holds)⟩
    exact both.imp_right fun guarded holds => (guarded holds).untilDone

/-- A pass all of whose calls have a property runs as well with a transform that ensures it. -/
theorem run_guarded {P : Call → Prop} {order : PassOrder} {transform : Transform σ}
    {w v : Workspace (σ × List Call)} (ran : Pass.run order transform.recorded w = .ok () v)
    (holds : ∀ call ∈ v.calls, P call)
    : Pass.run order (transform.guarded P).recorded w = .ok () v := by
  have calls (id : NodeId)
      : (guarding σ P).Alike (transform.recorded id) ((transform.guarded P).recorded id) := by
    intro w a v ran
    rw [Transform.recorded] at ran ⊢
    cases called : transform id ⟨w.graph, w.memory.1⟩ with
    | error e after =>
        simp only [called] at ran
        cases ran
    | ok answer after =>
        simp only [called] at ran
        cases ran
        refine ⟨fun call => List.mem_cons_of_mem _, fun holds => ?_⟩
        have own : P ⟨w.graph, id, a, after.graph⟩ := holds _ List.mem_cons_self
        simp only [Transform.guarded, called, own, if_true]
  exact ((guarding σ P).run calls order w () v ran).2 holds

/-- The operands that a node had at first: those in the graph that a pass started from, or those
that it was added with. Calls are given the last first. -/
def firstOperands (start : Graph) : List Call → NodeId → List NodeId
  | [], id => start.children id
  | call :: earlier, id =>
      if call.before.size ≤ id then call.after.children id else firstOperands start earlier id

theorem firstOperands_of_lt {start : Graph} {call : Call} {calls : List Call} {id : NodeId}
    (before : id < call.before.size)
    : firstOperands start (call :: calls) id = firstOperands start calls id := by
  rw [firstOperands, if_neg (Nat.not_le.mpr before)]

theorem firstOperands_of_le {start : Graph} {call : Call} {calls : List Call} {id : NodeId}
    (added : call.before.size ≤ id)
    : firstOperands start (call :: calls) id = call.after.children id := by
  rw [firstOperands, if_pos added]

namespace Graph

theorem children_setChild (g : Graph) (parent : NodeId) (slot : Nat) (new id : NodeId)
    : (g.setChild parent slot new).children id
      = if id = parent then (g.children id).set slot new else g.children id := by
  simp only [children, node_setChild]
  split
  · exact Node.children_setChild _ _ _
  · rfl

theorem Appends.children {g other : Graph} (appends : g.Appends other)
    {id : NodeId} (inside : id < g.size)
    : other.children id = g.children id := by
  rw [Graph.children, Graph.children, appends.node inside]

theorem Appends.isOutput {g other : Graph} (appends : g.Appends other)
    {id : NodeId} (inside : id < g.size)
    : other.isOutput id = g.isOutput id := by
  rw [Graph.isOutput, Graph.isOutput, appends.node inside]

end Graph

/-! ## What the steps of a pass do to the record -/

/-- A computation that succeeds has the given property then. -/
def Ensures (w : Workspace σ) (x : PassM σ α) (post : α → Workspace σ → Prop) : Prop :=
  ∀ a v, x w = .ok a v → post a v

namespace Ensures

variable {w : Workspace σ} {post : α → Workspace σ → Prop}

theorem pure {a : α} (holds : post a w)
    : Ensures w (Pure.pure a) post := by
  intro b v ran
  cases ran
  exact holds

theorem throw (e : Fault)
    : Ensures w (MonadExcept.throw e) post := by
  intro a v ran
  cases ran

theorem bind {x : PassM σ α} {f : α → PassM σ β} {between : α → Workspace σ → Prop}
    {post : β → Workspace σ → Prop} (first : Ensures w x between)
    (next : ∀ a v, between a v → Ensures v (f a) post)
    : Ensures w (x >>= f) post := by
  intro b v ran
  simp only [Bind.bind, EStateM.bind] at ran
  cases ranFirst : x w with
  | error e u =>
      rw [ranFirst] at ran
      cases ran
  | ok a u =>
      rw [ranFirst] at ran
      exact next a u (first a u ranFirst) b v ran

theorem imp {x : PassM σ α} {more : α → Workspace σ → Prop} (ensures : Ensures w x post)
    (implied : ∀ a v, post a v → more a v)
    : Ensures w x more :=
  fun a v ran => implied a v (ensures a v ran)

theorem read {f : Graph → α} {next : α → PassM σ β} {post : β → Workspace σ → Prop}
    (goesOn : Ensures w (next (f w.graph)) post)
    : Ensures w (PassM.read f >>= next) post :=
  goesOn

/-- What every round of a loop keeps up holds when it is done. -/
theorem untilDone {body : α → PassM σ (α ⊕ β)} {post : β → Workspace σ → Prop}
    (Holds : α → Workspace σ → Prop)
    (round : ∀ {a w}, Holds a w → Ensures w (body a) fun outcome v =>
      match outcome with
      | .inl next => Holds next v
      | .inr b => post b v)
    {a : α} (holds : Holds a w)
    : Ensures w (StreamExpr.untilDone body a) post := by
  intro b v ran
  have finishes := finishes_of_untilDone ran
  clear ran
  generalize outcome : EStateM.Result.ok b v = r at finishes
  induction finishes with
  | done ran =>
      cases outcome
      exact round holds _ _ ran
  | fails ran => cases outcome
  | again ran _ ih => exact ih (round holds _ _ ran) outcome

theorem edit {f : Graph → Graph} {next : PassM σ β} {post : β → Workspace σ → Prop}
    (goesOn : Ensures { w with graph := f w.graph } next post)
    : Ensures w (do PassM.edit (modify f); next) post :=
  goesOn

end Ensures

variable {transform : Transform σ} {w : Workspace (σ × List Call)}

theorem Transform.Obeys.ensures_call {P : Call → Prop} (obeys : transform.Obeys P) (id : NodeId)
    : Ensures w (transform.recorded id) fun answer v =>
        v.calls = ⟨w.graph, id, answer, v.graph⟩ :: w.calls ∧ P ⟨w.graph, id, answer, v.graph⟩ := by
  intro answer v ran
  rw [Transform.recorded] at ran
  cases called : transform id ⟨w.graph, w.memory.1⟩ with
  | error e after =>
      simp only [called] at ran
      cases ran
  | ok answer after =>
      simp only [called] at ran
      cases ran
      exact ⟨rfl, obeys _ id answer after called⟩

theorem ensures_pointSlot {parent old new : NodeId} {slot : Nat}
    (atSlot : (w.graph.children parent)[slot]? = some old)
    : Ensures w (Pass.pointSlot parent slot old new) fun _ v =>
        v = { w with graph := w.graph.setChild parent slot new } := by
  rw [Pass.pointSlot]
  split
  case isTrue same =>
    refine .pure ?_
    rw [same, Graph.setChild_self atSlot]
  case isFalse =>
    intro _ v ran
    cases ran
    rfl

theorem Transform.Obeys.ensures_transformRoot {P : Call → Prop}
    (obeys : transform.Obeys P) (root : NodeId)
    : Ensures w (Pass.transformRoot transform.recorded root) fun answer v =>
        v.calls = ⟨w.graph, root, answer, v.graph⟩ :: w.calls
          ∧ P ⟨w.graph, root, answer, v.graph⟩ := by
  refine .read ?_
  split
  · refine .bind (obeys.ensures_call root) fun answer v made => .read ?_
    split
    · refine .read fun _ _ failed => ?_
      cases failed
    · exact .pure made
  · exact .throw _

/-- The size of the arena after some calls. -/
def lastSize (start : Graph) : List Call → Nat
  | [] => start.size
  | call :: _ => call.after.size

/-- A graph that has grown by calls from the one that a pass was started on. -/
structure Grown (start : Graph) (w : Workspace (σ × List Call)) : Prop where
  enclosed : w.graph.Enclosed
  size : start.size ≤ w.graph.size
  last : w.graph.size = lastSize start w.calls
  grown : ∀ call ∈ w.calls, start.size ≤ call.before.size

namespace Grown

variable {start : Graph} {v : Workspace (σ × List Call)}

theorem of_enclosed {g : Graph} (enclosed : g.Enclosed) (memory : σ)
    : Grown g (⟨g, memory, []⟩ : Workspace (σ × List Call)) where
  enclosed := enclosed
  size := Nat.le_refl _
  last := rfl
  grown _ member := by cases member

/-- The nodes that were there from the start had the operands from there. -/
theorem firstOperands_eq (grown : Grown start w) {id : NodeId} (inside : id < start.size)
    : firstOperands start w.calls id = start.children id := by
  have sizes := grown.grown
  generalize w.calls = calls at sizes ⊢
  induction calls with
  | nil => rfl
  | cons call earlier ih =>
      rw [firstOperands_of_lt (Nat.lt_of_lt_of_le inside (sizes call List.mem_cons_self))]
      exact ih fun other member => sizes other (List.mem_cons_of_mem call member)

theorem call (grown : Grown start w) {id answer : NodeId}
    (calls : v.calls = ⟨w.graph, id, answer, v.graph⟩ :: w.calls)
    (grows : Call.Grows ⟨w.graph, id, answer, v.graph⟩)
    : Grown start v where
  enclosed := grows.enclosed
  size := Nat.le_trans grown.size grows.appends.size
  last := by rw [calls]; rfl
  grown other member := by
    rw [calls] at member
    rcases List.mem_cons.mp member with rfl | before
    · exact grown.size
    · exact grown.grown other before

theorem point (grown : Grown start w) (parent : NodeId) (slot : Nat) {new : NodeId}
    (inside : new < w.graph.size)
    : Grown start { w with graph := w.graph.setChild parent slot new } where
  enclosed := grown.enclosed.setChild parent slot inside
  size := (Graph.size_setChild ..).symm ▸ grown.size
  last := (Graph.size_setChild ..).trans grown.last
  grown := grown.grown

theorem redirect (grown : Grown start w) (index : Nat) {new : NodeId} (inside : new < w.graph.size)
    : Grown start { w with graph := w.graph.setOutput index new } where
  enclosed := grown.enclosed.setOutput index inside
  size := grown.size
  last := grown.last
  grown := grown.grown

end Grown

/-- The roots that a pass was started from are outputs, and none of them is among the operands that
a node had at first. -/
structure Recorded (start : Graph) (w : Workspace (σ × List Call))
    : Prop extends Grown start w where
  outputs : ∀ root ∈ start.outputs, root < start.size ∧ w.graph.isOutput root = true
  apart : ∀ {id child}, child ∈ firstOperands start w.calls id → child ∉ start.outputs

namespace Recorded

variable {start : Graph} {v : Workspace (σ × List Call)}

theorem call (recorded : Recorded start w) {id answer : NodeId}
    (calls : v.calls = ⟨w.graph, id, answer, v.graph⟩ :: w.calls)
    (appends : Call.Appends ⟨w.graph, id, answer, v.graph⟩)
    : Recorded start v where
  toGrown := recorded.toGrown.call calls appends.toGrows
  outputs root isRoot := by
    obtain ⟨inside, isOutput⟩ := recorded.outputs root isRoot
    refine ⟨inside, ?_⟩
    rw [appends.appends.isOutput (Nat.lt_of_lt_of_le inside recorded.size), isOutput]
  apart {user child} member isRoot := by
    rw [calls] at member
    by_cases added : w.graph.size ≤ user
    · rw [firstOperands_of_le added] at member
      obtain ⟨inside, isOutput⟩ := recorded.outputs child isRoot
      have noOutput := appends.operand added member
      rw [appends.appends.isOutput (Nat.lt_of_lt_of_le inside recorded.size), isOutput] at noOutput
      cases noOutput
    · rw [firstOperands_of_lt (Nat.lt_of_not_le added)] at member
      exact recorded.apart member isRoot

theorem point (recorded : Recorded start w) (parent : NodeId) (slot : Nat) {new : NodeId}
    (inside : new < w.graph.size)
    : Recorded start { w with graph := w.graph.setChild parent slot new } where
  toGrown := recorded.toGrown.point parent slot inside
  outputs root isRoot := (recorded.outputs root isRoot).imp_right (Graph.isOutput_setChild ..).trans
  apart := recorded.apart

theorem redirect (recorded : Recorded start w) (index : Nat) {new : NodeId}
    (inside : new < w.graph.size)
    : Recorded start { w with graph := w.graph.setOutput index new } where
  toGrown := recorded.toGrown.redirect index inside
  outputs := recorded.outputs
  apart := recorded.apart

end Recorded

end StreamExpr
