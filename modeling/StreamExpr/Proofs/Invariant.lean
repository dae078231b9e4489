import StreamExpr.Proofs.Evolution
import StreamExpr.Proofs.Traversal

/-! Facts that a pass keeps up.
States carry the facts that a pass relies on: which nodes are in use, and which stand in for which.
-/

namespace StreamExpr.Pass

variable {σ S α β : Type}

/-- Facts about a workspace that a pass keeps up. Live nodes are those in use, and one node stands
in for another if parents may be pointed at it instead. Some nodes may have been spent: they are not
transformed again. Nodes that a transform answers may be told from others: they are finished. -/
structure Invariant (σ S : Type) extends Evolution (Workspace σ) S where
  Live : S → NodeId → Prop
  Stands : S → NodeId → NodeId → Prop
  Spent : S → NodeId → Prop
  Finished : S → NodeId → Prop := fun _ _ => True
  live_later : ∀ {s t id}, Later s t → Live s id → Live t id
  stands_later : ∀ {s t old new}, Later s t → Stands s old new → Stands t old new
  finished_later : ∀ {s t id}, Later s t → Finished s id → Finished t id := by
    intros
    trivial
  stands_refl : ∀ {s id}, Live s id → Stands s id id
  live_of_stands : ∀ {s old new}, Stands s old new → Live s new
  isOutput_later : ∀ {s t id}, Later s t → Live s id →
    (view t).graph.isOutput id = (view s).graph.isOutput id
  point : ∀ {s parent slot child new}, Live s parent →
    ((view s).graph.children parent)[slot]? = some child → Stands s child new →
      ∃ t,
        view t = { view s with graph := (view s).graph.setChild parent slot new }
        ∧ Later s t
        ∧ ∀ id, Spent t id → Spent s id
  redirect : ∀ {s index root new}, (view s).graph.outputs[index]? = some root →
    Stands s root new →
      ∃ t,
        view t = { view s with graph := (view s).graph.setOutput index new }
        ∧ Later s t
        ∧ ∀ id, Spent t id → Spent s id

variable {I : Invariant σ S} {fails : Prop} {transform : Transform σ}

def Invariant.graph (I : Invariant σ S) (s : S) : Graph :=
  (I.view s).graph

/-- What a transform may answer for a node: one that stands in for it and is finished. Outputs are
answered with outputs, and the operands of other nodes are left alone. -/
structure Invariant.Answers (I : Invariant σ S) (fails : Prop) (s : S) (id new : NodeId) (t : S)
    : Prop where
  stands : I.Stands t id new
  finished : I.Finished t new
  isOutput : (I.graph s).isOutput id = true → (I.graph t).isOutput new = true ∨ fails
  kept : ∀ parent, I.Live s parent → (I.graph t).children parent = (I.graph s).children parent
  outputs : (I.graph t).outputs = (I.graph s).outputs

/-- A transform that keeps up the facts. It spends the node it is given at most, and no output. -/
structure Invariant.Admits (I : Invariant σ S) (fails : Prop) (transform : Transform σ) : Prop where
  operand : ∀ {s parent child}, I.Live s parent
    → child ∈ (I.graph s).children parent → I.Live s child
  step : ∀ {s id}, I.Live s id → (I.Spent s id → (I.graph s).isOutput id = true) →
    I.Runs fails s (transform id) fun new t =>
      I.Answers fails s id new t
      ∧ ∀ other, I.Spent t other → I.Spent s other ∨ other = id ∧ (I.graph s).isOutput id = false

/-- A transform that keeps up the facts where parents are visited first. It may also spend its
answer, which stands for itself from then on. -/
structure Invariant.Leads (I : Invariant σ S) (fails : Prop) (transform : Transform σ) : Prop where
  operand : ∀ {s parent child}, I.Live s parent
    → child ∈ (I.graph s).children parent → I.Live s child
  step : ∀ {s id}, I.Live s id → (I.Spent s id → (I.graph s).isOutput id = true) →
    I.Runs fails s (transform id) fun new t =>
      I.Answers fails s id new t
      ∧ ∀ other, I.Spent t other →
          I.Spent s other ∨ (other = id ∨ other = new) ∧ (I.graph s).isOutput id = false

theorem Invariant.Admits.leads (admits : I.Admits fails transform) : I.Leads fails transform where
  operand := admits.operand
  step isLive unspent := (admits.step isLive unspent).imp fun _ _ _ found =>
    found.imp_right fun spent other isSpent => (spent other isSpent).imp_right (And.imp_left .inl)

/-- What holds of the replacements found so far. -/
structure Invariant.Remembers (I : Invariant σ S) (s : S) (memo : Memo) : Prop where
  stands : ∀ {old done}, memo[old]? = some done → I.Stands s old done ∧ I.Finished s done
  spent : ∀ {id}, I.Spent s id → id ∈ memo

theorem Invariant.Remembers.later {s t : S} {memo : Memo} (remembers : I.Remembers s memo)
    (later : I.Later s t) (spent : ∀ id, I.Spent t id → I.Spent s id)
    : I.Remembers t memo :=
  ⟨fun found => (remembers.stands found).imp (I.stands_later later) (I.finished_later later),
    fun isSpent => remembers.spent (spent _ isSpent)⟩

theorem Invariant.Remembers.empty {s : S} (unspent : ∀ id, ¬ I.Spent s id)
    : I.Remembers s {} :=
  ⟨fun found => by simp at found, fun isSpent => (unspent _ isSpent).elim⟩

/-- Reading the graph changes nothing. -/
theorem Invariant.runs_read {s : S} {f : Graph → α} {next : α → PassM σ β} {post : β → S → Prop}
    : I.Runs fails s (PassM.read f >>= next) post
      ↔ I.Runs fails s (next (f (I.graph s))) post :=
  ⟨.congr rfl, .congr rfl⟩

/-- A slot can be pointed at what stands in for its operand, and nothing else changes. -/
theorem Invariant.runs_pointSlot {s : S} {parent child new : NodeId} {slot : Nat}
    (isLive : I.Live s parent) (atSlot : ((I.graph s).children parent)[slot]? = some child)
    (stands : I.Stands s child new)
    : I.Runs fails s (pointSlot parent slot child new) fun _ t =>
        (∀ id, (I.graph t).children id
          = if id = parent then ((I.graph s).children id).set slot new else (I.graph s).children id)
        ∧ (I.graph t).outputs = (I.graph s).outputs
        ∧ ∀ id, I.Spent t id → I.Spent s id := by
  rw [pointSlot]
  split
  case isTrue same =>
    refine .pure ⟨fun id => ?_, rfl, fun _ => id⟩
    split
    case isTrue here =>
      obtain ⟨inside, atPlace⟩ := List.getElem?_eq_some_iff.mp atSlot
      rw [here, same, ← atPlace, List.set_getElem_self]
    case isFalse => rfl
  case isFalse =>
    obtain ⟨t, same, later, spent⟩ := I.point isLive atSlot stands
    refine .of_ok (t := t) (by rw [same]; rfl) later ⟨fun id => ?_, ?_, spent⟩
    · rw [Invariant.graph, same]
      simp only [Graph.children, Graph.node_setChild]
      split
      · exact Node.children_setChild _ _ _
      · rfl
    · rw [Invariant.graph, same]
      rfl

theorem Invariant.Remembers.unspent {s : S} {memo : Memo} (remembers : I.Remembers s memo)
    {child : NodeId} (isNew : memo[child]? = none)
    : ¬ I.Spent s child := by
  intro isSpent
  have member := remembers.spent isSpent
  rw [Std.TreeMap.mem_iff_isSome_getElem?, isNew] at member
  cases member

/-- What is remembered once an answer is noted stands in as before, or it is that answer. -/
theorem Invariant.Remembers.stands_insert {s t : S} {memo : Memo} (remembers : I.Remembers s memo)
    (later : I.Later s t) {child done : NodeId} (answer : I.Stands t child done ∧ I.Finished t done)
    {old found : NodeId} (lookup : (memo.insert child done)[old]? = some found)
    : I.Stands t old found ∧ I.Finished t found := by
  rw [Std.TreeMap.getElem?_insert] at lookup
  split at lookup
  case isTrue same =>
    rw [← Std.LawfulEqCmp.eq_of_compare same, ← Option.some.inj lookup]
    exact answer
  case isFalse =>
    exact (remembers.stands lookup).imp (I.stands_later later) (I.finished_later later)

/-- A root that is an output has a finished node that stands in for it. -/
structure Invariant.Succeeds (I : Invariant σ S) (s : S) (root new : NodeId) : Prop where
  live : I.Live s root
  isOutput : (I.graph s).isOutput root = true
  stands : I.Stands s root new
  finished : I.Finished s new

theorem Invariant.Succeeds.later {s t : S} {root new : NodeId} (succeeds : I.Succeeds s root new)
    (later : I.Later s t)
    : I.Succeeds t root new where
  live := I.live_later later succeeds.live
  isOutput := (I.isOutput_later later succeeds.live).trans succeeds.isOutput
  stands := I.stands_later later succeeds.stands
  finished := I.finished_later later succeeds.finished

variable {Answer : NodeId → S → Prop}

/-- A root is transformed to an output that stands in for it. A root that is no output fails. -/
theorem Invariant.runs_transformRoot {s : S} {root : NodeId} (isLive : I.Live s root)
    (isOutput : (I.graph s).isOutput root = true ∨ fails)
    (runs : (I.graph s).isOutput root = true → I.Runs fails s (transform root) Answer)
    (answers : ∀ {new t}, Answer new t → I.Stands t root new ∧ I.Finished t new
      ∧ ((I.graph s).isOutput root = true → (I.graph t).isOutput new = true ∨ fails))
    : I.Runs fails s (transformRoot transform root) fun new t =>
      I.Succeeds t root new ∧ Answer new t := by
  rw [transformRoot, I.runs_read]
  split
  next decl expression kind =>
    have isOutput : (I.graph s).isOutput root = true := by
      rw [Graph.isOutput, Node.isOutput, kind]
    refine .bind (runs isOutput) fun new t later answer => ?_
    obtain ⟨stands, finished, staysOutput⟩ := answers answer
    have stillOutput := (I.isOutput_later later isLive).trans isOutput
    rw [I.runs_read]
    split
    case isTrue noOutput =>
      refine I.runs_read.mpr
        (.of_error rfl ((staysOutput isOutput).resolve_left fun staysOutput => ?_))
      simp [staysOutput] at noOutput
    case isFalse => exact .pure ⟨⟨I.live_later later isLive, stillOutput, stands, finished⟩, answer⟩
  next other =>
    refine .throw (isOutput.resolve_left fun isOutput => ?_)
    rw [Graph.isOutput, Node.isOutput] at isOutput
    split at isOutput
    next decl expression kind =>
      exact other decl expression kind
    · cases isOutput

/-- What holds once the answer for a root has taken its place in the list of roots. -/
structure Invariant.Redirected (I : Invariant σ S) (root new : NodeId)
    (done rest : List NodeId) (t u : S) : Prop where
  later : I.Later t u
  succeeds : I.Succeeds u root new
  outputs : (I.graph u).outputs = done ++ new :: rest
  children : ∀ id, (I.graph u).children id = (I.graph t).children id
  spent : ∀ id, I.Spent u id → I.Spent t id

/-- A root is transformed and its place in the list of roots taken by the answer. Witness: the roots
before it are done, and it is the first of those that are left. -/
theorem Invariant.runs_root {s : S} {root : NodeId} {done rest : List NodeId}
    {next : NodeId → PassM σ β} {post : β → S → Prop}
    (split : (I.graph s).outputs = done ++ root :: rest)
    (isLive : I.Live s root) (isOutput : (I.graph s).isOutput root = true ∨ fails)
    (runs : (I.graph s).isOutput root = true → I.Runs fails s (transform root) Answer)
    (answers : ∀ {new t}, Answer new t → (I.Stands t root new ∧ I.Finished t new
      ∧ ((I.graph s).isOutput root = true → (I.graph t).isOutput new = true ∨ fails))
      ∧ (I.graph t).outputs = (I.graph s).outputs)
    (goesOn : ∀ new t u, I.Later s t → Answer new t → I.Redirected root new done rest t u →
      I.Runs fails u (next new) post)
    : I.Runs fails s
        (do
          let new ← transformRoot transform root
          PassM.edit (modify (·.setOutput done.length new))
          next new)
        post := by
  refine .bind (I.runs_transformRoot isLive isOutput runs fun answer => (answers answer).1) ?_
  rintro new t later ⟨succeeds, answer⟩
  have outputs := (answers answer).2
  have atIndex : (I.graph t).outputs[done.length]? = some root := by simp [outputs, split]
  obtain ⟨u, same, laterOn, spent⟩ := I.redirect atIndex succeeds.stands
  have redirected : (I.graph u).outputs = done ++ new :: rest := by
    rw [Invariant.graph, same]
    change (I.graph t).outputs.set done.length new = _
    rw [outputs, split, List.set_append_right _ _ (Nat.le_refl _), Nat.sub_self,
      List.set_cons_zero]
  have edited : I.Runs fails t (PassM.edit (modify (·.setOutput done.length new)))
    fun _ v => u = v :=
    .of_ok (t := u) (by rw [same]; rfl) laterOn rfl
  refine .bind edited ?_
  rintro _ _ _ rfl
  refine goesOn new t u later answer ⟨laterOn, succeeds.later laterOn,
    redirected, fun id => ?_, spent⟩
  rw [Invariant.graph, same]
  rfl

theorem isOutput_or_fails {g : Graph} (unrooted : ¬ g.Rooted → fails) {root : NodeId}
    (member : root ∈ g.outputs)
    : g.isOutput root = true ∨ fails := by
  by_cases rooted : g.Rooted
  · exact .inl (rooted.2 root member)
  · exact .inr (unrooted rooted)

end StreamExpr.Pass
