import StreamExpr.Proofs.OperandsFirst
import StreamExpr.Proofs.ParentsFirst

/-! A pass transforms a node once and points all its users at the same replacement.
This holds of every transform that only adds nodes, in both orders, and cycles do no harm. When
operands go first, every node that was reachable is transformed, and a node on no cycle after its
operands.
-/

namespace StreamExpr

open Pass Relation

variable {σ : Type} {transform : Transform σ} {start : Graph} {w v : Workspace (σ × List Call)}

/-- The nodes whose operands a pass replaces. -/
def PassOrder.Processes (order : PassOrder) (start final : Graph) (id : NodeId) : Prop :=
  match order with
  | .preOrder => final.Reachable id
  | .postOrder => start.Reachable id

/-- One map gives the replacements of all operands. -/
structure Memoizes (start final : Graph) (calls : List Call) (processed : NodeId → Prop)
    (replacement : NodeId → NodeId)
    : Prop where
  /-- No node is handed to the transform twice, roots apart. -/
  once : ((calls.map Call.id).filter (· ∉ start.outputs)).Nodup
  /-- A node that is handed to the transform is replaced by the answer, -/
  answer : ∀ call ∈ calls, call.id ∉ start.outputs → replacement call.id = call.answer
  /-- and any other node stands for itself. -/
  itself : ∀ id, (∀ call ∈ calls, call.id ∉ start.outputs → call.id ≠ id) → replacement id = id
  operands : ∀ id, processed id → final.children id = (firstOperands start calls id).map replacement
  /-- What was an operand at first is no root, and has been handed to the transform or was its
  answer. -/
  known : ∀ id, processed id → ∀ child ∈ firstOperands start calls id,
    child ∉ start.outputs ∧ ∃ call ∈ calls, call.id = child ∨ call.answer = child

theorem Remembers.memoizes {calls : List Call} {memo : Memo} {final : Graph}
    {processed : NodeId → Prop} (remembers : Remembers start calls memo)
    (apart : ∀ id, processed id → ∀ child ∈ firstOperands start calls id, child ∉ start.outputs)
    (replaced : ∀ id, processed id →
      List.Forall₂ (fun child operand => memo[child]? = some operand) (firstOperands start calls id)
        (final.children id))
    : Memoizes start final calls processed fun id => memo[id]?.getD id where
  once := remembers.once
  answer call member noRoot := by rw [remembers.handed call member noRoot, Option.getD_some]
  itself id unhanded := by
    cases found : memo[id]? with
    | none => rfl
    | some done =>
        rcases remembers.known found with ⟨call, member, same, noRoot, _⟩ | ⟨same, _⟩
        · exact (unhanded call member noRoot same).elim
        · exact same
  operands id isProcessed := by
    have operands := replaced id isProcessed
    refine (List.forall₂_eq_eq_eq ▸ List.forall₂_map_left_iff.mpr (operands.imp ?_)).symm
    intro child operand found
    rw [found, Option.getD_some]
  known id isProcessed child member := by
    refine ⟨apart id isProcessed child member, ?_⟩
    have operands := replaced id isProcessed
    obtain ⟨slot, inside, rfl⟩ := List.getElem_of_mem member
    rcases remembers.known (operands.get inside (operands.length_eq ▸ inside)) with
      ⟨call, isCall, same, _⟩ | ⟨_, _, call, isCall, answered⟩
    · exact ⟨call, isCall, .inl same⟩
    · exact ⟨call, isCall, .inr answered⟩

/-- The roots are distinct outputs, and none of them is an operand. -/
structure Graph.RootsApart (g : Graph) : Prop where
  isOutput : ∀ root ∈ g.outputs, g.isOutput root = true
  distinct : g.outputs.Nodup
  unused : ∀ root ∈ g.outputs, ∀ parent, ¬ g.Uses parent root

instance (g : Graph) : Decidable g.RootsApart :=
  decidable_of_iff
    ((∀ root ∈ g.outputs, g.isOutput root = true)
      ∧ g.outputs.Nodup
      ∧ ∀ parent < g.size, ∀ child ∈ g.children parent, child ∉ g.outputs)
    ⟨fun ⟨isOutput, distinct, unused⟩ =>
      ⟨isOutput, distinct, fun _ isRoot _ uses => unused _ uses.lt_size _ uses isRoot⟩,
    fun apart =>
      ⟨apart.isOutput, apart.distinct, fun parent _ child uses isRoot =>
        apart.unused child isRoot parent uses⟩⟩

section Passes

variable {g : Graph} {memory : σ}

theorem recorded_start (enclosed : g.Enclosed) (apart : g.RootsApart)
    : Recorded g (⟨g, memory, []⟩ : Workspace (σ × List Call)) where
  toGrown := .of_enclosed enclosed memory
  outputs root isRoot := ⟨enclosed.output root isRoot, apart.isOutput root isRoot⟩
  apart {id child} member isRoot := apart.unused child isRoot id member

theorem ensures_preOrder (appending : transform.Obeys Call.Appends) (enclosed : g.Enclosed)
    (apart : g.RootsApart)
    : Ensures ⟨g, memory, []⟩ (Pass.run .preOrder transform.recorded) fun _ v =>
        ∃ replacement, Memoizes g v.graph v.calls v.graph.Reachable replacement := by
  have start : Walk g (⟨g, memory, []⟩ : Workspace (σ × List Call))
    { memo := {}, met := {}, pending := [] }
      fun _ => False :=
    { recorded := recorded_start enclosed apart
      remembers := .empty g
      inside := by simp
      met := by simp
      pending := by simp
      nodup := List.nodup_nil
      untouched := fun _ _ => rfl
      replaced := by simp }
  refine .read ?_
  simp only
  split
  · intro _ _ failed
    cases failed
  · have roots := start.ensures_preOrderRoots appending (List.nil_append g.outputs).symm
      (fun _ => id) rfl (by simp)
    refine roots.imp ?_
    rintro _ v ⟨f, walk, idle, met⟩
    refine ⟨_, walk.remembers.memoizes (fun _ _ _ => walk.recorded.apart) fun id reachable => ?_⟩
    have replaced := walk.replaced id (walk.met_of_reachable idle met reachable) (by simp [idle])
      fun impossible => impossible
    exact replaced.imp fun _ _ settles => settles.1

theorem ensures_postOrder (growing : transform.Obeys Call.Grows) (enclosed : g.Enclosed)
    (unused : ∀ root ∈ g.outputs, ∀ parent, ¬ g.Uses parent root)
    : Ensures ⟨g, memory, []⟩ (Pass.run .postOrder transform.recorded) fun _ v =>
        ∃ memo middle, Replacing.Finished g g.outputs middle memo v ∧ ∀ call ∈ middle.calls,
        call.id ∉ g.outputs := by
  have start : Replacing g (⟨g, memory, []⟩ : Workspace (σ × List Call)) {} [] fun _ => False :=
    { toGrown := .of_enclosed enclosed memory
      remembers := .empty g
      answered := by simp
      inside := by simp
      doneInside := by simp
      untouched := fun _ _ _ _ => rfl
      added := fun _ _ => rfl
      replaced := by simp
      reachable := fun _ member => by cases member
      handed := fun _ member => by cases member
      history := trivial }
  refine .read ?_
  simp only
  split
  · intro _ _ failed
    cases failed
  · refine .read (.bind (start.ensures_replaceAll growing unused (List.nil_append _).symm
      (fun _ member => by cases member) enclosed) ?_)
    rintro _ u ⟨memo, replacing, noRoot, outputs⟩
    refine (replacing.ensures_postOrderRoots growing (outputs.trans (List.nil_append _).symm)
      (fun _ => id) (by simp)).imp fun _ v finished => ?_
    exact ⟨memo, u, finished, noRoot⟩

namespace Replacing.Finished

variable {middle : Workspace (σ × List Call)} {memo : Memo}

theorem memoizes (enclosed : g.Enclosed) (unused : ∀ root ∈ g.outputs, ∀ parent,
    ¬ g.Uses parent root) (finished : Finished g g.outputs middle memo v)
    : Memoizes g v.graph v.calls g.Reachable fun id => memo[id]?.getD id := by
  have first (id) (reachable : g.Reachable id) : firstOperands g v.calls id = g.children id :=
    finished.replacing.firstOperands_eq (enclosed.lt_size reachable)
  refine finished.replacing.remembers.memoizes ?_ ?_
  · intro id reachable child member isRoot
    rw [first id reachable] at member
    exact unused child isRoot id member
  · intro id reachable
    rw [first id reachable]
    exact finished.replacing.replaced id (Traversal.mem_postOrder.mpr reachable)

/-- No node is handed over twice. Witness: the roots come last, and are distinct. -/
theorem nodup (distinct : g.outputs.Nodup) (noRoot : ∀ call ∈ middle.calls, call.id ∉ g.outputs)
    (finished : Finished g g.outputs middle memo v)
    : (v.calls.map Call.id).Nodup := by
  have once := finished.replacing.remembers.once
  have isRoot (id) (member : id ∈ g.outputs.reverse) : ¬ decide (id ∉ g.outputs) = true := by
    simpa using List.mem_reverse.mp member
  have isNone (id) (member : id ∈ middle.calls.map Call.id) : decide (id ∉ g.outputs) = true := by
    obtain ⟨call, isCall, rfl⟩ := List.mem_map.mp member
    exact decide_eq_true (noRoot call isCall)
  rw [finished.ids, List.filter_append, List.filter_eq_nil_iff.mpr isRoot,
    List.filter_eq_self.mpr isNone, List.nil_append] at once
  rw [finished.ids, List.nodup_append]
  refine ⟨List.nodup_reverse.mpr distinct, once, ?_⟩
  rintro id atRoot _ handed rfl
  exact isRoot id atRoot (isNone id handed)

/-- The nodes that are handed to the transform are those that were reachable. Witness: all of them
but the roots are operands of others, and so have replacements. -/
theorem mem_calls (finished : Finished g g.outputs middle memo v) (id : NodeId)
    : id ∈ v.calls.map Call.id ↔ g.Reachable id := by
  constructor
  · intro member
    obtain ⟨call, isCall, rfl⟩ := List.mem_map.mp member
    exact finished.replacing.reachable call isCall
  · rintro ⟨root, isRoot, path⟩
    cases path with
    | refl =>
        rw [finished.ids]
        exact List.mem_append_left _ (List.mem_reverse.mpr isRoot)
    | @tail parent _ path uses =>
        have replaced := finished.replacing.replaced parent
          (Traversal.mem_postOrder.mpr ⟨root, isRoot, path⟩)
        obtain ⟨slot, inside, rfl⟩ := List.getElem_of_mem uses
        obtain ⟨call, isCall, same, _⟩ :=
          finished.replacing.answered (replaced.get inside (replaced.length_eq ▸ inside))
        exact List.mem_map.mpr ⟨call, isCall, same⟩

/-- A call finds its node with the operands that the node has in the end, unless it lies on a
cycle. -/
theorem children_before (enclosed : g.Enclosed)
    (unused : ∀ root ∈ g.outputs, ∀ parent, ¬ g.Uses parent root)
    (finished : Finished g g.outputs middle memo v) {call : Call} (member : call ∈ v.calls)
    (apart : ¬ TransGen g.Uses call.id call.id)
    : call.before.children call.id = v.graph.children call.id := by
  have reachable := finished.replacing.reachable call member
  have memoizes := finished.memoizes enclosed unused
  rw [memoizes.operands call.id reachable, finished.replacing.firstOperands_eq
    (enclosed.lt_size reachable)]
  have answered {calls : List Call} (history : History g calls)
      (known : ∀ other ∈ calls, other ∈ v.calls) (member : call ∈ calls)
      : List.Forall₂ (Answered v.calls) (g.children call.id) (call.before.children call.id) := by
    induction calls with
    | nil => cases member
    | cons other earlier ih =>
        have knownEarlier (call) (member : call ∈ earlier) :=
          known call (List.mem_cons_of_mem other member)
        rcases List.mem_cons.mp member with rfl | before
        · refine (history.1.replaced call.id (.inl rfl) apart).imp ?_
          rintro child operand ⟨made, isCall, answer⟩
          exact ⟨made, knownEarlier made isCall, answer⟩
        · exact ih history.2 knownEarlier before
  have operands := (List.forall₂_and_left _ _).mpr
    ⟨fun _ uses => uses, answered finished.replacing.history (fun _ => id) member⟩
  refine (List.forall₂_eq_eq_eq ▸ List.forall₂_map_left_iff.mpr (operands.imp ?_)).symm
  rintro child operand ⟨uses, made, isCall, rfl, rfl⟩
  exact memoizes.answer made isCall fun isRoot => unused made.id isRoot call.id uses

end Replacing.Finished

end Passes

/-- The calls of a pass, if it succeeds, only add nodes. -/
def Transform.AppendsOver (transform : Transform σ) (order : PassOrder) (g : Graph) (memory : σ)
    : Prop :=
  ∀ w, Pass.run order transform.recorded ⟨g, memory, []⟩ = .ok () w → ∀ call ∈ w.calls, call.Appends

instance (transform : Transform σ) (order : PassOrder) (g : Graph) (memory : σ)
    : Decidable (transform.AppendsOver order g memory) :=
  match ran : Pass.run order transform.recorded ⟨g, memory, []⟩ with
  | .ok () w =>
      decidable_of_iff (∀ call ∈ w.calls, call.Appends)
        ⟨fun appends v again => by
          cases ran.symm.trans again
          exact appends,
        fun appends => appends w ran⟩
  | .error e w => isTrue fun v again => by cases ran.symm.trans again

/-- A pass whose calls only add nodes hands no node to the transform twice, roots apart, and one map
gives the replacements of all operands. When operands go first, what is handed over is what was
reachable, each node once, and a node on no cycle after its operands and with their replacements in
place. Witness: what has been replaced is remembered, and no slot is visited twice. -/
theorem pass_memoizes {transform : Transform σ} {order : PassOrder} {g : Graph} {memory : σ}
    {w : Workspace σ} (enclosed : g.Enclosed) (apart : g.RootsApart)
    (appends : transform.AppendsOver order g memory)
    (ran : Pass.run order transform ⟨g, memory⟩ = .ok () w)
    : ∃ calls replacement,
        Pass.run order transform.recorded ⟨g, memory, []⟩ = .ok () ⟨w.graph, w.memory, calls⟩
        ∧ Memoizes g w.graph calls (order.Processes g w.graph) replacement
        ∧ (order = .postOrder →
            (calls.map Call.id).Nodup
            ∧ (∀ id, id ∈ calls.map Call.id ↔ g.Reachable id)
            ∧ OperandsFirst g calls) := by
  obtain ⟨calls, recorded⟩ := run_recorded ran
  have guarded := run_guarded recorded (appends _ recorded)
  have appending := transform.guarded_obeys Call.Appends
  cases order with
  | preOrder =>
      obtain ⟨replacement, memoizes⟩ := ensures_preOrder appending enclosed apart _ _ guarded
      exact ⟨calls, replacement, recorded, memoizes, fun impossible => by cases impossible⟩
  | postOrder =>
      have growing := appending.imp fun _ => Call.Appends.toGrows
      obtain ⟨memo, middle, finished, noRoot⟩ :=
        ensures_postOrder growing enclosed apart.unused _ _ guarded
      exact ⟨calls, _, recorded, finished.memoizes enclosed apart.unused, fun _ =>
        ⟨finished.nodup apart.distinct noRoot, finished.mem_calls,
          finished.replacing.history.operandsFirst⟩⟩

/-- A root that is used three times, twice by a sum. -/
def sharedRoot : Graph :=
  let float : DataType := .scalarOf .float
  let g := (Graph.empty.declareInput ⟨"x", float⟩).pushUnary .sqrt 0
  let g := (g.pushBinary .add 1 1).declareOutput ⟨"y", float⟩ 2
  g.declareOutput ⟨"z", float⟩ 1

def negateRoots : Transform Unit :=
  .ofEdit (Catalog.exchangeUnary .sqrt .negate)

theorem pass_memoizes_sharedRoot
    : sharedRoot.Enclosed
      ∧ sharedRoot.RootsApart
      ∧ negateRoots.AppendsOver .postOrder sharedRoot ()
      ∧ negateRoots.AppendsOver .preOrder sharedRoot ()
      ∧ (∃ w,
          Pass.run .postOrder negateRoots ⟨sharedRoot, ()⟩ = .ok () w
          ∧ ∃ calls replacement,
              Pass.run .postOrder negateRoots.recorded ⟨sharedRoot, (), []⟩
                = .ok () ⟨w.graph, w.memory, calls⟩
              ∧ Memoizes sharedRoot w.graph calls sharedRoot.Reachable replacement
              ∧ (calls.map Call.id).Nodup
              ∧ (∀ id, id ∈ calls.map Call.id ↔ sharedRoot.Reachable id)
              ∧ OperandsFirst sharedRoot calls)
      ∧ ∃ w,
          Pass.run .preOrder negateRoots ⟨sharedRoot, ()⟩ = .ok () w
          ∧ ∃ calls replacement,
              Pass.run .preOrder negateRoots.recorded ⟨sharedRoot, (), []⟩
                = .ok () ⟨w.graph, w.memory, calls⟩
              ∧ Memoizes sharedRoot w.graph calls w.graph.Reachable replacement := by
  have enclosed : sharedRoot.Enclosed := by decide +kernel
  have apart : sharedRoot.RootsApart := by decide +kernel
  have operandsFirst : negateRoots.AppendsOver .postOrder sharedRoot () := by decide +kernel
  have parentsFirst : negateRoots.AppendsOver .preOrder sharedRoot () := by decide +kernel
  refine ⟨enclosed, apart, operandsFirst, parentsFirst, ⟨_, rfl, ?_⟩, ⟨_, rfl, ?_⟩⟩
  · obtain ⟨calls, replacement, ran, memoizes, ordered⟩ :=
      pass_memoizes enclosed apart operandsFirst rfl
    exact ⟨calls, replacement, ran, memoizes, ordered rfl⟩
  · obtain ⟨calls, replacement, ran, memoizes, _⟩ := pass_memoizes enclosed apart parentsFirst rfl
    exact ⟨calls, replacement, ran, memoizes⟩

/-- Two operators that are operands of each other, below an output. -/
def loopedOperators : Graph :=
  let float : DataType := .scalarOf .float
  let g := (Graph.empty.declareInput ⟨"x", float⟩).pushUnary .negate 0
  ((g.pushUnary .sqrt 1).setChild 1 0 2).declareOutput ⟨"y", float⟩ 1

/-- On a cycle no node can wait for its operands: the first call of a pass that visits operands
first is for a node whose operand is handed over later. -/
theorem cycle_breaks_operands_first
    : loopedOperators.Enclosed
      ∧ loopedOperators.RootsApart
      ∧ (Transform.ofEdit Catalog.keep : Transform Unit).AppendsOver .postOrder loopedOperators ()
      ∧ ∃ w call later,
          Pass.run .postOrder (Transform.ofEdit Catalog.keep : Transform Unit).recorded
              ⟨loopedOperators, (), []⟩
            = .ok () w
          ∧ w.calls = later ++ [call]
          ∧ call.id = 1
          ∧ loopedOperators.Uses 1 2
          ∧ 2 ∈ later.map Call.id := by
  refine ⟨by decide +kernel, by decide +kernel, by decide +kernel, _, _,
    [_, _], rfl, rfl, rfl, ?_, ?_⟩
  · change 2 ∈ loopedOperators.children 1
    decide +kernel
  · decide +kernel

end StreamExpr
