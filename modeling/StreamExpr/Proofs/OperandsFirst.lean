import StreamExpr.Proofs.Replacements

/-! Passes that visit operands first.
The nodes are listed beforehand, each after its operands unless they are on a cycle, and called for
in this order.
-/

namespace StreamExpr

open Pass Relation

variable {σ : Type} {transform : Transform σ} {start : Graph} {w v : Workspace (σ × List Call)}

/-- An operand is the answer to one of some calls, which was for a given node. -/
def Answered (calls : List Call) (child operand : NodeId) : Prop :=
  ∃ call ∈ calls, call.id = child ∧ call.answer = operand

/-- What a call finds when operands go first: its node and the nodes of all earlier calls have
answers to earlier calls in place of the operands that they had in the graph the pass started from,
unless they lie on cycles. -/
structure Call.Finds (start : Graph) (earlier : List Call) (call : Call) : Prop where
  replaced : ∀ id, id = call.id ∨ id ∈ earlier.map Call.id → ¬ TransGen start.Uses id id →
    List.Forall₂ (Answered earlier) (start.children id) (call.before.children id)
  added : ∀ id, start.size ≤ id → call.before.children id = firstOperands start earlier id
  size : call.before.size = lastSize start earlier

/-- What all calls have found, the last first. -/
def History (start : Graph) : List Call → Prop
  | [] => True
  | call :: earlier => call.Finds start earlier ∧ History start earlier

/-- Every call, the last first, finds its node with the answers to earlier calls in place of the
operands that the node had in the graph the pass started from, unless the node lies on a cycle. -/
def OperandsFirst (start : Graph) : List Call → Prop
  | [] => True
  | call :: earlier =>
      (¬ TransGen start.Uses call.id call.id →
        List.Forall₂ (fun child operand => ∃ other ∈ earlier, other.id = child
          ∧ other.answer = operand) (start.children call.id) (call.before.children call.id))
      ∧ OperandsFirst start earlier

theorem History.operandsFirst {start : Graph} {calls : List Call} (history : History start calls)
    : OperandsFirst start calls := by
  induction calls with
  | nil => trivial
  | cons call earlier ih => exact ⟨history.1.replaced call.id (.inl rfl), ih history.2⟩

/-- What holds while the operands of nodes are replaced, some of which are done. -/
structure Replacing (start : Graph) (w : Workspace (σ × List Call)) (memo : Memo)
    (done : List NodeId) (visiting : NodeId → Prop)
    : Prop extends Grown start w where
  remembers : Remembers start w.calls memo
  answered : ∀ {id operand : NodeId}, memo[id]? = some operand → Answered w.calls id operand
  inside : ∀ {id operand : NodeId}, memo[id]? = some operand → operand < w.graph.size
  doneInside : ∀ id ∈ done, id < start.size
  untouched : ∀ id < start.size, id ∉ done → ¬ visiting id → w.graph.children id = start.children id
  added : ∀ id, start.size ≤ id → w.graph.children id = firstOperands start w.calls id
  replaced : ∀ id ∈ done,
    List.Forall₂ (fun child operand => memo[child]? = some operand) (start.children id)
      (w.graph.children id)
  reachable : ∀ call ∈ w.calls, start.Reachable call.id
  handed : ∀ call ∈ w.calls, ¬ TransGen start.Uses call.id call.id → call.id ∈ done
  history : History start w.calls

namespace Replacing

variable {memo : Memo} {done : List NodeId} {visiting : NodeId → Prop}

/-- A call for a reachable node, which is done unless it lies on a cycle. -/
theorem call (replacing : Replacing start w memo done visiting) {id answer : NodeId} {next : Memo}
    (calls : v.calls = ⟨w.graph, id, answer, v.graph⟩ :: w.calls)
    (grows : Call.Grows ⟨w.graph, id, answer, v.graph⟩) (reachable : start.Reachable id)
    (isDone : ¬ TransGen start.Uses id id → id ∈ done)
    (remembers : Remembers start v.calls next)
    (kept : ∀ {old operand : NodeId}, memo[old]? = some operand → next[old]? = some operand)
    (noted : ∀ {old operand : NodeId}, next[old]? = some operand →
      memo[old]? = some operand ∨ old = id ∧ operand = answer)
    : Replacing start v next done visiting where
  toGrown := replacing.toGrown.call calls grows
  remembers := remembers
  answered {old operand} found := by
    rw [calls]
    rcases noted found with before | ⟨rfl, rfl⟩
    · obtain ⟨other, member, isCall⟩ := replacing.answered before
      exact ⟨other, List.mem_cons_of_mem _ member, isCall⟩
    · exact ⟨_, List.mem_cons_self, rfl, rfl⟩
  inside {old operand} found := by
    rcases noted found with before | ⟨_, rfl⟩
    · exact Nat.lt_of_lt_of_le (replacing.inside before) grows.appends.size
    · exact grows.answer
  doneInside := replacing.doneInside
  untouched other inside left unvisited := by
    rw [grows.appends.children (Nat.lt_of_lt_of_le inside replacing.size)]
    exact replacing.untouched other inside left unvisited
  added other isNew := by
    rw [calls]
    by_cases added : w.graph.size ≤ other
    · rw [firstOperands_of_le added]
    · have before := Nat.lt_of_not_le added
      rw [firstOperands_of_lt before, grows.appends.children before]
      exact replacing.added other isNew
  replaced other member := by
    rw [grows.appends.children
      (Nat.lt_of_lt_of_le (replacing.doneInside other member) replacing.size)]
    exact (replacing.replaced other member).imp fun _ _ => kept
  reachable other member := by
    rw [calls] at member
    rcases List.mem_cons.mp member with rfl | before
    · exact reachable
    · exact replacing.reachable other before
  handed other member apart := by
    rw [calls] at member
    rcases List.mem_cons.mp member with rfl | before
    · exact isDone apart
    · exact replacing.handed other before apart
  history := by
    rw [calls]
    refine ⟨⟨fun other isHanded apart => ?_, replacing.added, replacing.last⟩, replacing.history⟩
    have otherDone : other ∈ done := by
      rcases isHanded with rfl | before
      · exact isDone apart
      · obtain ⟨earlier, isCall, rfl⟩ := List.mem_map.mp before
        exact replacing.handed earlier isCall apart
    exact (replacing.replaced other otherDone).imp fun _ _ found => replacing.answered found

/-- Pointing a slot of a node that is being visited changes no other node. -/
theorem point (replacing : Replacing start w memo done visiting) {parent new : NodeId} (slot : Nat)
    (parentInside : parent < start.size) (visited : visiting parent) (left : parent ∉ done)
    (inside : new < w.graph.size)
    : Replacing start { w with graph := w.graph.setChild parent slot new } memo done visiting where
  toGrown := replacing.toGrown.point parent slot inside
  remembers := replacing.remembers
  answered := replacing.answered
  inside found := (Graph.size_setChild ..).symm ▸ replacing.inside found
  doneInside := replacing.doneInside
  untouched id idInside idLeft unvisited := by
    have apart : id ≠ parent := by
      rintro rfl
      exact unvisited visited
    rw [Graph.children_setChild, if_neg apart]
    exact replacing.untouched id idInside idLeft unvisited
  added id isNew := by
    rw [Graph.children_setChild, if_neg (Nat.ne_of_gt (Nat.lt_of_lt_of_le parentInside isNew))]
    exact replacing.added id isNew
  replaced id member := by
    have apart : id ≠ parent := by
      rintro rfl
      exact left member
    rw [Graph.children_setChild, if_neg apart]
    exact replacing.replaced id member
  reachable := replacing.reachable
  handed := replacing.handed
  history := replacing.history

/-- The operands in some slots of a node are replaced. Witness: an operand on no cycle is done when
it is transformed. -/
theorem ensures_replaceSlots (growing : transform.Obeys Call.Grows)
    (unused : ∀ root ∈ start.outputs, ∀ parent, ¬ start.Uses parent root) {parent : NodeId}
    {slots : List Nat} (replacing : Replacing start w memo done (· = parent)) (left : parent ∉ done)
    (reachable : start.Reachable parent)
    (settled : ∀ child, start.Uses parent child → ¬ TransGen start.Uses child child → child ∈ done)
    (noRoot : ∀ call ∈ w.calls, call.id ∉ start.outputs)
    (visits : Visits (fun child operand => memo[child]? = some operand) (start.children parent)
      (w.graph.children parent) slots)
    : Ensures w (replaceSlots transform.recorded parent slots memo) fun next v =>
        Replacing start v next done (· = parent)
        ∧ List.Forall₂ (fun child operand => next[child]? = some operand) (start.children parent)
            (v.graph.children parent)
        ∧ (∀ call ∈ v.calls, call.id ∉ start.outputs)
        ∧ v.graph.outputs = w.graph.outputs := by
  induction slots generalizing w memo with
  | nil => exact .pure ⟨replacing, visits.forall₂, noRoot, rfl⟩
  | cons slot slots ih =>
      refine .read ?_
      cases atSlot : (w.graph.children parent)[slot]? with
      | none => exact ih replacing noRoot (visits.skip atSlot)
      | some child =>
          have isFirst : (start.children parent)[slot]? = some child :=
            (visits.ahead slot List.mem_cons_self).symm.trans atSlot
          have uses : start.Uses parent child := List.mem_of_getElem? isFirst
          have childNoRoot : child ∉ start.outputs := fun isRoot => unused child isRoot parent uses
          cases found : memo[child]? with
          | some operand =>
              simp only [found]
              refine .bind (ensures_pointSlot atSlot) ?_
              rintro _ _ rfl
              refine ih (replacing.point slot uses.lt_size rfl left (replacing.inside found)) noRoot
                ?_
              rw [Graph.children_setChild, if_pos rfl]
              exact visits.set atSlot found
          | none =>
              simp only [found]
              refine .bind (growing.ensures_call child) ?_
              rintro answer u ⟨calls, grows⟩
              have kept {old operand : NodeId} (before : memo[old]? = some operand)
                  : (memo.insert child answer)[old]? = some operand := by
                have apart : child ≠ old := by
                  rintro rfl
                  rw [found] at before
                  cases before
                rw [Memo.getElem?_insert, if_neg apart, before]
              have own : (memo.insert child answer)[child]? = some answer := by
                rw [Memo.getElem?_insert, if_pos rfl]
              have remembers := replacing.remembers.node ⟨w.graph, child, answer, u.graph⟩ found
                childNoRoot
              have replacingOn : Replacing start u (memo.insert child answer) done
                (· = parent) := by
                refine replacing.call calls grows (reachable.operand uses) (settled child uses)
                  (calls ▸ remembers) kept fun {old operand} lookup => ?_
                rw [Memo.getElem?_insert] at lookup
                split at lookup
                case isTrue same =>
                  exact .inr ⟨same.symm, (Option.some.inj lookup).symm⟩
                case isFalse => exact .inl lookup
              have parentInside := Nat.lt_of_lt_of_le uses.lt_size replacing.size
              have sameChildren := grows.appends.children parentInside
              refine .bind (ensures_pointSlot (by rw [sameChildren, atSlot])) ?_
              rintro _ _ rfl
              refine (ih (replacingOn.point slot uses.lt_size rfl left grows.answer) ?_ ?_).imp ?_
              · intro other member
                change other ∈ u.calls at member
                rw [calls] at member
                rcases List.mem_cons.mp member with rfl | before
                · exact childNoRoot
                · exact noRoot other before
              · rw [Graph.children_setChild, if_pos rfl, sameChildren]
                exact (visits.imp fun _ _ => kept).set atSlot own
              · rintro next x ⟨replacingLast, replaced, noRootLast, outputs⟩
                exact ⟨replacingLast, replaced, noRootLast, outputs.trans grows.appends.outputs⟩

/-- The operands of all nodes in a listing are replaced. -/
theorem ensures_replaceAll (growing : transform.Obeys Call.Grows)
    (unused : ∀ root ∈ start.outputs, ∀ parent, ¬ start.Uses parent root) {rest : List NodeId}
    (listed : start.postOrder start.children start.outputs = done ++ rest)
    (replacing : Replacing start w memo done fun _ => False)
    (noRoot : ∀ call ∈ w.calls, call.id ∉ start.outputs) (enclosed : start.Enclosed)
    : Ensures w (replaceAll transform.recorded rest memo) fun _ v =>
        ∃ next,
          Replacing start v next (start.postOrder start.children start.outputs) (fun _ => False)
          ∧ (∀ call ∈ v.calls, call.id ∉ start.outputs)
          ∧ v.graph.outputs = w.graph.outputs := by
  induction rest generalizing w memo done with
  | nil =>
      rw [listed, List.append_nil]
      exact .pure ⟨memo, replacing, noRoot, rfl⟩
  | cons parent rest ih =>
      have nodup := (Traversal.postOrder_complete start start.children start.outputs).nodup
      have left : parent ∉ done := by
        rw [listed, List.nodup_append] at nodup
        exact fun member => nodup.2.2 parent member parent List.mem_cons_self rfl
      have reachable : start.Reachable parent :=
        Traversal.mem_postOrder.mp (listed ▸ List.mem_append_right done List.mem_cons_self)
      have inside := enclosed.lt_size reachable
      have untouched := replacing.untouched parent inside left fun impossible => impossible
      have visiting : Replacing start w memo done (· = parent) :=
        { replacing with
          untouched := fun id idInside idLeft _ =>
            replacing.untouched id idInside idLeft fun impossible => impossible }
      refine .read
        (.bind (visiting.ensures_replaceSlots growing unused left reachable ?_ noRoot ?_) ?_)
      · exact fun child uses apart => Traversal.operand_mem_of_postOrder listed uses apart
      · rw [untouched]
        exact Visits.all _ _
      · rintro next u ⟨replacingOn, replaced, noRootOn, outputs⟩
        have replacingDone : Replacing start u next (done ++ [parent]) fun _ => False :=
          { replacingOn with
            handed := fun call member apart => List.mem_append_left _
              (replacingOn.handed call member apart)
            doneInside := fun id member => by
              rcases List.mem_append.mp member with before | here
              · exact replacingOn.doneInside id before
              · exact List.mem_singleton.mp here ▸ inside
            untouched := fun id idInside idLeft _ => by
              rw [List.mem_append, List.mem_singleton, not_or] at idLeft
              exact replacingOn.untouched id idInside idLeft.1 idLeft.2
            replaced := fun id member => by
              rcases List.mem_append.mp member with before | here
              · exact replacingOn.replaced id before
              · exact List.mem_singleton.mp here ▸ replaced }
        refine (ih (by rw [listed, List.append_assoc, List.singleton_append])
          replacingDone noRootOn).imp ?_
        rintro _ x ⟨last, replacingLast, noRootLast, outputsLast⟩
        exact ⟨last, replacingLast, noRootLast, outputsLast.trans outputs⟩

theorem redirect (replacing : Replacing start w memo done visiting) (index : Nat) {new : NodeId}
    (inside : new < w.graph.size)
    : Replacing start { w with graph := w.graph.setOutput index new } memo done visiting :=
  { replacing with toGrown := replacing.toGrown.redirect index inside }

/-- What holds once the roots are transformed as well. -/
structure Finished (start : Graph) (roots : List NodeId) (w : Workspace (σ × List Call))
    (memo : Memo) (v : Workspace (σ × List Call))
    : Prop where
  replacing : Replacing start v memo (start.postOrder start.children start.outputs) fun _ => False
  ids : v.calls.map Call.id = roots.reverse ++ w.calls.map Call.id
  answers : ∀ root ∈ v.graph.outputs, ∃ call ∈ v.calls, call.answer = root

/-- The roots that are left are transformed in turn. -/
theorem ensures_postOrderRoots (growing : transform.Obeys Call.Grows) {new rest : List NodeId}
    (split : w.graph.outputs = new ++ rest) (roots : ∀ root ∈ rest, root ∈ start.outputs)
    (replacing : Replacing start w memo
    (start.postOrder start.children start.outputs) fun _ => False)
    (answers : ∀ root ∈ new, ∃ call ∈ w.calls, call.answer = root)
    : Ensures w (postOrderRoots transform.recorded ((rest.zipIdx new.length).map Prod.swap))
      fun _ v =>
        Finished start rest w memo v := by
  induction rest generalizing w new with
  | nil =>
      refine .pure ⟨replacing, rfl, fun root member => answers root ?_⟩
      rwa [split, List.append_nil] at member
  | cons root rest ih =>
      have isRoot := roots root List.mem_cons_self
      have reachable := Graph.Reachable.root isRoot
      rw [List.zipIdx_cons, List.map_cons, Prod.swap_prod_mk, postOrderRoots]
      refine .bind (growing.ensures_transformRoot root) ?_
      rintro answer u ⟨calls, grows⟩
      have remembers : Remembers start u.calls memo := by
        rw [calls]
        exact replacing.remembers.root isRoot
      have replacingOn := (replacing.call calls grows reachable
        (fun _ => Traversal.mem_postOrder.mpr reachable) remembers (fun found => found)
          .inl).redirect new.length grows.answer
      have splitOn : (u.graph.setOutput new.length answer).outputs = (new ++ [answer]) ++ rest := by
        change u.graph.outputs.set new.length answer = _
        rw [grows.appends.outputs, split, List.set_append_right _ _ (Nat.le_refl _), Nat.sub_self,
          List.set_cons_zero, List.append_assoc, List.singleton_append]
      have answersOn (other) (member : other ∈ new ++ [answer])
          : ∃ call ∈ u.calls, call.answer = other := by
        rw [calls]
        rcases List.mem_append.mp member with before | here
        · obtain ⟨call, isCall, answered⟩ := answers other before
          exact ⟨call, List.mem_cons_of_mem _ isCall, answered⟩
        · exact ⟨_, List.mem_cons_self, (List.mem_singleton.mp here).symm⟩
      have last := ih splitOn (fun other member => roots other (List.mem_cons_of_mem root member))
        replacingOn answersOn
      rw [List.length_append, List.length_singleton] at last
      refine .edit (last.imp fun _ x finished => ⟨finished.replacing, ?_, finished.answers⟩)
      rw [finished.ids]
      change rest.reverse ++ u.calls.map Call.id = _
      rw [calls, List.map_cons, List.reverse_cons, List.append_assoc, List.singleton_append]

end Replacing

end StreamExpr
