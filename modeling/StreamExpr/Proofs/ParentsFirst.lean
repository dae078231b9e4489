import StreamExpr.Proofs.Replacements

/-! Walks that visit parents first.
A walk calls for each node that it meets, and once for each that is replaced by another.
-/

namespace StreamExpr

open Pass Relation

variable {σ : Type} {transform : Transform σ} {start : Graph} {w v : Workspace (σ × List Call)}

/-- A replacement that is remembered and met. -/
def Pass.Frontier.Settles (f : Frontier) (child operand : NodeId) : Prop :=
  f.memo[child]? = some operand ∧ operand ∈ f.met

/-- A walk between two steps. The nodes that are not met, or that are still ahead, have the operands
that they had at first, and the others have replacements, the nodes being visited apart. -/
structure Walk (start : Graph) (w : Workspace (σ × List Call)) (f : Frontier)
    (visiting : NodeId → Prop)
    : Prop where
  recorded : Recorded start w
  remembers : Remembers start w.calls f.memo
  inside : ∀ {id done : NodeId}, f.memo[id]? = some done → done < w.graph.size
  met : ∀ id ∈ f.met, id < w.graph.size
  pending : ∀ id ∈ f.pending, id ∈ f.met
  nodup : f.pending.Nodup
  untouched : ∀ id, id ∉ f.met ∨ id ∈ f.pending → w.graph.children id
    = firstOperands start w.calls id
  replaced : ∀ id ∈ f.met, id ∉ f.pending → ¬ visiting id →
    List.Forall₂ f.Settles (firstOperands start w.calls id) (w.graph.children id)

namespace Walk

variable {f : Frontier} {visiting : NodeId → Prop}

/-- A call takes a walk to where the new nodes have the operands that they were added with. -/
theorem call (walk : Walk start w f visiting) {id answer : NodeId} {memo : Memo}
    (calls : v.calls = ⟨w.graph, id, answer, v.graph⟩ :: w.calls)
    (appends : Call.Appends ⟨w.graph, id, answer, v.graph⟩)
    (remembers : Remembers start v.calls memo)
    (kept : ∀ {old done : NodeId}, f.memo[old]? = some done → memo[old]? = some done)
    (inside : ∀ {old done : NodeId}, memo[old]? = some done → done < v.graph.size)
    : Walk start v { f with memo } visiting where
  recorded := walk.recorded.call calls appends
  remembers := remembers
  inside := inside
  met id isMet := Nat.lt_of_lt_of_le (walk.met id isMet) appends.appends.size
  pending := walk.pending
  nodup := walk.nodup
  untouched id isUntouched := by
    rw [calls]
    by_cases added : w.graph.size ≤ id
    · rw [firstOperands_of_le added]
    · have before := Nat.lt_of_not_le added
      rw [firstOperands_of_lt before, appends.appends.children before]
      exact walk.untouched id isUntouched
  replaced id isMet left unvisited := by
    have before := walk.met id isMet
    rw [calls, firstOperands_of_lt before, appends.appends.children before]
    exact (walk.replaced id isMet left unvisited).imp fun _ _ settles => ⟨kept settles.1, settles.2⟩

/-- Pointing a slot of a node that is being visited changes no other node. -/
theorem point (walk : Walk start w f visiting) {parent new : NodeId} (slot : Nat)
    (visited : visiting parent) (isMet : parent ∈ f.met) (left : parent ∉ f.pending)
    (inside : new < w.graph.size)
    : Walk start { w with graph := w.graph.setChild parent slot new } f visiting where
  recorded := walk.recorded.point parent slot inside
  remembers := walk.remembers
  inside found := (Graph.size_setChild ..).symm ▸ walk.inside found
  met id isMet := (Graph.size_setChild ..).symm ▸ walk.met id isMet
  pending := walk.pending
  nodup := walk.nodup
  untouched id isUntouched := by
    have apart : id ≠ parent := by
      rintro rfl
      exact isUntouched.elim (fun unmet => unmet isMet) left
    rw [Graph.children_setChild, if_neg apart]
    exact walk.untouched id isUntouched
  replaced id otherMet otherLeft unvisited := by
    have apart : id ≠ parent := by
      rintro rfl
      exact unvisited visited
    rw [Graph.children_setChild, if_neg apart]
    exact walk.replaced id otherMet otherLeft unvisited

/-- A walk from a root goes on where the root has been replaced. -/
theorem redirect (walk : Walk start w f visiting) (index : Nat) {new : NodeId}
    (inside : new < w.graph.size)
    : Walk start { w with graph := w.graph.setOutput index new } f visiting :=
  { walk with recorded := walk.recorded.redirect index inside }

theorem mem_pending_meet {id other : NodeId}
    : other ∈ (f.meet id).pending ↔ other ∈ f.pending ∨ other = id ∧ id ∉ f.met := by
  rw [Frontier.meet]
  split
  case isTrue isMet =>
    exact ⟨.inl, fun either => either.resolve_right fun new => new.2 isMet⟩
  case isFalse unmet =>
    rw [List.mem_cons, or_comm]
    exact or_congr_right ⟨fun same => ⟨same, unmet⟩, And.left⟩

theorem memo_meet (f : Frontier) (id : NodeId)
    : (f.meet id).memo = f.memo := by
  rw [Frontier.meet]
  split <;> rfl

theorem meet (walk : Walk start w f visiting) {id : NodeId} (inside : id < w.graph.size)
    : Walk start w (f.meet id) visiting where
  recorded := walk.recorded
  remembers := (memo_meet f id).symm ▸ walk.remembers
  inside found := walk.inside (memo_meet f id ▸ found)
  met other isMet := by
    rcases Frontier.met_meet.mp isMet with rfl | before
    · exact inside
    · exact walk.met other before
  pending other ahead := by
    rcases mem_pending_meet.mp ahead with before | new
    · exact Frontier.met_meet.mpr (.inr (walk.pending other before))
    · exact Frontier.met_meet.mpr (.inl new.1)
  nodup := by
    rw [Frontier.meet]
    split
    case isTrue => exact walk.nodup
    case isFalse unmet =>
      exact List.nodup_cons.mpr ⟨fun ahead => unmet (walk.pending id ahead), walk.nodup⟩
  untouched other isUntouched := by
    refine walk.untouched other
      (isUntouched.elim (fun unmet => .inl fun isMet => ?_) fun ahead => ?_)
    · exact unmet (Frontier.met_meet.mpr (.inr isMet))
    · rcases mem_pending_meet.mp ahead with before | ⟨rfl, unmet⟩
      · exact .inr before
      · exact .inl unmet
  replaced other isMet left unvisited := by
    have before : other ∈ f.met := by
      rcases Frontier.met_meet.mp isMet with rfl | before
      · by_contra unmet
        exact left (mem_pending_meet.mpr (.inr ⟨rfl, unmet⟩))
      · exact before
    have stillLeft : other ∉ f.pending := fun ahead => left (mem_pending_meet.mpr (.inl ahead))
    refine (walk.replaced other before stillLeft unvisited).imp fun child operand settles => ?_
    exact ⟨(memo_meet f id).symm ▸ settles.1, Frontier.met_meet.mpr (.inr settles.2)⟩

/-- A node is transformed unless it is remembered, and is remembered then. -/
theorem ensures_resolve (appending : transform.Obeys Call.Appends) (walk : Walk start w f visiting)
    {child : NodeId} (noRoot : child ∉ start.outputs)
    : Ensures w (resolve transform.recorded f.memo child) fun answer v =>
        Walk start v { f with memo := answer.2 } visiting
        ∧ answer.2[child]? = some answer.1
        ∧ (∀ {old done : NodeId}, f.memo[old]? = some done → answer.2[old]? = some done)
        ∧ w.graph.Appends v.graph
        ∧ ∀ id < w.graph.size, firstOperands start v.calls id = firstOperands start w.calls id := by
  rw [resolve]
  cases found : f.memo[child]? with
  | some done => exact .pure ⟨walk, found, fun old => old, .refl _, fun _ _ => rfl⟩
  | none =>
      refine .bind (appending.ensures_call child) ?_
      rintro done v ⟨calls, appends⟩
      have noted := (walk.remembers.node ⟨w.graph, child, done, v.graph⟩ found noRoot).keep
        List.mem_cons_self
      have kept {old other : NodeId} (before : f.memo[old]? = some other)
          : ((f.memo.insert child done).insertIfNew done done)[old]? = some other := by
        have apart : child ≠ old := by
          rintro rfl
          rw [found] at before
          cases before
        refine Memo.getElem?_insertIfNew_of_some ?_ done done
        rw [Memo.getElem?_insert, if_neg apart, before]
      have own : ((f.memo.insert child done).insertIfNew done done)[child]? = some done := by
        refine Memo.getElem?_insertIfNew_of_some ?_ done done
        rw [Memo.getElem?_insert, if_pos rfl]
      refine .pure ⟨walk.call calls appends (calls ▸ noted) kept ?_, own, kept, appends.appends, ?_⟩
      · intro old other lookup
        rw [Memo.getElem?_insertIfNew] at lookup
        split at lookup
        · exact Option.some.inj lookup ▸ appends.answer
        · rw [Memo.getElem?_insert] at lookup
          split at lookup
          · exact Option.some.inj lookup ▸ appends.answer
          · exact Nat.lt_of_lt_of_le (walk.inside lookup) appends.appends.size
      · intro id before
        rw [calls, firstOperands_of_lt before]

/-- What holds once the operands in the slots of a node are replaced. -/
structure Descended (start : Graph) (parent : NodeId) (w : Workspace (σ × List Call)) (f : Frontier)
    (v : Workspace (σ × List Call)) (next : Frontier)
    : Prop where
  walk : Walk start v next (· = parent)
  replaced : List.Forall₂ next.Settles (firstOperands start v.calls parent)
    (v.graph.children parent)
  met : ∀ id ∈ f.met, id ∈ next.met
  left : ∀ id ∈ f.met, id ∉ f.pending → id ∉ next.pending
  outputs : v.graph.outputs = w.graph.outputs

/-- The operands in the slots of a node are replaced. Witness: a slot holds the operand that the
node had at first until it is visited, so that it is no root. -/
theorem ensures_descend (appending : transform.Obeys Call.Appends) {parent : NodeId}
    {slots : List Nat} (walk : Walk start w f (· = parent)) (isMet : parent ∈ f.met)
    (left : parent ∉ f.pending) (visits : Visits f.Settles (firstOperands start w.calls parent)
    (w.graph.children parent) slots)
    : Ensures w (descend transform.recorded parent slots f) fun next v =>
        Descended start parent w f v next := by
  induction slots generalizing w f with
  | nil => exact .pure ⟨walk, visits.forall₂, fun _ => id, fun _ _ => id, rfl⟩
  | cons slot slots ih =>
      refine .read ?_
      cases atSlot : (w.graph.children parent)[slot]? with
      | none => exact ih walk isMet left (visits.skip atSlot)
      | some child =>
          -- The slot is still to be visited, so it holds what it held at first.
          have isFirst : (firstOperands start w.calls parent)[slot]? = some child :=
            (visits.ahead slot List.mem_cons_self).symm.trans atSlot
          have noRoot := walk.recorded.apart (List.mem_of_getElem? isFirst)
          refine .bind (walk.ensures_resolve appending noRoot) ?_
          rintro ⟨new, memo⟩ u ⟨walkOn, own, kept, appends, firsts⟩
          have parentInside := walk.met parent isMet
          have sameChildren := appends.children parentInside
          refine .bind (ensures_pointSlot (by rw [sameChildren, atSlot])) ?_
          rintro _ _ rfl
          have newInside := walkOn.inside own
          have walkMet := (walkOn.point slot rfl isMet left newInside).meet
            ((Graph.size_setChild ..).symm ▸ newInside)
          have settles {old operand : NodeId} (before : f.Settles old operand)
              : (Frontier.meet { f with memo } new).Settles old operand :=
            ⟨(memo_meet ..).symm ▸ kept before.1, Frontier.met_meet.mpr (.inr before.2)⟩
          have settlesNew : (Frontier.meet { f with memo } new).Settles child new :=
            ⟨(memo_meet ..).symm ▸ own, Frontier.met_meet.mpr (.inl rfl)⟩
          have visitsOn := (visits.imp fun _ _ => settles).set atSlot settlesNew
          have children : (u.graph.setChild parent slot new).children parent
              = (w.graph.children parent).set slot new := by
            rw [Graph.children_setChild, if_pos rfl, sameChildren]
          -- What has been met and left is not put ahead again.
          have leftOn {id : NodeId} (idMet : id ∈ f.met) (idLeft : id ∉ f.pending)
              : id ∉ (Frontier.meet { f with memo } new).pending := by
            intro ahead
            rcases mem_pending_meet.mp ahead with before | ⟨rfl, unmet⟩
            · exact idLeft before
            · exact unmet idMet
          refine (ih walkMet (Frontier.met_meet.mpr (.inr isMet)) (leftOn isMet left) ?_).imp ?_
          · rw [children]
            change Visits _ (firstOperands start u.calls parent) _ _
            rw [firsts parent parentInside]
            exact visitsOn
          · intro next x descended
            refine ⟨descended.walk, descended.replaced, fun id idMet => ?_,
              fun id idMet idLeft => ?_, ?_⟩
            · exact descended.met id (Frontier.met_meet.mpr (.inr idMet))
            · exact descended.left id (Frontier.met_meet.mpr (.inr idMet)) (leftOn idMet idLeft)
            · exact descended.outputs.trans appends.outputs

/-- What holds once the node that was met last is visited. -/
theorem ensures_visit (appending : transform.Obeys Call.Appends)
    (walk : Walk start w f fun _ => False)
    : Ensures w (visit transform.recorded f) fun outcome v =>
        match outcome with
        | .inl next =>
            Walk start v next (fun _ => False)
            ∧ (∀ id ∈ f.met, id ∈ next.met)
            ∧ v.graph.outputs = w.graph.outputs
        | .inr next => next = f ∧ f.pending = [] ∧ v = w := by
  rw [visit]
  cases ahead : f.pending with
  | nil => exact .pure ⟨rfl, rfl, rfl⟩
  | cons parent pending =>
      obtain ⟨left, nodup⟩ := List.nodup_cons.mp (ahead ▸ walk.nodup)
      have isAhead : parent ∈ f.pending := by simp [ahead]
      have isMet := walk.pending parent isAhead
      have visiting : Walk start w { f with pending } (· = parent) :=
        { walk with
          pending := fun id member => walk.pending id
            (by simp [ahead, show id ∈ pending from member])
          nodup := nodup
          untouched := fun id isUntouched => walk.untouched id
            (isUntouched.imp_right fun member => by
            simp [ahead, show id ∈ pending from member])
          replaced := fun id idMet idLeft apart => walk.replaced id idMet (by
            simp [ahead, apart, show id ∉ pending from idLeft]) fun impossible => impossible }
      refine .read ?_
      -- Nothing has touched a node that is still ahead.
      have first := walk.untouched parent (.inr isAhead)
      have visits := Visits.all (Frontier.Settles { f with pending }) (w.graph.children parent)
      refine .bind (visiting.ensures_descend appending isMet left ?_)
        fun next v descended => .pure ?_
      · rw [← first]
        exact visits
      · have walkOn : Walk start v next fun _ => False :=
          { descended.walk with
            replaced := fun id idMet idLeft _ => by
              by_cases same : id = parent
              · exact same ▸ descended.replaced
              · exact descended.walk.replaced id idMet idLeft same }
        exact ⟨walkOn, descended.met, descended.outputs⟩

/-- A walk that ends has visited all that was ahead. -/
theorem ensures_drain (appending : transform.Obeys Call.Appends)
    (walk : Walk start w f fun _ => False)
    : Ensures w (drain transform.recorded f) fun next v =>
        Walk start v next (fun _ => False)
        ∧ next.pending = []
        ∧ (∀ id ∈ f.met, id ∈ next.met)
        ∧ v.graph.outputs = w.graph.outputs := by
  refine .untilDone
    (fun next v => Walk start v next (fun _ => False) ∧ (∀ id ∈ f.met, id ∈ next.met)
      ∧ v.graph.outputs = w.graph.outputs)
    ?_ ⟨walk, fun _ => id, rfl⟩
  rintro next v ⟨walk, met, outputs⟩
  refine (walk.ensures_visit appending).imp fun outcome x found => ?_
  cases outcome with
  | inl last =>
      obtain ⟨walkLast, metLast, outputsLast⟩ := found
      exact ⟨walkLast, fun id isMet => metLast id (met id isMet), outputsLast.trans outputs⟩
  | inr last =>
      obtain ⟨rfl, idle, rfl⟩ := found
      exact ⟨walk, idle, met, outputs⟩

/-- The roots that are left are replaced, and all that is reachable from them is visited. -/
theorem ensures_preOrderRoots (appending : transform.Obeys Call.Appends) {done rest : List NodeId}
    (split : w.graph.outputs = done ++ rest) (roots : ∀ root ∈ rest, root ∈ start.outputs)
    (walk : Walk start w f fun _ => False) (idle : f.pending = [])
    (doneMet : ∀ root ∈ done, root ∈ f.met)
    : Ensures w (preOrderRoots transform.recorded ((rest.zipIdx done.length).map Prod.swap) f)
        fun _ v =>
          ∃ next,
            Walk start v next (fun _ => False)
            ∧ next.pending = []
            ∧ ∀ root ∈ v.graph.outputs, root ∈ next.met := by
  induction rest generalizing w f done with
  | nil =>
      refine .pure ⟨f, walk, idle, fun root member => doneMet root ?_⟩
      rwa [split, List.append_nil] at member
  | cons root rest ih =>
      have isRoot := roots root List.mem_cons_self
      rw [List.zipIdx_cons, List.map_cons, Prod.swap_prod_mk, preOrderRoots]
      refine .bind (appending.ensures_transformRoot root) ?_
      rintro new u ⟨calls, appends⟩
      have remembers : Remembers start u.calls f.memo := by
        rw [calls]
        exact walk.remembers.root isRoot
      have walkOn := walk.call calls appends remembers (fun found => found)
        fun found => Nat.lt_of_lt_of_le (walk.inside found) appends.appends.size
      refine .edit
        (.bind (((walkOn.redirect done.length appends.answer).meet appends.answer).ensures_drain
        appending) ?_)
      rintro next x ⟨walkNext, idleNext, met, outputs⟩
      have splitNext : x.graph.outputs = (done ++ [new]) ++ rest := by
        rw [outputs]
        change u.graph.outputs.set done.length new = _
        rw [appends.appends.outputs, split, List.set_append_right _ _ (Nat.le_refl _), Nat.sub_self,
          List.set_cons_zero, List.append_assoc, List.singleton_append]
      have last := ih splitNext (fun other member => roots other (List.mem_cons_of_mem root member))
        walkNext idleNext fun other member => met other (Frontier.met_meet.mpr ?_)
      · rwa [List.length_append, List.length_singleton] at last
      · rcases List.mem_append.mp member with isDone | isNew
        · exact .inr (doneMet other isDone)
        · exact .inl (List.mem_singleton.mp isNew)

/-- Once a walk is over, all that is reachable has been visited. -/
theorem met_of_reachable (walk : Walk start w f fun _ => False) (idle : f.pending = [])
    (roots : ∀ root ∈ w.graph.outputs, root ∈ f.met) {id : NodeId}
    (reachable : w.graph.Reachable id)
    : id ∈ f.met := by
  obtain ⟨root, isRoot, path⟩ := reachable
  induction path with
  | refl => exact roots root isRoot
  | @tail parent child _ uses ih =>
      have replaced := walk.replaced parent ih (by simp [idle]) fun impossible => impossible
      obtain ⟨slot, inside, rfl⟩ := List.getElem_of_mem uses
      exact (replaced.get (replaced.length_eq ▸ inside) inside).2

end Walk

end StreamExpr
