import StreamExpr.Proofs.Invariant

/-! What a pass keeps up.
If the transform takes a state to a later one where its answer can stand in for the node it was
given, and operands can be pointed at what stands in for them, then the whole pass ends in a later
state whose roots stand in for the ones it started from.
-/

namespace StreamExpr

variable {σ S α β : Type}

namespace Pass

variable {I : Invariant σ S} {fails : Prop} {transform : Transform σ} {Answer : NodeId → S → Prop}

/-! ## Parents first -/

/-- The visits that a walk has ahead of it, if all nodes in use are below a bound. -/
def Frontier.load (bound : Nat) (f : Frontier) : Nat :=
  f.pending.length + (Traversal.unmet bound f.met).card

theorem Frontier.load_mono (f : Frontier) {bound other : Nat} (atMost : bound ≤ other)
    : f.load bound ≤ f.load other :=
  Nat.add_le_add_left (Finset.card_le_card
    (Finset.filter_subset_filter _ (Finset.range_subset_range.mpr atMost))) _

theorem Frontier.load_meet {bound : Nat} (f : Frontier) {id : NodeId} (inside : id < bound)
    : (f.meet id).load bound = f.load bound := by
  rw [Frontier.meet]
  split
  case isTrue => rfl
  case isFalse isNew =>
    have fewer := Traversal.card_unmet_insert inside isNew
    simp only [Frontier.load, List.length_cons]
    omega

/-- A node all of whose operands have been met. -/
def Frontier.Closes (f : Frontier) (g : Graph) (id : NodeId) : Prop :=
  ∀ child ∈ g.children id, child ∈ f.met

/-- What holds of a walk between two visits, with some nodes that are being visited. -/
structure Invariant.Walks (I : Invariant σ S) (s : S) (f : Frontier) (visiting : NodeId → Prop)
    : Prop where
  remembers : I.Remembers s f.memo
  met : ∀ id ∈ f.met, I.Live s id ∧ I.Finished s id
  pending : ∀ id ∈ f.pending, id ∈ f.met
  closed : ∀ id ∈ f.met, id ∈ f.pending ∨ visiting id ∨ f.Closes (I.graph s) id

variable {visiting : NodeId → Prop}

/-- A walk goes on from a state in which the nodes in use have their operands still, the nodes that
are being visited apart. -/
theorem Invariant.Walks.later {s t : S} {f : Frontier} (walks : I.Walks s f visiting)
    (later : I.Later s t) (spent : ∀ id, I.Spent t id → I.Spent s id)
    (kept : ∀ id, I.Live s id → ¬ visiting id → (I.graph t).children id = (I.graph s).children id)
    : I.Walks t f visiting where
  remembers := walks.remembers.later later spent
  met id isMet := (walks.met id isMet).imp (I.live_later later) (I.finished_later later)
  pending := walks.pending
  closed id isMet := by
    by_cases isVisited : visiting id
    · exact .inr (.inl isVisited)
    · refine (walks.closed id isMet).imp_right
        (Or.imp_right fun closes child member => closes child ?_)
      rwa [← kept id (walks.met id isMet).1 isVisited]

theorem Frontier.met_meet {f : Frontier} {id other : NodeId}
    : other ∈ (f.meet id).met ↔ other = id ∨ other ∈ f.met := by
  rw [Frontier.meet]
  split
  case isTrue isMet =>
    constructor
    · exact .inr
    · rintro (rfl | before)
      · exact isMet
      · exact before
  case isFalse => rw [Std.TreeSet.mem_insert, Std.compare_eq_iff_eq, eq_comm]

theorem Invariant.Walks.meet {s : S} {f : Frontier} (walks : I.Walks s f visiting) {id : NodeId}
    (isLive : I.Live s id) (finished : I.Finished s id)
    : I.Walks s (f.meet id) visiting := by
  have met {other} : other ∈ (f.meet id).met ↔ other = id ∨ other ∈ f.met := Frontier.met_meet
  refine ⟨?_, fun other isMet => ?_, ?_, ?_⟩
  · rw [Frontier.meet]
    split <;> exact walks.remembers
  · rcases met.mp isMet with rfl | before
    · exact ⟨isLive, finished⟩
    · exact walks.met other before
  · intro other ahead
    rw [Frontier.meet] at ahead
    split at ahead
    · exact met.mpr (.inr (walks.pending other ahead))
    · rcases List.mem_cons.mp ahead with rfl | before
      · exact met.mpr (.inl rfl)
      · exact met.mpr (.inr (walks.pending other before))
  · intro other isMet
    have pending : other = id ∧ id ∉ f.met ∨ other ∈ f.pending → other ∈ (f.meet id).pending := by
      rw [Frontier.meet]
      rintro (⟨rfl, unmet⟩ | ahead)
      · rw [if_neg (show ¬ f.met.contains other = true from unmet)]
        exact List.mem_cons_self
      · split
        · exact ahead
        · exact List.mem_cons_of_mem _ ahead
    by_cases before : other ∈ f.met
    · rcases walks.closed other before with ahead | isVisited | closes
      · exact .inl (pending (.inr ahead))
      · exact .inr (.inl isVisited)
      · exact .inr (.inr fun child member => met.mpr (.inr (closes child member)))
    · obtain rfl := (met.mp isMet).resolve_right before
      exact .inl (pending (.inl ⟨rfl, before⟩))

/-- A node is transformed once, and its replacement stands for itself. -/
theorem Invariant.Leads.runs_resolve (leads : I.Leads fails transform) {s : S} {memo : Memo}
    (remembers : I.Remembers s memo) {child : NodeId} (isLive : I.Live s child)
    : I.Runs fails s (resolve transform memo child) fun answer t =>
        (I.Stands t child answer.1 ∧ I.Finished t answer.1)
        ∧ (∀ parent, I.Live s parent → (I.graph t).children parent = (I.graph s).children parent)
        ∧ (I.graph t).outputs = (I.graph s).outputs
        ∧ I.Remembers t answer.2 := by
  rw [resolve]
  cases found : memo[child]? with
  | some done => exact .pure ⟨remembers.stands found, fun _ _ => rfl, rfl, remembers⟩
  | none =>
      refine .bind (leads.step isLive fun isSpent => (remembers.unspent found isSpent).elim) ?_
      rintro done t later ⟨answers, spent⟩
      refine .pure ⟨⟨answers.stands, answers.finished⟩, answers.kept, answers.outputs,
        fun {old other} lookup => ?_,
        fun isSpent => ?_⟩
      · rw [Std.TreeMap.getElem?_insertIfNew] at lookup
        split at lookup
        case isTrue same =>
          rw [← Std.LawfulEqCmp.eq_of_compare same.1, ← Option.some.inj lookup]
          exact ⟨I.stands_refl (I.live_of_stands answers.stands), answers.finished⟩
        case isFalse =>
          exact remembers.stands_insert later ⟨answers.stands, answers.finished⟩ lookup
      · rcases spent _ isSpent with before | ⟨rfl | rfl, _⟩
        · exact Std.TreeMap.mem_insertIfNew.mpr
            (.inr (Std.TreeMap.mem_insert.mpr (.inr (remembers.spent before))))
        · exact Std.TreeMap.mem_insertIfNew.mpr (.inr Std.TreeMap.mem_insert_self)
        · exact Std.TreeMap.mem_insertIfNew_self

/-- The operand in a slot of a node has been met. -/
def Frontier.Covers (f : Frontier) (g : Graph) (parent : NodeId) (slot : Nat) : Prop :=
  ∀ child, (g.children parent)[slot]? = some child → child ∈ f.met

/-- What a pass that visits parents first comes to an end by. The nodes in use are bounded, and when
the bound rises less is left to be done. -/
structure Invariant.Descent (I : Invariant σ S) where
  left : S → ℕ ×ₗ ℕ
  bound : S → Nat
  inside : ∀ {s id}, I.Live s id → id < bound s
  later : ∀ {s t}, I.Later s t → toLex (left t, bound t) ≤ toLex (left s, bound s)

namespace Invariant.Descent

variable {s t u : S} {f next : Frontier}

/-- If the nodes in use stay below a bound, nothing else needs to get less. -/
def ofBound (bound : Nat) (inside : ∀ {s id}, I.Live s id → id < bound) : I.Descent where
  left _ := toLex (0, 0)
  bound _ := bound
  inside := inside
  later _ := le_refl _

theorem bound_le (d : I.Descent) (later : I.Later s t) (same : d.left t = d.left s)
    : d.bound t ≤ d.bound s :=
  ((Prod.Lex.toLex_le_toLex.mp (d.later later)).resolve_left fun less => less.ne same).2

theorem left_le (d : I.Descent) (later : I.Later s t) : d.left t ≤ d.left s :=
  (Prod.Lex.toLex_le_toLex.mp (d.later later)).elim le_of_lt fun same => le_of_eq same.1

/-- What is left is the same all the way if it is the same in the end. -/
theorem between (d : I.Descent) (later : I.Later s t) (laterOn : I.Later t u)
    (same : d.left u = d.left s)
    : d.left u = d.left t ∧ d.left t = d.left s := by
  have after := le_antisymm (d.left_le later) (same ▸ d.left_le laterOn)
  exact ⟨same.trans after.symm, after⟩

/-- A walk is nearer to its end than another. -/
def Nearer (d : I.Descent) (p q : Frontier × S) : Prop :=
  toLex (d.left p.2, p.1.load (d.bound p.2)) < toLex (d.left q.2, q.1.load (d.bound q.2))

-- Three numbers in turn: a walk may get longer as long as what is left gets less.
theorem wellFounded_nearer (d : I.Descent) : WellFounded d.Nearer :=
  InvImage.wf (fun p : Frontier × S => toLex (d.left p.2, p.1.load (d.bound p.2))) wellFounded_lt

theorem nearer (d : I.Descent) (later : I.Later s t)
    (lighter : d.left t = d.left s → next.load (d.bound t) < f.load (d.bound s))
    : d.Nearer (next, t) (f, s) :=
  Prod.Lex.toLex_lt_toLex.mpr ((lt_or_eq_of_le (d.left_le later)).imp_right fun same =>
    ⟨same, lighter same⟩)

end Invariant.Descent

/-- What holds once the operands in some slots of a node are replaced and met. -/
structure Invariant.Descends (I : Invariant σ S) (parent : NodeId) (slots : List Nat) (s : S)
    (f : Frontier) (t : S) (next : Frontier)
    : Prop where
  walks : I.Walks t next (· = parent)
  load : ∀ d : I.Descent, d.left t = d.left s → next.load (d.bound t) ≤ f.load (d.bound s)
  met : ∀ id ∈ f.met, id ∈ next.met
  outputs : (I.graph t).outputs = (I.graph s).outputs
  length : ((I.graph t).children parent).length = ((I.graph s).children parent).length
  covers : ∀ slot, slot ∈ slots ∨ f.Covers (I.graph s) parent slot →
    next.Covers (I.graph t) parent slot

/-- The operands of a live node are replaced and met. -/
theorem Invariant.Leads.runs_descend (leads : I.Leads fails transform) {s : S} {parent : NodeId}
    {slots : List Nat} {f : Frontier} (isLive : I.Live s parent) (walks : I.Walks s f (· = parent))
    : I.Runs fails s (descend transform parent slots f) fun next t =>
        I.Descends parent slots s f t next := by
  induction slots generalizing s f with
  | nil =>
      refine .pure ⟨walks, fun _ _ => Nat.le_refl _, fun _ => id, rfl, rfl,
        fun slot covered => covered.resolve_left ?_⟩
      exact List.not_mem_nil
  | cons slot slots ih =>
      rw [descend, I.runs_read]
      cases atSlot : ((I.graph s).children parent)[slot]? with
      | none =>
          refine (ih isLive walks).imp fun next t _ descends =>
            { descends with covers := fun other covered => descends.covers other ?_ }
          refine covered.elim (fun member => ?_) .inr
          refine (List.mem_cons.mp member).elim (fun same => .inr fun child found => ?_) .inl
          rw [same, atSlot] at found
          cases found
      | some child =>
          have childLive := leads.operand isLive (List.mem_of_getElem? atSlot)
          refine .bind (leads.runs_resolve walks.remembers childLive) ?_
          rintro ⟨new, memo⟩ t later ⟨⟨stands, finished⟩, kept, outputs, remembers⟩
          have parentLive := I.live_later later isLive
          have atSlotLater : ((I.graph t).children parent)[slot]? = some child := by
            rw [kept parent isLive, atSlot]
          refine .bind (I.runs_pointSlot parentLive atSlotLater stands) ?_
          rintro _ u laterOn ⟨children, sameOutputs, spent⟩
          have newLive := I.live_later laterOn (I.live_of_stands stands)
          -- Among what has been met, only the parent may now have an operand that has not.
          have walksOn : I.Walks u { f with memo } (· = parent) := by
            refine ⟨remembers.later laterOn spent, fun id isMet => ?_, walks.pending,
              fun id isMet => ?_⟩
            · have laterAll := I.trans later laterOn
              exact (walks.met id isMet).imp (I.live_later laterAll) (I.finished_later laterAll)
            · refine (walks.closed id isMet).imp_right fun closed => ?_
              by_cases here : id = parent
              · exact .inl here
              · refine .inr fun operand member => closed.resolve_left here operand ?_
                rwa [children, if_neg here, kept id (walks.met id isMet).1] at member
          refine (ih (I.live_later laterOn parentLive)
            (walksOn.meet newLive (I.finished_later laterOn finished))).imp
              fun next v last descends => ?_
          have own := children parent
          rw [if_pos rfl, kept parent isLive] at own
          refine ⟨descends.walks, fun d same => ?_,
            fun id isMet => descends.met id (Frontier.met_meet.mpr (.inr isMet)),
            by rw [descends.outputs, sameOutputs, outputs], ?_,
            fun other covered => descends.covers other ?_⟩
          · -- Nothing has become less on the way, so the bound has not risen.
            obtain ⟨sameLast, same⟩ := d.between (I.trans later laterOn) last same
            calc next.load (d.bound v)
                ≤ (Frontier.meet { f with memo } new).load (d.bound u) := descends.load d sameLast
              _ = f.load (d.bound u) := Frontier.load_meet { f with memo } (d.inside newLive)
              _ ≤ f.load (d.bound s) := f.load_mono (d.bound_le (I.trans later laterOn) same)
          · rw [descends.length, own, List.length_set]
          · by_cases here : other = slot
            · refine .inr fun operand found => Frontier.met_meet.mpr (.inl ?_)
              rw [own, here, List.getElem?_set_self
                (List.getElem?_eq_some_iff.mp atSlot).1] at found
              exact (Option.some.inj found).symm
            · refine covered.imp (fun member => ?_) fun covers operand found => ?_
              · exact (List.mem_cons.mp member).resolve_left here
              · rw [own, List.getElem?_set_ne (Ne.symm here)] at found
                exact Frontier.met_meet.mpr (.inr (covers operand found))

/-- A walk with nothing ahead of it and nothing being visited. -/
structure Invariant.Drained (I : Invariant σ S) (s : S) (f : Frontier) : Prop where
  walks : I.Walks s f fun _ => False
  idle : f.pending = []

/-- What holds once the node that was met last is visited. -/
structure Invariant.Visits (I : Invariant σ S) (s : S) (f : Frontier) (t : S) (next : Frontier)
    : Prop where
  walks : I.Walks t next fun _ => False
  nearer : ∀ d : I.Descent, d.Nearer (next, t) (f, s)
  met : ∀ id ∈ f.met, id ∈ next.met
  outputs : (I.graph t).outputs = (I.graph s).outputs

/-- A visit takes a walk nearer to its end, and a walk that is done is left as it is. -/
theorem Invariant.Leads.runs_visit (leads : I.Leads fails transform) {s : S} {f : Frontier}
    (walks : I.Walks s f fun _ => False)
    : I.Runs fails s (visit transform f) fun outcome t =>
        match outcome with
        | .inl next => I.Visits s f t next
        | .inr next => next = f ∧ f.pending = [] ∧ t = s := by
  rw [visit]
  cases ahead : f.pending with
  | nil => exact .pure ⟨rfl, rfl, rfl⟩
  | cons parent pending =>
      have parentLive := (walks.met parent (walks.pending parent (by simp [ahead]))).1
      have walksOn : I.Walks s { f with pending } (· = parent) := by
        refine ⟨walks.remembers, walks.met, fun id member => ?_, fun id isMet => ?_⟩
        · exact walks.pending id (by simp [ahead, member])
        · rcases walks.closed id isMet with isAhead | impossible | closes
          · rw [ahead] at isAhead
            exact (List.mem_cons.mp isAhead).elim (fun here => .inr (.inl here)) .inl
          · exact impossible.elim
          · exact .inr (.inr closes)
      simp only
      rw [I.runs_read]
      refine .bind (leads.runs_descend parentLive walksOn) fun next t later descends => .pure ?_
      -- All slots of the parent are covered, so that no node is excepted any more.
      have walksNext : I.Walks t next fun _ => False := by
        refine ⟨descends.walks.remembers, descends.walks.met,
          descends.walks.pending, fun id isMet => ?_⟩
        refine (descends.walks.closed id isMet).imp_right fun closed => .inr ?_
        by_cases here : id = parent
        · subst here
          intro child member
          obtain ⟨slot, inside, atSlot⟩ := List.getElem_of_mem member
          refine descends.covers slot (.inl ?_) child
            (List.getElem?_eq_some_iff.mpr ⟨inside, atSlot⟩)
          rw [descends.length] at inside
          exact List.mem_range.mpr inside
        · exact closed.resolve_left here
      refine ⟨walksNext, fun d => d.nearer later fun same => ?_, descends.met, descends.outputs⟩
      -- The parent has left the nodes ahead, and meeting its operands has not added to the load.
      refine Nat.lt_of_le_of_lt (descends.load d same) ?_
      simp only [Frontier.load, ahead, List.length_cons]
      omega

/-- A walk ends if less and less is left to be done, or it fails where that is allowed. -/
theorem Invariant.Leads.runs_drain (leads : I.Leads fails transform) {s : S} {f : Frontier}
    (walks : I.Walks s f fun _ => False) (ends : fails ∨ Nonempty I.Descent)
    : I.Runs fails s (drain transform f) fun next t =>
        I.Drained t next
        ∧ (∀ id ∈ f.met, id ∈ next.met)
        ∧ (I.graph t).outputs = (I.graph s).outputs := by
  refine .untilDone
    (fun next t => I.Walks t next (fun _ => False) ∧ (∀ id ∈ f.met, id ∈ next.met)
      ∧ (I.graph t).outputs = (I.graph s).outputs)
    (fun p q => ∀ d : I.Descent, d.Nearer p q)
    (ends.imp_right fun ⟨d⟩ => Subrelation.wf (fun nearer => nearer d) d.wellFounded_nearer) ?_
    ⟨walks, fun _ => id, rfl⟩
  rintro next t ⟨walks, met, outputs⟩
  refine (leads.runs_visit walks).imp fun outcome u _ found => ?_
  cases outcome with
  | inl last =>
      exact ⟨⟨found.walks, fun id isMet => found.met id (met id isMet),
        found.outputs.trans outputs⟩, found.nearer⟩
  | inr last =>
      obtain ⟨rfl, idle, rfl⟩ := found
      exact ⟨⟨walks, idle⟩, met, outputs⟩

/-- The roots that are left are walked from in turn. -/
theorem Invariant.Leads.runs_preOrderRoots (leads : I.Leads fails transform)
    (ends : fails ∨ Nonempty I.Descent) {s : S} {done rest : List NodeId}
    {f : Frontier} (split : (I.graph s).outputs = done ++ rest)
    (roots : ∀ root ∈ rest, I.Live s root ∧ ((I.graph s).isOutput root = true ∨ fails))
    (drained : I.Drained s f) (doneMet : ∀ root ∈ done, root ∈ f.met)
    : I.Runs fails s
        (preOrderRoots transform ((rest.zipIdx done.length).map Prod.swap) f)
        fun _ t =>
          ∃ new next,
            (I.graph t).outputs = done ++ new
            ∧ List.Forall₂ (I.Succeeds t) rest new
            ∧ I.Drained t next
            ∧ ∀ root ∈ done ++ new, root ∈ next.met := by
  induction rest generalizing s done f with
  | nil => exact .pure ⟨[], f, split, .nil, drained, by rwa [List.append_nil]⟩
  | cons root rest ih =>
      obtain ⟨isLive, isOutput⟩ := roots root List.mem_cons_self
      rw [List.zipIdx_cons, List.map_cons, Prod.swap_prod_mk, preOrderRoots]
      refine I.runs_root split isLive isOutput (fun isOutput => leads.step isLive fun _ => isOutput)
        (fun found => ⟨⟨found.1.stands, found.1.finished, found.1.isOutput⟩, found.1.outputs⟩) ?_
      rintro new between t first ⟨answers, spent⟩ redirected
      have later := I.trans first redirected.later
      have succeeds := redirected.succeeds
      have newLive := I.live_of_stands succeeds.stands
      -- Only values are spent, and what replaces a root is an output.
      have unspent (id) (isSpent : I.Spent t id) : I.Spent s id := by
        refine (spent id (redirected.spent id isSpent)).resolve_right fun impossible => ?_
        cases ((I.isOutput_later later isLive).symm.trans succeeds.isOutput).symm.trans impossible.2
      have walksNew := (drained.walks.later later unspent fun id wasLive _ =>
        (redirected.children id).trans (answers.kept id wasLive)).meet newLive succeeds.finished
      refine .bind (leads.runs_drain walksNew ends) ?_
      rintro next u laterOn ⟨drainedNext, met, outputsNext⟩
      have rootsLeft (other) (member : other ∈ rest) :
          I.Live u other ∧ ((I.graph u).isOutput other = true ∨ fails) := by
        obtain ⟨otherLive, otherOutput⟩ := roots other (List.mem_cons_of_mem root member)
        have laterAll := I.trans later laterOn
        exact ⟨I.live_later laterAll otherLive,
          (I.isOutput_later laterAll otherLive).symm ▸ otherOutput⟩
      have splitNext : (I.graph u).outputs = (done ++ [new]) ++ rest := by
        rw [outputsNext, redirected.outputs, List.append_assoc, List.singleton_append]
      have rootsMet (other) (member : other ∈ done ++ [new]) : other ∈ next.met := by
        refine met other (Frontier.met_meet.mpr ?_)
        rcases List.mem_append.mp member with isDone | isNew
        · exact .inr (doneMet other isDone)
        · exact .inl (List.mem_singleton.mp isNew)
      have last := ih splitNext rootsLeft drainedNext rootsMet
      rw [List.length_append, List.length_singleton] at last
      refine last.imp ?_
      rintro _ v laterLast ⟨others, frontier, outputsLast, succeedsLast, drainedLast, metLast⟩
      have append : (done ++ [new]) ++ others = done ++ new :: others := by simp
      exact ⟨new :: others, frontier, outputsLast.trans append,
        .cons (succeeds.later (I.trans laterOn laterLast)) succeedsLast,
        drainedLast, append ▸ metLast⟩

/-- Once a walk from the roots is over, all that is reachable has been met. -/
theorem Invariant.Drained.finished {s : S} {f : Frontier} (drained : I.Drained s f)
    (roots : ∀ root ∈ (I.graph s).outputs, root ∈ f.met) {id : NodeId}
    (reachable : (I.graph s).Reachable id)
    : I.Live s id ∧ I.Finished s id := by
  obtain ⟨root, isRoot, path⟩ := reachable
  refine drained.walks.met id ?_
  induction path with
  | refl => exact roots root isRoot
  | @tail parent child _ uses ih =>
      have idle := drained.idle
      rcases drained.walks.closed parent ih with ahead | impossible | closes
      · simp [idle] at ahead
      · exact impossible.elim
      · exact closes child uses

/-- A pass that visits parents first ends in a later state, whose roots stand in for the roots it
started from. All that is reachable then is finished. -/
theorem Invariant.Leads.runs_preOrder_finished (leads : I.Leads fails transform) {s : S}
    (ends : fails ∨ Nonempty I.Descent) (unrooted : ¬ (I.graph s).Rooted → fails)
    (live : ∀ root ∈ (I.graph s).outputs, I.Live s root) (unspent : ∀ id, ¬ I.Spent s id)
    : I.Runs fails s (run .preOrder transform) fun _ t =>
        List.Forall₂ (I.Succeeds t) (I.graph s).outputs (I.graph t).outputs
        ∧ ∀ id, (I.graph t).Reachable id → I.Live t id ∧ I.Finished t id := by
  have roots (root) (member : root ∈ (I.graph s).outputs) :
      I.Live s root ∧ ((I.graph s).isOutput root = true ∨ fails) :=
    ⟨live root member, isOutput_or_fails unrooted member⟩
  rw [run, I.runs_read]
  cases empty : (I.graph s).outputs.isEmpty with
  | true => exact .of_error rfl (unrooted fun rooted => rooted.1 (List.isEmpty_iff.mp empty))
  | false =>
      simp only [Bool.false_eq_true, if_false]
      have start : I.Drained s { memo := {}, met := {}, pending := [] } :=
        ⟨⟨.empty unspent, by simp, by simp, by simp⟩, rfl⟩
      refine (leads.runs_preOrderRoots ends (List.nil_append _).symm roots start
        (by simp)).imp ?_
      rintro _ t _ ⟨new, next, outputs, succeeds, drained, met⟩
      rw [List.nil_append] at outputs met
      exact ⟨outputs ▸ succeeds, fun id reachable => drained.finished (outputs ▸ met) reachable⟩

end Pass

/-! ## Passes without memory -/

/-- Reading the graph changes nothing. -/
theorem Edit.read_bind (f : Graph → α) (next : α → Edit β) (g : Graph)
    : (Edit.read f >>= next) g = next (f g) g :=
  rfl

theorem Edit.bind_eq_ok {x : Edit α} {f : α → Edit β} {g h : Graph} {b : β}
    (ran : (x >>= f) g = .ok b h)
    : ∃ a between, x g = .ok a between ∧ f a between = .ok b h := by
  cases first : x g with
  | ok a between =>
      simp only [Bind.bind, EStateM.bind, first] at ran
      exact ⟨a, between, rfl, ran⟩
  | error e between =>
      simp only [Bind.bind, EStateM.bind, first] at ran
      cases ran

theorem Evolution.runs_read {E : Evolution Graph S} {fails : Fault → Prop} {s : S} {f : Graph → α}
    {next : α → Edit β} {post : β → S → Prop}
    : E.Runs fails s (Edit.read f >>= next) post ↔ E.Runs fails s (next (f (E.view s))) post :=
  ⟨.congr rfl, .congr rfl⟩

/-- The same states, seen as workspaces without memory. -/
def Evolution.workspace (E : Evolution Graph S) : Evolution (Workspace Unit) S where
  view s := ⟨E.view s, ()⟩
  Later := E.Later
  refl := E.refl
  trans := E.trans

theorem Evolution.Runs.ofEdit {E : Evolution Graph S} {fails : Fault → Prop} {s : S}
    {step : NodeId → Edit NodeId} {id : NodeId} {post : NodeId → S → Prop}
    (runs : E.Runs fails s (step id) post)
    : E.workspace.Runs fails s (Transform.ofEdit step id) post := by
  rw [Runs] at runs ⊢
  cases ran : step id (E.view s) with
  | error e g =>
      rw [ran] at runs
      simpa only [Transform.ofEdit, PassM.edit, workspace, ran] using runs
  | ok a g =>
      rw [ran] at runs
      obtain ⟨t, rfl, later, holds⟩ := runs
      simp only [Transform.ofEdit, PassM.edit, workspace, ran]
      exact ⟨t, rfl, later, holds⟩

theorem Evolution.Runs.pass {E : Evolution Graph S} {fails : Fault → Prop} {s : S}
    {order : PassOrder} {step : NodeId → Edit NodeId} {post : Unit → S → Prop}
    (runs : E.workspace.Runs fails s (Pass.run order (Transform.ofEdit step)) post)
    : E.Runs fails s (Edit.pass order step) post := by
  rw [Runs] at runs ⊢
  rw [Edit.pass]
  cases ran : Pass.run order (Transform.ofEdit step) (E.workspace.view s) with
  | error e w =>
      rw [ran] at runs
      have failed : Pass.run order (Transform.ofEdit step) ⟨E.view s, ()⟩ = .error e w := ran
      simpa only [failed] using runs
  | ok a w =>
      rw [ran] at runs
      obtain ⟨t, same, later, holds⟩ := runs
      have succeeded : Pass.run order (Transform.ofEdit step) ⟨E.view s, ()⟩ = .ok a w := ran
      simp only [succeeded]
      exact ⟨t, congrArg Workspace.graph same, later, holds⟩

/-- A pass over a graph without roots fails and makes no call. -/
theorem Pass.run_of_no_outputs {σ : Type} {order : PassOrder} {transform : Transform σ}
    {w : Workspace σ} (none : w.graph.outputs = [])
    : Pass.run order transform w = .error
      (.abandoned (.malformedInput "the expression has no outputs")) w := by
  unfold Pass.run
  change (if w.graph.outputs.isEmpty = true then _ else _ : PassM σ Unit) w = _
  rw [none]
  rfl

theorem Edit.outputs_ne_nil_of_pass {g h : Graph} {order : PassOrder} {step : NodeId → Edit NodeId}
    (accepted : Edit.pass order step g = .ok () h)
    : g.outputs ≠ [] := by
  intro none
  rw [Edit.pass, Pass.run_of_no_outputs none] at accepted
  cases accepted

end StreamExpr
