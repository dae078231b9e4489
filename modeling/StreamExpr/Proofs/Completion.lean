import StreamExpr.Proofs.Pass
import StreamExpr.Proofs.Reachability

/-! Passes that visit operands first finish all that they leave over.
The operands of a node are replaced before the node is handed to the transform. So a transform that
finishes nodes with finished operands leaves finished roots. It may also edit the node in place.
-/

namespace StreamExpr

open Relation Traversal

namespace Pass

variable {σ S : Type} {I : Invariant σ S} {fails : Prop} {transform : Transform σ}

/-- All operands of a node are finished. -/
def Invariant.Ready (I : Invariant σ S) (s : S) (id : NodeId) : Prop :=
  ∀ child ∈ (I.graph s).children id, I.Finished s child

theorem Invariant.Ready.later {s t : S} {id : NodeId} (ready : I.Ready s id) (later : I.Later s t)
    (kept : (I.graph t).children id = (I.graph s).children id)
    : I.Ready t id :=
  fun child isOperand => I.finished_later later (ready child (kept ▸ isOperand))

/-- What holds of a node that was handed over: a finished node stands in for it, and the operands of
other nodes are left alone. Its own operands are finished still, or it is finished itself. -/
structure Invariant.Completed (I : Invariant σ S) (fails : Prop) (s : S) (id new : NodeId) (t : S)
    : Prop where
  stands : I.Stands t id new
  finished : I.Finished t new
  isOutput : (I.graph s).isOutput id = true → (I.graph t).isOutput new = true ∨ fails
  due : I.Ready t id ∨ I.Finished t id
  kept : ∀ other, I.Live s other → other ≠ id → (I.graph t).children other
    = (I.graph s).children other
  outputs : (I.graph t).outputs = (I.graph s).outputs
  spent : ∀ other, I.Spent t other → I.Spent s other ∨ other = id ∧ (I.graph s).isOutput id = false

/-- A transform that keeps up the facts when it is handed nodes with finished operands, or once more
a node that is finished itself. -/
def Invariant.Completes (I : Invariant σ S) (fails : Prop) (transform : Transform σ) : Prop :=
  ∀ s id, I.Live s id → (I.Spent s id → (I.graph s).isOutput id = true) → I.Ready s id
    ∨ I.Finished s id → I.Runs fails s (transform id) (I.Completed fails s id)

/-- A node whose operands are finished, or that is remembered and finished itself. -/
def Invariant.Due (I : Invariant σ S) (s : S) (memo : Memo) (id : NodeId) : Prop :=
  I.Ready s id ∨ I.Finished s id ∧ id ∈ memo

theorem Invariant.Due.later {s t : S} {memo next : Memo} {id : NodeId} (due : I.Due s memo id)
    (later : I.Later s t) (grows : ∀ id ∈ memo, id ∈ next)
    (kept : (I.graph t).children id = (I.graph s).children id)
    : I.Due t next id :=
  due.imp (fun ready => ready.later later kept) (And.imp (I.finished_later later) (grows id))

/-- What holds once the operands in some slots of a node are replaced. -/
structure Invariant.Fills (I : Invariant σ S) (parent : NodeId) (operands : List NodeId)
    (slots : List Nat) (memo : Memo) (s : S) (next : Memo) (t : S)
    : Prop where
  remembers : I.Remembers t next
  visited : ∀ slot ∈ slots, ∀ child, operands[slot]? = some child → child ∈ next
  grows : ∀ id ∈ memo, id ∈ next
  only : ∀ id ∈ next, id ∈ memo ∨ id ∈ operands
  outputs : (I.graph t).outputs = (I.graph s).outputs
  kept : ∀ id, I.Live s id → id ≠ parent → id ∉ next → (I.graph t).children id
    = (I.graph s).children id
  due : ∀ id, I.Live s id → id ≠ parent → I.Due s memo id → I.Due t next id
  length : ((I.graph t).children parent).length = ((I.graph s).children parent).length
  others : ∀ slot ∉ slots, ((I.graph t).children parent)[slot]?
    = ((I.graph s).children parent)[slot]?
  finished : ∀ slot ∈ slots, ∀ child, ((I.graph t).children parent)[slot]? = some
    child → I.Finished t child

/-- What holds once an operand is found among the remembered ones, or is handed over and
remembered. -/
structure Invariant.Resolves (I : Invariant σ S) (memo : Memo) (s : S)
    (child done : NodeId) (next : Memo) (t : S)
    : Prop where
  later : I.Later s t
  remembers : I.Remembers t next
  stands : I.Stands t child done
  finished : I.Finished t done
  visited : child ∈ next
  grows : ∀ id ∈ memo, id ∈ next
  only : ∀ id ∈ next, id ∈ memo ∨ id = child
  outputs : (I.graph t).outputs = (I.graph s).outputs
  kept : ∀ id, I.Live s id → id ≠ child → (I.graph t).children id = (I.graph s).children id
  due : I.Due t next child

theorem Invariant.Remembers.resolves {s : S} {memo : Memo} {child done : NodeId}
    (remembers : I.Remembers s memo) (found : memo[child]? = some done) (due : I.Due s memo child)
    : I.Resolves memo s child done memo s :=
  ⟨I.refl s, remembers, (remembers.stands found).1, (remembers.stands found).2,
    Std.TreeMap.mem_iff_isSome_getElem?.mpr (by rw [found]; rfl), fun _ => id, fun _ => .inl,
    rfl, fun _ _ _ => rfl, due⟩

theorem Invariant.Completed.resolves {s t : S} {memo : Memo} {child done : NodeId}
    (completed : I.Completed fails s child done t) (later : I.Later s t)
    (remembers : I.Remembers s memo)
    : I.Resolves memo s child done (memo.insert child done) t where
  later := later
  remembers := by
    refine ⟨remembers.stands_insert later ⟨completed.stands, completed.finished⟩, fun isSpent => ?_⟩
    rcases completed.spent _ isSpent with before | ⟨rfl, _⟩
    · exact Std.TreeMap.mem_insert.mpr (.inr (remembers.spent before))
    · exact Std.TreeMap.mem_insert_self
  stands := completed.stands
  finished := completed.finished
  visited := Std.TreeMap.mem_insert_self
  grows _ member := Std.TreeMap.mem_insert.mpr (.inr member)
  only _ member := (Std.TreeMap.mem_insert.mp member).symm.imp_right fun same =>
    (Std.LawfulEqCmp.eq_of_compare same).symm
  outputs := completed.outputs
  kept := completed.kept
  due := completed.due.imp_right fun finished => ⟨finished, Std.TreeMap.mem_insert_self⟩

section Slots

variable {s t u : S} {parent child done : NodeId} {operands : List NodeId}
    {slot : Nat} {slots : List Nat}
  {memo next last : Memo}

/-- Where there are no operands there is nothing to replace. -/
theorem Invariant.Remembers.fills (remembers : I.Remembers s memo)
    (empty : ∀ slot ∈ slots, operands[slot]? = none)
    (ahead : ∀ slot ∈ slots, ((I.graph s).children parent)[slot]? = operands[slot]?)
    : I.Fills parent operands slots memo s memo s where
  remembers := remembers
  visited slot member child atSlot := by cases (empty slot member).symm.trans atSlot
  grows _ := id
  only _ := .inl
  outputs := rfl
  kept _ _ _ _ := rfl
  due _ _ _ := id
  length := rfl
  others _ _ := rfl
  finished slot member child atSlot := by
    rw [ahead slot member, empty slot member] at atSlot
    cases atSlot

/-- A slot is filled, and then the others are. -/
theorem Invariant.Fills.cons (first : I.Fills parent operands [slot] memo s next t)
    (rest : I.Fills parent operands slots next t last u) (later : I.Later s t)
    (laterOn : I.Later t u)
    : I.Fills parent operands (slot :: slots) memo s last u where
  remembers := rest.remembers
  visited other member child atOther := by
    rcases List.mem_cons.mp member with rfl | member
    · exact rest.grows child (first.visited other (.head _) child atOther)
    · exact rest.visited other member child atOther
  grows id member := rest.grows id (first.grows id member)
  only id member := (rest.only id member).elim (first.only id) .inr
  outputs := rest.outputs.trans first.outputs
  kept id live other unvisited := by
    have unvisitedFirst : id ∉ next := fun member => unvisited (rest.grows id member)
    rw [rest.kept id (I.live_later later live) other unvisited,
      first.kept id live other unvisitedFirst]
  due id live other due := rest.due id (I.live_later later live) other (first.due id live other due)
  length := rest.length.trans first.length
  others other outside := by
    have outsideFirst : other ∉ [slot] := fun member =>
      outside (List.mem_singleton.mp member ▸ .head _)
    rw [rest.others other fun member => outside (.tail _ member), first.others other outsideFirst]
  finished other member child atOther := by
    by_cases inRest : other ∈ slots
    · exact rest.finished other inRest child atOther
    · rw [rest.others other inRest] at atOther
      have here := (List.mem_cons.mp member).resolve_right inRest
      exact I.finished_later laterOn
        (first.finished other (List.mem_singleton.mpr here) child atOther)

/-- Once an operand is found or handed over, its slot is filled. -/
theorem Invariant.Resolves.runs_pointSlot (found : I.Resolves memo s child done next t)
    (isLive : I.Live s parent) (notParent : parent ≠ child)
    (atSlot : ((I.graph s).children parent)[slot]? = some child)
    (listed : operands[slot]? = some child)
    : I.Runs fails t (pointSlot parent slot child done) fun _ =>
      I.Fills parent operands [slot] memo s next := by
  have ownBefore := found.kept parent isLive notParent
  refine (I.runs_pointSlot (I.live_later found.later isLive)
    (ownBefore ▸ atSlot) found.stands).imp ?_
  rintro _ u laterOn ⟨children, outputs, spent⟩
  have own : (I.graph u).children parent = ((I.graph s).children parent).set slot done := by
    rw [children, if_pos rfl, ownBefore]
  have kept (id) (live : I.Live s id) (other : id ≠ parent) (notChild : id ≠ child)
      : (I.graph u).children id = (I.graph s).children id := by
    rw [children, if_neg other, found.kept id live notChild]
  refine ⟨found.remembers.later laterOn spent, fun other member operand atOther => ?_, found.grows,
    fun id member => (found.only id member).imp_right fun (same : id = child) =>
      same ▸ List.mem_of_getElem? listed,
    outputs.trans found.outputs, fun id live other unvisited => ?_, fun id live other due => ?_,
    by rw [own, List.length_set], fun other outside => ?_, fun other member operand atOther => ?_⟩
  · rw [List.mem_singleton.mp member] at atOther
    exact Option.some.inj (listed.symm.trans atOther) ▸ found.visited
  · exact kept id live other fun same => unvisited (same ▸ found.visited)
  · by_cases isChild : id = child
    · have same : (I.graph u).children child = (I.graph t).children child := by
        rw [children, if_neg (Ne.symm notParent)]
      exact isChild ▸ found.due.later laterOn (fun _ member => member) same
    · exact due.later (I.trans found.later laterOn) found.grows (kept id live other isChild)
  · rw [own, List.getElem?_set_ne fun same : slot = other =>
      outside (same ▸ List.mem_singleton_self _)]
  · rw [own, List.mem_singleton.mp member, List.getElem?_set_self
      (List.getElem?_eq_some_iff.mp atSlot).1] at atOther
    exact Option.some.inj atOther ▸ I.finished_later laterOn found.finished

/-- The operands in some slots of a node are replaced by finished ones. Witness: each slot is filled
once, and what it held is due. -/
theorem Invariant.Completes.runs_replaceSlots (completes : I.Completes fails transform)
    (isLive : I.Live s parent) (remembers : I.Remembers s memo) (distinct : slots.Nodup)
    (notOwn : parent ∉ operands) (ahead : ∀ slot ∈ slots,
    ((I.graph s).children parent)[slot]? = operands[slot]?)
    (live : ∀ child ∈ operands, I.Live s child) (due : ∀ child ∈ operands, I.Due s memo child)
    : I.Runs fails s (replaceSlots transform parent slots memo)
      (I.Fills parent operands slots memo s) := by
  induction slots generalizing s memo with
  | nil => exact .pure (remembers.fills (fun _ member => by cases member) ahead)
  | cons slot slots ih =>
      obtain ⟨isNew, distinct⟩ := List.nodup_cons.mp distinct
      have goesOn {t : S} {next : Memo} (later : I.Later s t)
        (first : I.Fills parent operands [slot] memo s next t)
          : I.Runs fails t (replaceSlots transform parent slots next)
              (I.Fills parent operands (slot :: slots) memo s) := by
        refine (ih (I.live_later later isLive) first.remembers distinct (fun other member => ?_)
          (fun other member => I.live_later later (live other member)) fun other member =>
            first.due other (live other member) (fun same => notOwn (same ▸ member))
              (due other member)).imp
          fun _ _ laterOn rest => first.cons rest later laterOn
        have apart : other ∉ [slot] := fun here => isNew (List.mem_singleton.mp here ▸ member)
        rw [first.others other apart, ahead other (.tail _ member)]
      rw [replaceSlots, I.runs_read, ahead slot (.head _)]
      cases atSlot : operands[slot]? with
      | none =>
          exact goesOn (I.refl s)
            (remembers.fills (fun _ member => List.mem_singleton.mp member ▸ atSlot)
            fun _ member => List.mem_singleton.mp member ▸ ahead slot (.head _))
      | some child =>
          have isOperand := List.mem_of_getElem? atSlot
          have fills {t : S} {done : NodeId} {next : Memo}
            (found : I.Resolves memo s child done next t)
              : I.Runs fails t (pointSlot parent slot child done >>= fun _ =>
                replaceSlots transform parent slots next)
                  (I.Fills parent operands (slot :: slots) memo s) :=
            .bind (found.runs_pointSlot isLive (fun same => notOwn (same ▸ isOperand))
              ((ahead slot (.head _)).trans atSlot) atSlot) fun _ _ laterOn first =>
                goesOn (I.trans found.later laterOn) first
          cases found : memo[child]? with
          | some done =>
              simp only [found]
              exact fills (remembers.resolves found (due child isOperand))
          | none =>
              simp only [found]
              refine .bind (completes s child (live child isOperand)
                (fun isSpent => (remembers.unspent found isSpent).elim)
                ((due child isOperand).imp_right And.left))
                fun done t later completed => ?_
              exact fills (completed.resolves later remembers)

end Slots

/-- The operands of all nodes of an order are replaced by finished ones. Witness: induction on the
rest of the order. What is remembered stands before the next node, so that node has its operands
still. -/
theorem Invariant.Completes.runs_replaceAll (completes : I.Completes fails transform) {s : S}
    {operands : NodeId → List NodeId} {seen rest : List NodeId} {memo : Memo}
    (linear : Linear operands (seen ++ rest).reverse) (live : ∀ id ∈ seen ++ rest, I.Live s id)
    (ahead : ∀ id ∈ rest, (I.graph s).children id = operands id) (remembers : I.Remembers s memo)
    (before : ∀ id ∈ memo, id ∈ seen) (due : ∀ id ∈ seen, I.Due s memo id)
    (visited : ∀ parent ∈ seen, ∀ child ∈ operands parent, child ∈ memo)
    : I.Runs fails s (replaceAll transform rest memo) fun _ t =>
        (∀ id ∈ seen ++ rest, I.Ready t id ∨ I.Finished t id)
        ∧ (∀ parent ∈ seen ++ rest, ∀ child ∈ operands parent, ∃ new,
          I.Stands t child new ∧ I.Finished t new)
        ∧ (I.graph t).outputs = (I.graph s).outputs := by
  induction rest generalizing s seen memo with
  | nil =>
      simp only [List.append_nil]
      refine .pure ⟨fun id member => (due id member).imp_right And.left,
        fun parent member child isOperand => ?_, rfl⟩
      have known := Std.TreeMap.mem_iff_isSome_getElem?.mp (visited parent member child isOperand)
      obtain ⟨new, found⟩ := Option.isSome_iff_exists.mp known
      exact ⟨new, remembers.stands found⟩
  | cons parent rest ih =>
      -- The operands of the node were listed before it, and it is listed only once.
      have order : (seen ++ parent :: rest).reverse = rest.reverse ++ parent :: seen.reverse := by
        simp
      have earlier (child) (isOperand : child ∈ operands parent) : child ∈ seen := by
        rw [order] at linear
        exact List.mem_reverse.mp (linear.operand_mem_of_append isOperand)
      have nodup : (seen ++ parent :: rest).Nodup := List.nodup_reverse.mp linear.nodup
      have apart {id} (member : id ∈ seen) (other : id ∈ parent :: rest) : False :=
        List.disjoint_of_nodup_append nodup member other
      have onlyOnce : parent ∉ rest := (List.nodup_cons.mp (List.Nodup.of_append_right nodup)).1
      have own := ahead parent List.mem_cons_self
      have liveSeen {id} (member : id ∈ seen)
        : I.Live s id := live id (List.mem_append_left _ member)
      have liveRest {id} (member : id ∈ parent :: rest)
        : I.Live s id := live id (List.mem_append_right _ member)
      rw [replaceAll, I.runs_read, own]
      refine .bind (completes.runs_replaceSlots (liveRest (.head _)) remembers List.nodup_range
        (fun isOperand => apart (earlier parent isOperand) (.head _)) (fun slot _ => by rw [own])
        (fun child isOperand => liveSeen (earlier child isOperand))
        fun child isOperand => due child (earlier child isOperand)) ?_
      intro next t later fills
      have nextSeen (id) (member : id ∈ next)
        : id ∈ seen := (fills.only id member).elim (before id) (earlier id)
      have appended : seen ++ parent :: rest = (seen ++ [parent]) ++ rest := by simp
      rw [appended]
      refine (ih (appended ▸ linear)
        (fun id member => I.live_later later (live id (appended ▸ member))) (fun id member => ?_)
        fills.remembers (fun id member => List.mem_append_left _ (nextSeen id member))
        (fun id member => ?_) fun other member child isOperand => ?_).imp fun _ u _ found =>
          ⟨found.1, found.2.1, found.2.2.trans fills.outputs⟩
      · rw [fills.kept id (liveRest (.tail _ member)) (fun same => onlyOnce (same ▸ member))
          fun isNext => apart (nextSeen id isNext) (.tail _ member), ahead id (.tail _ member)]
      · rcases List.mem_append.mp member with earlier | here
        · exact fills.due id (liveSeen earlier)
            (fun same => apart earlier (same ▸ .head _)) (due id earlier)
        · refine .inl fun child isOperand => ?_
          rw [List.mem_singleton.mp here] at isOperand
          obtain ⟨slot, inside, atSlot⟩ := List.getElem_of_mem isOperand
          refine fills.finished slot (List.mem_range.mpr ?_) child
            (List.getElem?_eq_some_iff.mpr ⟨inside, atSlot⟩)
          rwa [fills.length, own] at inside
      · rcases List.mem_append.mp member with old | here
        · exact fills.grows child (visited other old child isOperand)
        · obtain rfl := List.mem_singleton.mp here
          obtain ⟨slot, inside, rfl⟩ := List.getElem_of_mem isOperand
          exact fills.visited slot (List.mem_range.mpr inside) _ (List.getElem?_eq_getElem inside)

/-- The roots that are left are transformed in turn. -/
theorem Invariant.Completes.runs_postOrderRoots (completes : I.Completes fails transform) {s : S}
    {done rest : List NodeId} (split : (I.graph s).outputs = done ++ rest)
    (roots : ∀ root ∈ rest,
      I.Live s root ∧ ((I.graph s).isOutput root = true ∨ fails)
      ∧ (I.Ready s root ∨ I.Finished s root))
    : I.Runs fails s (postOrderRoots transform ((rest.zipIdx done.length).map Prod.swap))
        fun _ t =>
          ∃ new, (I.graph t).outputs = done ++ new ∧ List.Forall₂ (I.Succeeds t) rest new := by
  induction rest generalizing s done with
  | nil => exact .pure ⟨[], split, .nil⟩
  | cons root rest ih =>
      obtain ⟨isLive, isOutput, due⟩ := roots root List.mem_cons_self
      rw [List.zipIdx_cons, List.map_cons, Prod.swap_prod_mk, postOrderRoots]
      refine I.runs_root split isLive isOutput
        (fun isOutput => completes s root isLive (fun _ => isOutput) due)
        (fun found => ⟨⟨found.stands, found.finished, found.isOutput⟩, found.outputs⟩) ?_
      intro new between t first completed redirected
      have later := I.trans first redirected.later
      have rootsLeft (other) (member : other ∈ rest)
          : I.Live t other ∧ ((I.graph t).isOutput other = true ∨ fails)
            ∧ (I.Ready t other ∨ I.Finished t other) := by
        obtain ⟨otherLive, otherOutput, otherDue⟩ := roots other (List.mem_cons_of_mem root member)
        refine ⟨I.live_later later otherLive,
          (I.isOutput_later later otherLive).symm ▸ otherOutput, ?_⟩
        have kept := redirected.children other
        by_cases same : other = root
        · exact same ▸ completed.due.imp (·.later redirected.later (same ▸ kept))
            (I.finished_later redirected.later)
        · exact otherDue.imp (·.later later (kept.trans (completed.kept other otherLive same)))
            (I.finished_later later)
      have splitNext : (I.graph t).outputs = (done ++ [new]) ++ rest := by
        rw [redirected.outputs, List.append_assoc, List.singleton_append]
      have last := ih splitNext rootsLeft
      rw [List.length_append, List.length_singleton] at last
      refine last.imp ?_
      rintro _ u laterLast ⟨others, outputsLast, succeedsLast⟩
      exact ⟨new :: others, by rw [outputsLast, List.append_assoc, List.singleton_append],
        .cons (redirected.succeeds.later laterLast) succeedsLast⟩

/-- A pass that visits operands first leaves finished roots, which stand in for the roots it started
from. A finished node stands in for every node that was reachable. -/
theorem Invariant.Completes.runs_postOrder (completes : I.Completes fails transform) {s : S}
    (acyclic : (I.graph s).Acyclic) (unrooted : ¬ (I.graph s).Rooted → fails)
    (live : ∀ id, (I.graph s).Reachable id → I.Live s id) (unspent : ∀ id, ¬ I.Spent s id)
    : I.Runs fails s (run .postOrder transform) fun _ t =>
        List.Forall₂ (I.Succeeds t) (I.graph s).outputs (I.graph t).outputs
        ∧ ∀ id, (I.graph s).Reachable id → ∃ new, I.Stands t id new ∧ I.Finished t new := by
  rw [run, I.runs_read]
  cases empty : (I.graph s).outputs.isEmpty with
  | true => exact .of_error rfl (unrooted fun rooted => rooted.1 (List.isEmpty_iff.mp empty))
  | false =>
      simp only [Bool.false_eq_true, if_false]
      rw [I.runs_read]
      have linear : Linear (I.graph s).children
          ([] ++ (I.graph s).postOrder (I.graph s).children (I.graph s).outputs).reverse :=
        acyclic.linear_postOrder
      refine .bind (completes.runs_replaceAll linear
        (fun id member => live id (mem_postOrder.mp member)) (fun _ _ => rfl) (.empty unspent)
        (by simp) (by simp) (by simp)) ?_
      rintro _ t later ⟨due, replaced, outputs⟩
      have rootsLater (root) (member : root ∈ (I.graph s).outputs)
          : I.Live t root ∧ ((I.graph t).isOutput root = true ∨ fails)
            ∧ (I.Ready t root ∨ I.Finished t root) := by
        have isLive := live root (.root member)
        exact ⟨I.live_later later isLive,
          (I.isOutput_later later isLive).symm ▸ isOutput_or_fails unrooted member,
          due root (mem_postOrder.mpr (.root member))⟩
      refine (completes.runs_postOrderRoots
        (outputs.trans (List.nil_append _).symm) rootsLater).imp ?_
      rintro _ u laterOn ⟨new, outputsNew, succeeds⟩
      rw [List.nil_append] at outputsNew
      refine ⟨outputsNew ▸ succeeds, fun id reachable => ?_⟩
      obtain ⟨root, isRoot, path⟩ := reachable
      cases path with
      | refl =>
          obtain ⟨place, inside, rfl⟩ := List.getElem_of_mem isRoot
          have found := (List.forall₂_iff_get.mp succeeds).2 place inside
            (succeeds.length_eq ▸ inside)
          exact ⟨_, found.stands, found.finished⟩
      | tail path uses =>
          obtain ⟨new, stands, finished⟩ := replaced _ (mem_postOrder.mpr ⟨root, isRoot, path⟩) id
            uses
          exact ⟨new, I.stands_later laterOn stands, I.finished_later laterOn finished⟩

theorem Invariant.Admits.completes (admits : I.Admits fails transform)
    : I.Completes fails transform := by
  intro s id isLive unspent due
  refine (admits.step isLive unspent).imp ?_
  rintro new t later ⟨answers, spent⟩
  exact ⟨answers.stands, answers.finished, answers.isOutput,
    due.imp (·.later later (answers.kept id isLive)) (I.finished_later later),
    fun other otherLive _ =>
      answers.kept other otherLive, answers.outputs, spent⟩

/-- A pass that visits operands first ends in a later state, whose roots stand in for the roots it
started from. -/
theorem Invariant.Admits.runs_postOrder (admits : I.Admits fails transform) {s : S}
    (acyclic : (I.graph s).Acyclic) (unrooted : ¬ (I.graph s).Rooted → fails)
    (live : ∀ root ∈ (I.graph s).outputs, I.Live s root) (unspent : ∀ id, ¬ I.Spent s id)
    : I.Runs fails s (run .postOrder transform) fun _ t =>
        List.Forall₂ (I.Succeeds t) (I.graph s).outputs (I.graph t).outputs :=
  (admits.completes.runs_postOrder acyclic unrooted
    (fun id reachable =>
      Traversal.postOrder_of_closed admits.operand live id (mem_postOrder.mpr reachable))
    unspent).imp fun _ _ _ => And.left

/-! ## Nodes that are edited in place -/

/-- Facts that a pass keeps up whose transform answers the nodes it is given. -/
def Invariant.inPlace (E : Evolution Graph S) (Live : NodeId → Prop)
    (Done Spent : S → NodeId → Prop) (later : ∀ {s t id}, E.Later s t → Done s id → Done t id)
    (isOutput : ∀ {s t id}, E.Later s t → Live id → (E.view t).isOutput id = (E.view s).isOutput id)
    : Invariant Unit S where
  toEvolution := E.workspace
  Live _ := Live
  Stands _ old new := new = old ∧ Live old
  Spent := Spent
  Finished := Done
  live_later _ := id
  stands_later _ := id
  finished_later := later
  stands_refl isLive := ⟨rfl, isLive⟩
  live_of_stands stands := stands.1 ▸ stands.2
  isOutput_later := isOutput
  point := by
    rintro s parent slot child _ _ atSlot ⟨rfl, _⟩
    exact ⟨s, congrArg (Workspace.mk · ()) (Graph.setChild_self atSlot).symm, E.refl s, fun _ => id⟩
  redirect := by
    rintro s index root _ atIndex ⟨rfl, _⟩
    exact ⟨s, congrArg (Workspace.mk · ()) (Graph.setOutput_self atIndex).symm,
      E.refl s, fun _ => id⟩

/-- A pass in place that visits operands first is done with every node that is reachable in a graph
without cycles, and keeps the roots. -/
theorem Invariant.Completes.runs_inPlace {E : Evolution Graph S} {Live : NodeId → Prop}
    {Done Spent : S → NodeId → Prop} {later isOutput} {step : NodeId → Edit NodeId}
    (completes : (Invariant.inPlace E Live Done Spent later isOutput).Completes True
    (Transform.ofEdit step)) {s : S} (acyclic : (E.view s).Acyclic)
    (live : ∀ id, (E.view s).Reachable id → Live id) (unspent : ∀ id, ¬ Spent s id)
    : E.Runs True s (Edit.pass .postOrder step) fun _ t =>
        (∀ id, (E.view s).Reachable id → Done t id) ∧ (E.view t).outputs = (E.view s).outputs := by
  refine .pass ((completes.runs_postOrder acyclic (fun _ => trivial) live unspent).imp ?_)
  rintro _ t _ ⟨succeeds, replaced⟩
  have same := succeeds.imp (S := Eq) fun _ _ found => found.stands.1.symm
  rw [List.forall₂_eq_eq_eq] at same
  refine ⟨fun id reachable => ?_, same.symm⟩
  obtain ⟨new, ⟨rfl, _⟩, done⟩ := replaced id reachable
  exact done

end Pass

end StreamExpr
