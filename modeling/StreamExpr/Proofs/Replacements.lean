import StreamExpr.Pass.Catalog
import StreamExpr.Proofs.Calls

/-! Replaced operands.
Slots are visited one by one, and what a node was replaced by is remembered.
-/

namespace StreamExpr

open Pass Relation

variable {σ : Type}

/-! ## Replacing operands slot by slot -/

/-- Operands some of which have been replaced, with the slots that are still ahead. -/
structure Visits (R : NodeId → NodeId → Prop) (first now : List NodeId) (slots : List Nat)
    : Prop where
  nodup : slots.Nodup
  length : now.length = first.length
  ahead : ∀ slot ∈ slots, now[slot]? = first[slot]?
  done : ∀ slot, slot ∉ slots → ∀ child, first[slot]? = some child →
    ∃ operand, now[slot]? = some operand ∧ R child operand

namespace Visits

variable {R : NodeId → NodeId → Prop} {first now : List NodeId} {slot : Nat} {slots : List Nat}

theorem all (R : NodeId → NodeId → Prop) (first : List NodeId)
    : Visits R first first (List.range first.length) where
  nodup := List.nodup_range
  length := rfl
  ahead _ _ := rfl
  done _ notAhead _ atSlot :=
    (notAhead (List.mem_range.mpr (List.getElem?_eq_some_iff.mp atSlot).1)).elim

theorem imp {Q : NodeId → NodeId → Prop} (visits : Visits R first now slots)
    (implied : ∀ child operand, R child operand → Q child operand)
    : Visits Q first now slots :=
  { visits with
    done := fun slot notAhead child atSlot =>
      (visits.done slot notAhead child atSlot).imp fun operand =>
        And.imp_right (implied child operand) }

theorem skip (visits : Visits R first now (slot :: slots)) (none : now[slot]? = none)
    : Visits R first now slots where
  nodup := (List.nodup_cons.mp visits.nodup).2
  length := visits.length
  ahead other member := visits.ahead other (List.mem_cons_of_mem slot member)
  done other notAhead child atSlot := by
    refine visits.done other (fun member => ?_) child atSlot
    rcases List.mem_cons.mp member with rfl | later
    · rw [visits.ahead other List.mem_cons_self, atSlot] at none
      cases none
    · exact notAhead later

theorem set (visits : Visits R first now (slot :: slots)) {child new : NodeId}
    (atSlot : now[slot]? = some child) (holds : R child new)
    : Visits R first (now.set slot new) slots where
  nodup := (List.nodup_cons.mp visits.nodup).2
  length := by rw [List.length_set, visits.length]
  ahead other member := by
    have apart : slot ≠ other := by
      rintro rfl
      exact (List.nodup_cons.mp visits.nodup).1 member
    rw [List.getElem?_set_ne apart]
    exact visits.ahead other (List.mem_cons_of_mem slot member)
  done other notAhead old atOther := by
    by_cases same : slot = other
    · subst same
      rw [← visits.ahead slot List.mem_cons_self, atSlot] at atOther
      obtain rfl := Option.some.inj atOther
      exact ⟨new, List.getElem?_set_self (List.getElem?_eq_some_iff.mp atSlot).1, holds⟩
    · rw [List.getElem?_set_ne same]
      refine visits.done other (fun member => ?_) old atOther
      exact (List.mem_cons.mp member).elim (fun here => same here.symm) notAhead

theorem forall₂ (visits : Visits R first now [])
    : List.Forall₂ R first now := by
  refine List.forall₂_iff_get.mpr ⟨visits.length.symm, fun slot inFirst inNow => ?_⟩
  obtain ⟨operand, atSlot, holds⟩ :=
    visits.done slot List.not_mem_nil _ (List.getElem?_eq_getElem inFirst)
  rw [List.getElem?_eq_getElem inNow] at atSlot
  obtain rfl := Option.some.inj atSlot
  exact holds

end Visits

/-! ## What is remembered -/

theorem Pass.Memo.getElem?_insert (memo : Memo) (id done other : NodeId)
    : (memo.insert id done)[other]? = if id = other then some done else memo[other]? := by
  rw [Std.TreeMap.getElem?_insert]
  simp only [Std.compare_eq_iff_eq]

theorem Pass.Memo.getElem?_insertIfNew (memo : Memo) (id done other : NodeId)
    : (memo.insertIfNew id done)[other]?
      = if id = other ∧ memo[id]? = none then some done else memo[other]? := by
  rw [Std.TreeMap.getElem?_insertIfNew]
  simp only [Std.compare_eq_iff_eq, Std.TreeMap.mem_iff_isSome_getElem?]
  congr 1
  cases memo[id]? <;> simp

/-- What is remembered is not forgotten. -/
theorem Pass.Memo.getElem?_insertIfNew_of_some {memo : Memo} {old other : NodeId}
    (found : memo[old]? = some other) (id done : NodeId)
    : (memo.insertIfNew id done)[old]? = some other := by
  rw [Memo.getElem?_insertIfNew]
  split
  case isTrue isNew =>
    obtain ⟨rfl, isNew⟩ := isNew
    rw [isNew] at found
    cases found
  case isFalse => exact found

/-- The replacements that are remembered are the answers to the calls. A node that was answered
before it was handed to the transform stands for itself, and is never handed over. -/
structure Remembers (start : Graph) (calls : List Call) (memo : Memo) : Prop where
  once : ((calls.map Call.id).filter (· ∉ start.outputs)).Nodup
  handed : ∀ call ∈ calls, call.id ∉ start.outputs → memo[call.id]? = some call.answer
  known : ∀ {id done : NodeId}, memo[id]? = some done →
    (∃ call ∈ calls, call.id = id ∧ call.id ∉ start.outputs ∧ call.answer = done)
    ∨ done = id ∧ (∀ call ∈ calls, call.id ∉ start.outputs → call.id ≠ id)
      ∧ ∃ call ∈ calls, call.answer = id

namespace Remembers

variable {start : Graph} {calls : List Call} {memo : Memo}

theorem empty (start : Graph)
    : Remembers start [] {} :=
  ⟨List.nodup_nil, by simp, by simp⟩

theorem root (remembers : Remembers start calls memo) {call : Call}
    (isRoot : call.id ∈ start.outputs)
    : Remembers start (call :: calls) memo where
  once := by
    rw [List.map_cons, List.filter_cons_of_neg (by simpa using isRoot)]
    exact remembers.once
  handed other member noRoot := by
    rcases List.mem_cons.mp member with rfl | before
    · exact (noRoot isRoot).elim
    · exact remembers.handed other before noRoot
  known {id done} found := by
    rcases remembers.known found with ⟨other, member, isCall⟩ | ⟨same, unhanded, other, member,
      answered⟩
    · exact .inl ⟨other, List.mem_cons_of_mem call member, isCall⟩
    · refine .inr ⟨same, fun later isLater noRoot => ?_, other, List.mem_cons_of_mem call member,
        answered⟩
      rcases List.mem_cons.mp isLater with rfl | before
      · exact (noRoot isRoot).elim
      · exact unhanded later before noRoot

/-- A node that is not remembered has not been handed over. -/
theorem unhanded (remembers : Remembers start calls memo) {id : NodeId} (isNew : memo[id]? = none)
    {call : Call} (member : call ∈ calls) (noRoot : call.id ∉ start.outputs)
    : call.id ≠ id := by
  rintro rfl
  rw [remembers.handed call member noRoot] at isNew
  cases isNew

theorem node (remembers : Remembers start calls memo) (call : Call) (isNew : memo[call.id]? = none)
    (noRoot : call.id ∉ start.outputs)
    : Remembers start (call :: calls) (memo.insert call.id call.answer) where
  once := by
    rw [List.map_cons, List.filter_cons_of_pos (by simpa using noRoot)]
    refine List.nodup_cons.mpr ⟨fun member => ?_, remembers.once⟩
    obtain ⟨handed, isOther⟩ := List.mem_filter.mp member
    obtain ⟨other, isCall, same⟩ := List.mem_map.mp handed
    exact remembers.unhanded isNew isCall (same ▸ noRoot) same
  handed other member otherNoRoot := by
    rw [Memo.getElem?_insert]
    rcases List.mem_cons.mp member with rfl | before
    · rw [if_pos rfl]
    · rw [if_neg (remembers.unhanded isNew before otherNoRoot).symm]
      exact remembers.handed other before otherNoRoot
  known {id done} found := by
    rw [Memo.getElem?_insert] at found
    split at found
    case isTrue same =>
      exact .inl ⟨call, List.mem_cons_self, same, noRoot, Option.some.inj found⟩
    case isFalse apart =>
      rcases remembers.known found with ⟨other, member, isCall⟩ | ⟨same, unhanded, other, member,
        answered⟩
      · exact .inl ⟨other, List.mem_cons_of_mem call member, isCall⟩
      · refine .inr ⟨same, fun later isLater laterNoRoot => ?_, other,
          List.mem_cons_of_mem call member, answered⟩
        rcases List.mem_cons.mp isLater with rfl | before
        · exact apart
        · exact unhanded later before laterNoRoot

/-- An answer that is not remembered may be noted as standing for itself. -/
theorem keep (remembers : Remembers start calls memo) {call : Call} (member : call ∈ calls)
    : Remembers start calls (memo.insertIfNew call.answer call.answer) where
  once := remembers.once
  handed other isCall noRoot :=
    Memo.getElem?_insertIfNew_of_some (remembers.handed other isCall noRoot) _ _
  known {id done} found := by
    rw [Memo.getElem?_insertIfNew] at found
    split at found
    case isTrue isNew =>
      obtain ⟨rfl, isNew⟩ := isNew
      refine .inr ⟨(Option.some.inj found).symm, fun other isCall noRoot => ?_, call, member, rfl⟩
      exact remembers.unhanded isNew isCall noRoot
    case isFalse => exact remembers.known found

end Remembers

end StreamExpr
