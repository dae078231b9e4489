import Mathlib.Data.List.Perm.Basic
import Mathlib.Data.List.Sort
import StreamExpr.Allocation

/-! Linear scan keeps intervals that overlap apart.
Between two intervals the registers that are held or free are exactly the first ones, each once. An
interval that overlaps the next one still holds its register, so the next one gets another.
-/

namespace StreamExpr.Allocation

/-- The two intervals are live together at some instruction, where an interval that ends at an
instruction gives way to one that starts there. -/
def Overlap (a b : LiveInterval) : Prop :=
  a.start < b.stop ∧ b.start < a.stop

/-- The virtual registers of some intervals are different, and below a bound. -/
structure Distinct (size : Nat) (intervals : List LiveInterval) : Prop where
  nodup : (intervals.map LiveInterval.register).Nodup
  lt : ∀ i ∈ intervals, i.register < size

/-- The physical register that a scan has given to an interval. -/
def Scan.place (s : Scan) (i : LiveInterval) : Nat :=
  s.physical.getD i.register 0

/-- The registers held and the free ones are the first ones, each once. -/
def Scan.Pooled (s : Scan) : Prop :=
  (s.active.map s.place ++ s.free).Perm (List.range (s.active.length + s.free.length))

/-- What holds of a scan that has processed some intervals. -/
structure Scan.Processed (s : Scan) (size : Nat) (done : List LiveInterval) : Prop where
  size : s.physical.size = size
  pooled : s.Pooled
  activeDone : ∀ i ∈ s.active, i ∈ done
  /-- An interval that holds no register has ended where some interval starts. -/
  expired : ∀ i ∈ done, i ∉ s.active → ∃ j ∈ done, i.stop ≤ j.start
  separated : ∀ a ∈ done, ∀ b ∈ done, a ≠ b → Overlap a b → s.place a ≠ s.place b
  counted : ∀ i ∈ done, s.place i < s.count

theorem Scan.processed_start (registers : Nat)
    : (Scan.start registers).Processed registers [] := by
  refine ⟨by simp [Scan.start], ?_, by simp [Scan.start], by simp, by simp, by simp⟩
  simp [Scan.Pooled, Scan.start]

/-- Intervals that expire give their registers to the free ones. -/
theorem Scan.expire_perm (s : Scan) (start : Nat)
    : ((s.expire start).active.map (s.expire start).place ++ (s.expire start).free).Perm
        (s.active.map s.place ++ s.free) := by
  have parts
      : (s.active.filter (start < ·.stop) ++ s.active.filter (·.stop ≤ start)).Perm s.active := by
    have negated : s.active.filter (·.stop ≤ start)
        = s.active.filter fun i => !decide (start < i.stop) :=
      List.filter_congr fun i _ => by simp only [← decide_not, Nat.not_lt]
    rw [negated]
    exact List.filter_append_perm _ _
  have mapped := (parts.map s.place).append_right s.free
  rw [List.map_append, List.append_assoc] at mapped
  exact mapped

theorem Scan.length_expire (s : Scan) (start : Nat)
    : (s.expire start).active.length + (s.expire start).free.length
      = s.active.length + s.free.length := by
  have lengths := (s.expire_perm start).length_eq
  simpa only [List.length_append, List.length_map] using lengths

theorem Scan.Pooled.expire {s : Scan} (pooled : s.Pooled) (start : Nat)
    : (s.expire start).Pooled := by
  rw [Scan.Pooled, Scan.length_expire]
  exact (s.expire_perm start).trans pooled

/-- The register that an interval gets next, and those that stay free. -/
def Scan.next (s : Scan) : Nat × List Nat :=
  match s.free with
  | register :: free => (register, free)
  | [] => (s.active.length, [])

theorem Scan.assign_eq (s : Scan) (i : LiveInterval)
    : s.assign i
      = { physical := s.physical.setIfInBounds i.register s.next.1
          active := s.active ++ [i]
          free := s.next.2
          count := max s.count (s.next.1 + 1) } := by
  rfl

/-- With the next register taken from the free ones, the registers are again the first ones. -/
theorem Scan.Pooled.next {s : Scan} (pooled : s.Pooled)
    : (s.active.map s.place ++ s.next.1 :: s.next.2).Perm
        (List.range (s.active.length + 1 + s.next.2.length)) := by
  rw [Scan.Pooled] at pooled
  rw [Scan.next]
  cases free : s.free with
  | cons register rest =>
      rw [free, List.length_cons] at pooled
      simpa only [Nat.add_right_comm, Nat.add_assoc, Nat.add_comm 1] using pooled
  | nil =>
      rw [free, List.append_nil, List.length_nil, Nat.add_zero] at pooled
      simp only [List.length_nil, Nat.add_zero, List.range_succ]
      exact pooled.append_right _

/-- The next register is held by no active interval. -/
theorem Scan.Pooled.next_fresh {s : Scan} (pooled : s.Pooled) {i : LiveInterval}
    (active : i ∈ s.active)
    : s.place i ≠ s.next.1 := by
  have unique := pooled.next.nodup_iff.mpr List.nodup_range
  intro same
  exact (List.nodup_append.mp unique).2.2 (s.place i) (List.mem_map_of_mem active) s.next.1
    (by simp) same

theorem Scan.place_assign_of_ne {s : Scan} {i other : LiveInterval}
    (different : other.register ≠ i.register)
    : (s.assign i).place other = s.place other := by
  rw [Scan.assign_eq]
  simp only [Scan.place, Array.getD_eq_getD_getElem?]
  rw [Array.getElem?_setIfInBounds_ne (Ne.symm different)]

theorem Scan.place_assign_self {s : Scan} {i : LiveInterval}
    (inside : i.register < s.physical.size)
    : (s.assign i).place i = s.next.1 := by
  rw [Scan.assign_eq]
  simp only [Scan.place, Array.getD_eq_getD_getElem?]
  rw [Array.getElem?_setIfInBounds_self_of_lt inside, Option.getD_some]

/-! ## One interval after the others -/

section Step

variable {s : Scan} {size : Nat} {done : List LiveInterval} {i j : LiveInterval}

theorem Distinct.register_ne (distinct : Distinct size (done ++ [i])) (member : j ∈ done)
    : j.register ≠ i.register := by
  have unique := distinct.nodup
  rw [List.map_append, List.nodup_append] at unique
  intro same
  exact unique.2.2 _ (List.mem_map_of_mem member) i.register (by simp) same

theorem Scan.place_step_of_mem (distinct : Distinct size (done ++ [i])) (member : j ∈ done)
    : (s.step i).place j = s.place j :=
  Scan.place_assign_of_ne (s := s.expire i.start) (distinct.register_ne member)

namespace Scan.Processed

variable (processed : s.Processed size done)

include processed

theorem place_step_self (distinct : Distinct size (done ++ [i]))
    : (s.step i).place i = (s.expire i.start).next.1 :=
  Scan.place_assign_self (s := s.expire i.start) (processed.size ▸ distinct.lt i (by simp))

theorem mem_of_expire (active : j ∈ (s.expire i.start).active) : j ∈ done :=
  processed.activeDone j (List.mem_filter.mp active).1

/-- An interval that goes on after the next one has started holds its register still. -/
theorem active_of_lt_stop (later : ∀ k ∈ done, k.start ≤ i.start) (member : j ∈ done)
    (lives : i.start < j.stop)
    : j ∈ (s.expire i.start).active := by
  have active : j ∈ s.active := by
    by_contra ended
    obtain ⟨k, isDone, before⟩ := processed.expired j member ended
    have := later k isDone
    omega
  exact List.mem_filter.mpr ⟨active, decide_eq_true lives⟩

/-- The next interval gets a register that none of those has. -/
theorem place_step_ne (distinct : Distinct size (done ++ [i]))
    (later : ∀ k ∈ done, k.start ≤ i.start) (member : j ∈ done) (lives : i.start < j.stop)
    : (s.step i).place j ≠ (s.step i).place i := by
  rw [Scan.place_step_of_mem distinct member, processed.place_step_self distinct]
  exact (processed.pooled.expire i.start).next_fresh
    (processed.active_of_lt_stop later member lives)

theorem pooled_step (distinct : Distinct size (done ++ [i])) : (s.step i).Pooled := by
  have active : (s.step i).active = (s.expire i.start).active ++ [i] := rfl
  have same : (s.step i).active.map (s.step i).place
      = (s.expire i.start).active.map s.place ++ [(s.expire i.start).next.1] := by
    rw [active, List.map_append, List.map_singleton, processed.place_step_self distinct]
    congr 1
    exact List.map_congr_left fun j member => Scan.place_step_of_mem distinct
      (processed.mem_of_expire member)
  rw [Scan.Pooled, same, active, List.append_assoc, List.singleton_append, List.length_append,
    List.length_singleton]
  exact (processed.pooled.expire i.start).next

theorem expired_step (member : j ∈ done ++ [i]) (inactive : j ∉ (s.step i).active)
    : ∃ k ∈ done ++ [i], j.stop ≤ k.start := by
  have notActive : j ∉ (s.expire i.start).active ∧ j ≠ i := by
    simpa [Scan.step, Scan.assign_eq] using inactive
  have old : j ∈ done := by
    rcases List.mem_append.mp member with old | new
    · exact old
    · exact absurd (List.mem_singleton.mp new) notActive.2
  by_cases active : j ∈ s.active
  · have ended : ¬ i.start < j.stop := fun lives =>
      notActive.1 (List.mem_filter.mpr ⟨active, decide_eq_true lives⟩)
    exact ⟨i, by simp, Nat.le_of_not_lt ended⟩
  · obtain ⟨k, isDone, before⟩ := processed.expired j old active
    exact ⟨k, List.mem_append_left _ isDone, before⟩

theorem separated_step (distinct : Distinct size (done ++ [i]))
    (later : ∀ k ∈ done, k.start ≤ i.start) {a b : LiveInterval} (aMember : a ∈ done ++ [i])
    (bMember : b ∈ done ++ [i]) (differ : a ≠ b) (overlap : Overlap a b)
    : (s.step i).place a ≠ (s.step i).place b := by
  rcases List.mem_append.mp aMember with aOld | aNew
  · rcases List.mem_append.mp bMember with bOld | bNew
    · rw [Scan.place_step_of_mem distinct aOld, Scan.place_step_of_mem distinct bOld]
      exact processed.separated a aOld b bOld differ overlap
    · rw [List.mem_singleton.mp bNew] at overlap ⊢
      exact processed.place_step_ne distinct later aOld overlap.2
  · rw [List.mem_singleton.mp aNew] at overlap differ ⊢
    rcases List.mem_append.mp bMember with bOld | bNew
    · exact (processed.place_step_ne distinct later bOld overlap.1).symm
    · exact absurd (List.mem_singleton.mp bNew).symm differ

/-- Processing the interval that starts next keeps the registers apart.
Witness: an interval that overlaps the new one has not ended where the new one starts, hence holds a
register still, and the new register is none of those.
-/
theorem step (distinct : Distinct size (done ++ [i])) (later : ∀ j ∈ done, j.start ≤ i.start)
    : (s.step i).Processed size (done ++ [i]) where
  size := by
    simp only [Scan.step, Scan.assign_eq, Array.size_setIfInBounds]
    exact processed.size
  pooled := processed.pooled_step distinct
  activeDone j member := by
    rcases List.mem_append.mp member with old | new
    · exact List.mem_append_left _ (processed.mem_of_expire old)
    · exact List.mem_append_right _ new
  expired _ := processed.expired_step
  separated _ aMember _ bMember := processed.separated_step distinct later aMember bMember
  counted j member := by
    have count : (s.step i).count = max s.count ((s.expire i.start).next.1 + 1) := rfl
    rcases List.mem_append.mp member with old | new
    · have below := processed.counted j old
      rw [Scan.place_step_of_mem distinct old, count]
      omega
    · rw [List.mem_singleton.mp new, processed.place_step_self distinct, count]
      omega

end Scan.Processed

end Step

theorem Distinct.of_append {size : Nat} {intervals rest : List LiveInterval}
    (distinct : Distinct size (intervals ++ rest))
    : Distinct size intervals := by
  refine ⟨?_, fun j member => distinct.lt j (List.mem_append_left _ member)⟩
  have unique := distinct.nodup
  rw [List.map_append] at unique
  exact (List.nodup_append.mp unique).1

theorem start_le_of_sorted {done rest : List LiveInterval} {i : LiveInterval}
    (sorted : ((done ++ [i]) ++ rest).Pairwise (·.start ≤ ·.start))
    : ∀ j ∈ done, j.start ≤ i.start := fun j member =>
  (List.pairwise_append.mp (List.pairwise_append.mp sorted).1).2.2 j member i (by simp)

/-- A scan of intervals by their starts keeps the registers apart. -/
theorem Scan.Processed.foldl {s : Scan} {size : Nat} {done intervals : List LiveInterval}
    (processed : s.Processed size done) (distinct : Distinct size (done ++ intervals))
    (sorted : (done ++ intervals).Pairwise (·.start ≤ ·.start))
    : (intervals.foldl Scan.step s).Processed size (done ++ intervals) := by
  induction intervals generalizing s done with
  | nil => simpa using processed
  | cons i rest ih =>
      rw [List.append_cons] at distinct sorted ⊢
      exact ih (processed.step distinct.of_append (start_le_of_sorted sorted)) distinct sorted

/-! ## The order of the scan -/

theorem insertByStart_eq (i : LiveInterval) (intervals : List LiveInterval)
    : insertByStart i intervals = intervals.orderedInsert (·.start ≤ ·.start) i := by
  induction intervals with
  | nil => rfl
  | cons j rest ih => simp only [insertByStart, List.orderedInsert_cons, ih]

theorem sortByStart_eq (intervals : List LiveInterval)
    : sortByStart intervals = intervals.insertionSort (·.start ≤ ·.start) := by
  induction intervals with
  | nil => rfl
  | cons i rest ih =>
      rw [List.insertionSort_cons, ← ih, ← insertByStart_eq]
      rfl

theorem sortByStart_perm (intervals : List LiveInterval)
    : (sortByStart intervals).Perm intervals := by
  rw [sortByStart_eq]
  exact List.perm_insertionSort _ _

theorem sortByStart_sorted (intervals : List LiveInterval)
    : (sortByStart intervals).Pairwise (·.start ≤ ·.start) := by
  rw [sortByStart_eq]
  have total : Std.Total fun a b : LiveInterval => a.start ≤ b.start :=
    ⟨fun a b => Nat.le_total a.start b.start⟩
  have transitive : IsTrans LiveInterval fun a b => a.start ≤ b.start :=
    ⟨fun _ _ _ => Nat.le_trans⟩
  exact List.pairwise_insertionSort _ _

/-! ## Allocations -/

theorem Distinct.sortByStart {size : Nat} {intervals : List LiveInterval}
    (distinct : Distinct size intervals)
    : Distinct size (sortByStart intervals) := by
  have perm := sortByStart_perm intervals
  exact ⟨(perm.map _).nodup_iff.mpr distinct.nodup,
    fun i member => distinct.lt i (perm.mem_iff.mp member)⟩

theorem processed_ofIntervals {intervals : List LiveInterval}
    (distinct : Distinct intervals.length intervals)
    : ((sortByStart intervals).foldl Scan.step (Scan.start intervals.length)).Processed
        intervals.length (sortByStart intervals) :=
  (Scan.processed_start intervals.length).foldl distinct.sortByStart (sortByStart_sorted intervals)

/-- Every virtual register of an interval list has a physical one. -/
theorem physical?_ofIntervals {intervals : List LiveInterval}
    (distinct : Distinct intervals.length intervals) {register : Nat}
    (inside : register < intervals.length)
    : ∃ physical, (ofIntervals intervals).physical? register = some physical := by
  have size := (processed_ofIntervals distinct).size
  exact ⟨_, Array.getElem?_eq_getElem (size.symm ▸ inside)⟩

/-- The physical registers of intervals are below their number. -/
theorem physical?_lt_count {intervals : List LiveInterval}
    (distinct : Distinct intervals.length intervals) {i : LiveInterval} (member : i ∈ intervals)
    {physical : Nat} (found : (ofIntervals intervals).physical? i.register = some physical)
    : physical < (ofIntervals intervals).count := by
  have below := (processed_ofIntervals distinct).counted i
    ((sortByStart_perm intervals).mem_iff.mpr member)
  have place : ((ofIntervals intervals).physical? i.register).getD 0 = physical := by
    rw [found, Option.getD_some]
  rw [← place]
  rwa [Scan.place, Array.getD_eq_getD_getElem?] at below

/-- Intervals that overlap get different physical registers. -/
theorem physical?_ne_of_overlap {intervals : List LiveInterval}
    (distinct : Distinct intervals.length intervals) {a b : LiveInterval}
    (aMember : a ∈ intervals) (bMember : b ∈ intervals) (differ : a ≠ b) (overlap : Overlap a b)
    : (ofIntervals intervals).physical? a.register
      ≠ (ofIntervals intervals).physical? b.register := by
  have processed := processed_ofIntervals distinct
  have perm := sortByStart_perm intervals
  have apart := processed.separated a (perm.mem_iff.mpr aMember) b (perm.mem_iff.mpr bMember)
    differ overlap
  obtain ⟨left, leftFound⟩ := physical?_ofIntervals distinct (distinct.lt a aMember)
  obtain ⟨right, rightFound⟩ := physical?_ofIntervals distinct (distinct.lt b bMember)
  rw [physical?, ofIntervals] at leftFound rightFound
  simp only [Scan.place, Array.getD_eq_getD_getElem?, leftFound, rightFound, Option.getD_some]
    at apart
  simpa only [physical?, ofIntervals, leftFound, rightFound, ne_eq, Option.some.injEq] using apart

/-- Linear scan colours the intervals with the registers that it counts, whatever their order and
bounds. Witness: different places of the list hold different virtual registers, hence different
intervals. -/
theorem linear_scan_colors_intervals {intervals : List LiveInterval}
    (registers : (intervals.map LiveInterval.register).Nodup)
    (inside : ∀ interval ∈ intervals, interval.register < intervals.length) {i j : Nat}
    {a b : LiveInterval} (atLeft : intervals[i]? = some a) (atRight : intervals[j]? = some b)
    (differ : i ≠ j) (overlap : Overlap a b)
    : ∃ p q,
        (ofIntervals intervals).physical? a.register = some p
        ∧ (ofIntervals intervals).physical? b.register = some q
        ∧ p < (ofIntervals intervals).count
        ∧ q < (ofIntervals intervals).count
        ∧ p ≠ q := by
  have distinct : Distinct intervals.length intervals := ⟨registers, inside⟩
  have aMember := List.mem_of_getElem? atLeft
  have bMember := List.mem_of_getElem? atRight
  have apart : a ≠ b := by
    intro same
    obtain ⟨inLeft, isA⟩ := List.getElem?_eq_some_iff.mp atLeft
    obtain ⟨inRight, isB⟩ := List.getElem?_eq_some_iff.mp atRight
    have unique : intervals.Nodup := .of_map _ registers
    exact differ (unique.getElem_inj_iff.mp (isA.trans (same.trans isB.symm)))
  obtain ⟨p, atA⟩ := physical?_ofIntervals distinct (distinct.lt a aMember)
  obtain ⟨q, atB⟩ := physical?_ofIntervals distinct (distinct.lt b bMember)
  have separated := physical?_ne_of_overlap distinct aMember bMember apart overlap
  rw [atA, atB] at separated
  exact ⟨p, q, atA, atB, physical?_lt_count distinct aMember atA,
    physical?_lt_count distinct bMember atB,
    fun same => separated (congrArg some same)⟩

/-- Intervals out of order, two of which start together. The second runs backwards, the third is
empty. -/
def tangledIntervals : List LiveInterval :=
  [⟨3, 0, 9, 0⟩, ⟨0, 5, 1, 1⟩, ⟨2, 5, 5, 2⟩, ⟨1, 0, 6, 3⟩]

theorem linear_scan_colors_tangledIntervals
    : (tangledIntervals.map LiveInterval.register).Nodup
      ∧ (∀ interval ∈ tangledIntervals, interval.register < tangledIntervals.length)
      ∧ Overlap ⟨3, 0, 9, 0⟩ ⟨0, 5, 1, 1⟩
      ∧ ∃ p q,
          (ofIntervals tangledIntervals).physical? 3 = some p
          ∧ (ofIntervals tangledIntervals).physical? 0 = some q
          ∧ p < (ofIntervals tangledIntervals).count
          ∧ q < (ofIntervals tangledIntervals).count
          ∧ p ≠ q :=
  have registers : (tangledIntervals.map LiveInterval.register).Nodup := by decide
  have inside : ∀ interval ∈ tangledIntervals, interval.register < tangledIntervals.length := by
    decide
  have overlap : Overlap ⟨3, 0, 9, 0⟩ ⟨0, 5, 1, 1⟩ := ⟨by decide, by decide⟩
  ⟨registers, inside, overlap,
    linear_scan_colors_intervals registers inside (i := 0) (j := 1) rfl rfl (by decide) overlap⟩

end StreamExpr.Allocation
