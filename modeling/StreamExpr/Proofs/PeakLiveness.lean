import Mathlib.Data.Finset.Card
import Mathlib.Order.Bounds.Basic
import StreamExpr.Proofs.Allocation

/-! Linear scan takes as few registers as there are.
A new register is opened only where none is free. All those opened before are held then, by
intervals that are live where the new one starts. So the registers are as many as intervals are live
at once, and with fewer registers these could not be told apart.
-/

namespace StreamExpr.Allocation

/-- An interval is live from its start until just before its end. -/
def IsLiveAt (index : Nat) (i : LiveInterval) : Prop :=
  i.start ≤ index ∧ index < i.stop

instance (index : Nat) (i : LiveInterval) : Decidable (IsLiveAt index i) :=
  inferInstanceAs (Decidable (_ ∧ _))

/-- How many intervals are live at an instruction. -/
def liveness (intervals : List LiveInterval) (index : Nat) : Nat :=
  intervals.countP fun i => IsLiveAt index i

/-- An assignment of registers to virtual ones tells intervals that overlap apart. -/
def Separates (assignment : Nat → Nat) (intervals : List LiveInterval) : Prop :=
  ∀ a ∈ intervals, ∀ b ∈ intervals, a ≠ b → Overlap a b
  → assignment a.register ≠ assignment b.register

/-- The registers that an assignment gives to some intervals. -/
def registersUsed (assignment : Nat → Nat) (intervals : List LiveInterval) : Finset Nat :=
  (intervals.map fun i => assignment i.register).toFinset

theorem IsLiveAt.overlap {index : Nat} {a b : LiveInterval} (left : IsLiveAt index a)
    (right : IsLiveAt index b)
    : Overlap a b :=
  ⟨Nat.lt_of_le_of_lt left.1 right.2, Nat.lt_of_le_of_lt right.1 left.2⟩

/-- An assignment that tells intervals apart uses a register for each one that is live at an
instruction. Witness: any two of these overlap. -/
theorem liveness_le_card {assignment : Nat → Nat} {intervals : List LiveInterval}
    (unique : intervals.Nodup) (separates : Separates assignment intervals) (index : Nat)
    : liveness intervals index ≤ (registersUsed assignment intervals).card := by
  let live := intervals.filter fun i => IsLiveAt index i
  have isLive {i} (member : i ∈ live) : i ∈ intervals ∧ IsLiveAt index i := by
    obtain ⟨isMember, lives⟩ := List.mem_filter.mp member
    exact ⟨isMember, of_decide_eq_true lives⟩
  have distinct : (live.map fun i => assignment i.register).Nodup := by
    refine (List.nodup_map_iff_inj_on (unique.filter _)).mpr fun a aLive b bLive same => ?_
    obtain ⟨aMember, aLives⟩ := isLive aLive
    obtain ⟨bMember, bLives⟩ := isLive bLive
    by_contra differ
    exact separates a aMember b bMember differ (aLives.overlap bLives) same
  calc liveness intervals index
      = (live.map fun i => assignment i.register).length := by
        rw [liveness, List.countP_eq_length_filter, List.length_map]
    _ = (live.map fun i => assignment i.register).toFinset.card :=
        (List.toFinset_card_of_nodup distinct).symm
    _ ≤ (registersUsed assignment intervals).card := by
        refine Finset.card_le_card fun register used => ?_
        rw [List.mem_toFinset] at used
        obtain ⟨i, member, rfl⟩ := List.mem_map.mp used
        exact List.mem_toFinset.mpr (List.mem_map_of_mem (isLive member).1)

/-! ## The registers of a scan -/

/-- What holds of the number of registers after a scan of some intervals. -/
structure Scan.Packed (s : Scan) (done : List LiveInterval) : Prop where
  count : s.count = s.active.length + s.free.length
  used : ∀ register < s.count, ∃ i ∈ done, s.place i = register
  peak : ∃ index, s.count ≤ liveness done index

theorem Scan.packed_start (registers : Nat) : (Scan.start registers).Packed [] where
  count := rfl
  used register below := absurd below (Nat.not_lt_zero register)
  peak := ⟨0, Nat.zero_le _⟩

/-- The next register is one of the free ones, or follows those held if none is free. -/
theorem Scan.Pooled.next_cases {s : Scan} (pooled : s.Pooled)
    : s.next.1 < s.active.length + s.free.length ∧ s.free.length = s.next.2.length + 1
      ∨ s.next.1 = s.active.length ∧ s.free.length = 0 ∧ s.next.2.length = 0 := by
  cases free : s.free with
  | nil => exact .inr ⟨by rw [Scan.next, free], rfl, by rw [Scan.next, free]; rfl⟩
  | cons register rest =>
      have next : s.next = (register, rest) := by rw [Scan.next, free]
      have held : register ∈ s.active.map s.place ++ s.free := by simp [free]
      have below := List.mem_range.mp (pooled.mem_iff.mp held)
      rw [free] at below
      exact .inl ⟨by rwa [next], by rw [next, List.length_cons]⟩

section Step

variable {s : Scan} {size : Nat} {done : List LiveInterval} {i : LiveInterval}
  (processed : s.Processed size done) (distinct : Distinct size (done ++ [i]))

include processed distinct

theorem Scan.Processed.active_step_nodup : (s.step i).active.Nodup := by
  have unique := (processed.pooled_step distinct).nodup_iff.mpr List.nodup_range
  exact .of_map _ (List.nodup_append.mp unique).1

/-- The intervals that hold a register are live where the last one starts. -/
theorem Scan.Processed.active_le_liveness (later : ∀ j ∈ done, j.start ≤ i.start)
    (proper : i.start < i.stop)
    : (s.step i).active.length ≤ liveness (done ++ [i]) i.start := by
  have live : (s.step i).active ⊆ (done ++ [i]).filter fun j => IsLiveAt i.start j := by
    intro j member
    rw [List.mem_filter, decide_eq_true_eq]
    rcases List.mem_append.mp member with old | new
    · have isDone := processed.mem_of_expire old
      exact ⟨List.mem_append_left _ isDone, later j isDone,
        of_decide_eq_true (List.mem_filter.mp old).2⟩
    · obtain rfl := List.mem_singleton.mp new
      exact ⟨List.mem_append_right _ new, Nat.le_refl _, proper⟩
  rw [liveness, List.countP_eq_length_filter]
  exact ((processed.active_step_nodup distinct).subperm live).length_le

/-- The next interval opens a register only if all others are held. -/
theorem Scan.Packed.step (packed : s.Packed done) (later : ∀ j ∈ done, j.start ≤ i.start)
    (proper : i.start < i.stop)
    : (s.step i).Packed (done ++ [i]) := by
  have count : (s.step i).count = max s.count ((s.expire i.start).next.1 + 1) := rfl
  have active : (s.step i).active.length = (s.expire i.start).active.length
    + 1 := List.length_append
  have free : (s.step i).free = (s.expire i.start).next.2 := rfl
  have before := packed.count.trans (s.length_expire i.start).symm
  have usedBefore {register} (below : register < s.count)
      : ∃ j ∈ done ++ [i], (s.step i).place j = register := by
    obtain ⟨j, isDone, isPlace⟩ := packed.used register below
    exact ⟨j, List.mem_append_left _ isDone, (Scan.place_step_of_mem distinct isDone).trans isPlace⟩
  rcases (processed.pooled.expire i.start).next_cases with ⟨below, left⟩
    | ⟨opened, noneFree, noneLeft⟩
  · -- A free register is taken, so that the number stays.
    have same : (s.step i).count = s.count := by omega
    refine ⟨by rw [free]; omega, fun register inside => usedBefore (same ▸ inside), ?_⟩
    obtain ⟨index, reached⟩ := packed.peak
    refine ⟨index, ?_⟩
    rw [same, liveness, List.countP_append]
    exact Nat.le_add_right_of_le reached
  · -- A register is opened, and all intervals that hold one are live here.
    have more : (s.step i).count = s.count + 1 := by omega
    refine ⟨by rw [free]; omega, fun register inside => ?_, i.start, ?_⟩
    · by_cases old : register < s.count
      · exact usedBefore old
      · refine ⟨i, by simp, ?_⟩
        rw [processed.place_step_self distinct]
        omega
    · have reached := processed.active_le_liveness distinct later proper
      omega

end Step

/-- A scan of intervals by their starts opens no register that it could do without. -/
theorem Scan.Packed.foldl {s : Scan} {size : Nat} {done intervals : List LiveInterval}
    (processed : s.Processed size done) (packed : s.Packed done)
    (distinct : Distinct size (done ++ intervals))
    (sorted : (done ++ intervals).Pairwise (·.start ≤ ·.start))
    (proper : ∀ i ∈ intervals, i.start < i.stop)
    : (intervals.foldl Scan.step s).Packed (done ++ intervals) := by
  induction intervals generalizing s done with
  | nil => simpa using packed
  | cons i rest ih =>
      rw [List.append_cons] at distinct sorted ⊢
      have upTo := distinct.of_append
      have later := start_le_of_sorted sorted
      exact ih (processed.step upTo later)
        (packed.step processed upTo later (proper i List.mem_cons_self)) distinct sorted
        fun j member => proper j (List.mem_cons_of_mem i member)

/-! ## Allocations -/

theorem packed_ofIntervals {intervals : List LiveInterval}
    (distinct : Distinct intervals.length intervals) (proper : ∀ i ∈ intervals, i.start < i.stop)
    : ((sortByStart intervals).foldl Scan.step (Scan.start intervals.length)).Packed
        (sortByStart intervals) :=
  (Scan.packed_start intervals.length).foldl (Scan.processed_start intervals.length)
    distinct.sortByStart (sortByStart_sorted intervals) fun i member =>
    proper i ((sortByStart_perm intervals).mem_iff.mp member)

/-- The registers below the number of registers are those that intervals have. -/
theorem lt_count_iff {intervals : List LiveInterval}
    (distinct : Distinct intervals.length intervals) (proper : ∀ i ∈ intervals, i.start < i.stop)
    (register : Nat)
    : register < (ofIntervals intervals).count
      ↔ ∃ i ∈ intervals, (ofIntervals intervals).physical? i.register = some register := by
  constructor
  · intro below
    obtain ⟨i, member, isPlace⟩ := (packed_ofIntervals distinct proper).used register below
    have isInterval := (sortByStart_perm intervals).mem_iff.mp member
    obtain ⟨physical, found⟩ := physical?_ofIntervals distinct (distinct.lt i isInterval)
    refine ⟨i, isInterval, found.trans (congrArg some ?_)⟩
    rw [Scan.place, Array.getD_eq_getD_getElem?] at isPlace
    rw [← isPlace]
    exact (congrArg (·.getD 0) found).symm
  · rintro ⟨i, member, found⟩
    exact physical?_lt_count distinct member found

/-- The number of registers is the number of intervals that are live at some instruction. -/
theorem exists_count_le_liveness {intervals : List LiveInterval}
    (distinct : Distinct intervals.length intervals) (proper : ∀ i ∈ intervals, i.start < i.stop)
    : ∃ index, (ofIntervals intervals).count ≤ liveness intervals index := by
  obtain ⟨index, reached⟩ := (packed_ofIntervals distinct proper).peak
  refine ⟨index, Nat.le_trans reached (Nat.le_of_eq ?_)⟩
  exact (sortByStart_perm intervals).countP_eq _

/-- The scan's own assignment tells intervals apart with registers below their number. -/
theorem liveness_le_count {intervals : List LiveInterval}
    (distinct : Distinct intervals.length intervals) (index : Nat)
    : liveness intervals index ≤ (ofIntervals intervals).count := by
  let assignment (register : Nat) : Nat := ((ofIntervals intervals).physical? register).getD 0
  have found {i} (member : i ∈ intervals)
      : (ofIntervals intervals).physical? i.register = some (assignment i.register) := by
    obtain ⟨physical, found⟩ := physical?_ofIntervals distinct (distinct.lt i member)
    simp only [assignment, found, Option.getD_some]
  have separates : Separates assignment intervals := by
    intro a aMember b bMember differ overlap same
    refine physical?_ne_of_overlap distinct aMember bMember differ overlap ?_
    rw [found aMember, found bMember, same]
  have below : registersUsed assignment intervals ⊆ Finset.range (ofIntervals intervals).count := by
    intro register used
    obtain ⟨i, member, rfl⟩ := List.mem_map.mp (List.mem_toFinset.mp used)
    exact Finset.mem_range.mpr (physical?_lt_count distinct member (found member))
  calc liveness intervals index
      ≤ (registersUsed assignment intervals).card :=
        liveness_le_card (.of_map _ distinct.nodup) separates index
    _ ≤ (Finset.range (ofIntervals intervals).count).card := Finset.card_le_card below
    _ = (ofIntervals intervals).count := Finset.card_range _

/-- Linear scan takes as many registers as intervals are live at once, and no assignment that tells
intervals apart takes fewer. The registers that it counts are those that it assigns. -/
theorem linear_scan_takes_fewest_registers {intervals : List LiveInterval}
    (registers : (intervals.map LiveInterval.register).Nodup)
    (inside : ∀ interval ∈ intervals, interval.register < intervals.length)
    (proper : ∀ interval ∈ intervals, interval.start < interval.stop)
    : IsGreatest (Set.range (liveness intervals)) (ofIntervals intervals).count
      ∧ (∀ assignment : Nat → Nat, Separates assignment intervals →
          (ofIntervals intervals).count ≤ (registersUsed assignment intervals).card)
      ∧ ∀ register,
          register < (ofIntervals intervals).count
          ↔ ∃ interval ∈ intervals,
              (ofIntervals intervals).physical? interval.register = some register := by
  have distinct : Distinct intervals.length intervals := ⟨registers, inside⟩
  obtain ⟨index, reached⟩ := exists_count_le_liveness distinct proper
  refine ⟨⟨⟨index, Nat.le_antisymm (liveness_le_count distinct index) reached⟩, ?_⟩, ?_,
    lt_count_iff distinct proper⟩
  · rintro _ ⟨other, rfl⟩
    exact liveness_le_count distinct other
  · intro assignment separates
    exact Nat.le_trans reached (liveness_le_card (.of_map _ registers) separates index)

/-- Intervals out of order. Three are live together, two start together, and one starts where
another ends. -/
def staggeredIntervals : List LiveInterval :=
  [⟨4, 6, 9, 0⟩, ⟨0, 0, 6, 1⟩, ⟨3, 2, 3, 2⟩, ⟨1, 0, 2, 3⟩, ⟨2, 2, 7, 4⟩]

theorem linear_scan_takes_fewest_registers_staggeredIntervals
    : (staggeredIntervals.map LiveInterval.register).Nodup
      ∧ (∀ interval ∈ staggeredIntervals, interval.register < staggeredIntervals.length)
      ∧ (∀ interval ∈ staggeredIntervals, interval.start < interval.stop)
      ∧ (ofIntervals staggeredIntervals).count = 3
      ∧ IsGreatest (Set.range (liveness staggeredIntervals)) (ofIntervals staggeredIntervals).count
      ∧ (∀ assignment : Nat → Nat, Separates assignment staggeredIntervals →
          (ofIntervals staggeredIntervals).count
          ≤ (registersUsed assignment staggeredIntervals).card)
      ∧ ∀ register,
          register < (ofIntervals staggeredIntervals).count
          ↔ ∃ interval ∈ staggeredIntervals,
              (ofIntervals staggeredIntervals).physical? interval.register = some register :=
  have registers : (staggeredIntervals.map LiveInterval.register).Nodup := by decide
  have inside : ∀ interval ∈ staggeredIntervals, interval.register < staggeredIntervals.length := by
    decide
  have proper : ∀ interval ∈ staggeredIntervals, interval.start < interval.stop := by decide
  ⟨registers, inside, proper, by decide, linear_scan_takes_fewest_registers registers inside proper⟩

end StreamExpr.Allocation
