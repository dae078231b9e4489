import StreamExpr.Signature

/-! Overload resolution is stable.
Widening and narrowing satisfy the triangle inequality. So once an entry is the closest one to some
operands, it stays the closest one when operands are brought to the classes that it asks for, and
when operands that it does not ask for are dropped.
-/

namespace StreamExpr

/-! ## The least distance -/

/-- An index has the least of the distances that are present, and is the first one that has it. -/
def IsClosest (distances : List (Option Nat)) (index least : Nat) : Prop :=
  distances[index]? = some (some least)
  ∧ ∀ other distance : Nat, distances[other]? = some (some distance) →
      least ≤ distance ∧ (other < index → least < distance)

theorem IsClosest.unique {distances : List (Option Nat)} {left right least lower : Nat}
    (closest : IsClosest distances left least) (other : IsClosest distances right lower)
    : left = right := by
  have fromLeft := closest.2 right lower other.1
  have fromRight := other.2 left least closest.1
  omega

/-- What the search for the least distance has found in some distances. -/
def Summarizes (distances : List (Option Nat)) : Option (Nat × Nat) → Prop
  | none => ∀ other distance : Nat, distances[other]? ≠ some (some distance)
  | some (index, least) => IsClosest distances index least

theorem Summarizes.push_none {distances : List (Option Nat)} {best : Option (Nat × Nat)}
    (summary : Summarizes distances best)
    : Summarizes (distances ++ [none]) best := by
  have before {other distance : Nat} (found : (distances ++ [none])[other]? = some (some distance))
      : distances[other]? = some (some distance) := by
    rw [List.getElem?_append] at found
    split at found
    · exact found
    · rw [List.getElem?_singleton] at found
      split at found <;> cases found
  cases best with
  | none => exact fun other distance found => summary other distance (before found)
  | some best =>
      refine ⟨?_, fun other distance found => summary.2 other distance (before found)⟩
      have inside := (List.getElem?_eq_some_iff.mp summary.1).1
      rw [List.getElem?_append_left inside]
      exact summary.1

theorem getElem?_concat_some {distances : List (Option Nat)} {last other distance : Nat}
    (found : (distances ++ [some last])[other]? = some (some distance))
    : distances[other]? = some (some distance) ∨ other = distances.length ∧ last = distance := by
  rw [List.getElem?_append] at found
  split at found
  case isTrue => exact .inl found
  case isFalse past =>
    rw [List.getElem?_singleton] at found
    split at found
    · exact .inr ⟨by omega, Option.some.inj (Option.some.inj found)⟩
    · cases found

/-- A first or lesser distance is the closest one so far. -/
theorem IsClosest.last {distances : List (Option Nat)} {last : Nat}
    (less : ∀ other distance : Nat, distances[other]? = some (some distance) → last < distance)
    : IsClosest (distances ++ [some last]) distances.length last := by
  refine ⟨by simp, fun other distance found => ?_⟩
  rcases getElem?_concat_some found with before | ⟨rfl, rfl⟩
  · exact ⟨Nat.le_of_lt (less other distance before), fun _ => less other distance before⟩
  · exact ⟨Nat.le_refl _, fun impossible => absurd impossible (Nat.lt_irrefl _)⟩

theorem IsClosest.push {distances : List (Option Nat)} {index least last : Nat}
    (closest : IsClosest distances index least) (noLess : least ≤ last)
    : IsClosest (distances ++ [some last]) index least := by
  have inside := (List.getElem?_eq_some_iff.mp closest.1).1
  refine ⟨by rw [List.getElem?_append_left inside]; exact closest.1, fun other distance found => ?_⟩
  rcases getElem?_concat_some found with before | ⟨rfl, rfl⟩
  · exact closest.2 other distance before
  · exact ⟨noLess, fun impossible => by omega⟩

theorem Summarizes.push_some {distances : List (Option Nat)} {best : Option (Nat × Nat)}
    (summary : Summarizes distances best) (last : Nat)
    : Summarizes (distances ++ [some last]) <|
        match best with
        | none => some (distances.length, last)
        | some (_, least) => if last < least then some (distances.length, last) else best := by
  cases best with
  | none => exact IsClosest.last fun other distance found => (summary other distance found).elim
  | some best =>
      obtain ⟨index, least⟩ := best
      simp only
      split
      case isTrue less =>
        exact IsClosest.last fun other distance found =>
          Nat.lt_of_lt_of_le less (summary.2 other distance found).1
      case isFalse noLess =>
        exact IsClosest.push summary (Nat.le_of_not_lt noLess)

/-- The search summarizes what it has seen and what it goes on to see. Witness: induction on what is
left to see. -/
theorem summarizes_go {seen distances : List (Option Nat)} {best : Option (Nat × Nat)}
    (summary : Summarizes seen best)
    : Summarizes (seen ++ distances) (bestMatch?.go seen.length best distances) := by
  induction distances generalizing seen best with
  | nil =>
      rw [List.append_nil]
      exact summary
  | cons distance distances ih =>
      have split : seen ++ distance :: distances = (seen ++ [distance]) ++ distances := by simp
      have longer : (seen ++ [distance]).length = seen.length + 1 := by simp
      rw [split]
      cases distance with
      | none =>
          have goesOn := ih summary.push_none
          rwa [longer] at goesOn
      | some distance =>
          have goesOn := ih (summary.push_some distance)
          rw [longer] at goesOn
          cases best <;> exact goesOn

theorem bestMatch?_eq_some {distances : List (Option Nat)} {index : Nat}
    : bestMatch? distances = some index ↔ ∃ least, IsClosest distances index least := by
  have nothing : Summarizes [] none := fun other distance found => by cases found
  have summary : Summarizes distances (bestMatch?.go 0 none distances) := summarizes_go nothing
  rw [bestMatch?]
  cases searched : bestMatch?.go 0 none distances with
  | none =>
      rw [searched] at summary
      refine ⟨fun impossible => (by cases impossible), ?_⟩
      rintro ⟨least, closest⟩
      exact (summary index least closest.1).elim
  | some best =>
      obtain ⟨found, least⟩ := best
      rw [searched] at summary
      rw [Option.map_some, Option.some.injEq]
      constructor
      · rintro rfl
        exact ⟨least, summary⟩
      · rintro ⟨_, closest⟩
        exact IsClosest.unique summary closest

/-! ## Distances of converted operands -/

theorem RegisterClass.distance_self (r : RegisterClass) : r.distance r = 0 := by
  cases r <;> rfl

theorem RegisterClass.distance_triangle (first second third : RegisterClass)
    : first.distance third ≤ first.distance second + second.distance third := by
  cases first <;> cases second <;> cases third <;> decide

/-- Operands after some of them are brought to the expected classes, without those past the last
expected one. -/
inductive Converts : (expected before after : List RegisterClass) → Prop
  | nil {before} : Converts [] before []
  | keep {r e expected before after} : Converts expected before after →
      Converts (e :: expected) (r :: before) (r :: after)
  | convert {r e expected before after} (known : e.isKnown = true) : Converts expected before after
      → Converts (e :: expected) (r :: before) (e :: after)

theorem Converts.length_eq {expected before after : List RegisterClass}
    (converts : Converts expected before after)
    : after.length = expected.length := by
  induction converts with
  | nil => rfl
  | keep _ ih | convert _ _ ih => rw [List.length_cons, List.length_cons, ih]

theorem Converts.refl {expected classes : List RegisterClass}
    (same : classes.length = expected.length)
    : Converts expected classes classes := by
  induction expected generalizing classes with
  | nil => exact List.eq_nil_of_length_eq_zero same ▸ .nil
  | cons e expected ih =>
      cases classes with
      | nil => cases same
      | cons r classes => exact .keep (ih (Nat.succ.inj same))

theorem Converts.take {expected classes : List RegisterClass}
    (enough : expected.length ≤ classes.length)
    : Converts expected classes (classes.take expected.length) := by
  induction expected generalizing classes with
  | nil => exact .nil
  | cons e expected ih =>
      cases classes with
      | nil => exact absurd enough (by simp)
      | cons r classes => exact .keep (ih (Nat.le_of_succ_le_succ enough))

theorem Converts.set {expected classes : List RegisterClass} {slot : Nat} {e : RegisterClass}
    (same : classes.length = expected.length) (asked : expected[slot]? = some e)
    (known : e.isKnown = true)
    : Converts expected classes (classes.set slot e) := by
  induction expected generalizing classes slot with
  | nil => cases asked
  | cons first expected ih =>
      cases classes with
      | nil => cases same
      | cons r classes =>
          have rest := Nat.succ.inj same
          cases slot with
          | zero =>
              obtain rfl := Option.some.inj asked
              exact .convert known (.refl rest)
          | succ slot => exact .keep (ih rest asked)

open matchDistance? in
/-- Conversion brings the operands closer to the expected classes by some amount, and to no list of
at most as many classes by more. -/
theorem Converts.total {expected before after : List RegisterClass}
    (converts : Converts expected before after) {distance : Nat}
    (found : total before expected = some distance)
    : ∃ saved left,
        total after expected = some left
        ∧ left + saved = distance
        ∧ ∀ others : List RegisterClass, others.length ≤ expected.length →
            ∀ near, total after others = some near →
              ∃ far, total before others = some far ∧ far ≤ near + saved := by
  induction converts generalizing distance with
  | nil =>
      refine ⟨0, 0, rfl, ?_, fun others short near isNear => ?_⟩
      · rw [matchDistance?.total.eq_def] at found
        split at found
        · contradiction
        · exact Option.some.inj found
      · obtain rfl := List.eq_nil_of_length_eq_zero (Nat.le_zero.mp short)
        exact ⟨0, by rw [matchDistance?.total.eq_def]; split <;> first | contradiction | rfl,
          Nat.zero_le _⟩
  | @keep r e expected before after _ ih =>
      simp only [matchDistance?.total, Option.ite_none_right_eq_some,
        Option.map_eq_some_iff] at found
      obtain ⟨isKnown, rest, found, rfl⟩ := found
      obtain ⟨saved, left, closer, balance, least⟩ := ih found
      refine ⟨saved, r.distance e + left, ?_, by omega, fun others short near isNear => ?_⟩
      · rw [matchDistance?.total, if_pos isKnown, closer, Option.map_some]
      · cases others with
        | nil => exact ⟨0, rfl, Nat.zero_le _⟩
        | cons other others =>
            simp only [matchDistance?.total, Option.ite_none_right_eq_some, Option.map_eq_some_iff]
              at isNear
            obtain ⟨_, near, isNear, rfl⟩ := isNear
            obtain ⟨far, isFar, bound⟩ := least others (Nat.le_of_succ_le_succ short) near isNear
            exact ⟨r.distance other + far, by rw [matchDistance?.total, if_pos isKnown, isFar]; rfl,
              by omega⟩
  | @convert r e expected before after known _ ih =>
      simp only [matchDistance?.total, Option.ite_none_right_eq_some,
        Option.map_eq_some_iff] at found
      obtain ⟨isKnown, rest, found, rfl⟩ := found
      obtain ⟨saved, left, closer, balance, least⟩ := ih found
      refine ⟨r.distance e + saved, left, ?_, by omega, fun others short near isNear => ?_⟩
      · rw [matchDistance?.total, if_pos known, closer, Option.map_some,
          e.distance_self, Nat.zero_add]
      · cases others with
        | nil => exact ⟨0, rfl, Nat.zero_le _⟩
        | cons other others =>
            simp only [matchDistance?.total, Option.ite_none_right_eq_some, Option.map_eq_some_iff]
              at isNear
            obtain ⟨_, near, isNear, rfl⟩ := isNear
            obtain ⟨far, isFar, bound⟩ := least others (Nat.le_of_succ_le_succ short) near isNear
            -- By the triangle inequality, no other class comes closer by more than the conversion
            -- saves.
            have detour := r.distance_triangle e other
            exact ⟨r.distance other + far, by rw [matchDistance?.total, if_pos isKnown, isFar]; rfl,
              by omega⟩

/-! ## Resolution -/

/-- The list of classes that is closest to some operands, each being required in full. -/
def closest? (inputs : List (List RegisterClass)) (operands : List RegisterClass) : Option Nat :=
  bestMatch? (inputs.map fun expected => matchDistance? operands expected expected.length)

theorem resolveOperator?_eq_closest? (table : List Signature) (operands : List RegisterClass)
    : resolveOperator? table operands = closest? (table.map Signature.arguments) operands := by
  rw [resolveOperator?, closest?, List.map_map]
  rfl

theorem resolveFunction?_eq_closest? {candidates : List FunctionSig} (operands : List RegisterClass)
    (required : ∀ f ∈ candidates, f.required = f.inputs.length)
    : resolveFunction? candidates operands
      = closest? (candidates.map FunctionSig.inputs) operands := by
  rw [resolveFunction?, closest?, List.map_map]
  congr 1
  refine List.map_congr_left fun f member => ?_
  rw [required f member]
  rfl

theorem closest?_eq_some {inputs : List (List RegisterClass)} {operands : List RegisterClass}
    {index : Nat} (resolved : closest? inputs operands = some index)
    : ∃ expected, inputs[index]? = some expected ∧ expected.length ≤ operands.length := by
  obtain ⟨least, found, _⟩ := bestMatch?_eq_some.mp resolved
  rw [List.getElem?_map, Option.map_eq_some_iff] at found
  obtain ⟨expected, entry, distance⟩ := found
  refine ⟨expected, entry, ?_⟩
  rw [matchDistance?] at distance
  split at distance
  · cases distance
  · omega

/-- The closest list stays the closest one when operands are converted to its classes. Witness: its
distance falls by what the conversion saves, and no other falls by more. -/
theorem closest?_of_converts {inputs : List (List RegisterClass)}
    {expected before after : List RegisterClass} {index : Nat}
    (resolved : closest? inputs before = some index) (entry : inputs[index]? = some expected)
    (converts : Converts expected before after)
    : closest? inputs after = some index := by
  obtain ⟨least, found, first⟩ := bestMatch?_eq_some.mp resolved
  simp only [List.getElem?_map, entry, Option.map_some, Option.some.injEq] at found
  simp only [List.getElem?_map, Option.map_eq_some_iff] at first
  rw [matchDistance?, Option.ite_none_left_eq_some] at found
  obtain ⟨enough, found⟩ := found
  obtain ⟨saved, left, closer, balance, bound⟩ := converts.total found
  have sameLength := converts.length_eq
  refine bestMatch?_eq_some.mpr ⟨left, ?_, fun other near isNear => ?_⟩
  · rw [List.getElem?_map, entry, Option.map_some, matchDistance?, if_neg (by omega), closer]
  · simp only [List.getElem?_map, Option.map_eq_some_iff] at isNear
    obtain ⟨others, atOther, isNear⟩ := isNear
    rw [matchDistance?, Option.ite_none_left_eq_some] at isNear
    obtain ⟨short, isNear⟩ := isNear
    obtain ⟨far, isFar, noMore⟩ := bound others (by omega) near isNear
    have compared := first other far
      ⟨others, atOther, by rw [matchDistance?, if_neg (by omega), isFar]⟩
    omega

/-! ## Overloads of converted operands -/

/-- Operands cut to as many as there are expected classes, each brought to its class where that is
known. -/
def convertOperands (expected operands : List RegisterClass) : List RegisterClass :=
  (operands.take expected.length).zipWith (fun r e => if e.isKnown then e else r) expected

theorem Converts.convertOperands {expected operands : List RegisterClass}
    (enough : expected.length ≤ operands.length)
    : Converts expected operands (convertOperands expected operands) := by
  induction expected generalizing operands with
  | nil => exact .nil
  | cons e expected ih =>
      cases operands with
      | nil => exact absurd enough (by simp)
      | cons r operands =>
          have rest := ih (Nat.le_of_succ_le_succ enough)
          rw [StreamExpr.convertOperands, List.length_cons, List.take_succ_cons,
            List.zipWith_cons_cons]
          split
          case isTrue known =>
            exact .convert known rest
          case isFalse => exact .keep rest

theorem closest?_convertOperands {inputs : List (List RegisterClass)}
    {operands : List RegisterClass} {index : Nat} (resolved : closest? inputs operands = some index)
    : ∃ expected,
        inputs[index]? = some expected
        ∧ closest? inputs (convertOperands expected operands) = some index := by
  obtain ⟨expected, entry, enough⟩ := closest?_eq_some resolved
  exact ⟨expected, entry, closest?_of_converts resolved entry (.convertOperands enough)⟩

/-- The overload that is picked for some operands is picked again once they are converted to what it
asks for, by functions without optional inputs and by tables of operators. -/
theorem overload_survives_conversion
    : (∀ (candidates : List FunctionSig) (arguments : List RegisterClass) (k : Nat),
        (∀ f ∈ candidates, f.required = f.inputs.length) →
        resolveFunction? candidates arguments = some k →
          ∃ f,
            candidates[k]? = some f
            ∧ resolveFunction? candidates (convertOperands f.inputs arguments) = some k)
      ∧ ∀ (table : List Signature) (operands : List RegisterClass) (k : Nat),
          resolveOperator? table operands = some k →
            ∃ signature,
              table[k]? = some signature
              ∧ resolveOperator? table (convertOperands signature.arguments operands) = some k := by
  refine ⟨fun candidates arguments k required resolved => ?_, fun table operands k resolved => ?_⟩
  · simp only [resolveFunction?_eq_closest? _ required] at resolved ⊢
    obtain ⟨expected, entry, again⟩ := closest?_convertOperands resolved
    rw [List.getElem?_map, Option.map_eq_some_iff] at entry
    obtain ⟨f, atIndex, rfl⟩ := entry
    exact ⟨f, atIndex, again⟩
  · simp only [resolveOperator?_eq_closest?] at resolved ⊢
    obtain ⟨expected, entry, again⟩ := closest?_convertOperands resolved
    rw [List.getElem?_map, Option.map_eq_some_iff] at entry
    obtain ⟨signature, atIndex, rfl⟩ := entry
    exact ⟨signature, atIndex, again⟩

/-- Overloads of which the first is a prefix of the last, the second ties with the third, and the
last takes anything second. -/
def rivalOverloads : List FunctionSig :=
  [.ofInputs "f" [.bool] .bool, .ofInputs "f" [.float, .float] .float,
    .ofInputs "f" [.float, .float] .int, .ofInputs "f" [.bool, .unknown] .bool]

theorem overload_survives_conversion_rivalOverloads
    : (∀ f ∈ rivalOverloads, f.required = f.inputs.length)
      ∧ resolveFunction? rivalOverloads [.float, .int, .bool] = some 1
      ∧ (∃ f,
          rivalOverloads[1]? = some f
          ∧ resolveFunction? rivalOverloads (convertOperands f.inputs [.float, .int, .bool]) = some
            1)
      ∧ resolveOperator? UnaryOp.absolute.signatures [.bool] = some 1
      ∧ ∃ signature,
          UnaryOp.absolute.signatures[1]? = some signature
          ∧ resolveOperator? UnaryOp.absolute.signatures
            (convertOperands signature.arguments [.bool])
            = some 1 :=
  have required : ∀ f ∈ rivalOverloads, f.required = f.inputs.length := by decide
  have resolved : resolveFunction? rivalOverloads [.float, .int, .bool] = some 1 := by decide
  have selected : resolveOperator? UnaryOp.absolute.signatures [.bool] = some 1 := by decide
  ⟨required, resolved, overload_survives_conversion.1 rivalOverloads _ 1 required resolved,
    selected, overload_survives_conversion.2 UnaryOp.absolute.signatures _ 1 selected⟩

/-! ## Operator tables -/

/-- Every entry of a table asks for operands of known classes, for branches of a choice of one
class, and such operands select it. -/
def Signature.Regular (count : Nat) (table : List Signature) : Prop :=
  ∀ i < table.length, ∀ signature ∈ table[i]?,
    resolveOperator? table signature.arguments = some i
    ∧ signature.arguments.length = count
    ∧ (∀ r ∈ signature.arguments, r.isKnown = true)
    ∧ ∀ second ∈ signature.arguments[1]?, ∀ third ∈ signature.arguments[2]?, second = third

instance (count : Nat) (table : List Signature) : Decidable (Signature.Regular count table) :=
  inferInstanceAs (Decidable (∀ i < table.length, ∀ signature ∈ table[i]?, _ ∧ _ ∧ _ ∧ _))

theorem UnaryOp.regular (op : UnaryOp) : Signature.Regular 1 op.signatures := by
  cases op <;> decide

theorem BinaryOp.regular (op : BinaryOp) : Signature.Regular 2 op.signatures := by
  cases op <;> decide

theorem TernaryOp.regular (op : TernaryOp) : Signature.Regular 3 op.signatures := by
  cases op <;> decide

end StreamExpr
