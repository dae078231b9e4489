import StreamExpr.Proofs.Outlook

/-! Rules on outlooks.
Folding and lowering keep the divisions by zero that cannot be dropped, rule by rule. Integer powers
that are computed by floats may have other values than before, so nothing is said of theirs.
-/

namespace StreamExpr.Outlook

variable {env : Environment} {respectful : env.Respectful} {x y z a b c : Outlook env}
    {xs ys : List (Outlook env)}
  {peer : env.Peer} {n : Node} {v : Value} {drops : Value → Bool}

theorem less_of_covers (covers : (algebra respectful).order.Covers x (some y)) (less : y.Less z)
    : x.Less z := by
  obtain ⟨w, same, first⟩ := covers
  obtain rfl := Option.some.inj same
  exact first.trans less

theorem covers_of_less (covers : (algebra respectful).order.Covers x (some y)) (less : y.Less z)
    : (algebra respectful).order.Covers x (some z) :=
  ⟨z, rfl, less_of_covers covers less⟩

theorem falters_left {op : BinaryOp} (plain : op.dropsLeft? = none) (falters : x.falters)
    : (binary respectful op x y).falters :=
  falters_binary.mpr (.inr (.inl ⟨falters, fun _ found => (by cases plain.symm.trans found)⟩))

theorem falters_right {op : BinaryOp} (plain : op.dropsRight? = none) (falters : y.falters)
    : (binary respectful op x y).falters :=
  falters_binary.mpr (.inr (.inr ⟨falters, fun _ found => (by cases plain.symm.trans found)⟩))

theorem not_escapes_constant (isDropped : drops v = true)
    : ¬ (constant respectful v).Escapes drops := by
  rintro (impossible | ⟨peer, w, found, keeps⟩ | ⟨⟨isFloat, _⟩, keeps⟩)
  · exact not_falters_constant impossible
  · obtain ⟨rfl, _⟩ := value_constant.mp found
    exact Bool.false_ne_true (keeps.symm.trans isDropped)
  · exact Bool.false_ne_true ((keeps v isFloat).symm.trans isDropped)

/-- An operator with a constant on its right falters if that is a zero divisor, or if the left
operand does and the constant does not drop it. -/
theorem cases_of_falters_constant {op : BinaryOp} {c : Value}
    (falters : (binary respectful op x (constant respectful c)).falters)
    : (op = .divide ∧ c = .int 0) ∨ (x.falters ∧ ∀ drops, op.dropsLeft? = some drops
      → drops c = false) := by
  rcases falters_binary.mp falters with ⟨zero, kind⟩ | ⟨falters, keeps⟩ | ⟨impossible, _⟩
  · obtain ⟨rfl, _⟩ := value_constant.mp zero
    rcases kind with isDivide | ⟨_, peer, v, found, differs⟩
    · exact .inl ⟨Option.some.inj isDivide, rfl⟩
    · exact (differs (value_constant.mp found).1.symm).elim
  · refine .inr ⟨falters, fun drops found => Bool.eq_false_iff.mpr fun isDropped => ?_⟩
    exact not_escapes_constant isDropped (keeps drops found)
  · exact (not_falters_constant impossible).elim

theorem drops_of_simplify {op : BinaryOp} {left : NodeId} {c w : Value}
    (settles : Folding.simplify op left c = .constant w)
    : ∃ drops, op.dropsLeft? = some drops ∧ drops c = true := by
  cases op <;> simp only [Folding.simplify] at settles <;>
    (repeat' split at settles) <;> cases settles <;>
    refine ⟨_, rfl, ?_⟩ <;> cases c <;> simp_all [Value.isZero, Value.toBool, Value.register]

/-- What a rule of folding gives is the value of the operator with its constant. -/
theorem gives_of_value {op : BinaryOp} {c : Value} (left : NodeId)
    (found : (binary respectful op x (constant respectful c)).value peer v)
    : ∃ a, x.value peer a ∧ (Folding.simplify op left c).Gives a v := by
  obtain ⟨a, _, atX, atC, evaluates⟩ := eval?_of_value found
  obtain ⟨rfl, _⟩ := value_constant.mp atC
  exact ⟨a, atX, Folding.simplify_gives (fun isFloat => (x.discrete atX isFloat).elim) evaluates⟩

theorem result_log2 : ∀ signature ∈ UnaryOp.log2.signatures, .float ∈ signature.arguments
    → signature.result = .float := by
  decide

/-- Folding keeps what outlooks say. -/
theorem foldingLaws (respectful : env.Respectful)
    : Folding.Laws (algebra respectful) env.arithmetic where
  unary {op _ _ _ _} evaluates covers := by
    refine less_of_covers covers ⟨fun found => ?_, fun falters =>
      (not_falters_constant (falters_unary.mp falters)).elim,
      fun isTold => ?_⟩
    · obtain ⟨_, atA, found, discrete⟩ := value_unary.mp found
      obtain ⟨rfl, _⟩ := value_constant.mp atA
      exact value_constant.mpr ⟨Option.some.inj (evaluates.symm.trans found), discrete⟩
    · obtain ⟨rfl, _, member, ⟨rfl, told⟩ | ⟨rfl, isFloat, _⟩⟩ := isTold
      · obtain rfl := List.mem_singleton.mp member
        refine ⟨result_log2 _ (UnaryOp.signature_of_eval? (by decide) evaluates) ?_, .inl rfl⟩
        exact List.mem_singleton.mpr told.1.symm
      · exact ⟨(Value.register_of_convert? evaluates).trans isFloat, .inl rfl⟩
  binary {op a _ _ _} evaluates covers := by
    refine less_of_covers covers ⟨fun found => ?_, fun falters => ?_, False.elim⟩
    · obtain ⟨_, _, atA, atB, evaluated⟩ := eval?_of_value found
      obtain ⟨rfl, _⟩ := value_constant.mp atA
      obtain ⟨rfl, _⟩ := value_constant.mp atB
      exact value_constant.mpr ⟨Option.some.inj (evaluates.symm.trans evaluated), found.1⟩
    · rcases cases_of_falters_constant falters with ⟨rfl, rfl⟩ | ⟨impossible, _⟩
      · cases a <;> cases evaluates
      · exact (not_falters_constant impossible).elim
  ternary evaluates covers := by
    refine less_of_covers covers ⟨fun found => ?_, fun falters => ?_, False.elim⟩
    · obtain ⟨_, _, _, atA, atB, atC, evaluated, discrete⟩ := value_ternary.mp found
      obtain ⟨rfl, _⟩ := value_constant.mp atA
      obtain ⟨rfl, _⟩ := value_constant.mp atB
      obtain ⟨rfl, _⟩ := value_constant.mp atC
      exact value_constant.mpr ⟨Option.some.inj (evaluates.symm.trans evaluated), discrete⟩
    · rcases cases_of_falters_ternary falters with impossible
        | ⟨impossible, _⟩ | ⟨impossible, _⟩ <;>
        exact (not_falters_constant impossible).elim
  identity {op left c x _} keeps covers := by
    refine less_of_covers covers ⟨fun found => ?_, fun falters => ?_, False.elim⟩
    · obtain ⟨a, atX, gives⟩ := gives_of_value left found
      rw [keeps] at gives
      obtain rfl : _ = a := gives
      exact atX
    · rcases cases_of_falters_constant falters with ⟨rfl, rfl⟩ | ⟨falters, _⟩
      · cases keeps
      · exact falters
  settled {op left c _ x _} settles covers := by
    refine less_of_covers covers ⟨fun found => ?_, fun falters => ?_, False.elim⟩
    · obtain ⟨a, _, gives⟩ := gives_of_value left found
      rw [settles] at gives
      exact value_constant.mpr ⟨gives.symm, found.1⟩
    · obtain ⟨drops, found, isDropped⟩ := drops_of_simplify settles
      rcases cases_of_falters_constant falters with ⟨rfl, rfl⟩ | ⟨_, keeps⟩
      · cases found
      · exact (Bool.false_ne_true ((keeps drops found).symm.trans isDropped)).elim
  turned {op exchanged x y _} exchange covers := by
    refine covers_of_less covers ⟨fun found => ?_, fun falters => ?_, False.elim⟩
    · obtain ⟨a, b, atX, atY, evaluates⟩ := eval?_of_value found
      refine value_binary (by cases op <;> cases exchange <;> decide) atY atX ?_
      rw [Folding.eval?_exchanged exchange a b
        fun isFloat => (x.discrete atX isFloat).elim, evaluates]
    · have left : op.dropsLeft? = exchanged.dropsRight? := by cases op <;> cases exchange <;> rfl
      have right : op.dropsRight? = exchanged.dropsLeft? := by cases op <;> cases exchange <;> rfl
      rcases falters_binary.mp falters with ⟨_, isOp | ⟨isOp, _⟩⟩
        | ⟨falters, keeps⟩ | ⟨falters, keeps⟩
      · cases isOp
        cases exchange
      · cases isOp
        cases exchange
      · exact falters_binary.mpr (.inr (.inr ⟨falters, left ▸ keeps⟩))
      · exact falters_binary.mpr (.inr (.inl ⟨falters, right ▸ keeps⟩))
  chosen {c y z _} covers := by
    refine less_of_covers covers ⟨fun found => ?_, fun falters => ?_, False.elim⟩
    · obtain ⟨_, _, _, atC, atY, atZ, evaluates, _⟩ := value_ternary.mp found
      obtain ⟨rfl, _⟩ := value_constant.mp atC
      cases c with
      | int _ | float _ => cases evaluates
      | bool condition =>
          obtain rfl := Option.some.inj evaluates
          cases condition
          · exact atZ
          · exact atY
    · rcases cases_of_falters_ternary falters with impossible | ⟨falters, keeps⟩ | ⟨falters, keeps⟩
      · exact (not_falters_constant impossible).elim
      · rw [if_pos (by_contra fun isFalse => not_escapes_constant
          (by simpa using isFalse) (keeps _ rfl))]
        exact falters
      · rw [if_neg fun isTrue => not_escapes_constant isTrue (keeps _ rfl)]
        exact falters

/-- A product falters if its factors do, and has the power for its value. -/
theorem iterate_times (respectful : env.Respectful) (x y : Outlook env) (count : Nat)
    : ∃ z, (Lowering.times (algebra respectful) (some x))^[count] (some y) = some z
        ∧ (x.falters → y.falters → z.falters)
        ∧ ∀ {peer m n}, x.value peer (.int n) → y.value peer (.int m)
          → z.value peer (.int (m * n ^ count)) := by
  induction count generalizing y with
  | zero =>
      refine ⟨y, rfl, fun _ falters => falters, fun _ found => ?_⟩
      rw [Int32.pow_zero, Int32.mul_one]
      exact found
  | succ count ih =>
      obtain ⟨z, found, falters, values⟩ := ih (binary respectful .multiply y x)
      refine ⟨z, found, fun atX atY => falters atX
        (falters_binary.mpr (.inr (.inl ⟨atY, fun _ _ => .inl atX⟩))),
        fun {peer m n} atX atY => ?_⟩
      rw [Int32.pow_succ, Int32.mul_comm _ n, ← Int32.mul_assoc]
      exact values atX (value_binary (by decide) atY atX rfl)

theorem register_of_zero? {r : RegisterClass} (found : Value.zero? r = some v)
    : v.register = r := by
  cases r <;> cases found <;> rfl

theorem register_of_one? {r : RegisterClass} (found : Value.one? r = some v) : v.register = r := by
  cases r <;> cases found <;> rfl

/-- Outlooks are of the classes that operators tell. -/
theorem grades (respectful : env.Respectful) : Lowering.Grades (algebra respectful) where
  constant c := ⟨fun found => (value_constant.mp found).1 ▸ rfl, fun isTold => isTold.1.symm⟩
  conversion {r x v} made := by
    obtain rfl := Option.some.inj made
    refine ⟨fun found => ?_, fun isTold => ?_⟩
    · obtain ⟨_, _, evaluates, _⟩ := value_unary.mp found
      exact Value.register_of_convert? evaluates
    · obtain ⟨rfl, _, _, ⟨impossible, _⟩ | ⟨_, isFloat, _⟩⟩ := isTold
      · cases impossible
      · exact isFloat.symm
  operator {n table classes r xs v} found entry classed result := by
    obtain rfl := Option.some.inj result
    refine ⟨fun atPeer => ?_, fun isTold => ?_⟩
    · obtain ⟨_, _, values, atOperands, made⟩ := atPeer
      have arguments : classes = values.map Value.register := by
        rw [← List.forall₂_eq_eq_eq, List.forall₂_map_right_iff]
        exact forall₂_comp (fun isClass atValue => (isClass.1 atValue).symm) classed.flip atOperands
      exact Node.register_of_result? found entry arguments made
    -- Of the operators, only the logarithm tells its class.
    · change told n xs _ at isTold
      rw [told] at isTold
      split at isTold
      next kind =>
        rw [kind] at found
        cases found
      next op _ kind =>
        rw [kind] at found
        obtain ⟨rfl, x, member, ⟨rfl, told⟩ | ⟨rfl, _⟩⟩ := isTold
        · obtain rfl := Option.some.inj found
          obtain ⟨slot, atSlot⟩ := List.mem_iff_getElem?.mp member
          obtain ⟨c, atC, isClass⟩ := exists_of_forall₂ classed atSlot
          obtain rfl := isClass.2 told
          exact (result_log2 _ entry (List.mem_of_getElem? atC)).symm
        · cases found
      · exact isTold.elim
  target proper r other := by
    refine funext fun x => congrArg some
      (ofNode_congr (fun env => funext fun values => ?_) rfl fun _ isKind => ?_)
    · rcases values with _ | ⟨a, _ | ⟨b, values⟩⟩
      · rfl
      · exact Lowering.eval?_target r proper a other
      · rfl
    · cases isKind
      exact (proper rfl).elim

/-- Of the rules that lowering replaces an operator by, those for floats matter to what falters
alone. -/
theorem less_unary {op : UnaryOp} {r : RegisterClass} (plain : op ≠ .log2 ∧ op ≠ .typeConversion)
    (value : ∀ {peer a v}, x.value peer a → op.eval? env.arithmetic a r = some v
    → v.register ≠ .float → z.value peer v) (falters : x.falters → z.falters)
    : (unary respectful op r x).Less z where
  value found := by
    obtain ⟨a, atX, evaluates, discrete⟩ := value_unary.mp found
    exact value atX evaluates discrete
  falters fails := falters (falters_unary.mp fails)
  tells isTold := by
    obtain ⟨_, _, _, ⟨impossible, _⟩ | ⟨impossible, _⟩⟩ := isTold
    · exact (plain.1 impossible).elim
    · exact (plain.2 impossible).elim

/-- Lowering keeps what outlooks say. -/
theorem loweringLaws (respectful : env.Respectful) : Lowering.Laws (algebra respectful) where
  negate {r x _} _ covers := by
    refine covers_of_less covers
      (less_unary (by decide) (fun atX evaluates discrete => ?_) (falters_right rfl))
    exact value_binary (by decide) (value_constant.mpr ⟨rfl, by decide⟩) atX
      (Lowering.negate_agrees r discrete evaluates)
  saturate {r x _} _ covers := by
    refine covers_of_less covers (less_unary (by decide) (fun atX evaluates discrete => ?_)
      fun falters =>
      falters_left rfl (falters_left rfl falters))
    obtain ⟨capped, atCapped, made⟩ := Option.bind_eq_some_iff.mp
      (Lowering.saturate_agrees r discrete evaluates)
    exact value_binary (by decide)
      (value_binary (by decide) atX (value_constant.mpr ⟨rfl, by decide⟩) atCapped)
      (value_constant.mpr ⟨rfl, by decide⟩) made
  frac {r x _} covers := by
    refine covers_of_less covers
      (less_unary (by decide) (fun {_ a _} atX evaluates _ => ?_) (falters_left rfl))
    cases a with
    | float _ => exact (x.discrete atX rfl).elim
    | int _ | bool _ => cases evaluates
  pow2 {r x _} _ covers := by
    refine covers_of_less covers
      (less_unary (by decide) (fun atX evaluates discrete => ?_) (falters_right rfl))
    exact value_binary (by decide) (value_constant.mpr ⟨rfl, by decide⟩) atX
      (Lowering.pow2_agrees r discrete evaluates)
  modulo {x y _} _ covers := by
    refine covers_of_less covers ⟨fun found => ?_, fun falters => ?_, False.elim⟩
    · obtain ⟨a, b, atX, atY, evaluates⟩ := eval?_of_value found
      obtain ⟨product, made, subtracts⟩ := Option.bind_eq_some_iff.mp
        (Lowering.modulo_agrees found.1 evaluates)
      obtain ⟨quotient, divides, multiplies⟩ := Option.bind_eq_some_iff.mp made
      exact value_binary (by decide) atX
        (value_binary (by decide) (value_binary (by decide) atX atY divides) atY multiplies)
        subtracts
    -- The quotient is dropped only if the divisor beside it is a constant zero.
    · rcases falters_binary.mp falters with ⟨zero,
        impossible | ⟨_, peer, v, found, differs⟩⟩ | ⟨falters, _⟩ | ⟨falters, _⟩
      · cases impossible
      · have quotient := (falters_binary (x := x)).mpr (.inl ⟨zero, .inl rfl⟩)
        refine falters_right rfl
          (falters_binary.mpr (.inr (.inl ⟨quotient, fun drops isDrops => ?_⟩)))
        obtain rfl := Option.some.inj isDrops
        exact .inr (.inl ⟨peer, v, found, decide_eq_false differs⟩)
      · exact falters_left rfl falters
      · exact falters_right rfl
          (falters_binary.mpr (.inr (.inl ⟨falters_right rfl falters, fun _ _ => .inl falters⟩)))
  log {x y _} covers := by
    refine covers_of_less covers ⟨fun found => ?_, fun falters => ?_, False.elim⟩
    · obtain ⟨a, b, atX, atY, evaluates⟩ := eval?_of_value found
      cases a with
      | float _ => exact (x.discrete atX rfl).elim
      | int _ | bool _ => cases b <;> cases evaluates
    · rcases falters_binary.mp falters with ⟨_, impossible | ⟨impossible, _⟩⟩
        | ⟨falters, _⟩ | ⟨falters, _⟩
      · cases impossible
      · cases impossible
      · exact falters_left rfl (falters_unary.mpr falters)
      · exact falters_right rfl (falters_unary.mpr falters)
  powerZero {x _} covers := by
    refine less_of_covers covers ⟨fun found => ?_, fun falters => ?_, False.elim⟩
    · obtain ⟨a, _, atX, atN, evaluates⟩ := eval?_of_value found
      obtain ⟨rfl, _⟩ := value_constant.mp atN
      obtain ⟨m, rfl, rfl⟩ := Lowering.eval?_pow evaluates
      exact value_constant.mpr ⟨rfl, by simp [Value.register]⟩
    · rcases cases_of_falters_constant falters with ⟨impossible, _⟩ | ⟨_, keeps⟩
      · cases impossible
      · cases keeps _ rfl
  powerSucc {x _ n count} isSucc covers := by
    obtain ⟨z, made, falters, values⟩ := iterate_times respectful x x count
    rw [made]
    refine covers_of_less covers ⟨fun found => ?_, fun fails => ?_, False.elim⟩
    · obtain ⟨a, _, atX, atN, evaluates⟩ := eval?_of_value found
      obtain ⟨rfl, _⟩ := value_constant.mp atN
      obtain ⟨m, rfl, rfl⟩ := Lowering.eval?_pow evaluates
      rw [isSucc, Int32.pow_succ, Int32.mul_comm]
      exact values atX atX
    · rcases cases_of_falters_constant fails with ⟨impossible, _⟩ | ⟨atX, _⟩
      · cases impossible
      · exact falters atX atX
  clamp {x y z _} covers := by
    refine covers_of_less covers ⟨fun found => ?_, fun falters => ?_, False.elim⟩
    · obtain ⟨a, b, c, atX, atY, atZ, evaluates, _⟩ := value_ternary.mp found
      obtain ⟨capped, atCapped, made⟩ := Option.bind_eq_some_iff.mp
        (Lowering.clamp_agrees evaluates)
      exact value_binary (by decide) (value_binary (by decide) atX atZ atCapped) atY made
    · rcases cases_of_falters_ternary falters with falters | ⟨falters, _⟩ | ⟨falters, _⟩
      · exact falters_left rfl (falters_left rfl falters)
      · exact falters_right rfl falters
      · exact falters_left rfl (falters_right rfl falters)
  lerp {x y z _} covers := by
    refine covers_of_less covers ⟨fun found => ?_, fun falters => falters_left rfl ?_, False.elim⟩
    · obtain ⟨a, b, c, atX, _, _, evaluates, _⟩ := value_ternary.mp found
      cases a with
      | float _ => exact (x.discrete atX rfl).elim
      | int _ | bool _ => cases evaluates
    · have first (escapes : x.Escapes fun _ => true) : x.falters := escapes.resolve_right (by
        rintro (⟨_, _, _, impossible⟩ | ⟨_, impossible⟩)
        · cases impossible
        · cases impossible (.float .zero) rfl)
      rcases cases_of_falters_ternary falters with falters | ⟨_, keeps⟩ | ⟨_, keeps⟩
      · exact falters
      · exact first (keeps _ rfl)
      · exact first (keeps _ rfl)
  same {r x _} isClass covers := by
    refine less_of_covers covers ⟨fun found => ?_, falters_unary.mp, fun isTold => ?_⟩
    · obtain ⟨a, atX, evaluates, _⟩ := value_unary.mp found
      obtain rfl := isClass.1 atX
      exact Option.some.inj ((Lowering.convert?_register a).symm.trans evaluates) ▸ atX
    · obtain ⟨rfl, _, member, ⟨impossible, _⟩ | ⟨_, isFloat, peer, m, found⟩⟩ := isTold
      · cases impossible
      · obtain rfl := List.mem_singleton.mp member
        cases (isClass.1 found).trans isFloat
  choice {r x _ one zero} isBool oneOf zeroOf covers := by
    refine covers_of_less covers ⟨fun found => ?_, fun falters =>
      .inr ⟨0, x, rfl, falters_unary.mp falters, fun _ _ impossible => by cases impossible⟩,
      fun isTold => ?_⟩
    · obtain ⟨a, atX, evaluates, discrete⟩ := value_unary.mp found
      have target := Value.register_of_convert? evaluates
      refine value_ternary.mpr ⟨a, one, zero, atX, value_constant.mpr ⟨rfl, ?_⟩,
        value_constant.mpr ⟨rfl, ?_⟩, ?_, discrete⟩
      · exact register_of_one? oneOf ▸ target ▸ discrete
      · exact register_of_zero? zeroOf ▸ target ▸ discrete
      · cases a with
        | bool condition => exact Lowering.choice_agrees oneOf zeroOf evaluates
        | int _ | float _ => cases isBool.1 atX
    · obtain ⟨rfl, _, member, ⟨impossible, _⟩ | ⟨_, _, peer, m, found⟩⟩ := isTold
      · cases impossible
      · obtain rfl := List.mem_singleton.mp member
        cases isBool.1 found
  comparison {r x _ zero} isClass isNumber zeroOf covers := by
    refine covers_of_less covers ⟨fun found => ?_,
      fun falters => falters_left rfl (falters_unary.mp falters),
      fun isTold => ?_⟩
    · obtain ⟨a, atX, evaluates, _⟩ := value_unary.mp found
      obtain rfl := isClass.1 atX
      refine value_binary (by decide) atX (value_constant.mpr ⟨rfl, ?_⟩) ?_
      · exact register_of_zero? zeroOf ▸ x.discrete atX
      · refine Lowering.comparison_agrees (fun n isFloat => ?_) zeroOf isNumber evaluates
        exact (x.discrete atX (congrArg Value.register isFloat)).elim
    · obtain ⟨rfl, _, _, ⟨impossible, _⟩ | ⟨_, impossible, _⟩⟩ := isTold
      · cases impossible
      · cases impossible

/-! ## Powers that are computed by floats -/

/-- A float drops neither a base nor an exponent. -/
theorem escapes_float (isFloat : x.tells .float)
    (isDrops : BinaryOp.pow.dropsLeft? = some drops ∨ BinaryOp.pow.dropsRight? = some drops)
    : x.Escapes drops := by
  refine .inr (.inr ⟨isFloat, fun v register => ?_⟩)
  rcases isDrops with isDrops | isDrops <;> obtain rfl := Option.some.inj isDrops
  · exact decide_eq_false fun isZero => by cases isZero ▸ register
  · rfl

theorem cases_of_falters_power (falters : (binary respectful .pow x y).falters)
    : (x.falters ∧ ∀ drops, BinaryOp.pow.dropsLeft? = some drops → y.Escapes drops)
      ∨ (y.falters ∧ ∀ drops, BinaryOp.pow.dropsRight? = some drops → x.Escapes drops) := by
  refine (falters_binary.mp falters).resolve_left ?_
  rintro ⟨_, impossible | ⟨impossible, _⟩⟩ <;> cases impossible

/-- An integer as a float falters if it does, and drops nothing if it is known as an integer. -/
theorem floats {a : Option (Outlook env)} (classed : (algebra respectful).Classed x .int)
    (floats : Lowering.Floats (algebra respectful) x a)
    : ∃ w, a = some w
        ∧ (x.falters → w.falters)
        ∧ ∀ {drops}, BinaryOp.pow.dropsLeft? = some drops ∨ BinaryOp.pow.dropsRight? = some drops →
            x.Escapes drops → w.Escapes drops := by
  cases floats with
  | conversion =>
      refine ⟨_, rfl, falters_unary.mpr, fun isDrops escapes => ?_⟩
      rcases escapes with falters | ⟨peer, v, found, _⟩ | ⟨isFloat, _⟩
      · exact .inl (falters_unary.mpr falters)
      · cases v with
        | int m => exact escapes_float ⟨rfl, x, .head _, .inr ⟨rfl, rfl, peer, m, found⟩⟩ isDrops
        | float _ | bool _ => cases classed.1 found
      · cases classed.2 isFloat
  | constant less converts =>
      refine ⟨_, rfl, fun falters => (not_falters_constant (less.falters falters)).elim,
        fun isDrops _ => ?_⟩
      exact escapes_float ⟨Value.register_of_convert? converts, .inl rfl⟩ isDrops

/-- An outlook without values is coarse. -/
theorem coarse (empty : ∀ {peer u}, ¬ x.value peer u) (untold : ∀ {r}, ¬ x.tells r)
    : Lowering.Coarse (algebra respectful) x where
  laws := loweringLaws respectful
  float {base exponent} classed covers := by
    refine ⟨_, rfl, fun found => (empty found).elim,
      fun falters => falters_unary.mpr (falters_binary.mpr (.inr ?_)),
      fun isTold => (untold isTold).elim⟩
    rcases cases_of_falters_power ((less_of_covers covers (.refl _)).falters falters) with
      ⟨falters, keeps⟩ | ⟨falters, keeps⟩
    · exact .inr ⟨falters_unary.mpr falters, keeps⟩
    · refine .inl ⟨falters, fun drops isDrops => ?_⟩
      rcases keeps _ rfl with falters | ⟨_, _, found, _⟩ | ⟨isFloat, _⟩
      · exact .inl (falters_unary.mpr falters)
      · exact (base.discrete found (classed.1 found)).elim
      · exact escapes_float ⟨rfl, base, .head _, .inl ⟨rfl, isFloat⟩⟩ (.inl isDrops)
  int {base exponent a b} baseInt exponentInt first second covers := by
    obtain ⟨a, rfl, fallsA, escapesA⟩ := floats baseInt first
    obtain ⟨b, rfl, fallsB, escapesB⟩ := floats exponentInt second
    refine ⟨_, rfl, fun found => (empty found).elim,
      fun falters => falters_unary.mpr (falters_binary.mpr (.inr ?_)),
      fun isTold => (untold isTold).elim⟩
    rcases cases_of_falters_power ((less_of_covers covers (.refl _)).falters falters) with
      ⟨falters, keeps⟩ | ⟨falters, keeps⟩
    · exact .inl ⟨fallsA falters, fun drops isDrops =>
        escapesB (.inl isDrops) (keeps drops isDrops)⟩
    · exact .inr ⟨fallsB falters, fun drops isDrops =>
        escapesA (.inr isDrops) (keeps drops isDrops)⟩

theorem coarsens (respectful : env.Respectful) : Lowering.Coarsens (algebra respectful) := by
  intro x y v classed made
  obtain rfl := Option.some.inj made
  refine coarse (fun found => ?_) False.elim
  obtain ⟨_, second, isTold⟩ := found.2.1 rfl
  obtain rfl := Option.some.inj second
  cases classed.2 isTold

end StreamExpr.Outlook
