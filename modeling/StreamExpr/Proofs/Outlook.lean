import StreamExpr.Proofs.FoldedForm
import StreamExpr.Proofs.Folding
import StreamExpr.Proofs.IntegerPower

/-! Outlooks.
A node that has different values in different environments never becomes a constant, so nodes are
followed in all environments at once.
-/

namespace StreamExpr

/-! ## Operands that can be dropped -/

/-- The values of the right operand with which the left one is dropped. -/
def BinaryOp.dropsLeft? : BinaryOp → Option (Value → Bool)
  | .multiply | .bitwiseAnd | .pow => some (· = .int 0)
  | .logicalAnd => some (!·.toBool)
  | .logicalOr => some (·.toBool)
  | _ => none

/-- The values of the left operand with which the right one is dropped. No base drops an exponent,
but the base of a power that is computed by floats has to be known as a number. -/
def BinaryOp.dropsRight? : BinaryOp → Option (Value → Bool)
  | .pow => some fun _ => false
  | op => op.dropsLeft?

/-- The slot of the operand that decides whether the one in another slot is dropped, and the values
with which it is. -/
def BinaryOp.dropper? (op : BinaryOp) : Nat → Option (Nat × (Value → Bool))
  | 0 => op.dropsLeft?.map (1, ·)
  | 1 => op.dropsRight?.map (0, ·)
  | _ => none

/-- Interpolation, which is of floats, counts as dropping what it weighs. -/
def TernaryOp.dropper? : TernaryOp → Nat → Option (Nat × (Value → Bool))
  | .select, 1 => some (0, (!·.toBool))
  | .select, 2 => some (0, (·.toBool))
  | .lerp, 1 | .lerp, 2 => some (0, fun _ => true)
  | _, _ => none

def NodeKind.dropper? : NodeKind → Nat → Option (Nat × (Value → Bool))
  | .binary op _ _ => op.dropper?
  | .ternary op _ _ _ => op.dropper?
  | _ => fun _ => none

def NodeKind.operator? : NodeKind → Option BinaryOp
  | .binary op _ _ => some op
  | _ => none

/-- Environments with the arithmetic of another that keep to the classes of streams and
functions. -/
structure Environment.Peer (env : Environment) where
  other : Environment
  respectful : other.Respectful
  arithmetic : other.arithmetic = env.arithmetic

namespace Graph

/-- All powers that a node is computed from have constant exponents for which they are products. -/
def Steady (g : Graph) (id : NodeId) : Prop :=
  ∀ below, Relation.ReflTransGen g.Uses id below → ∀ {x y}, (g.node below).kind = .binary .pow x y →
    ∃ exponent, g.value? y = some (.int exponent) ∧ 0 ≤ exponent
    ∧ exponent ≤ Lowering.maxUnrolledExponent

/-- A node that is steady and has certain values in some environment. -/
def Can (g : Graph) (env : Environment) (id : NodeId) (P : Value → Prop) : Prop :=
  g.Steady id ∧ ∃ (peer : env.Peer) (v : Value), g.Has peer.other.meaning id v ∧ P v

/-- A node below which there is a division by zero. All operands are evaluated. -/
def DividesByZero (g : Graph) (env : Environment) (root : NodeId) : Prop :=
  ∃ id op x y,
    Relation.ReflTransGen g.Uses root id
    ∧ (g.node id).kind = .binary op x y
    ∧ (op = .divide ∨ op = .modulo)
    ∧ g.Has env.meaning y (.int 0)

/-- A node below which there is a division by zero that nothing on the way can drop. A remainder is
a factor beside its divisor once it is lowered, so that must not always be zero. -/
inductive Falters (g : Graph) (env : Environment) : NodeId → Prop
  | divide {id x y : NodeId} (kind : (g.node id).kind = .binary .divide x y) (steady : g.Steady y)
    (zero : g.Has env.meaning y (.int 0))
    : Falters g env id
  | modulo {id x y : NodeId} (kind : (g.node id).kind = .binary .modulo x y)
    (zero : g.Has env.meaning y (.int 0)) (varies : g.Can env y (· ≠ .int 0))
    : Falters g env id
  | operand {id child : NodeId} {slot : Nat} (atSlot : (g.children id)[slot]? = some child)
    (falters : Falters g env child)
    (keeps : ∀ place drops, (g.node id).kind.dropper? slot = some (place, drops) →
      ∃ other, (g.children id)[place]? = some other ∧ g.Can env other (drops · = false))
    : Falters g env id
  | both {id child other : NodeId} {slot place : Nat} {drops : Value → Bool}
    (atSlot : (g.children id)[slot]? = some child) (falters : Falters g env child)
    (dropper : (g.node id).kind.dropper? slot = some (place, drops))
    (atPlace : (g.children id)[place]? = some other) (also : Falters g env other)
    : Falters g env id

theorem DividesByZero.of_operand {g : Graph} {env : Environment} {id child : NodeId}
    (member : child ∈ g.children id) (divides : g.DividesByZero env child)
    : g.DividesByZero env id := by
  obtain ⟨place, op, x, y, path, found⟩ := divides
  exact ⟨place, op, x, y, .head member path, found⟩

/-- Only what divides by zero falters. -/
theorem Falters.dividesByZero {g : Graph} {env : Environment} {id : NodeId}
    (falters : g.Falters env id)
    : g.DividesByZero env id := by
  induction falters with
  | divide kind _ zero => exact ⟨_, _, _, _, .refl, kind, .inl rfl, zero⟩
  | modulo kind zero => exact ⟨_, _, _, _, .refl, kind, .inr rfl, zero⟩
  | operand atSlot _ _ ih | both atSlot _ _ _ _ ih =>
      exact ih.of_operand (List.mem_of_getElem? atSlot)

end Graph

/-! ## Values in all environments -/

/-- The values of a node in all environments, none of which is a float; whether the node falters in
one of them; and what the node itself tells of its class, if it is a float or a constant that powers
are unrolled for. -/
structure Outlook (env : Environment) where
  value : env.Peer → Value → Prop
  discrete : ∀ {peer v}, value peer v → v.register ≠ .float
  falters : Prop
  tells : RegisterClass → Prop

namespace Outlook

variable {env : Environment} {respectful : env.Respectful} {x y z a b c : Outlook env}
    {xs ys : List (Outlook env)}
  {peer : env.Peer} {n : Node} {v : Value} {drops : Value → Bool}

/-- One outlook says less than another if it has fewer values, does not falter, or tells less. -/
structure Less (x y : Outlook env) : Prop where
  value : ∀ {peer v}, x.value peer v → y.value peer v
  falters : x.falters → y.falters
  tells : ∀ {r}, x.tells r → y.tells r

theorem Less.refl (x : Outlook env) : x.Less x :=
  ⟨id, id, id⟩

theorem Less.trans (first : x.Less y) (second : y.Less z) : x.Less z :=
  ⟨fun found => second.value (first.value found),
    fun falters => second.falters (first.falters falters),
    fun told => second.tells (first.tells told)⟩

/-- An operand that has a value with which it drops no other, is a float that drops none, or falters
itself. -/
def Escapes (x : Outlook env) (drops : Value → Bool) : Prop :=
  x.falters
  ∨ (∃ peer v, x.value peer v ∧ drops v = false)
  ∨ (x.tells .float ∧ ∀ v, v.register = .float → drops v = false)

theorem Less.escapes (less : x.Less y) (escapes : x.Escapes drops) : y.Escapes drops := by
  rcases escapes with falters | ⟨peer, v, found, keeps⟩ | ⟨isFloat, keeps⟩
  · exact .inl (less.falters falters)
  · exact .inr (.inl ⟨peer, v, less.value found, keeps⟩)
  · exact .inr (.inr ⟨less.tells isFloat, keeps⟩)

/-- A division by what is zero here, where a remainder asks for a divisor that is not zero
elsewhere. -/
def Traps (respectful : env.Respectful) (op : Option BinaryOp) (divisor : Outlook env) : Prop :=
  divisor.value ⟨env, respectful, rfl⟩ (.int 0)
  ∧ (op = some .divide ∨ op = some .modulo ∧ ∃ peer v, divisor.value peer v ∧ v ≠ .int 0)

/-- What a node itself tells of its class. -/
def told (n : Node) (xs : List (Outlook env)) (r : RegisterClass) : Prop :=
  match n.kind with
  | .constant c => c.register = r ∧ (r = .float ∨ ∃ m, c = .int m ∧ 0 ≤ m ∧ m ≤ 16)
  | .unary op _ =>
      r = .float
      ∧ ∃ x ∈ xs, op = .log2 ∧ x.tells .float
        ∨ op = .typeConversion ∧ n.register = .float ∧ ∃ peer m, x.value peer (.int m)
  | _ => False

/-- What a node makes of the outlooks of its operands. A power that is not unrolled has no
values. -/
def ofNode (respectful : env.Respectful) (n : Node) (xs : List (Outlook env)) : Outlook env where
  value peer v :=
    v.register ≠ .float
    ∧ (n.kind.operator? = some .pow → ∃ y, xs[1]? = some y ∧ y.tells .int)
    ∧ ∃ values, List.Forall₂ (fun x : Outlook env => x.value peer) xs values
      ∧ n.result? peer.other values = some v
  discrete found := found.1
  falters :=
    (∃ y, xs[1]? = some y ∧ Traps respectful n.kind.operator? y)
    ∨ ∃ slot x, xs[slot]? = some x ∧ x.falters ∧ ∀ place drops,
        n.kind.dropper? slot = some (place, drops) → ∃ y, xs[place]? = some y ∧ y.Escapes drops
  tells := told n xs

theorem ofNode_mono (related : List.Forall₂ Less xs ys)
    : (ofNode respectful n xs).Less (ofNode respectful n ys) where
  value := by
    rintro _ _ ⟨discrete, unrolls, values, found, made⟩
    refine ⟨discrete, fun isPower => ?_, values, forall₂_comp (fun less found => less.value found)
      related.flip found, made⟩
    obtain ⟨y, atY, told⟩ := unrolls isPower
    obtain ⟨z, atZ, less⟩ := exists_of_forall₂ related atY
    exact ⟨z, atZ, less.tells told⟩
  falters := by
    rintro (⟨y, atY, zero, traps⟩ | ⟨slot, x, atSlot, falters, keeps⟩)
    · obtain ⟨z, atZ, less⟩ := exists_of_forall₂ related atY
      refine .inl ⟨z, atZ, less.value zero, traps.imp_right fun found => ?_⟩
      obtain ⟨isModulo, peer, v, found, differs⟩ := found
      exact ⟨isModulo, peer, v, less.value found, differs⟩
    · obtain ⟨y, atY, less⟩ := exists_of_forall₂ related atSlot
      refine .inr ⟨slot, y, atY, less.falters falters, fun place drops found => ?_⟩
      obtain ⟨other, atPlace, escapes⟩ := keeps place drops found
      obtain ⟨more, atMore, less⟩ := exists_of_forall₂ related atPlace
      exact ⟨more, atMore, less.escapes escapes⟩
  tells {r} isTold := by
    change told n xs r at isTold
    change told n ys r
    rw [told] at isTold ⊢
    split at isTold
    · exact isTold
    · obtain ⟨isFloat, x, member, told⟩ := isTold
      obtain ⟨slot, atSlot⟩ := List.mem_iff_getElem?.mp member
      obtain ⟨y, atY, less⟩ := exists_of_forall₂ related atSlot
      refine ⟨isFloat, y, List.mem_of_getElem? atY, ?_⟩
      rcases told with ⟨isLog, told⟩ | ⟨converts, register, peer, m, found⟩
      · exact .inl ⟨isLog, less.tells told⟩
      · exact .inr ⟨converts, register, peer, m, less.value found⟩
    · exact isTold

def constant (respectful : env.Respectful) (c : Value) : Outlook env :=
  ofNode respectful (.ofKind (.constant c) .unknown) []

def unary (respectful : env.Respectful) (op : UnaryOp) (r : RegisterClass) (x : Outlook env)
    : Outlook env :=
  ofNode respectful (.ofKind (.unary op 0) (.scalarOf r)) [x]

def binary (respectful : env.Respectful) (op : BinaryOp) (x y : Outlook env) : Outlook env :=
  ofNode respectful (.ofKind (.binary op 0 0) .unknown) [x, y]

def ternary (respectful : env.Respectful) (op : TernaryOp) (x y z : Outlook env) : Outlook env :=
  ofNode respectful (.ofKind (.ternary op 0 0 0) .unknown) [x, y, z]

theorem ofNode_congr {m : Node} (results : ∀ env, n.result? env = m.result? env)
    (kinds : n.kind.outline = m.kind.outline)
    (registers : ∀ a, n.kind = .unary .typeConversion a → n.register = m.register)
    : ofNode respectful n xs = ofNode respectful m xs := by
  have alike : n.kind.operator? = m.kind.operator? ∧ n.kind.dropper? = m.kind.dropper?
      ∧ told n xs = told m xs := by
    obtain ⟨kind, _, _⟩ := n
    obtain ⟨other, _, _⟩ := m
    cases kind <;> cases other <;>
      first | exact ⟨rfl, rfl, rfl⟩ | (cases kinds; try exact ⟨rfl, rfl, rfl⟩)
    refine ⟨rfl, rfl, funext fun r => propext
      (and_congr_right fun _ => exists_congr fun x => and_congr_right fun _ =>
      or_congr_right (and_congr_right fun isConversion => ?_))⟩
    subst isConversion
    rw [registers _ rfl]
  simp only [ofNode, results, alike]

/-- Outlooks in their order, with the classes of their values. -/
def algebra (respectful : env.Respectful) : Algebra (Outlook env) where
  meaning :=
    { apply := fun n xs => some (ofNode respectful n xs)
      apply_outline := fun {n m} same => funext fun xs => congrArg some (ofNode_congr
        (fun env => env.meaning.apply_outline same) (congrArg Node.kind same) fun _ _ =>
          congrArg DataType.register (Node.type_eq_of_outline same)) }
  order := ⟨Less, .refl, .trans, fun related made =>
    ⟨_, rfl, Option.some.inj made ▸ ofNode_mono related⟩⟩
  Classed x r := (∀ {peer v}, x.value peer v → v.register = r) ∧ ∀ {told}, x.tells told → told = r
  constant := constant respectful
  unary op r x := some (unary respectful op r x)
  binary op x y := some (binary respectful op x y)
  ternary op x y z := some (ternary respectful op x y z)
  apply_constant {n _} kind := by
    obtain ⟨own, type, overload⟩ := n
    obtain rfl : own = _ := kind
    exact congrArg some (ofNode_congr (fun _ => rfl) rfl fun _ isUnary => by cases isUnary)
  apply_unary {n _ _ _} kind := by
    obtain ⟨own, type, overload⟩ := n
    obtain rfl : own = _ := kind
    refine congrArg some (ofNode_congr (fun env => funext fun values => ?_) rfl fun _ _ => rfl)
    rcases values with _ | ⟨a, _ | ⟨b, values⟩⟩ <;> rfl
  apply_binary {n _ _ _ _ _} kind := by
    obtain ⟨own, type, overload⟩ := n
    obtain rfl : own = _ := kind
    refine congrArg some (ofNode_congr (fun env => funext fun values => ?_) rfl
      fun _ isUnary => by cases isUnary)
    rcases values with _ | ⟨a, _ | ⟨b, _ | ⟨c, values⟩⟩⟩ <;> rfl
  apply_ternary {n _ _ _ _ _ _ _} kind := by
    obtain ⟨own, type, overload⟩ := n
    obtain rfl : own = _ := kind
    refine congrArg some (ofNode_congr (fun env => funext fun values => ?_) rfl
      fun _ isUnary => by cases isUnary)
    rcases values with _ | ⟨a, _ | ⟨b, _ | ⟨c, _ | ⟨d, values⟩⟩⟩⟩ <;> rfl

theorem value_constant {c : Value} : (constant respectful c).value peer v ↔ c = v
    ∧ v.register ≠ .float := by
  constructor
  · rintro ⟨discrete, _, _, _ | _, made⟩
    exact ⟨Option.some.inj made, discrete⟩
  · rintro ⟨rfl, discrete⟩
    exact ⟨discrete, fun isPower => (by cases isPower), [], .nil, rfl⟩

theorem value_unary {op : UnaryOp} {r : RegisterClass}
    : (unary respectful op r x).value peer v
      ↔ ∃ a, x.value peer a ∧ op.eval? env.arithmetic a r = some v ∧ v.register ≠ .float := by
  rw [← peer.arithmetic]
  constructor
  · rintro ⟨discrete, _, _, _ | ⟨atX, _ | _⟩, made⟩
    exact ⟨_, atX, made, discrete⟩
  · rintro ⟨a, atX, made, discrete⟩
    exact ⟨discrete, fun isPower => (by cases isPower), [a], .cons atX .nil, made⟩

/-- The value of an operator, which is that of its operands. -/
theorem eval?_of_value {op : BinaryOp} (found : (binary respectful op x y).value peer v)
    : ∃ a b, x.value peer a ∧ y.value peer b ∧ op.eval? env.arithmetic a b = some v := by
  obtain ⟨_, _, _, _ | ⟨atX, _ | ⟨atY, _ | _⟩⟩, made⟩ := found
  rw [← peer.arithmetic]
  exact ⟨_, _, atX, atY, made⟩

theorem discrete_eval? {ops : FloatOps} {op : BinaryOp} {a b v : Value}
    (discrete : a.register ≠ .float) (evaluates : op.eval? ops a b = some v)
    : v.register ≠ .float := by
  have table : ∀ signature ∈ op.signatures, signature.arguments[0]? ≠ some .float
    → signature.result ≠ .float := by
    cases op <;> decide
  exact table _ (BinaryOp.signature_of_eval? evaluates) fun isFloat =>
    discrete (Option.some.inj isFloat)

theorem value_binary {op : BinaryOp} {a b : Value} (proper : op ≠ .pow) (atX : x.value peer a)
    (atY : y.value peer b) (evaluates : op.eval? env.arithmetic a b = some v)
    : (binary respectful op x y).value peer v := by
  refine ⟨discrete_eval? (x.discrete atX) evaluates,
    fun isPower => (proper (Option.some.inj isPower)).elim, [a, b], .cons atX (.cons atY .nil), ?_⟩
  rw [← peer.arithmetic] at evaluates
  exact evaluates

theorem value_ternary {op : TernaryOp}
    : (ternary respectful op x y z).value peer v
      ↔ ∃ a b c, x.value peer a ∧ y.value peer b ∧ z.value peer c
          ∧ op.eval? env.arithmetic a b c = some v ∧ v.register ≠ .float := by
  rw [← peer.arithmetic]
  constructor
  · rintro ⟨discrete, _, _, _ | ⟨atX, _ | ⟨atY, _ | ⟨atZ, _ | _⟩⟩⟩, made⟩
    exact ⟨_, _, _, atX, atY, atZ, made, discrete⟩
  · rintro ⟨a, b, c, atX, atY, atZ, made, discrete⟩
    exact ⟨discrete, fun isPower => (by cases isPower), [a, b, c],
      .cons atX (.cons atY (.cons atZ .nil)), made⟩

theorem not_falters_constant {c : Value} : ¬ (constant respectful c).falters := by
  rintro (⟨_, impossible, _⟩ | ⟨slot, _, impossible, _⟩)
  · cases impossible
  · cases impossible

theorem falters_unary {op : UnaryOp} {r : RegisterClass}
    : (unary respectful op r x).falters ↔ x.falters := by
  constructor
  · rintro (⟨_, impossible, _⟩ | ⟨_ | slot, _, atSlot, falters, _⟩)
    · cases impossible
    · exact Option.some.inj atSlot ▸ falters
    · cases atSlot
  · exact fun falters => .inr ⟨0, x, rfl, falters, fun _ _ impossible => by cases impossible⟩

theorem falters_binary {op : BinaryOp}
    : (binary respectful op x y).falters
      ↔ Traps respectful (some op) y
        ∨ (x.falters ∧ ∀ drops, op.dropsLeft? = some drops → y.Escapes drops)
        ∨ (y.falters ∧ ∀ drops, op.dropsRight? = some drops → x.Escapes drops) := by
  have keeps {found : Option (Value → Bool)} {place : Nat} {z : Outlook env}
      (atPlace : [x, y][place]? = some z) : (∀ other drops,
        found.map (place, ·) = some (other, drops) → ∃ t, [x, y][other]? = some t ∧ t.Escapes drops)
        ↔ ∀ drops, found = some drops → z.Escapes drops := by
    cases found <;> simp [atPlace]
  constructor
  · rintro (⟨_, atY, traps⟩ | ⟨_ | _ | slot, _, atSlot, falters, kept⟩)
    · exact .inl (Option.some.inj atY ▸ traps)
    · exact .inr (.inl ⟨Option.some.inj atSlot ▸ falters, (keeps rfl).mp kept⟩)
    · exact .inr (.inr ⟨Option.some.inj atSlot ▸ falters, (keeps rfl).mp kept⟩)
    · cases atSlot
  · rintro (traps | ⟨falters, kept⟩ | ⟨falters, kept⟩)
    · exact .inl ⟨y, rfl, traps⟩
    · exact .inr ⟨0, x, rfl, falters, (keeps rfl).mpr kept⟩
    · exact .inr ⟨1, y, rfl, falters, (keeps rfl).mpr kept⟩

theorem cases_of_falters_ternary {op : TernaryOp} (falters : (ternary respectful op x y z).falters)
    : x.falters
      ∨ (y.falters ∧ ∀ drops, op.dropper? 1 = some (0, drops) → x.Escapes drops)
      ∨ (z.falters ∧ ∀ drops, op.dropper? 2 = some (0, drops) → x.Escapes drops) := by
  have keeps {drops : Value → Bool} (kept : ∃ t, [x, y, z][0]? = some t ∧ t.Escapes drops)
    : x.Escapes drops := by
    obtain ⟨_, found, escapes⟩ := kept
    exact Option.some.inj found ▸ escapes
  rcases falters with ⟨_, _, _, impossible | ⟨impossible, _⟩⟩
    | ⟨_ | _ | _ | slot, _, atSlot, falters, kept⟩
  · cases impossible
  · cases impossible
  · exact .inl (Option.some.inj atSlot ▸ falters)
  · exact .inr
      (.inl ⟨Option.some.inj atSlot ▸ falters, fun drops found => keeps (kept 0 drops found)⟩)
  · exact .inr
      (.inr ⟨Option.some.inj atSlot ▸ falters, fun drops found => keeps (kept 0 drops found)⟩)
  · cases atSlot

end Outlook

end StreamExpr
