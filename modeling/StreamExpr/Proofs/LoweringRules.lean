import StreamExpr.Pass.Lowering
import StreamExpr.Proofs.Pass
import StreamExpr.Proofs.ScalarTyping

/-! The rules of lowering.
Most of them replace a node by the last of a few nodes that are added one after the other, each on
operands of the node and on nodes added before. A recipe lists these nodes, so that their classes
and values can be read off. In an algebra the rules ask for one law each.
-/

namespace StreamExpr

/-- Nodes for which the replacement computes what the evaluator gives. Replacements of some float
operators round differently, and so does a power that is not unrolled. -/
def Graph.lowersExactly (g : Graph) (id : NodeId) : Bool :=
  match (g.node id).kind with
  | .unary .negate _ | .unary .saturate _ | .binary .modulo _ _ => g.register id = .int
  | .unary .radToDeg _ | .unary .degToRad _ => false
  | .binary .pow _ y =>
      g.register id = .int
      && match g.value? y with
        | some (.int n) => 0 ≤ n ∧ n ≤ 16
        | _ => false
  | _ => true

namespace Lowering

/-! ## Nodes that lowering leaves alone -/

/-- Kinds that stay as they are, whatever their operands. -/
def isSettled : NodeKind → Bool
  | .unary op _ =>
      op ∉ [.typeConversion, .negate, .saturate, .radToDeg, .degToRad, .frac, .pow2]
  | .binary op _ _ => op ∉ [.modulo, .log, .pow]
  | .ternary op _ _ _ => op = .select
  | _ => true

theorem isSettled_outline (kind : NodeKind) : isSettled kind.outline = isSettled kind := by
  cases kind <;> rfl

theorem isSettled_of_isFixed {n : Node} (isFixed : n.isFixed = true) : isSettled n.kind = true := by
  obtain ⟨kind, type, overload⟩ := n
  cases kind <;> first | rfl | cases isFixed

/-! ## Recipes -/

/-- A node to add. Its operands are told by their places among the nodes at hand. -/
inductive Piece
  | constant (value : Value)
  | unary (op : UnaryOp) (x : Nat)
  | binary (op : BinaryOp) (x y : Nat)
  | ternary (op : TernaryOp) (x y z : Nat)
  | conversion (target : RegisterClass) (x : Nat)

namespace Piece

def kind (ids : List NodeId) : Piece → NodeKind
  | .constant value => .constant value
  | .unary op x => .unary op (ids.getD x 0)
  | .binary op x y => .binary op (ids.getD x 0) (ids.getD y 0)
  | .ternary op x y z => .ternary op (ids.getD x 0) (ids.getD y 0) (ids.getD z 0)
  | .conversion _ x => .unary .typeConversion (ids.getD x 0)

def places : Piece → List Nat
  | .constant _ => []
  | .unary _ x | .conversion _ x => [x]
  | .binary _ x y => [x, y]
  | .ternary _ x y z => [x, y, z]

def node (g : Graph) (ids : List NodeId) : Piece → Node
  | .constant value => .ofKind (.constant value) (.scalarOf value.register)
  | .conversion target x =>
      ⟨.unary .typeConversion (ids.getD x 0), (g.type (ids.getD x 0)).withRegister target, some 0⟩
  | piece => g.deduced (.ofKind (piece.kind ids) .unknown)

def add (ids : List NodeId) (piece : Piece) : Edit NodeId :=
  Edit.add fun g => g.push (piece.node g ids)

end Piece

/-- Add nodes one after the other. The last one is the answer. -/
def build (ids : List NodeId) : List Piece → Edit NodeId
  | [] => pure (ids.getLastD 0)
  | [piece] => piece.add ids
  | piece :: rest => do
      let new ← piece.add ids
      build (ids ++ [new]) rest

/-- What a node of some class is replaced by if its operands are of certain classes. The operands
are at hand first. -/
def recipe? (classes : List RegisterClass) (r : RegisterClass) : NodeKind → Option (List Piece)
  | .unary .typeConversion _ =>
      match classes, r with
      | [.bool], .int => some [.constant (.int 1), .constant (.int 0), .ternary .select 0 1 2]
      | [.bool], .float =>
          some [.constant (.float .one), .constant (.float .zero), .ternary .select 0 1 2]
      | [.int], .bool => some [.constant (.int 0), .binary .notEqual 0 1]
      | [.float], .bool => some [.constant (.float .zero), .binary .notEqual 0 1]
      | _, _ => none
  | .unary .negate _ => (Value.zero? r).map fun zero => [.constant zero, .binary .subtract 1 0]
  | .unary .saturate _ =>
      (Value.zero? r).bind fun zero => (Value.one? r).map fun one =>
        [.constant zero, .constant one, .binary .min 0 2, .binary .max 3 1]
  | .unary .radToDeg _ => some [.constant (.float degreesFactor), .binary .multiply 0 1]
  | .unary .degToRad _ => some [.constant (.float radiansFactor), .binary .multiply 0 1]
  | .unary .frac _ => some [.unary .trunc 0, .binary .subtract 0 1]
  | .unary .pow2 _ =>
      if r = .int then some [.constant (.int 1), .binary .bitshiftLeft 1 0] else none
  | .binary .modulo _ _ =>
      if r = .int then some [.binary .divide 0 1, .binary .multiply 2 1, .binary .subtract 0 3]
      else some [.binary .divide 0 1, .unary .trunc 2, .binary .multiply 3 1, .binary .subtract 0 4]
  | .binary .log _ _ => some [.unary .ln 0, .unary .ln 1, .binary .divide 2 3]
  | .binary .pow _ _ =>
      if r = .int then none else some [.unary .log2 0, .binary .multiply 1 2, .unary .pow2 3]
  | .ternary .clamp _ _ _ => some [.binary .min 0 2, .binary .max 3 1]
  | .ternary .lerp _ _ _ => some [.binary .subtract 1 0, .binary .multiply 3 2, .binary .add 0 4]
  | _ => none

/-- Multiply the node at a place and what comes of it by the first node at hand. -/
def products (place : Nat) : Nat → List Piece
  | 0 => []
  | count + 1 => .binary .multiply place 0 :: products (place + 1) count

theorem multiplyBy_eq (ids : List NodeId) (place : Nat) {count : Nat}
    (last : ids.length = place + 1)
    : multiplyBy (ids.getD 0 0) (count + 1) (ids.getD place 0) = build ids
      (products place (count + 1)) := by
  induction count generalizing ids place with
  | zero => exact bind_pure _
  | succ count ih =>
      refine congrArg (Bind.bind (Piece.add ids (.binary .multiply place 0))) (funext fun new => ?_)
      have first : (ids ++ [new]).getD 0 0 = ids.getD 0 0 := by
        cases ids with
        | nil => cases last
        | cons _ _ => rfl
      have next : (ids ++ [new]).getD (place + 1) 0 = new := by simp [last.symm]
      have rest := ih (ids ++ [new]) (place + 1) (by simp [last])
      rwa [first, next] at rest

/-- A node as a float. -/
def converted (g : Graph) (id : NodeId) (place : Nat) : Piece :=
  match (g.value? id).bind (·.convert? .float) with
  | some value => .constant value
  | none => .conversion .float place

/-- The power of two nodes as floats. -/
def floatPower (g : Graph) (x y : NodeId) : List Piece :=
  [converted g x 0, converted g y 1, .binary .pow 2 3, .conversion .int 4]

theorem intPowByFloat_eq {g : Graph} {x y : NodeId} (inside : y < g.size)
    : intPowByFloat x y g = build [x, y] (floatPower g x y) g := by
  have convert (g : Graph) (id : NodeId) (ids : List NodeId) (place : Nat)
      (atPlace : ids.getD place 0 = id) : Typing.convert id .float g = (converted g id place).add
      ids g := by
    rw [Typing.convert, Edit.read_bind, converted]
    cases (g.value? id).bind (·.convert? .float) with
    | none => exact atPlace ▸ rfl
    | some value => rfl
  have onward {h later : Graph} {m : Edit NodeId} {f : NodeId → Edit NodeId} {new : NodeId}
      (ran : m h = .ok new later) : (m >>= f) h = f new later := by
    simp only [Bind.bind, EStateM.bind, ran]
  generalize isNode : (converted g x 0).node g [x, y] = n
  have first : Typing.convert x .float g = .ok g.size (g.push n) :=
    isNode ▸ convert g x [x, y] 0 rfl
  have kept : converted (g.push n) y 1 = converted g y 1 := by
    rw [converted, Graph.value?, Graph.node_push_of_lt n inside]
    rfl
  have second := convert (g.push n) y [x, y, g.size] 1 rfl
  rw [kept] at second
  rw [intPowByFloat, onward first, onward second, ← isNode]
  rfl

/-- What one replacement does: it follows a recipe, takes the operand of a conversion, replaces an
integer power, misses the zero of a class, or leaves the node as it is. The last is so for settled
nodes, for powers of two that are no integers, and for conversions between other classes than those
with a recipe. -/
inductive Replaces (g : Graph) (id : NodeId) : Prop
  | recipe {pieces : List Piece}
    (found : recipe? ((g.children id).map g.register) (g.register id) (g.node id).kind = some
    pieces) (ran : lowerOnce id g = build (g.children id) pieces g)
    : Replaces g id
  | operand {x : NodeId} (kind : (g.node id).kind = .unary .typeConversion x)
    (same : g.register x = g.register id) (ran : lowerOnce id g = .ok x g)
    : Replaces g id
  | unit {x y : NodeId} (kind : (g.node id).kind = .binary .pow x y) (isInt : g.register id = .int)
    (exponent : g.value? y = some (.int 0))
    (ran : lowerOnce id g = build [x] [.constant (.int 1)] g)
    : Replaces g id
  | base {x y : NodeId} {n : Int32} (kind : (g.node id).kind = .binary .pow x y)
    (isInt : g.register id = .int) (exponent : g.value? y = some (.int n))
    (isOne : n.toInt.toNat = 1) (ran : lowerOnce id g = .ok x g)
    : Replaces g id
  | product {x y : NodeId} {n : Int32} {count : Nat} (kind : (g.node id).kind = .binary .pow x y)
    (isInt : g.register id = .int) (exponent : g.value? y = some (.int n))
    (isSucc : n.toInt.toNat = count + 1) (positive : 0 < count) (few : count ≤ 15)
    (ran : lowerOnce id g = build [x] (products 0 count) g)
    : Replaces g id
  | byFloat {x y : NodeId} (kind : (g.node id).kind = .binary .pow x y)
    (isInt : g.register id = .int) (inexactly : g.lowersExactly id = false)
    (ran : lowerOnce id g = intPowByFloat x y g)
    : Replaces g id
  | fails {message : String} (unknown : (g.register id).isKnown = false)
    (ran : lowerOnce id g = .error (.abandoned (.malformedInput message)) g)
    : Replaces g id
  | settled (settled : isSettled (g.node id).kind = true)
    (ran : lowerOnce id g = .ok id g) : Replaces g id
  | other {x : NodeId} (kind : (g.node id).kind = .unary .pow2 x) (isOther : g.register id ≠ .int)
    (ran : lowerOnce id g = .ok id g)
    : Replaces g id
  | cast {x : NodeId} (kind : (g.node id).kind = .unary .typeConversion x)
    (differs : g.register x ≠ g.register id)
    (missing : recipe? [g.register x] (g.register id) (.unary .typeConversion x) = none)
    (ran : lowerOnce id g = .ok id g)
    : Replaces g id

/-- An integer power is a constant, its base, a product, or a power of floats. -/
theorem replaces_power {g : Graph} {id x y : NodeId} (kind : (g.node id).kind = .binary .pow x y)
    (isInt : g.register id = .int) (ran : lowerOnce id g = intPow x y g)
    : Replaces g id := by
  have inexactly (large : ∀ n, g.value? y = some (.int n) → ¬ (0 ≤ n ∧ n ≤ 16))
    : g.lowersExactly id = false := by
    simp only [Graph.lowersExactly, kind, Bool.and_eq_false_iff]
    right
    split
    · exact decide_eq_false (large _ ‹_›)
    · rfl
  by_cases constant : ∃ n, g.value? y = some (.int n)
  · obtain ⟨n, exponent⟩ := constant
    have ran : lowerOnce id g
        = (if n = 0 then Edit.constant (.int 1)
          else if 1 ≤ n ∧ n ≤ maxUnrolledExponent then multiplyBy x (n.toInt.toNat - 1) x
          else intPowByFloat x y) g := by
      rw [ran, intPow, Edit.read_bind, exponent]
    by_cases isZero : n = 0
    · rw [if_pos isZero] at ran
      exact .unit kind isInt (isZero ▸ exponent) ran
    by_cases unrolled : 1 ≤ n ∧ n ≤ maxUnrolledExponent
    · rw [if_neg isZero, if_pos unrolled] at ran
      have lower : 1 ≤ n.toInt := Int32.le_iff_toInt_le.mp unrolled.1
      have upper : n.toInt ≤ 16 := Int32.le_iff_toInt_le.mp unrolled.2
      -- The first power adds no node. The others are chains of products that start with the base.
      by_cases isOne : n.toInt.toNat = 1
      · rw [isOne] at ran
        exact .base kind isInt exponent isOne ran
      · obtain ⟨count, isCount⟩ : ∃ count, n.toInt.toNat - 1 = count + 1 :=
          ⟨n.toInt.toNat - 2, by omega⟩
        rw [isCount] at ran
        have ran := ran.trans (congrFun (multiplyBy_eq [x] 0 rfl) g)
        exact .product kind isInt exponent (by omega) (Nat.succ_pos count) (by omega) ran
    · rw [if_neg isZero, if_neg unrolled] at ran
      refine .byFloat kind isInt (inexactly fun m found range => unrolled ⟨?_, ?_⟩) ran
      · cases exponent.symm.trans found
        have nonnegative : 0 ≤ n.toInt := Int32.le_iff_toInt_le.mp range.1
        have differs : n.toInt ≠ 0 := fun same => isZero (Int32.toInt_inj.mp same)
        have positive : 1 ≤ n.toInt := by omega
        exact Int32.le_iff_toInt_le.mpr positive
      · cases exponent.symm.trans found
        exact range.2
  -- An exponent that is no constant is left to floats.
  · refine .byFloat kind isInt (inexactly fun n found => (constant ⟨n, found⟩).elim) ?_
    rw [ran, intPow, Edit.read_bind]
    cases found : g.value? y with
    | none => rfl
    | some value =>
        cases value with
        | int n => exact (constant ⟨n, found⟩).elim
        | float _ | bool _ => rfl

theorem replaces (g : Graph) (id : NodeId) : Replaces g id := by
  have code {edit : Edit NodeId} (same : lowerOnce id g = edit g) {pieces : List Piece}
      (found : recipe? ((g.children id).map g.register) (g.register id) (g.node id).kind = some
      pieces) (built : edit = build (g.children id) pieces) : Replaces g id :=
    .recipe found (same.trans (congrFun built g))
  have register : (g.node id).register = g.register id := rfl
  have ran : lowerOnce id g = lowerOnce id g := rfl
  conv at ran => rhs; rw [lowerOnce, Edit.read_bind, register]
  cases kind : (g.node id).kind with
  | unary op x =>
      have operands : g.children id = [x] := congrArg NodeKind.children kind
      rw [kind] at ran
      rw [operands, kind] at code
      cases op with
      | typeConversion =>
          have ran : lowerOnce id g = conversion id x (g.register id) g := ran
          rw [conversion, Edit.read_bind] at ran
          split at ran
          case isTrue => exact .operand kind ‹_› ran
          case isFalse differs =>
            rw [List.map_singleton] at code
            cases source : g.register x <;> cases target : g.register id <;>
              rw [source, target] at ran code <;> first
              | exact code ran rfl rfl
              | exact .cast kind differs (by rw [source, target]; rfl) ran
      | negate | saturate =>
          cases own : g.register id <;> rw [own] at ran code
          · exact .fails (own ▸ rfl) ran
          all_goals exact code ran rfl rfl
      | radToDeg | degToRad | frac => exact code ran rfl rfl
      | pow2 =>
          have ran : lowerOnce id g = (if g.register id = .int then intPow2 x else pure id) g := ran
          by_cases isInt : g.register id = .int
          · rw [isInt] at ran code
            exact code ran rfl rfl
          · rw [if_neg isInt] at ran
            exact .other kind isInt ran
      | _ => exact .settled (kind ▸ rfl) ran
  | binary op x y =>
      have operands : g.children id = [x, y] := congrArg NodeKind.children kind
      rw [kind] at ran
      rw [operands, kind] at code
      cases op with
      | modulo =>
          cases own : g.register id <;> rw [own] at ran code <;> exact code ran rfl rfl
      | log => exact code ran rfl rfl
      | pow =>
          have ran
            : lowerOnce id g = (if g.register id = .int then intPow x y else floatPow x y) g := ran
          by_cases isInt : g.register id = .int
          · rw [if_pos isInt] at ran
            exact replaces_power kind isInt ran
          · rw [if_neg isInt] at ran
            exact code ran (if_neg isInt) rfl
      | _ => exact .settled (kind ▸ rfl) ran
  | ternary op x y z =>
      have operands : g.children id = [x, y, z] := congrArg NodeKind.children kind
      rw [kind] at ran
      rw [operands, kind] at code
      cases op with
      | clamp | lerp => exact code ran rfl rfl
      | _ => exact .settled (kind ▸ rfl) ran
  | _ =>
      rw [kind] at ran
      exact .settled (kind ▸ rfl) ran

theorem lowerOnce_settled {g : Graph} {id : NodeId} (settled : isSettled (g.node id).kind = true)
    : lowerOnce id g = .ok id g := by
  rw [lowerOnce, Edit.read_bind]
  generalize (g.node id).kind = kind at settled
  cases kind with
  | unary op _ => cases op <;> first | rfl | cases settled
  | binary op _ _ => cases op <;> first | rfl | cases settled
  | ternary op _ _ _ => cases op <;> first | rfl | cases settled
  | _ => rfl

/-! ## Classes of pieces -/

namespace Piece

/-- Pieces that have an instruction if they are of some class. -/
def isLowered (r : RegisterClass) : Piece → Bool
  | .unary op x => isSettled (.unary op x) || op = .pow2 && r ≠ .int
  | .binary op x y => isSettled (.binary op x y)
  | .ternary op x y z => isSettled (.ternary op x y z)
  | _ => true

/-- The class that a table tells for operands of certain classes. -/
def entry? (table : List Signature) (arguments : List RegisterClass) : Option RegisterClass :=
  ((table.find? (·.arguments = arguments)).map (·.result)).filter (·.isKnown)

theorem mem_of_entry? {table : List Signature} {arguments : List RegisterClass} {r : RegisterClass}
    (found : entry? table arguments = some r)
    : ⟨r, arguments⟩ ∈ table ∧ r.isKnown = true := by
  obtain ⟨found, known⟩ := Option.filter_eq_some_iff.mp found
  obtain ⟨signature, first, rfl⟩ := Option.map_eq_some_iff.mp found
  have same : signature.arguments = arguments := by simpa using List.find?_some first
  exact ⟨same ▸ List.mem_of_find?_eq_some first, known⟩

/-- The class of a piece on nodes at hand of certain classes. -/
def class? (classes : List RegisterClass) : Piece → Option RegisterClass
  | .constant value => some value.register
  | .unary op x =>
      if op.isVectorOp then none else (classes[x]?).bind fun a => entry? op.signatures [a]
  | .binary op x y =>
      if op.isVectorOp then none
      else (classes[x]?).bind fun a => (classes[y]?).bind fun b => entry? op.signatures [a, b]
  | .ternary op x y z =>
      (classes[x]?).bind fun a => (classes[y]?).bind fun b => (classes[z]?).bind fun c =>
      entry? op.signatures [a, b, c]
  | .conversion target x =>
      ((classes[x]?).filter fun a => a = .int ∧ target = .float ∨ a = .float ∧ target = .int).map
        fun _ => target

def isPower : Piece → Bool
  | .binary .pow _ _ => true
  | _ => false

end Piece

/-- The class of the last piece of a recipe, which has an instruction. -/
def class? (classes : List RegisterClass) : List Piece → Option RegisterClass
  | [] => none
  | [piece] => (piece.class? classes).filter (piece.isLowered ·)
  | piece :: rest =>
      ((piece.class? classes).filter fun r => piece.isLowered r || piece.isPower && r = .float).bind
      fun r =>
        class? (classes ++ [r]) rest

theorem class?_products {count : Nat} (positive : 0 < count) (few : count ≤ 15)
    : class? [.int] (products 0 count) = some .int := by
  have each : ∀ count ≤ 15, 0 < count → class? [.int] (products 0 count) = some .int := by decide
  exact each count few positive

theorem any_products (place count : Nat) : (products place count).any Piece.isPower = false := by
  induction count generalizing place with
  | zero => rfl
  | succ count ih => exact ih (place + 1)

theorem class?_floatPower (g : Graph) (x y : NodeId)
    : class? [.int, .int] (floatPower g x y) = some .int := by
  have converted (id : NodeId) (place : Nat) :
      (∃ c, converted g id place = .constant (.float c))
      ∨ converted g id place = .conversion .float place := by
    rw [converted]
    split
    next value found =>
      obtain ⟨source, _, converts⟩ := Option.bind_eq_some_iff.mp found
      cases source <;> cases converts <;> exact .inl ⟨_, rfl⟩
    · exact .inr rfl
  rw [floatPower]
  rcases converted x 0 with ⟨_, atX⟩ | atX <;> rcases converted y 1 with ⟨_, atY⟩
    | atY <;> rw [atX, atY] <;>
    rfl

/-- A recipe leads from the classes of an entry to its result. -/
theorem class?_of_recipe? {kind : NodeKind} {classes : List RegisterClass} {r : RegisterClass}
    {pieces : List Piece} (entry : ∀ {table}, kind.signatures? = some table → ⟨r, classes⟩ ∈ table)
    (found : recipe? classes r kind = some pieces)
    : class? classes pieces = some r ∧ pieces.any Piece.isPower = false := by
  cases kind with
  | unary op x =>
      by_cases converts : op = .typeConversion
      · subst converts
        simp only [recipe?] at found
        split at found <;> cases found <;> exact ⟨rfl, rfl⟩
      · have table : ∀ signature ∈ op.signatures,
            ∀ pieces ∈ recipe? signature.arguments signature.result (.unary op 0),
            class? signature.arguments pieces = some signature.result
            ∧ pieces.any Piece.isPower = false := by
          cases op <;> decide
        exact table _ (entry (if_neg converts)) pieces (by cases op <;> exact found)
  | binary op x y =>
      have table : ∀ signature ∈ op.signatures,
          ∀ pieces ∈ recipe? signature.arguments signature.result (.binary op 0 0),
          class? signature.arguments pieces = some signature.result
          ∧ pieces.any Piece.isPower = false := by
        cases op <;> decide
      by_cases mixes : op = .cross
      · subst mixes
        cases found
      · exact table _ (entry (if_neg mixes)) pieces (by cases op <;> exact found)
  | ternary op x y z =>
      have table : ∀ signature ∈ op.signatures,
          ∀ pieces ∈ recipe? signature.arguments signature.result (.ternary op 0 0 0),
          class? signature.arguments pieces = some signature.result
          ∧ pieces.any Piece.isPower = false := by
        cases op <;> decide
      exact table _ (entry rfl) pieces (by cases op <;> exact found)
  | _ => cases found

/-! ## Values of pieces -/

variable {V : Type} {A : Algebra V}

def Piece.value? (A : Algebra V) (values : List (Option V)) : Piece → Option V
  | .constant value => some (A.constant value)
  | .unary op x => (values.getD x none).bind (A.unary op .unknown)
  | .binary op x y => (values.getD x none).bind fun a => (values.getD y none).bind (A.binary op a)
  | .ternary op x y z =>
      (values.getD x none).bind fun a => (values.getD y none).bind fun b =>
      (values.getD z none).bind (A.ternary op a b)
  | .conversion target x => (values.getD x none).bind (A.unary .typeConversion target)

/-- The value of the last piece of a recipe. -/
def value? (A : Algebra V) (values : List (Option V)) : List Piece → Option V
  | [] => none
  | [piece] => piece.value? A values
  | piece :: rest => value? A (values ++ [piece.value? A values]) rest

/-- Multiply by a value, if both are there. -/
def times (A : Algebra V) (factor product : Option V) : Option V :=
  product.bind fun v => factor.bind (A.binary .multiply v)

theorem value?_products {values : List (Option V)} {place count : Nat}
    (last : values.length = place + 1)
    : value? A values (products place (count + 1))
      = (times A (values.getD 0 none))^[count + 1] (values.getD place none) := by
  induction count generalizing values place with
  | zero => rfl
  | succ count ih =>
      have more : value? A values (products place (count + 2))
          = value? A (values ++ [times A (values.getD 0 none) (values.getD place none)])
            (products (place + 1) (count + 1)) := rfl
      have first (v : Option V) : (values ++ [v]).getD 0 none = values.getD 0 none := by
        cases values with
        | nil => cases last
        | cons _ _ => rfl
      have next (v : Option V) : (values ++ [v]).getD (place + 1) none = v := by simp [last.symm]
      rw [more, ih (by simp [last]), first, next, ← Function.iterate_succ_apply]

/-! ## Rules in an algebra -/

/-- Values are of the classes that operators tell. The class of the result matters to conversions
only. -/
structure Grades (A : Algebra V) : Prop where
  constant : ∀ c, A.Classed (A.constant c) c.register
  conversion : ∀ {r x v}, A.unary .typeConversion r x = some v → A.Classed v r
  operator : ∀ {n : Node} {table classes r xs v}, n.kind.signatures? = some table
    → ⟨r, classes⟩ ∈ table → List.Forall₂ A.Classed xs classes → A.meaning.apply n xs = some v
      → A.Classed v r
  target : ∀ {op : UnaryOp}, op ≠ .typeConversion → ∀ r other, A.unary op r = A.unary op other

/-- An algebra in which nothing but constants has a value. -/
def silent : Algebra Unit where
  meaning :=
    { apply := fun n _ => if n.isConstant then some () else none
      apply_outline := fun {n m} same => by
        have kept (n : Node) : n.outline.isConstant = n.isConstant := by
          obtain ⟨kind, type, overload⟩ := n
          cases kind <;> rfl
        rw [← kept n, same, kept] }
  order := Meaning.flat _
  Classed _ _ := True
  constant _ := ()
  unary _ _ _ := none
  binary _ _ _ := none
  ternary _ _ _ _ := none
  apply_constant kind := by simp [Node.isConstant, kind]
  apply_unary kind := by simp [Node.isConstant, kind]
  apply_binary kind := by simp [Node.isConstant, kind]
  apply_ternary kind := by simp [Node.isConstant, kind]

theorem silent_grades : Grades silent :=
  ⟨fun _ => trivial, fun _ => trivial, fun _ _ _ _ => trivial, fun _ _ _ => rfl⟩

/-- What lowering relies on in an algebra: what an operator is replaced by says no less. -/
structure Laws (A : Algebra V) : Prop where
  negate : ∀ {r x v}, A.Classed v .int → A.order.Covers v (A.unary .negate r x) →
    A.order.Covers v (A.binary .subtract (A.constant (.int 0)) x)
  saturate : ∀ {r x v}, A.Classed v .int → A.order.Covers v (A.unary .saturate r x) →
    A.order.Covers v ((A.binary .min x (A.constant (.int 1))).bind fun capped =>
      A.binary .max capped (A.constant (.int 0)))
  frac : ∀ {r x v}, A.order.Covers v (A.unary .frac r x) →
    A.order.Covers v ((A.unary .trunc .unknown x).bind (A.binary .subtract x))
  pow2 : ∀ {r x v}, A.Classed v .int → A.order.Covers v (A.unary .pow2 r x) →
    A.order.Covers v (A.binary .bitshiftLeft (A.constant (.int 1)) x)
  modulo : ∀ {x y v}, A.Classed v .int → A.order.Covers v (A.binary .modulo x y) →
    A.order.Covers v
      (((A.binary .divide x y).bind fun quotient => A.binary .multiply quotient y).bind
      (A.binary .subtract x))
  log : ∀ {x y v}, A.order.Covers v (A.binary .log x y) →
    A.order.Covers v ((A.unary .ln .unknown x).bind fun numerator =>
      (A.unary .ln .unknown y).bind (A.binary .divide numerator))
  powerZero : ∀ {x v}, A.order.Covers v (A.binary .pow x (A.constant (.int 0)))
    → A.order.Less v (A.constant (.int 1))
  powerSucc : ∀ {x v} {n : Int32} {count}, n.toInt.toNat = count + 1 →
    A.order.Covers v (A.binary .pow x (A.constant (.int n))) →
    A.order.Covers v ((times A (some x))^[count] (some x))
  clamp : ∀ {x y z v}, A.order.Covers v (A.ternary .clamp x y z) →
    A.order.Covers v ((A.binary .min x z).bind fun capped => A.binary .max capped y)
  lerp : ∀ {x y z v}, A.order.Covers v (A.ternary .lerp x y z) →
    A.order.Covers v
    (((A.binary .subtract y x).bind fun delta => A.binary .multiply delta z).bind (A.binary .add x))
  same : ∀ {r x v}, A.Classed x r → A.order.Covers v
    (A.unary .typeConversion r x) → A.order.Less v x
  choice : ∀ {r x v one zero}, A.Classed x .bool → Value.one? r = some one
    → Value.zero? r = some zero → A.order.Covers v (A.unary .typeConversion r x) →
    A.order.Covers v (A.ternary .select x (A.constant one) (A.constant zero))
  comparison : ∀ {r x v zero}, A.Classed x r → r ≠ .bool → Value.zero? r = some zero →
    A.order.Covers v (A.unary .typeConversion .bool x)
    → A.order.Covers v (A.binary .notEqual x (A.constant zero))

/-- What an operand comes to as a float. -/
inductive Floats (A : Algebra V) (x : V) : Option V → Prop
  | conversion : Floats A x (A.unary .typeConversion .float x)
  | constant {c w : Value} (less : A.order.Less x (A.constant c))
    (converts : c.convert? .float = some w)
    : Floats A x (some (A.constant w))

/-- A value that tells so little of a power that powers of floats say no less. -/
structure Coarse (A : Algebra V) (v : V) : Prop where
  laws : Laws A
  float : ∀ {x y}, A.Classed x .float → A.order.Covers v (A.binary .pow x y) →
    A.order.Covers v (((A.unary .log2 .unknown x).bind (A.binary .multiply y)).bind
    (A.unary .pow2 .unknown))
  int : ∀ {x y a b}, A.Classed x .int → A.Classed y .int → Floats A x a → Floats A y b →
    A.order.Covers v (A.binary .pow x y) →
    A.order.Covers v ((a.bind fun a => b.bind (A.binary .pow a)).bind
    (A.unary .typeConversion .int))

/-- An algebra in which powers of floats have coarse values, if any. -/
def Coarsens (A : Algebra V) : Prop :=
  ∀ {x y v}, A.Classed y .float → A.binary .pow x y = some v → Coarse A v

theorem silent_coarsens : Coarsens silent := fun _ made => by cases made

/-- What a recipe comes to says no less than a node that lowers exactly. -/
theorem Laws.covers {g : Graph} {id : NodeId} {pieces : List Piece} {xs : List V} {v : V}
    (laws : Laws A) (found : recipe? ((g.children id).map g.register) (g.register id)
    (g.node id).kind = some pieces) (exactly : g.lowersExactly id = true)
    (classes : List.Forall₂ (fun child x => A.Classed x (g.register child)) (g.children id) xs)
    (own : A.Classed v (g.register id)) (covers : A.order.Covers v (A.meaning.apply (g.node id) xs))
    : A.order.Covers v (value? A (xs.map some) pieces) := by
  rw [Graph.lowersExactly] at exactly
  cases kind : (g.node id).kind with
  | unary op x =>
      have operands : g.children id = [x] := congrArg NodeKind.children kind
      rw [operands] at classes found
      rw [kind] at found exactly
      cases classes with | @cons _ a _ _ classed rest =>
      cases rest
      rw [A.apply_unary kind, show (g.node id).register = g.register id from rfl] at covers
      cases op with
      | typeConversion =>
          rw [List.map_singleton] at found
          -- Of the conversions, only those from and to truth values are lowered.
          generalize g.register x = source at classed found
          generalize g.register id = target at covers found
          simp only [recipe?] at found
          split at found <;> cases found
          next same =>
            cases same
            exact laws.choice classed rfl rfl covers
          next same =>
            cases same
            exact laws.choice classed rfl rfl covers
          next same =>
            cases same
            exact laws.comparison classed (by decide) rfl covers
          next same =>
            cases same
            exact laws.comparison classed (by decide) rfl covers
      | negate =>
          rw [of_decide_eq_true exactly] at own found
          cases found
          exact laws.negate own covers
      | saturate =>
          rw [of_decide_eq_true exactly] at own found
          cases found
          exact laws.saturate own covers
      | frac =>
          cases found
          exact laws.frac covers
      | pow2 =>
          obtain ⟨isInt, same⟩ := Option.ite_none_right_eq_some.mp found
          cases same
          exact laws.pow2 (isInt ▸ own) covers
      | radToDeg | degToRad => cases exactly
      | _ => cases found
  | binary op x y =>
      have operands : g.children id = [x, y] := congrArg NodeKind.children kind
      rw [operands] at classes found
      rw [kind] at found exactly
      cases classes with | cons _ rest =>
      cases rest with | cons _ rest =>
      cases rest
      rw [A.apply_binary kind] at covers
      cases op with
      | modulo =>
          rw [of_decide_eq_true exactly] at own found
          cases found
          exact laws.modulo own covers
      | log =>
          cases found
          exact laws.log covers
      | pow =>
          obtain ⟨isOther, _⟩ := Option.ite_none_left_eq_some.mp found
          exact (isOther (of_decide_eq_true (Bool.and_eq_true_iff.mp exactly).1)).elim
      | _ => cases found
  | ternary op x y z =>
      have operands : g.children id = [x, y, z] := congrArg NodeKind.children kind
      rw [operands] at classes found
      rw [kind] at found
      cases classes with | cons _ rest =>
      cases rest with | cons _ rest =>
      cases rest with | cons _ rest =>
      cases rest
      rw [A.apply_ternary kind] at covers
      cases op with
      | clamp =>
          cases found
          exact laws.clamp covers
      | lerp =>
          cases found
          exact laws.lerp covers
      | select => cases found
  | _ =>
      rw [kind] at found
      cases found

end Lowering

end StreamExpr
