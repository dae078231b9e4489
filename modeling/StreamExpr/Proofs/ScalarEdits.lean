import Mathlib.Data.List.GetD
import StreamExpr.Proofs.OutputSplitting

/-! Edits that add scalars.
A vector has up to four components, and each is computed from the components of the operands. What
is added for one is a scalar and typed.
-/

namespace StreamExpr

variable {α : Type} {M : ScalarModel α} {streams : StreamDecl → Nat → α} {broad : Prop} {base : Nat}

/-! ## What is left over -/

/-- A node that neither selects a single component nor reduces a vector. -/
def Node.isSettled (n : Node) : Bool :=
  match n.kind with
  | .swizzle _ chosen => chosen.count ≠ 1
  | .unary .all _ | .unary .any _ | .binary .dot _ _ => false
  | _ => true

@[simp]
theorem Node.isSettled_outline (n : Node) : n.outline.isSettled = n.isSettled := by
  obtain ⟨kind, _, _⟩ := n
  cases kind with
  | unary op _ => cases op <;> rfl
  | binary op _ _ => cases op <;> rfl
  | _ => rfl

theorem Graph.isSettled_shape (g : Graph) (id : NodeId)
    : (g.shape id).node.isSettled = (g.node id).isSettled :=
  Node.isSettled_outline _

theorem Node.isSettled_of_isOutput {n : Node} (isOutput : n.isOutput = true)
    : n.isSettled = true := by
  obtain ⟨kind, _, _⟩ := n
  cases kind <;> first | rfl | cases isOutput

/-- What is left over once components of vectors are replaced by scalars. -/
def Dialect.settled (α : Type) (broad : Prop) : Dialect α where
  Allows id s := (Dialect.narrow α broad).Allows id s ∧ s.node.isSettled = true
  within allowed := allowed.1.1

/-! ## Components of values -/

/-- The component of a vector is in its lane. -/
theorem VectorValue.part_of {type : DataType} {lanes : Nat → α} {c : Nat}
    (isVector : type.isVector = true) (yields : type.Yields α c)
    : (of type lanes).part c = of type.scalar fun _ => lanes c := by
  refine congrArg (of type.scalar) (funext fun _ => ?_)
  rcases yields with (inside | scalar) | ⟨_, single⟩
  · exact lane_of lanes inside
  · cases scalar.symm.trans isVector
  · exact single.elim _ _

/-- What works component by component makes the components of its value of the components of its
operands. -/
theorem Node.lanes?_parts {n : Node} {kind : NodeKind} {xs : List (VectorValue α)} {lanes : Nat → α}
    (componentwise : n.kind.isComponentwise = true) (outline : kind.outline = n.kind.outline)
    (made : n.lanes? M streams xs = some lanes) (c : Nat)
    : Node.lanes? M streams ⟨kind, n.type.scalar, n.overload⟩ (xs.map (·.part c))
        = some fun _ => lanes c := by
  obtain ⟨old, type, overload⟩ := n
  cases old with
  | unary op a =>
      cases kind <;> cases outline
      rcases xs with _ | ⟨x, _ | ⟨y, xs⟩⟩
      · cases made
      · obtain rfl := Option.some.inj made
        refine congrArg some (funext fun d => ?_)
        have plain : (NodeKind.unary op a).isComponentwise = true := componentwise
        rw [M.unaryLane_of_componentwise plain, M.unaryLane_of_componentwise plain]
        simp only [VectorValue.lane_part]
        rfl
      · cases made
  | binary op a b =>
      cases kind <;> cases outline
      have plain : op.isVectorOp = false := by simpa [NodeKind.isComponentwise] using componentwise
      rcases xs with _ | ⟨x, _ | ⟨y, _ | ⟨z, xs⟩⟩⟩
      · cases made
      · cases made
      · obtain rfl := Option.some.inj made
        refine congrArg some (funext fun d => ?_)
        rw [M.binaryLane_of_componentwise plain, M.binaryLane_of_componentwise plain]
        simp only [VectorValue.lane_part]
        rfl
      · cases made
  | ternary op a b d =>
      cases kind <;> cases outline
      rcases xs with _ | ⟨x, _ | ⟨y, _ | ⟨z, _ | ⟨w, xs⟩⟩⟩⟩
      · cases made
      · cases made
      · cases made
      · obtain rfl := Option.some.inj made
        refine congrArg some (funext fun d => ?_)
        simp only [VectorValue.lane_part]
        rfl
      · cases made
  | call candidates arguments =>
      cases kind with
      | call others parts =>
          obtain ⟨rfl, _⟩ := NodeKind.call.inj outline
          obtain ⟨f, function, rfl⟩ := Option.map_eq_some_iff.mp made
          have own : Node.function? ⟨.call others parts, type.scalar, overload⟩ = some f := function
          refine (congrArg (Option.map _) own).trans (congrArg some (funext fun d => ?_))
          simp only [List.map_map, Function.comp_def, VectorValue.lane_part]
      | _ => cases outline
  | _ => cases componentwise

namespace Scalarization

/-- Components are found in the argument that holds them, or in none of the arguments. -/
theorem locate?_spec {width : NodeId → Nat} {c before : Nat} {arguments : List NodeId}
    {xs : List (VectorValue α)} (zero : α) (small : c < 4) (passed : before ≤ c)
    (widths : List.Forall₂ (fun argument x => width argument = x.type.width) arguments xs)
    : match locate? width c arguments before with
      | some (argument, place) => ∃ x, (argument, x) ∈ arguments.zip xs ∧ place < x.type.width
          ∧ (xs.flatMap VectorValue.components).getD (c - before) zero = x.lane place
      | none => (xs.flatMap VectorValue.components).getD (c - before) zero = zero := by
  induction widths generalizing before with
  | nil => rfl
  | @cons argument x arguments xs own _ ih =>
      have narrow := x.type.width_le_four
      have length : x.components.length = x.type.width := by simp [VectorValue.components]
      have next : (before + width argument) % 256 = before + x.type.width := by
        rw [own]
        exact Nat.mod_eq_of_lt (by omega)
      rw [locate?, next, List.flatMap_cons]
      by_cases here : c < before + x.type.width
      · have inside : c - before < x.type.width := by omega
        rw [if_pos here]
        refine ⟨x, .head _, inside, ?_⟩
        rw [List.getD_append _ _ _ _ (length ▸ inside), VectorValue.components,
          List.getD_eq_getElem?_getD, List.getElem?_map, List.getElem?_range inside]
        rfl
      · rw [if_neg here, List.getD_append_right _ _ _ _ (by omega), length, Nat.sub_sub]
        have found := @ih (before + x.type.width) (by omega)
        split
        next place located =>
          rw [located] at found
          obtain ⟨y, paired, rest⟩ := found
          exact ⟨y, .tail _ paired, rest⟩
        next located =>
          rw [located] at found
          exact found

/-! ## The stage -/

/-- Nodes that are added are scalars. -/
def stage (α : Type) (broad : Prop) (base : Nat) : Stage α where
  Allows id s := (Dialect.narrow α broad).Allows id s ∧ (base ≤ id → s.node.type.isVector = false)
  within allowed := allowed.1.1
  Stays s := s.node.isSettled = true

/-- A scalar that neither selects nor is built from parts nor is a stream. -/
structure Fresh (s : Shape) : Prop where
  scalar : s.node.type.isVector = false
  noSelection : s.node.selection? = none
  noConstruct : ∀ arguments, s.node.kind ≠ .construct arguments
  noInput : ∀ decl, s.node.kind ≠ .input decl
  plain : s.isPlain = true
  narrow : s.isNarrow = true
  settled : s.node.isSettled = true

def supply (α : Type) (broad : Prop) (base : Nat) : Supply (stage α broad base) where
  Accepts := Fresh
  Splits id := id < base
  allowed fresh _ := by
    refine ⟨⟨fun found => ?_, fun _ _ kind => ?_, fresh.plain, fresh.narrow⟩, fun _ => fresh.scalar⟩
    · cases fresh.noSelection.symm.trans found
    · exact (fresh.noConstruct _ kind).elim
  proper fresh := fresh.noInput _
  selects isVector _ yields _ :=
    ⟨⟨yields.within_selection isVector, fun _ => nofun, rfl, rfl⟩, fun _ => rfl⟩
  splits allowed isVector := by
    by_contra isNew
    cases (allowed.2 (Nat.le_of_not_lt isNew)).symm.trans isVector

variable {s t : TypedScope M streams (stage α broad base)} {bound : ℚ}
    {id v a b new : NodeId} {c : Nat}
  {x y : VectorValue α}

/-- A constant, conversion, operator or call on scalars may be added. -/
theorem fresh_of_kind {n : Node} {operands : List DataType} (scalar : n.type.isVector = false)
    (kind : n.kind.isComponentwise = true ∨ (∃ value, n.kind = .constant value)
      ∨ ∃ a, n.kind = .unary .typeConversion a)
    : Fresh ⟨n, operands⟩ := by
  obtain ⟨kind, type, overload⟩ := n
  rcases kind with componentwise | ⟨value, rfl⟩ | ⟨a, rfl⟩
  · cases kind with
    | unary op _ =>
        cases op with
        | length | normalize | all | any | typeConversion => cases componentwise
        | _ => exact ⟨scalar, rfl, fun _ => nofun, fun _ => nofun, rfl, rfl, rfl⟩
    | binary op _ _ =>
        cases op with
        | dot | cross => cases componentwise
        | _ => exact ⟨scalar, rfl, fun _ => nofun, fun _ => nofun, rfl, rfl, rfl⟩
    | ternary _ _ _ _ | call _ _ =>
        exact ⟨scalar, rfl, fun _ => nofun, fun _ => nofun, rfl, rfl, rfl⟩
    | _ => cases componentwise
  · exact ⟨scalar, rfl, fun _ => nofun, fun _ => nofun, rfl, rfl, rfl⟩
  · exact ⟨scalar, rfl, fun _ => nofun, fun _ => nofun, rfl, rfl, rfl⟩

/-! ## Operators on components -/

/-- The components of some operands can be asked for. -/
theorem builds_componentsAt {ids : List NodeId} {xs : List (VectorValue α)}
    (operands : List.Forall₂ (s.Computes bound) ids xs) (yields : ∀ x ∈ xs, x.type.Yields α c)
    : s.Builds (supply α broad base) (componentsAt c ids) fun parts t =>
        List.Forall₂ (t.Computes bound) parts (xs.map (·.part c)) := by
  induction ids generalizing s xs with
  | nil =>
      cases operands
      exact .pure .nil
  | cons id ids ih =>
      cases operands with
      | cons head tail =>
          rw [componentsAt]
          refine .bind (TypedScope.makes_component head (yields _ (.head _)))
            fun part t1 later1 atPart => ?_
          refine .bind (ih (tail.imp fun _ _ computes => computes.later later1) fun y member =>
            yields y (.tail _ member)) fun parts t2 later2 atParts => ?_
          exact .pure (.cons (atPart.later later2) atParts)

/-- What works component by component can be applied to the components of its operands. -/
theorem adds_componentwise (kind : NodeKind) {xs : List (VectorValue α)} {lanes : Nat → α}
    (isLive : s.live v) (componentwise : (s.graph.node v).kind.isComponentwise = true)
    (operands : List.Forall₂ (s.Computes bound) (s.graph.children v) xs)
    (made : (s.graph.node v).lanes? M streams xs = some lanes) (later : s.Later t)
    (outline : kind.outline = (s.graph.node v).kind.outline)
    (parts : List.Forall₂ (t.Computes bound) kind.children (xs.map (·.part c)))
    : t.Adds (supply α broad base) (Edit.add (·.pushDeduced kind)) bound
        (.of (s.graph.type v).scalar fun _ => lanes c) := by
  have types (child) (member : child ∈ s.graph.children v)
    : t.graph.type child = s.graph.type child := later.type (s.operand isLive member).1
  have sound : t.graph.Sound (s.graph.node v) :=
    (s.sound isLive).of_shape (congrArg (Shape.mk _) (List.map_congr_left types))
  have registers : (xs.map (·.part c)).map (·.type.register)
      = (s.graph.node v).children.map t.graph.register := by
    have own := congrArg (List.map DataType.register) (TypedScope.types_of_computes operands)
    have same : (s.graph.node v).children.map t.graph.register
        = (s.graph.children v).map fun child => (s.graph.type child).register :=
      List.map_congr_left fun child member => congrArg DataType.register (types child member)
    rw [List.map_map, List.map_map] at own
    rw [same, List.map_map]
    exact own.symm
  have scalars : ∀ x ∈ xs.map (·.part c), x.type.width = 1 := by
    intro y member
    obtain ⟨x, _, rfl⟩ := List.mem_map.mp member
    rfl
  refine TypedScope.adds_parts sound componentwise outline parts registers scalars
    (Node.lanes?_parts componentwise outline made c) (fresh_of_kind rfl (.inl ?_))
  have plain (kind : NodeKind) : kind.outline.isComponentwise = kind.isComponentwise := by
    cases kind <;> rfl
  show kind.outline.isComponentwise = true
  rw [outline, plain]
  exact componentwise

/-! ## Reductions -/

/-- Some more components can be combined with a result. -/
theorem adds_reduceFrom {op : BinaryOp} {r : RegisterClass} {i : Nat}
    (componentwise : op.isVectorOp = false) (selects : Signature.Selects op.signatures [r, r] i r)
    (isClass : x.type.register = r) {cs : List Nat} (yields : ∀ c ∈ cs, x.type.Yields α c)
    {result : NodeId} {first : α} (atX : s.Computes bound v x)
    (atResult : s.Computes bound result (.of (.scalarOf r) fun _ => first))
    (ready : cs ≠ [] ∨ Fresh (s.graph.shape result))
    : s.Adds (supply α broad base) (reduceFrom op v cs result) bound
        (.of (.scalarOf r) fun _ => cs.foldl (fun acc c => M.binary op r acc (x.lane c))
        first) := by
  induction cs generalizing s result first with
  | nil => exact TypedScope.Builds.pure ⟨atResult, ready.resolve_left (fun more => more rfl)⟩
  | cons c cs ih =>
      rw [reduceFrom]
      refine .adds (TypedScope.makes_component atX (yields c (.head _)))
        fun next t1 later1 atNext => ?_
      rw [VectorValue.part, DataType.scalar, isClass] at atNext
      have known : r.isKnown = true := isClass ▸ atX.known
      refine .adds (TypedScope.adds_scalars componentwise selects known (atResult.later later1)
        atNext (fresh_of_kind rfl (.inl ?_))) fun result t2 later2 atResult => ?_
      · simpa [NodeKind.isComponentwise] using componentwise
      · exact ih (fun c member => yields c (.tail _ member)) (atX.later (later1.trans later2))
          atResult.1 (.inr atResult.2)

/-- All components of a vector can be combined. -/
theorem adds_reduce {op : BinaryOp} {r : RegisterClass} {i : Nat}
    (componentwise : op.isVectorOp = false) (selects : Signature.Selects op.signatures [r, r] i r)
    (isClass : x.type.register = r) (isVector : x.type.isVector = true) (atX : s.Computes bound v x)
    : s.Adds (supply α broad base) (reduce op v) bound
        (.of (.scalarOf r) fun _ => M.nested op r x.lane x.type.width) := by
  have wide : 1 < x.type.width := of_decide_eq_true isVector
  rw [reduce]
  show s.Builds _ (Edit.read _ >>= _) _
  rw [TypedScope.builds_read, atX.type]
  refine TypedScope.Builds.adds (TypedScope.makes_component atX (.inl (.inl x.type.width_pos)))
    fun first t later atFirst => ?_
  rw [VectorValue.part, DataType.scalar, isClass] at atFirst
  refine adds_reduceFrom componentwise selects isClass (fun c member => .inl (.inl ?_))
    (atX.later later) atFirst (.inl (by simp; omega))
  obtain ⟨_, _, rfl⟩ := List.mem_range'.mp member
  omega

theorem adds_product {r : RegisterClass} {i : Nat}
    (selects : Signature.Selects BinaryOp.multiply.signatures [r, r] i r)
    (isClassX : x.type.register = r) (isClassY : y.type.register = r) (yieldsX : x.type.Yields α c)
    (yieldsY : y.type.Yields α c) (atX : s.Computes bound a x) (atY : s.Computes bound b y)
    : s.Adds (supply α broad base) (product a b c) bound
        (.of (.scalarOf r) fun _ => M.binary .multiply r (x.lane c) (y.lane c)) := by
  rw [product]
  refine .adds (TypedScope.makes_component atX yieldsX) fun left t1 later1 atLeft => ?_
  refine .adds (TypedScope.makes_component (atY.later later1) yieldsY)
    fun right t2 later2 atRight => ?_
  rw [VectorValue.part, DataType.scalar, isClassX] at atLeft
  rw [VectorValue.part, DataType.scalar, isClassY] at atRight
  exact TypedScope.adds_scalars rfl selects (isClassX ▸ atX.known) (atLeft.later later2) atRight
    (fresh_of_kind rfl (.inl rfl))

/-- The products of some more components can be added to a sum. -/
theorem adds_dotFrom {r : RegisterClass} {i j : Nat}
    (multiplies : Signature.Selects BinaryOp.multiply.signatures [r, r] i r)
    (sums : Signature.Selects BinaryOp.add.signatures [r, r] j r)
    (isClassX : x.type.register = r) (isClassY : y.type.register = r) {cs : List Nat}
    (yieldsX : ∀ c ∈ cs, x.type.Yields α c) (yieldsY : ∀ c ∈ cs, y.type.Yields α c) {sum : NodeId}
    {first : α} (atX : s.Computes bound a x) (atY : s.Computes bound b y)
    (atSum : s.Computes bound sum (.of (.scalarOf r) fun _ => first))
    (ready : Fresh (s.graph.shape sum))
    : s.Adds (supply α broad base) (dotFrom a b cs sum) bound
        (.of (.scalarOf r) fun _ => cs.foldl
          (fun acc c => M.binary .add r acc (M.binary .multiply r (x.lane c) (y.lane c)))
          first) := by
  induction cs generalizing s sum first with
  | nil => exact TypedScope.Builds.pure ⟨atSum, ready⟩
  | cons c cs ih =>
      rw [dotFrom]
      refine .adds (adds_product multiplies isClassX isClassY (yieldsX c (.head _))
        (yieldsY c (.head _)) atX atY).makes fun next t1 later1 atNext => ?_
      have known : r.isKnown = true := isClassX ▸ atX.known
      refine .adds (TypedScope.adds_scalars rfl sums known (atSum.later later1) atNext
        (fresh_of_kind rfl (.inl rfl))) fun sum t2 later2 atSum => ?_
      have till := later1.trans later2
      exact ih (fun c member => yieldsX c (.tail _ member))
        (fun c member => yieldsY c (.tail _ member)) (atX.later till) (atY.later till) atSum.1
        atSum.2

/-- The sum of the products of all components can be added. -/
theorem adds_dot {r : RegisterClass} {i j width : Nat}
    (multiplies : Signature.Selects BinaryOp.multiply.signatures [r, r] i r)
    (sums : Signature.Selects BinaryOp.add.signatures [r, r] j r)
    (isClassX : x.type.register = r) (isClassY : y.type.register = r)
    (broadcasts : DataType.broadcastWidth? [x.type, y.type] = some width)
    (atX : s.Computes bound a x) (atY : s.Computes bound b y)
    : s.Adds (supply α broad base) (dot a b) bound (.of (.scalarOf r) fun _ => M.dot x y) := by
  have positive : 0 < max x.type.width y.type.width := lt_max_of_lt_left x.type.width_pos
  have yields {z : VectorValue α} (member : z.type ∈ [x.type, y.type]) (c : Nat)
      (inside : c < max x.type.width y.type.width) : z.type.Yields α c := by
    rcases DataType.width_of_broadcastWidth? broadcasts z.type member with scalar | wide
    · exact .inl (.inr (by simp [DataType.isVector, scalar]))
    · have widthX := DataType.width_of_broadcastWidth? broadcasts x.type (.head _)
      have widthY := DataType.width_of_broadcastWidth? broadcasts y.type (.tail _ (.head _))
      have own := z.type.width_pos
      exact .inl (.inl (by omega))
  have yieldsX := yields (z := x) (.head _)
  have yieldsY := yields (z := y) (.tail _ (.head _))
  rw [dot]
  show s.Builds _ (Edit.read _ >>= _) _
  rw [TypedScope.builds_read, atX.type, atY.type]
  rw [ScalarModel.dot, ScalarModel.nested, isClassY]
  generalize max x.type.width y.type.width = count at yieldsX yieldsY positive
  refine TypedScope.Builds.adds (adds_product multiplies isClassX isClassY (yieldsX 0 positive)
    (yieldsY 0 positive) atX atY) fun first t later atFirst => ?_
  have inside (c) (member : c ∈ List.range' 1 (count - 1)) : c < count := by
    obtain ⟨_, _, rfl⟩ := List.mem_range'.mp member
    omega
  exact adds_dotFrom multiplies sums isClassX isClassY (fun c member => yieldsX c (inside c member))
    (fun c member => yieldsY c (inside c member)) (atX.later later)
    (atY.later later) atFirst.1 atFirst.2

end Scalarization

end StreamExpr
