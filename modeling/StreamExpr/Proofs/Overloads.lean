import StreamExpr.Proofs.Graph
import StreamExpr.Proofs.Resolution

/-! Overloads of nodes.
Operators and calls are given their types in one way: the classes of the operands select an
overload, it gives the class of the result, and the widths of the operands give the width.
-/

namespace StreamExpr

theorem DataType.broadcastWidth?_singleton (t : DataType) : broadcastWidth? [t] = some t.width := by
  rw [broadcastWidth?, broadcastWidth?.go]
  split
  case isTrue scalar =>
    rw [scalar]
    rfl
  case isFalse =>
    rw [if_neg (by simp)]
    rfl

namespace NodeKind

/-- No candidate of a call has optional inputs. -/
def requiresInputs : NodeKind → Bool
  | .call candidates _ => candidates.all fun f => f.required = f.inputs.length
  | _ => true

/-- The classes that each overload of a node asks of its operands, if it has overloads. -/
def inputs? : NodeKind → Option (List (List RegisterClass))
  | .unary op _ =>
      if op = .typeConversion then none else some (op.signatures.map Signature.arguments)
  | .binary op _ _ => some (op.signatures.map Signature.arguments)
  | .ternary op _ _ _ => some (op.signatures.map Signature.arguments)
  | .call candidates _ => some (candidates.map FunctionSig.inputs)
  | _ => none

/-- Operations that take scalars along with vectors and are as wide as the widest operand. -/
def broadcasts : NodeKind → Bool
  | .unary op _ => !op.isReduction
  | .binary op _ _ => op ≠ .dot
  | .ternary _ _ _ _ | .call _ _ => true
  | _ => false

/-- The overload that operands of some classes select. -/
def resolve? : NodeKind → List RegisterClass → Option Nat
  | .unary op _, operands => resolveOperator? op.signatures operands
  | .binary op _ _, operands => resolveOperator? op.signatures operands
  | .ternary op _ _ _, operands => resolveOperator? op.signatures operands
  | .call candidates _, operands => resolveFunction? candidates operands
  | _, _ => none

/-- The class that an overload gives. -/
def resultAt : NodeKind → Nat → RegisterClass
  | .unary op _, i => Signature.resultAt op.signatures i
  | .binary op _ _, i => Signature.resultAt op.signatures i
  | .ternary op _ _ _, i => Signature.resultAt op.signatures i
  | .call candidates _, i => (candidates[i]?.map FunctionSig.output).getD .unknown
  | _, _ => .unknown

/-- The width that an overload gives for operands of some types. A call may have more operands than
its overload takes. -/
def width? : NodeKind → Nat → List DataType → Option Nat
  | .unary op _, _, types => some (if op.isReduction then 1 else (types.headD .unknown).width)
  | .binary op _ _, _, types =>
      match op with
      | .dot => (DataType.broadcastWidth? types).map fun _ => 1
      | .cross => (DataType.broadcastWidth? types).filter (· = 3)
      | _ => DataType.broadcastWidth? types
  | .call candidates _, i, types =>
      candidates[i]?.bind fun f => DataType.broadcastWidth? (types.take f.arity)
  | _, _, types => DataType.broadcastWidth? types

theorem requiresInputs_call {candidates : List FunctionSig} {arguments : List NodeId}
    : (call candidates arguments).requiresInputs = true
      ↔ ∀ f ∈ candidates, f.required = f.inputs.length := by
  simp [requiresInputs]

/-- Without optional inputs the overload that is selected is the closest one. -/
theorem resolve?_eq_closest? {kind : NodeKind} {inputs : List (List RegisterClass)}
    (found : kind.inputs? = some inputs) (requires : kind.requiresInputs = true)
    : kind.resolve? = closest? inputs := by
  funext operands
  cases kind with
  | unary op x =>
      obtain ⟨_, same⟩ := Option.ite_none_left_eq_some.mp found
      obtain rfl := Option.some.inj same
      exact resolveOperator?_eq_closest? _ _
  | binary op x y | ternary op x y z =>
      obtain rfl := Option.some.inj found
      exact resolveOperator?_eq_closest? _ _
  | call candidates arguments =>
      obtain rfl := Option.some.inj found
      exact resolveFunction?_eq_closest? _ (requiresInputs_call.mp requires)
  | _ => cases found

/-- The overloads of a node do not depend on where its operands are. -/
theorem overloads_of_outline {kind other : NodeKind} (same : kind.outline = other.outline)
    : kind.inputs? = other.inputs?
      ∧ kind.resolve? = other.resolve?
      ∧ kind.resultAt = other.resultAt
      ∧ kind.width? = other.width? := by
  have forgets (kind : NodeKind)
      : kind.outline.inputs? = kind.inputs?
        ∧ kind.outline.resolve? = kind.resolve?
        ∧ kind.outline.resultAt = kind.resultAt
        ∧ kind.outline.width? = kind.width? := by
    cases kind <;> exact ⟨rfl, rfl, rfl, rfl⟩
  obtain ⟨inputs, resolves, results, gives⟩ := forgets kind
  rw [← inputs, ← resolves, ← results, ← gives, same]
  exact forgets other

end NodeKind

namespace Graph

variable {g : Graph} {n : Node} {inputs : List (List RegisterClass)} {i width : Nat}

/-- The type of a node with overloads. -/
theorem infer_overloaded (found : n.kind.inputs? = some inputs)
    : g.infer n
      = match n.kind.resolve? (n.children.map g.register) with
        | some i =>
            match n.kind.width? i (n.children.map g.type) with
            | some width => (.of (n.kind.resultAt i) width, some i)
            | none => undeduced
        | none => undeduced := by
  obtain ⟨kind, type, overload⟩ := n
  cases kind with
  | unary op x =>
      cases op with
      | typeConversion => cases found
      | _ => rfl
  | binary op x y =>
      cases op with
      | dot =>
          rw [infer.eq_def]
          simp only [NodeKind.width?, Node.children, NodeKind.children, broadcast]
          cases DataType.broadcastWidth? ([x, y].map g.type) <;> rfl
      | cross =>
          rw [infer.eq_def]
          simp only [NodeKind.width?, Node.children, NodeKind.children]
          cases DataType.broadcastWidth? ([x, y].map g.type) with
          | none => rfl
          | some width => rcases width with _ | _ | _ | _ | width <;> rfl
      | _ => rfl
  | ternary op x y z => rfl
  | call candidates arguments =>
      rw [infer.eq_def]
      simp only [Node.children, NodeKind.children, NodeKind.resolve?, NodeKind.width?,
        NodeKind.resultAt, List.map_map]
      change (match resolveFunction? candidates (arguments.map g.register) with
        | some i => _
        | none => _) = _
      cases resolved : resolveFunction? candidates (arguments.map g.register) with
      | none => rfl
      | some i =>
          cases entry : candidates[i]? <;> simp only [entry] <;> rfl
  | _ => cases found

theorem infer_eq (found : n.kind.inputs? = some inputs)
    (resolved : n.kind.resolve? (n.children.map g.register) = some i)
    (broad : n.kind.width? i (n.children.map g.type) = some width)
    : g.infer n = (.of (n.kind.resultAt i) width, some i) := by
  rw [infer_overloaded found, resolved]
  simp only [broad]

/-- A node with overloads has selected one of them, or nothing is known of it. -/
theorem infer_cases (g : Graph) (found : n.kind.inputs? = some inputs)
    : g.infer n = undeduced
      ∨ ∃ i width,
          n.kind.resolve? (n.children.map g.register) = some i
          ∧ n.kind.width? i (n.children.map g.type) = some width
          ∧ g.infer n = (.of (n.kind.resultAt i) width, some i) := by
  rw [infer_overloaded found]
  cases n.kind.resolve? (n.children.map g.register) with
  | none => exact .inl rfl
  | some i =>
      cases broad : n.kind.width? i (n.children.map g.type) with
      | none => exact .inl (by simp only [broad])
      | some width => exact .inr ⟨i, width, rfl, broad, by simp only [broad]⟩

theorem infer_known (found : n.kind.inputs? = some inputs) (known : (g.infer n).1.isKnown = true)
    : ∃ i width,
        n.kind.resolve? (n.children.map g.register) = some i
        ∧ n.kind.width? i (n.children.map g.type) = some width
        ∧ g.infer n = (.of (n.kind.resultAt i) width, some i) := by
  refine (g.infer_cases found).resolve_left fun unknown => ?_
  rw [unknown] at known
  cases known

/-- A node with overloads that has a type has selected one of them. -/
theorem overloaded (found : n.kind.inputs? = some inputs) (known : n.type.isKnown = true)
    (inferred : g.infer n = (n.type, n.overload))
    : ∃ i width,
        n.overload = some i
        ∧ n.kind.resolve? (n.children.map g.register) = some i
        ∧ n.kind.width? i (n.children.map g.type) = some width
        ∧ n.register = n.kind.resultAt i
        ∧ n.type = .of n.register width := by
  obtain ⟨i, width, resolved, broad, same⟩ := infer_known (g := g) found
    (by rw [inferred]; exact known)
  obtain ⟨type, overload⟩ := Prod.mk.inj (inferred.symm.trans same)
  have register : n.register = n.kind.resultAt i := congrArg DataType.register type
  exact ⟨i, width, overload, resolved, broad, register, register ▸ type⟩

theorem resolve?_of_infer (found : n.kind.inputs? = some inputs) (overload : (g.infer n).2 = some i)
    : n.kind.resolve? (n.children.map g.register) = some i := by
  rcases g.infer_cases found with unknown | ⟨_, _, resolved, _, inferred⟩
  · rw [unknown] at overload
    cases overload
  · rw [inferred] at overload
    exact resolved.trans overload

/-- What broadcasts has the common width of its operands, if none of them is spare. -/
theorem broadcastWidth?_of_width? (broadcasts : n.kind.broadcasts = true)
    (overload : n.overload = some i) (trimmed : ∀ {f}, n.function? = some f
    → n.children.length ≤ f.arity) (broad : n.kind.width? i (n.children.map g.type) = some width)
    : DataType.broadcastWidth? (n.children.map g.type) = some width := by
  obtain ⟨kind, type, _⟩ := n
  obtain rfl : _ = some i := overload
  cases kind with
  | unary op x =>
      have whole : op.isReduction = false := Bool.not_eq_true' _ |>.mp broadcasts
      rw [← broad, NodeKind.width?, whole]
      exact DataType.broadcastWidth?_singleton (g.type x)
  | binary op x y =>
      cases op with
      | dot => cases broadcasts
      | cross => exact (Option.filter_eq_some_iff.mp broad).1
      | _ => exact broad
  | ternary op x y z => exact broad
  | call candidates arguments =>
      obtain ⟨f, entry, common⟩ := Option.bind_eq_some_iff.mp broad
      rwa [List.take_of_length_le (by rw [List.length_map]; exact trimmed entry)] at common
  | _ => cases broadcasts

end Graph

end StreamExpr
