import StreamExpr.Proofs.Construction

/-! Conversion of operands.
A node keeps the type and overload that were deduced for it when an operand is brought to the class
that the node asks for and keeps its width.
-/

namespace StreamExpr

theorem Node.function?_outline (n : Node) : n.outline.function? = n.function? := by
  obtain ⟨kind, type, overload⟩ := n
  cases kind <;> rfl

theorem Node.function?_setChild (n : Node) (slot : Nat) (child : NodeId)
    : (n.setChild slot child).function? = n.function? := by
  rw [← function?_outline, outline_setChild, function?_outline]

theorem DataType.broadcastWidth?_eq_of_widths {types others : List DataType}
    (same : types.map width = others.map width)
    : broadcastWidth? types = broadcastWidth? others := by
  have go {start : Nat} : broadcastWidth?.go start types = broadcastWidth?.go start others := by
    induction types generalizing others start with
    | nil =>
        obtain rfl := List.map_eq_nil_iff.mp same.symm
        rfl
    | cons t types ih =>
        cases others with
        | nil => cases same
        | cons u others =>
            obtain ⟨head, tail⟩ := List.cons.inj same
            simp only [broadcastWidth?.go, head, ih tail]
  exact go

theorem NodeKind.width?_eq_of_widths (kind : NodeKind) (i : Nat) {types others : List DataType}
    (same : types.map DataType.width = others.map DataType.width)
    : kind.width? i types = kind.width? i others := by
  have broad := DataType.broadcastWidth?_eq_of_widths same
  cases kind with
  | unary op x =>
      have head (types : List DataType)
        : (types.headD .unknown).width = (types.map DataType.width).headD 1 := by
        cases types <;> rfl
      rw [width?, width?, head, same, ← head]
  | binary op x y =>
      cases op <;> simp only [width?, broad]
  | call candidates arguments =>
      refine congrArg (Option.bind _) (funext fun f => DataType.broadcastWidth?_eq_of_widths ?_)
      rw [List.map_take, List.map_take, same]
  | _ => exact broad

/-- An overload of an operator asks for as many operands as the operator has. -/
theorem NodeKind.length_inputs {kind : NodeKind} {inputs : List (List RegisterClass)}
    {expected : List RegisterClass} {i : Nat} (found : kind.inputs? = some inputs)
    (noCall : ∀ candidates arguments, kind ≠ .call candidates arguments)
    (entry : inputs[i]? = some expected)
    : expected.length = kind.children.length := by
  have regular {table : List Signature} {count : Nat} (regular : Signature.Regular count table)
      (entry : (table.map Signature.arguments)[i]? = some expected) : expected.length = count := by
    rw [List.getElem?_map, Option.map_eq_some_iff] at entry
    obtain ⟨signature, atIndex, rfl⟩ := entry
    exact (regular i (List.getElem?_eq_some_iff.mp atIndex).1 signature atIndex).2.1
  cases kind with
  | unary op x =>
      obtain ⟨_, same⟩ := Option.ite_none_left_eq_some.mp found
      obtain rfl := Option.some.inj same
      exact regular op.regular entry
  | binary op x y | ternary op x y z =>
      obtain rfl := Option.some.inj found
      exact regular op.regular entry
  | call candidates arguments => exact (noCall candidates arguments rfl).elim
  | _ => cases found

namespace Graph

variable {g : Graph} {id : NodeId} {slot : Nat}

/-- The deduced type of a node with overloads depends on which of them is closest, and on the widths
of the operands. -/
theorem infer_eq_of_closest? {n m : Node} {inputs : List (List RegisterClass)}
    (found : n.kind.inputs? = some inputs) (requires : n.kind.requiresInputs = true)
    (same : m.outline = n.outline)
    (widths : (m.children.map g.type).map DataType.width = (n.children.map g.type).map
    DataType.width) (closest : closest? inputs (m.children.map g.register) = closest? inputs
    (n.children.map g.register))
    : g.infer m = g.infer n := by
  obtain ⟨overloads, resolves, results, gives⟩ := NodeKind.overloads_of_outline
    (congrArg Node.kind same)
  rw [infer_overloaded (overloads.trans found), infer_overloaded found, resolves, results, gives,
    NodeKind.resolve?_eq_closest? found requires, closest]
  simp only [NodeKind.width?_eq_of_widths _ _ widths]

/-- What a node asks of an operand depends on its outline only. -/
theorem expected?_eq_of_outline {h : Graph} {other : NodeId}
    (same : (h.node other).outline = (g.node id).outline)
    : h.expected? other slot = g.expected? id slot := by
  have forgets (g : Graph) (id : NodeId) : g.expected? id slot
      = (empty.push (g.node id).outline).expected? 0 slot := by
    have found : (empty.push (g.node id).outline).node 0 = (g.node id).outline := node_push_self _ _
    rw [expected?.eq_def, expected?.eq_def, found]
    generalize g.node id = n
    obtain ⟨kind, type, overload⟩ := n
    cases kind with
    | unary op _ => cases op <;> rfl
    | _ => rfl
  rw [forgets, same, ← forgets]

/-- The class that a node with overloads asks of an operand is that of the overload it has
selected. -/
theorem expected?_eq_some {inputs : List (List RegisterClass)} {r : RegisterClass}
    (found : (g.node id).kind.inputs? = some inputs) (known : r.isKnown = true)
    : g.expected? id slot = some r
      ↔ ∃ i expected,
          (g.node id).overload = some i
          ∧ inputs[i]? = some expected
          ∧ expected[slot]? = some r := by
  have argument {s : Signature} : s.argument slot = r ↔ s.arguments[slot]? = some r := by
    rw [Signature.argument, List.getD_eq_getElem?_getD]
    cases s.arguments[slot]? with
    | none =>
        refine iff_of_false (fun same => ?_) (by simp)
        subst same
        cases known
    | some _ => exact (Option.some.injEq ..).symm.to_iff
  have among {table : List Signature}
      : ((g.node id).overload.bind (table[·]?)).map (·.argument slot) = some r
        ↔ ∃ i expected, (g.node id).overload = some i
          ∧ (table.map Signature.arguments)[i]? = some expected ∧ expected[slot]? = some r := by
    simp only [Option.map_eq_some_iff, Option.bind_eq_some_iff, List.getElem?_map, argument]
    grind
  rw [expected?.eq_def]
  cases kind : (g.node id).kind with
  | unary op x =>
      simp only [kind, NodeKind.inputs?, Option.ite_none_left_eq_some, Option.some.injEq] at found
      obtain ⟨proper, rfl⟩ := found
      cases op with
      | typeConversion => exact (proper rfl).elim
      | _ => simpa only [kind] using among
  | binary op x y | ternary op x y z =>
      rw [kind] at found
      obtain rfl := Option.some.inj found
      simpa only [kind] using among
  | call candidates arguments =>
      rw [kind] at found
      obtain rfl := Option.some.inj found
      simp only [kind, Node.function?, Option.bind_eq_some_iff, List.getElem?_map,
        Option.map_eq_some_iff]
      grind
  | _ => simp [kind, NodeKind.inputs?] at found

/-- An overload that is deduced is the closest one. -/
theorem closest?_of_infer {n : Node} {inputs : List (List RegisterClass)} {i : Nat}
    (found : n.kind.inputs? = some inputs) (requires : n.kind.requiresInputs = true)
    (overload : (g.infer n).2 = some i)
    : closest? inputs (n.children.map g.register) = some i := by
  rw [← NodeKind.resolve?_eq_closest? found requires]
  exact resolve?_of_infer found overload

/-- The overload that a node has selected asks for as many operands as the node has. -/
theorem Formed.length_inputs {n : Node} {inputs : List (List RegisterClass)}
    {expected : List RegisterClass} {i : Nat} (formed : g.Formed n)
    (found : n.kind.inputs? = some inputs) (requires : n.kind.requiresInputs = true)
    (overload : n.overload = some i) (entry : inputs[i]? = some expected)
    : (n.children.map g.register).length = expected.length := by
  rw [List.length_map]
  cases kind : n.kind with
  | call candidates arguments =>
      have resolved := closest?_of_infer (g := g) found requires
        ((congrArg Prod.snd (formed.inferred requires)).trans overload)
      obtain ⟨_, again, enough⟩ := closest?_eq_some resolved
      obtain rfl := Option.some.inj (entry.symm.trans again)
      rw [kind] at found
      obtain rfl := Option.some.inj found
      rw [List.getElem?_map, Option.map_eq_some_iff] at entry
      obtain ⟨f, atIndex, rfl⟩ := entry
      have function : n.function? = some f := by
        simp only [Node.function?, kind, overload, Option.bind_some, atIndex]
      rw [List.length_map] at enough
      exact Nat.le_antisymm (formed.trimmed function) enough
  | _ => exact (NodeKind.length_inputs found (by simp [kind]) entry).symm

theorem map_set_of_eq {α β : Type} {f : α → β} {xs : List α} {old new : α}
    (atSlot : xs[slot]? = some old) (same : f new = f old)
    : (xs.set slot new).map f = xs.map f := by
  rw [List.map_set, same]
  refine List.ext_getElem? fun i => ?_
  rw [List.getElem?_set]
  split
  case isTrue here =>
    subst here
    obtain ⟨inside, rfl⟩ := List.getElem?_eq_some_iff.mp atSlot
    rw [if_pos (by rwa [List.length_map]), List.getElem?_map, List.getElem?_eq_getElem inside]
    rfl
  case isFalse => rfl

/-- A node is deduced as before when an operand is brought to the class that is asked for. -/
theorem Formed.infer_setChild {child new : NodeId} {r : RegisterClass}
    (formed : g.Formed (g.node id)) (requires : (g.node id).kind.requiresInputs = true)
    (atSlot : (g.children id)[slot]? = some child) (asked : g.expected? id slot = some r)
    (known : r.isKnown = true) (register : g.register new = r)
    (width : (g.type new).width = (g.type child).width)
    : g.infer ((g.node id).setChild slot new) = g.infer (g.node id) := by
  cases found : (g.node id).kind.inputs? with
  | some inputs =>
      obtain ⟨i, expected, overload, entry, atExpected⟩ := (expected?_eq_some found known).mp asked
      have resolved := closest?_of_infer (g := g) found requires
        ((congrArg Prod.snd (formed.inferred requires)).trans overload)
      refine infer_eq_of_closest? found requires (Node.outline_setChild _ _ _) ?_ ?_
      · rw [Node.children_setChild, List.map_map, List.map_map]
        exact map_set_of_eq atSlot width
      · rw [resolved, Node.children_setChild, List.map_set, register]
        exact closest?_of_converts resolved entry
          (.set (formed.length_inputs found requires overload entry) atExpected known)
  | none =>
      rw [expected?.eq_def] at asked
      generalize g.node id = n at asked found
      obtain ⟨kind, type, overload⟩ := n
      cases kind with
      | output _ _ | construct _ => rfl
      | unary op _ =>
          simp only [NodeKind.inputs?, ite_eq_left_iff, reduceCtorEq, imp_false, not_not] at found
          subst found
          cases asked
      | constant _ | input _ | swizzle _ _ => cases asked
      | _ => cases found

/-- Nothing is left to deduce of a node that has the type its operands give and no spare
arguments. -/
theorem deduced_eq_self {g : Graph} {n : Node} (inferred : g.infer n = (n.type, n.overload))
    (trimmed : ∀ {f}, n.function? = some f → n.children.length ≤ f.arity)
    : g.deduced n = n := by
  have kept : (g.deduced n).kind = n.kind := by
    cases kind : n.kind with
    | call candidates arguments =>
        rw [kind_deduced_call kind, inferred]
        split
        next f selected =>
          have function : n.function? = some f := by
            rw [Node.function?, kind]
            exact selected
          have short := trimmed function
          rw [Node.children, kind] at short
          exact congrArg (NodeKind.call candidates) (List.take_of_length_le short)
        · rfl
    | _ => rw [kind_deduced_of_ne fun _ _ isCall => (by cases kind.symm.trans isCall), kind]
  obtain ⟨kind, type, overload⟩ := n
  exact Node.mk.injEq .. ▸ ⟨kept, congrArg Prod.fst inferred, congrArg Prod.snd inferred⟩

theorem replace_self (g : Graph) (id : NodeId) : g.replace id (g.node id) = g := by
  have same : g.nodes.setIfInBounds id (g.node id) = g.nodes := by
    refine Array.ext_getElem? fun i => ?_
    rw [Array.getElem?_setIfInBounds]
    split
    case isTrue here =>
      subst here
      split
      case isTrue inside =>
        rw [node, Array.getD_eq_getD_getElem?, Array.getElem?_eq_getElem inside, Option.getD_some]
      case isFalse outside =>
        rw [Array.getElem?_eq_none (Nat.le_of_not_lt outside)]
    case isFalse => rfl
  rw [replace, same]

end Graph

end StreamExpr
