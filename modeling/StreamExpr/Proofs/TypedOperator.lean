import StreamExpr.Proofs.ScalarTyping
import StreamExpr.Proofs.TypedGraph

/-! Typed nodes one kind at a time.
An operator is typed if its operands have the classes of the entry that they select. What works on
vectors component by component is typed on the components as it is on the vectors.
-/

namespace StreamExpr

/-- Operators and calls that work on vectors component by component. -/
def NodeKind.isComponentwise : NodeKind → Bool
  | .unary op _ => op ≠ .typeConversion && !op.isVectorOp
  | .binary op _ _ => !op.isVectorOp
  | .ternary _ _ _ _ | .call _ _ => true
  | _ => false

theorem Signature.Selects.resultAt {table : List Signature} {operands : List RegisterClass}
    {i : Nat} {r : RegisterClass} (selects : Selects table operands i r)
    : Signature.resultAt table i = r := by
  rw [Signature.resultAt, selects.entry]
  rfl

/-! ## Common widths -/

namespace DataType

/-- Operands that broadcast are scalars or have the common width. -/
theorem width_of_broadcastWidth? {types : List DataType} {width : Nat}
    (broad : broadcastWidth? types = some width)
    : ∀ t ∈ types, t.width = 1 ∨ t.width = width := by
  have go {start : Nat} {types : List DataType}
      (broad : broadcastWidth?.go start types = some width) : (start = 1 ∨ start = width)
      ∧ ∀ t ∈ types, t.width = 1 ∨ t.width = width := by
    induction types generalizing start with
    | nil => exact ⟨.inr (Option.some.inj broad), fun t member => (List.not_mem_nil member).elim⟩
    | cons u types ih =>
        rw [broadcastWidth?.go] at broad
        split at broad
        case isTrue scalar =>
          obtain ⟨started, others⟩ := ih broad
          exact ⟨started, List.forall_mem_cons.mpr ⟨.inl scalar, others⟩⟩
        case isFalse =>
          split at broad
          case isTrue => cases broad
          case isFalse wide mixes =>
            obtain ⟨common, others⟩ := ih broad
            refine ⟨?_, List.forall_mem_cons.mpr ⟨common, others⟩⟩
            by_cases started : start = 1
            · exact .inl started
            · exact .inr (by_contra fun differs => mixes ⟨started, fun same =>
                differs (same.trans (common.resolve_left wide))⟩)
  exact (go broad).2

/-- The common width of some operands is that of one of them, or one. -/
theorem broadcastWidth?_of_widths {types : List DataType} {width : Nat}
    (widths : ∀ t ∈ types, t.width = 1 ∨ t.width = width)
    : ∃ common, broadcastWidth? types = some common ∧ (common = 1 ∨ common = width) := by
  have go {start : Nat} (started : start = 1 ∨ start = width) :
      ∃ common, broadcastWidth?.go start types = some common ∧ (common = 1 ∨ common = width) := by
    induction types generalizing start with
    | nil => exact ⟨start, rfl, started⟩
    | cons t types ih =>
        obtain ⟨own, others⟩ := List.forall_mem_cons.mp widths
        rw [broadcastWidth?.go]
        split
        case isTrue => exact ih others started
        case isFalse wide =>
          rw [if_neg (by omega)]
          exact ih others own
  exact go (.inl rfl)

/-- A common width is a width. -/
theorem of_broadcastWidth? {types : List DataType} {width : Nat} (r : RegisterClass)
    (broad : broadcastWidth? types = some width)
    : (of r width).width = width := by
  have go {start : Nat} {types : List DataType} (positive : 0 < start) (small : start ≤ 4)
      (broad : broadcastWidth?.go start types = some width) : 0 < width ∧ width ≤ 4 := by
    induction types generalizing start with
    | nil => exact Option.some.inj broad ▸ ⟨positive, small⟩
    | cons t types ih =>
        rw [broadcastWidth?.go] at broad
        split at broad
        · exact ih positive small broad
        · split at broad
          · cases broad
          · exact ih t.width_pos t.width_le_four broad
  obtain ⟨positive, small⟩ := go Nat.one_pos (by decide) broad
  exact width_of positive small

theorem broadcastWidth?_scalars {types : List DataType} (scalars : ∀ t ∈ types, t.width = 1)
    : broadcastWidth? types = some 1 := by
  have widths : ∀ t ∈ types, t.width = 1 ∨ t.width = 1 := fun t member => .inl (scalars t member)
  obtain ⟨_, broad, rfl | rfl⟩ := broadcastWidth?_of_widths widths
  · exact broad
  · exact broad

/-- A scalar takes the width of the other operand. -/
theorem broadcastWidth?_scalar_right {t u : DataType} (scalar : u.width = 1)
    : broadcastWidth? [t, u] = some t.width := by
  simp only [broadcastWidth?, broadcastWidth?.go, scalar]
  split
  case isTrue same =>
    simp [same]
  case isFalse => simp

end DataType

namespace NodeKind

variable {kind : NodeKind}

/-- What works component by component has overloads, and broadcasts. -/
theorem overloads_of_componentwise (componentwise : kind.isComponentwise = true)
    : (∃ inputs, kind.inputs? = some inputs) ∧ kind.broadcasts = true := by
  cases kind with
  | unary op x => cases op <;> first | exact ⟨⟨_, rfl⟩, rfl⟩ | cases componentwise
  | binary op x y => cases op <;> first | exact ⟨⟨_, rfl⟩, rfl⟩ | cases componentwise
  | ternary op x y z => exact ⟨⟨_, rfl⟩, rfl⟩
  | call candidates arguments => exact ⟨⟨_, rfl⟩, rfl⟩
  | _ => cases componentwise

/-- An overload that gives some operands a width gives scalars the width of a scalar. -/
theorem width?_scalars {i width : Nat} {types others : List DataType}
    (componentwise : kind.isComponentwise = true) (broad : kind.width? i others = some width)
    (scalars : ∀ t ∈ types, t.width = 1)
    : kind.width? i types = some 1 := by
  have common := DataType.broadcastWidth?_scalars scalars
  cases kind with
  | unary op x =>
      have single : (types.headD .unknown).width = 1 := by
        cases types with
        | nil => rfl
        | cons t types => exact scalars t (.head _)
      rw [width?, single, ite_self]
  | binary op x y => cases op <;> first | exact common | cases componentwise
  | call candidates arguments =>
      obtain ⟨f, entry, _⟩ := Option.bind_eq_some_iff.mp broad
      rw [width?, entry]
      exact DataType.broadcastWidth?_scalars fun t member => scalars t (List.mem_of_mem_take member)
  | _ => exact common

end NodeKind

namespace Graph

variable {g h : Graph} {n : Node}

/-! ## Nodes without a table -/

theorem sound_constant (g : Graph) (value : Value)
    : g.Sound (.ofKind (.constant value) (.scalarOf value.register)) where
  known := by cases value <;> rfl
  inferred := rfl
  trimmed := nofun
  selection := nofun
  classes := nofun
  written := nofun

theorem sound_input {decl : StreamDecl} (known : decl.type.isKnown = true)
    : g.Sound (.ofKind (.input decl) decl.type) where
  known := known
  inferred := rfl
  trimmed := nofun
  selection := nofun
  classes := nofun
  written := nofun

theorem Sound.type_input {decl : StreamDecl} (sound : g.Sound n) (kind : n.kind = .input decl)
    : n.type = decl.type := by
  have inferred := sound.inferred
  rw [infer.eq_def] at inferred
  simp only [kind] at inferred
  exact (congrArg Prod.fst inferred).symm

theorem Sound.type_output {decl : StreamDecl} {e : NodeId} (sound : g.Sound n)
    (kind : n.kind = .output decl e)
    : n.type = decl.type ∧ g.type e = decl.type := by
  have inferred := sound.inferred
  rw [infer.eq_def] at inferred
  simp only [kind] at inferred
  have own : n.type = decl.type := (congrArg Prod.fst inferred).symm
  have written := sound.written (by rw [Node.isOutput, kind])
  rw [Node.children, kind] at written
  exact ⟨own, (List.cons.inj written).1.trans own⟩

/-- An output is typed if it writes what its stream takes. -/
theorem sound_output {decl : StreamDecl} {e : NodeId} (known : decl.type.isKnown = true)
    (type : g.type e = decl.type)
    : g.Sound (.ofKind (.output decl e) decl.type) where
  known := known
  inferred := rfl
  trimmed := nofun
  selection := nofun
  classes {slot t r} atSlot asked _ := by
    obtain rfl := List.mem_singleton.mp (List.mem_of_getElem? atSlot)
    rw [type]
    exact Option.some.inj asked
  written _ := congrArg (fun t : DataType => [t]) type

theorem sound_construct {type : DataType} {arguments : List NodeId} (known : type.isKnown = true)
    (classes : ∀ x ∈ arguments, g.register x = type.register)
    : g.Sound (.ofKind (.construct arguments) type) where
  known := known
  inferred := rfl
  trimmed := nofun
  selection := nofun
  classes {slot t r} atSlot asked _ := by
    obtain ⟨x, isArgument, rfl⟩ := List.mem_map.mp (List.mem_of_getElem? atSlot)
    exact (classes x isArgument).trans (Option.some.inj asked)
  written := nofun

theorem sound_conversion {x : NodeId} {target : RegisterClass} (known : target.isKnown = true)
    : g.Sound ⟨.unary .typeConversion x, (g.type x).withRegister target, some 0⟩ where
  known := known
  inferred := by
    have width := DataType.width_of (r := target) (g.type x).width_pos (g.type x).width_le_four
    exact congrArg (·, some 0) (DataType.ext rfl (width.trans width.symm))
  trimmed := nofun
  selection := nofun
  classes := nofun
  written := nofun

theorem sound_selectionOf {v : NodeId} {c : Nat} (known : (g.type v).isKnown = true)
    : g.Sound (g.selectionOf v c) where
  known := known
  inferred := rfl
  trimmed := nofun
  selection found := ⟨[c], (Option.some.inj found).symm⟩
  classes := nofun
  written := nofun

/-! ## Operators -/

/-- An operator is no call, no selection and no output. -/
theorem plain_of_signatures? {table : List Signature} (found : n.kind.signatures? = some table)
    : n.function? = none ∧ n.selection? = none ∧ n.isOutput = false := by
  obtain ⟨kind, type, overload⟩ := n
  cases kind with
  | unary _ _ | binary _ _ _ | ternary _ _ _ _ => exact ⟨rfl, rfl, rfl⟩
  | _ => cases found

theorem asks?_signatures {table : List Signature}
    (found : n.kind.signatures? = some table) (slot : Nat)
    : n.asks? slot = (n.overload.bind (table[·]?)).map (·.argument slot) := by
  have isNode : (Graph.empty.push n).node 0 = n := node_push_self _ _
  rw [Node.asks?, expected?_signatures (by rw [isNode]; exact found), isNode]

/-- A new operator is typed if the classes of its operands are those of the entry that they
select. -/
theorem sound_operator {kind : NodeKind} {table : List Signature} {i width : Nat}
    {r : RegisterClass} (found : kind.signatures? = some table)
    (selects : Signature.Selects table (kind.children.map g.register) i r)
    (broad : kind.width? i (kind.children.map g.type) = some width) (known : r.isKnown = true)
    : g.deduced (.ofKind kind .unknown) = ⟨kind, .of r width, some i⟩
      ∧ g.Sound ⟨kind, .of r width, some i⟩ := by
  obtain ⟨overloads, resolves, results⟩ := NodeKind.overloads_of_signatures? found
  have inferred (n : Node) (isKind : n.kind = kind) : g.infer n = (.of r width, some i) := by
    subst isKind
    rw [infer_eq overloads (resolves ▸ selects.resolved) broad, results, selects.resultAt]
  obtain ⟨noCall, noSelection, noOutput⟩ := plain_of_signatures?
    (n := ⟨kind, .of r width, some i⟩) found
  have deduces := inferred (.ofKind kind .unknown) rfl
  refine ⟨Node.mk.injEq .. ▸ ⟨kind_deduced found, congrArg Prod.fst deduces,
    congrArg Prod.snd deduces⟩, known, inferred _ rfl, fun function => ?_, fun selection => ?_,
    fun {slot t asked} atSlot asks _ => ?_,
    fun isOutput => ?_⟩
  · cases noCall.symm.trans function
  · cases noSelection.symm.trans selection
  · rw [asks?_signatures found] at asks
    simp only [Option.bind_some, selects.entry, Option.map_some, Option.some.injEq,
      Signature.argument, List.getD_eq_getElem?_getD] at asks
    rw [List.getElem?_map] at asks atSlot
    obtain ⟨child, atChild, rfl⟩ := Option.map_eq_some_iff.mp atSlot
    rw [Node.children] at atChild
    rw [atChild] at asks
    exact asks
  · cases noOutput.symm.trans isOutput

/-- The operands of a typed operator have the classes of the entry that they select. -/
theorem Sound.selects {table : List Signature} (sound : g.Sound n)
    (found : n.kind.signatures? = some table)
    : ∃ i, n.overload = some i ∧ Signature.Selects table
      (n.children.map g.register) i n.register := by
  refine selects_of_classes found sound.known sound.inferred fun {slot child r} atSlot asks => ?_
  exact sound.classes (by rw [List.getElem?_map, atSlot]; rfl)
    ((asks?_signatures found slot).trans asks)

/-- A typed call has selected an overload. -/
theorem Sound.call {candidates : List FunctionSig} {arguments : List NodeId} (sound : g.Sound n)
    (kind : n.kind = .call candidates arguments)
    : ∃ i f, n.overload = some i
        ∧ candidates[i]? = some f
        ∧ resolveFunction? candidates (arguments.map g.register) = some i
        ∧ n.register = f.output := by
  obtain ⟨i, _, overload, resolved, broad, register, _⟩ :=
    overloaded (by rw [kind]; rfl) sound.known sound.inferred
  rw [Node.children, kind] at resolved broad
  obtain ⟨f, entry, _⟩ := Option.bind_eq_some_iff.mp broad
  rw [kind, NodeKind.resultAt, entry] at register
  exact ⟨i, f, overload, entry, resolved, register⟩

theorem Sound.exists_function {candidates : List FunctionSig} {arguments : List NodeId}
    (sound : g.Sound n) (kind : n.kind = .call candidates arguments)
    : ∃ f, n.function? = some f := by
  obtain ⟨i, f, overload, entry, _⟩ := sound.call kind
  exact ⟨f, by rw [Node.function?, kind, overload]; exact entry⟩

/-- The operands of what works component by component are scalars or have its width. -/
theorem Sound.broadcasts (sound : g.Sound n) (componentwise : n.kind.isComponentwise = true)
    : DataType.broadcastWidth? (n.children.map g.type) = some n.type.width := by
  obtain ⟨⟨inputs, found⟩, broadcasts⟩ := NodeKind.overloads_of_componentwise componentwise
  obtain ⟨i, width, overload, _, broad, _, type⟩ := overloaded found sound.known sound.inferred
  have common := broadcastWidth?_of_width? broadcasts overload sound.trimmed broad
  rw [type, DataType.of_broadcastWidth? _ common, common]

/-- What works component by component has one overload for vectors of some classes and for scalars
of these classes. -/
theorem Sound.infer_parts {kind : NodeKind} (sound : g.Sound n)
    (componentwise : n.kind.isComponentwise = true) (outline : kind.outline = n.kind.outline)
    (registers : kind.children.map h.register = n.children.map g.register)
    (scalars : ∀ t ∈ kind.children.map h.type, t.width = 1)
    : h.infer (.ofKind kind .unknown) = (n.type.scalar, n.overload) := by
  obtain ⟨⟨inputs, found⟩, _⟩ := NodeKind.overloads_of_componentwise componentwise
  obtain ⟨i, _, overload, resolved, broad, register, _⟩ :=
    overloaded found sound.known sound.inferred
  obtain ⟨overloads, resolves, results, gives⟩ := NodeKind.overloads_of_outline outline
  rw [← resolves, ← registers] at resolved
  have single := NodeKind.width?_scalars componentwise broad scalars
  rw [← gives] at single
  rw [infer_eq (n := .ofKind kind .unknown) (overloads.trans found) resolved single, overload,
    DataType.scalar, ← Node.register, register, ← results]
  rfl

/-- What works component by component is typed on scalars of the same classes. -/
theorem Sound.parts {kind : NodeKind} (sound : g.Sound n)
    (componentwise : n.kind.isComponentwise = true) (outline : kind.outline = n.kind.outline)
    (registers : kind.children.map h.register = n.children.map g.register)
    (scalars : ∀ t ∈ kind.children.map h.type, t.width = 1)
    : h.deduced (.ofKind kind .unknown) = ⟨kind, n.type.scalar, n.overload⟩
      ∧ h.Sound ⟨kind, n.type.scalar, n.overload⟩ := by
  have inferred := sound.infer_parts (h := h) componentwise outline registers scalars
  have length : kind.children.length = n.children.length := by
    have same := congrArg List.length registers
    rwa [List.length_map, List.length_map] at same
  have alike : Node.function? ⟨kind, n.type.scalar, n.overload⟩ = n.function?
      ∧ (Node.selection? ⟨kind, n.type.scalar, n.overload⟩ = none)
      ∧ (Node.isOutput ⟨kind, n.type.scalar, n.overload⟩ = false)
      ∧ ∀ slot, Node.asks? ⟨kind, n.type.scalar, n.overload⟩ slot = n.asks? slot := by
    obtain ⟨old, type, overload⟩ := n
    cases old with
    | unary op _ =>
        cases kind <;> cases outline
        cases op <;> exact ⟨rfl, rfl, rfl, fun _ => rfl⟩
    | binary _ _ _ | ternary _ _ _ _ =>
        cases kind <;> cases outline
        exact ⟨rfl, rfl, rfl, fun _ => rfl⟩
    | call _ _ =>
        cases kind with
        | call _ _ =>
            obtain ⟨rfl, _⟩ := NodeKind.call.inj outline
            exact ⟨rfl, rfl, rfl, fun _ => rfl⟩
        | _ => cases outline
    | _ => cases componentwise
  obtain ⟨function, noSelection, noOutput, asks⟩ := alike
  have trimmed {f} (found : Node.function? ⟨kind, n.type.scalar, n.overload⟩ = some f) :
      kind.children.length ≤ f.arity := by
    rw [length]
    exact sound.trimmed (function ▸ found)
  have own : h.infer ⟨kind, n.type.scalar, n.overload⟩ = (n.type.scalar, n.overload) :=
    (infer_eq_of_kind (n := .ofKind kind .unknown) (m := ⟨kind, n.type.scalar, n.overload⟩) rfl
      (congrArg Prod.fst inferred).symm).trans inferred
  refine ⟨?_, sound.known, own, trimmed, fun selection => ?_,
    fun {slot t r} atSlot asked known => ?_,
    fun isOutput => ?_⟩
  · have same : h.deduced (.ofKind kind .unknown) = h.deduced
      ⟨kind, n.type.scalar, n.overload⟩ := by
      rw [deduced, deduced, inferred, own]
      rfl
    exact same.trans (deduced_eq_self own trimmed)
  · cases noSelection.symm.trans selection
  · rw [asks] at asked
    rw [List.getElem?_map] at atSlot
    obtain ⟨child, atChild, rfl⟩ := Option.map_eq_some_iff.mp atSlot
    have same := congrArg (·[slot]?) registers
    simp only [List.getElem?_map] at same
    rw [show kind.children[slot]? = some child from atChild, Option.map_some] at same
    obtain ⟨old, atOld, register⟩ := Option.map_eq_some_iff.mp same.symm
    exact register.symm.trans (sound.classes (by rw [List.getElem?_map, atOld]; rfl) asked known)
  · cases noOutput.symm.trans isOutput

end Graph

end StreamExpr
