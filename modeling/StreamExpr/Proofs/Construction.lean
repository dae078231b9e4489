import StreamExpr.Proofs.Overloads
import StreamExpr.Proofs.TidyGraph

/-! Graphs that are built node by node.
A graph grows from nothing by nodes whose operands are there already. So operands stand before their
users, and a node keeps the type and overload that its operands gave it when it was added.
-/

namespace StreamExpr

/-- Graphs that grow from the empty one. -/
inductive Built : Graph → Prop
  | empty : Built .empty
  | constant {g} (value : Value) : Built g → Built (g.pushConstant value)
  | input {g} (decl : StreamDecl) : Built g → Built (g.pushInput decl)
  | declareInput {g} (decl : StreamDecl) : Built g → Built (g.declareInput decl)
  | output {g e} (decl : StreamDecl) (inside : e < g.size) : Built g → Built (g.pushOutput decl e)
  | declareOutput {g e} (decl : StreamDecl) (inside : e < g.size) :
      Built g → Built (g.declareOutput decl e)
  | unary {g x} (op : UnaryOp) (inside : x < g.size) : Built g → Built (g.pushUnary op x)
  | conversion {g x} (target : RegisterClass) (inside : x < g.size) :
      Built g → Built (g.pushConversion target x)
  | binary {g x y} (op : BinaryOp) (inside : x < g.size ∧ y < g.size) :
      Built g → Built (g.pushBinary op x y)
  | ternary {g x y z} (op : TernaryOp) (inside : x < g.size ∧ y < g.size ∧ z < g.size) :
      Built g → Built (g.pushTernary op x y z)
  | call {g arguments} (candidates : List FunctionSig) (inside : ∀ x ∈ arguments, x < g.size) :
      Built g → Built (g.pushCall candidates arguments)
  | construct {g arguments} (type : DataType) (inside : ∀ x ∈ arguments, x < g.size) :
      Built g → Built (g.pushConstruct type arguments)
  | swizzle {g x} (components : List Nat) (inside : x < g.size) :
      Built g → Built (g.pushSwizzle x components)
  | component {g x} (c : Nat) (inside : x < g.size) : Built g → Built (g.component x c).2

theorem Node.requiresInputs_eq_of_outline {n other : Node} (same : n.outline = other.outline)
    : n.kind.requiresInputs = other.kind.requiresInputs := by
  have forgets (n : Node) : n.outline.kind.requiresInputs = n.kind.requiresInputs := by
    obtain ⟨kind, type, overload⟩ := n
    cases kind <;> rfl
  rw [← forgets, same, forgets]

namespace Graph

/-! ## Deduced nodes -/

/-- A call has the same type without its spare arguments, if it selects the same overload. -/
theorem infer_take {g : Graph} {n m : Node} {candidates : List FunctionSig}
    {arguments : List NodeId} {i : Nat} {f : FunctionSig}
    (kind : n.kind = .call candidates arguments)
    (trimmed : m.kind = .call candidates (arguments.take f.arity))
    (overload : (g.infer n).2 = some i) (entry : candidates[i]? = some f)
    (again : resolveFunction? candidates ((arguments.map g.register).take f.arity) = some i)
    : g.infer m = g.infer n := by
  rcases g.infer_cases (n := n) (by rw [kind]; rfl) with unknown | ⟨j, width, _, broad, inferred⟩
  · rw [unknown] at overload
    cases overload
  · rw [inferred] at overload
    obtain rfl := Option.some.inj overload
    rw [inferred, show n.kind.resultAt j = m.kind.resultAt j by rw [kind, trimmed]; rfl]
    refine infer_eq (by rw [trimmed]; rfl) ?_ ?_
    · rw [Node.children, trimmed, NodeKind.children, List.map_take]
      exact again
    · rw [Node.children, kind] at broad
      rw [Node.children, trimmed, NodeKind.children, List.map_take, ← broad]
      simp only [NodeKind.width?, NodeKind.children, entry, Option.bind_some,
        List.take_take, Nat.min_self]

theorem kind_deduced_call {g : Graph} {n : Node} {candidates : List FunctionSig}
    {arguments : List NodeId} (kind : n.kind = .call candidates arguments)
    : (g.deduced n).kind
      = match (g.infer n).2.bind (candidates[·]?) with
        | some f => .call candidates (arguments.take f.arity)
        | none => .call candidates arguments := by
  obtain ⟨_, type, overload⟩ := n
  subst kind
  simp only [deduced, trimArguments, Node.function?]
  cases (g.infer ⟨.call candidates arguments, type, overload⟩).2.bind (candidates[·]?) <;> rfl

theorem kind_deduced_of_ne {g : Graph} {n : Node}
    (noCall : ∀ candidates arguments, n.kind ≠ .call candidates arguments)
    : (g.deduced n).kind = n.kind := by
  change trimArguments { n with type := (g.infer n).1, overload := (g.infer n).2 } = n.kind
  rw [trimArguments.eq_def]
  split
  next candidates arguments _ kind _ =>
    exact (noCall candidates arguments kind).elim
  · rfl

/-- A deduced node keeps its kind, unless it is a call, which stays one. -/
theorem kind_deduced_cases (g : Graph) (n : Node)
    : (g.deduced n).kind = n.kind
      ∨ ∃ candidates arguments others,
          n.kind = .call candidates arguments ∧ (g.deduced n).kind = .call candidates others := by
  cases kind : n.kind with
  | call candidates arguments =>
      right
      rw [kind_deduced_call kind]
      split
      · exact ⟨candidates, arguments, _, rfl, rfl⟩
      · exact ⟨candidates, arguments, _, rfl, rfl⟩
  | _ =>
      left
      rw [kind_deduced_of_ne fun _ _ isCall => (by cases kind.symm.trans isCall), kind]

theorem isOutput_deduced (g : Graph) (n : Node) : (g.deduced n).isOutput = n.isOutput := by
  rcases g.kind_deduced_cases n with same | ⟨candidates, arguments, others, kind, isCall⟩
  · rw [Node.isOutput, Node.isOutput, same]
  · rw [Node.isOutput, Node.isOutput, kind, isCall]

theorem mem_children_of_deduced {g : Graph} {n : Node} {child : NodeId}
    (member : child ∈ (g.deduced n).children)
    : child ∈ n.children := by
  rw [Node.children] at member ⊢
  cases kind : n.kind with
  | call candidates arguments =>
      rw [kind_deduced_call kind] at member
      split at member
      · exact List.mem_of_mem_take member
      · exact member
  | _ =>
      rwa [kind_deduced_of_ne fun _ _ isCall => (by cases kind.symm.trans isCall), kind] at member

/-- The deduced type depends on the kind of a node only, for kinds that take their type from
elsewhere also on that type. -/
theorem infer_eq_of_kind {g : Graph} {n m : Node} (same : m.kind = n.kind)
    (type : m.type = (g.infer n).1)
    : g.infer m = g.infer n := by
  obtain ⟨kind, oldType, overload⟩ := n
  obtain ⟨otherKind, newType, otherOverload⟩ := m
  obtain rfl : otherKind = kind := same
  cases otherKind with
  | construct arguments =>
      obtain rfl : newType = oldType := type
      rfl
  | unary op operand =>
      cases op with
      | typeConversion =>
          obtain rfl : newType = _ := type
          rfl
      | _ => rfl
  | _ => rfl

theorem infer_deduced (g : Graph) {n : Node} (requires : n.kind.requiresInputs = true)
    : g.infer (g.deduced n) = g.infer n := by
  cases kind : n.kind with
  | call candidates arguments =>
      rw [kind, NodeKind.requiresInputs_call] at requires
      have deducedKind := kind_deduced_call (g := g) kind
      cases selected : (g.infer n).2.bind (candidates[·]?) with
      | none =>
          rw [selected] at deducedKind
          exact infer_eq_of_kind (deducedKind.trans kind.symm) rfl
      | some f =>
          rw [selected] at deducedKind
          obtain ⟨i, overload, entry⟩ := Option.bind_eq_some_iff.mp selected
          have resolved := resolve?_of_infer (by rw [kind]; rfl) overload
          rw [Node.children, kind, NodeKind.resolve?,
            resolveFunction?_eq_closest? _ requires] at resolved
          have expected : (candidates.map FunctionSig.inputs)[i]? = some f.inputs := by
            rw [List.getElem?_map, entry, Option.map_some]
          obtain ⟨_, found, enough⟩ := closest?_eq_some resolved
          obtain rfl := Option.some.inj (expected.symm.trans found)
          refine infer_take kind deducedKind overload entry ?_
          rw [resolveFunction?_eq_closest? _ requires]
          exact closest?_of_converts resolved expected (.take enough)
  | _ =>
      refine infer_eq_of_kind (kind_deduced_of_ne fun candidates arguments isCall => ?_) rfl
      cases kind.symm.trans isCall

theorem length_deduced_le {g : Graph} {n : Node} {f : FunctionSig}
    (function : (g.deduced n).function? = some f)
    : (g.deduced n).children.length ≤ f.arity := by
  cases kind : n.kind with
  | call candidates arguments =>
      have deducedKind := kind_deduced_call (g := g) kind
      have overload : (g.deduced n).overload = (g.infer n).2 := rfl
      cases selected : (g.infer n).2.bind (candidates[·]?) with
      | none =>
          rw [selected] at deducedKind
          simp only [Node.function?, deducedKind, overload, selected] at function
          cases function
      | some chosen =>
          rw [selected] at deducedKind
          simp only [Node.function?, deducedKind, overload, selected, Option.some.injEq] at function
          subst function
          rw [Node.children, deducedKind]
          exact List.length_take_le _ _
  | _ =>
      obtain ⟨_, type, overload⟩ := n
      cases kind
      cases function

/-! ## Facts that construction keeps up -/

/-- A node as it is added to a graph: it has the type and overload that its operands give, a call
has no spare arguments, and a selection is one of at most four components. -/
structure Formed (g : Graph) (n : Node) : Prop where
  inferred : n.kind.requiresInputs = true → g.infer n = (n.type, n.overload)
  trimmed : ∀ {f}, n.function? = some f → n.children.length ≤ f.arity
  selection : ∀ {x chosen}, n.kind = .swizzle x chosen → ∃ components, chosen = .ofList components

theorem formed_deduced (g : Graph) {kind : NodeKind}
    (selection : ∀ {x chosen}, kind = .swizzle x chosen → ∃ components, chosen = .ofList components)
    : g.Formed (g.deduced (.ofKind kind .unknown)) := by
  refine ⟨fun requires => g.infer_deduced ?_, length_deduced_le, fun found => ?_⟩
  · cases kind with
    | call candidates arguments =>
        rw [kind_deduced_call rfl] at requires
        split at requires <;> exact requires
    | _ => rfl
  · cases kind with
    | call candidates arguments =>
        rw [kind_deduced_call rfl] at found
        split at found <;> cases found
    | _ => exact selection found

/-- A node that is not deduced from its operands. -/
theorem formed_given {g : Graph} {n : Node} (inferred : g.infer n = (n.type, n.overload))
    (noCall : n.function? = none) (noSelection : ∀ x chosen, n.kind ≠ .swizzle x chosen)
    : g.Formed n :=
  ⟨fun _ => inferred, fun found => by simp [noCall] at found,
    fun found => (noSelection _ _ found).elim⟩

theorem Formed.of_types {g h : Graph} {n : Node} (formed : g.Formed n)
    (types : n.children.map h.type = n.children.map g.type)
    : h.Formed n :=
  ⟨fun requires => (infer_eq_of_outline rfl types).trans (formed.inferred requires), formed.trimmed,
    formed.selection⟩

/-- What holds of a graph that is built. Roots are outputs to declared streams, and cached
selections select the component they are cached for. -/
structure Orderly (g : Graph) : Prop where
  before : ∀ {id child}, child ∈ g.children id → child < id
  formed : ∀ {id}, id < g.size → g.Formed (g.node id)
  listed : ∀ {id}, id ∈ g.inputs → id < g.size
  rooted : ∀ {root}, root ∈ g.outputs → ∃ decl e,
    (g.node root).kind = .output decl e ∧ decl ∈ g.declared
  cached : ∀ {x c s : Nat}, g.selections[(x, c)]? = some s →
    (g.type x).isVector = true
    ∧ s < g.size
    ∧ g.node s = .ofKind (.swizzle x (.ofList [c])) ((g.type x).withWidth 1)

theorem lt_size_of_isOutput {g : Graph} {id : NodeId} (isOutput : g.isOutput id = true)
    : id < g.size := by
  by_contra outside
  rw [Graph.isOutput, node_of_size_le (Nat.le_of_not_lt outside)] at isOutput
  cases isOutput

theorem Orderly.isOutput {g : Graph} (orderly : g.Orderly) {root : NodeId}
    (isRoot : root ∈ g.outputs)
    : g.isOutput root = true := by
  obtain ⟨decl, e, kind, _⟩ := orderly.rooted isRoot
  rw [Graph.isOutput, Node.isOutput, kind]

theorem Orderly.lt_size {g : Graph} (orderly : g.Orderly) {id : NodeId} (reachable : g.Reachable id)
    : id < g.size := by
  obtain ⟨root, isRoot, path⟩ := reachable
  induction path with
  | refl => exact lt_size_of_isOutput (orderly.isOutput isRoot)
  | tail _ uses ih => exact Nat.lt_trans (orderly.before uses) ih

theorem Orderly.tidy {g : Graph} (orderly : g.Orderly)
    (unused : ∀ {parent child}, g.Uses parent child → g.isOutput child = false)
    : g.Tidy where
  operand uses := Nat.lt_trans (orderly.before uses) uses.lt_size
  output root isRoot := orderly.lt_size (.root isRoot)
  input id isInput := orderly.listed isInput
  unused := unused
  keyed {v c s} found := by
    obtain ⟨_, inside, selects⟩ := orderly.cached found
    have isOperand : v ∈ g.children s := by
      rw [children, selects]
      exact List.mem_singleton_self v
    exact Nat.lt_trans (orderly.before isOperand) inside

theorem Orderly.push {g : Graph} {n : Node} (orderly : g.Orderly) (formed : g.Formed n)
    (operands : ∀ child ∈ n.children, child < g.size)
    : (g.push n).Orderly := by
  have keeps {ids : List NodeId} (inside : ∀ child ∈ ids, child < g.size) :
      ids.map (g.push n).type = ids.map g.type :=
    List.map_congr_left fun child member => congrArg Node.type
    (node_push_of_lt n (inside child member))
  refine ⟨fun {id child} member => ?_, fun {id} inside => ?_, fun {id} member => ?_,
    fun {root} member => ?_,
    fun {x c s} found => ?_⟩
  · rcases uses_push member with ⟨rfl, isOwn⟩ | ⟨_, before⟩
    · exact operands child isOwn
    · exact orderly.before before
  · rw [node_push]
    split
    case isTrue => exact formed.of_types (keeps operands)
    case isFalse isOld =>
      have wasInside : id < g.size := by
        rw [size_push] at inside
        exact Nat.lt_of_le_of_ne (Nat.le_of_lt_succ inside) isOld
      exact (orderly.formed wasInside).of_types
        (keeps fun child member => Nat.lt_trans (orderly.before member) wasInside)
  · rw [size_push]
    exact Nat.lt_succ_of_lt (orderly.listed member)
  · rw [node_push_of_lt n (lt_size_of_isOutput (orderly.isOutput member))]
    exact orderly.rooted member
  · obtain ⟨isVector, inside, selects⟩ := orderly.cached found
    have isOperand : x ∈ g.children s := by
      rw [children, selects]
      exact List.mem_singleton_self x
    have operandInside := Nat.lt_trans (orderly.before isOperand) inside
    rw [type, node_push_of_lt n operandInside, node_push_of_lt n inside]
    exact ⟨isVector, by rw [size_push]; omega, selects⟩

theorem Orderly.component {g : Graph} (orderly : g.Orderly) {x : NodeId} (c : Nat)
    (inside : x < g.size)
    : (g.component x c).2.Orderly := by
  rw [Graph.component]
  split
  case isTrue isVector =>
    split
    · exact orderly
    · have pushed : (g.pushSwizzle x [c]).Orderly :=
        orderly.push (g.formed_deduced fun found => by cases found; exact ⟨[c], rfl⟩)
          fun child member => by rwa [List.mem_singleton.mp member]
      refine ⟨pushed.before, fun inside => (pushed.formed inside).of_types rfl,
        pushed.listed, pushed.rooted,
        fun {y d s} found => ?_⟩
      simp only [Std.TreeMap.getElem?_insert] at found
      split at found
      case isTrue same =>
        obtain ⟨rfl, rfl⟩ := Prod.mk.inj (Std.LawfulEqCmp.eq_of_compare same)
        obtain rfl := Option.some.inj found
        have typeSame : (g.pushSwizzle x [c]).type x = g.type x :=
          congrArg Node.type (node_push_of_lt _ inside)
        refine ⟨typeSame ▸ isVector, ?_, ?_⟩
        · exact Nat.lt_of_lt_of_eq (Nat.lt_succ_self _) (size_push g _).symm
        · exact (node_push_self g _).trans (congrArg
            (fun t : DataType => Node.ofKind (.swizzle x (.ofList [c])) (t.withWidth 1))
            typeSame.symm)
      case isFalse => exact pushed.cached found
  case isFalse => exact orderly

end Graph

open Graph in
/-- Every graph that is built is orderly. Witness: induction on the construction, whose steps all
add one node. -/
theorem Built.orderly {g : Graph} (built : Built g) : g.Orderly := by
  have deduces {g : Graph} {kind : NodeKind} (orderly : g.Orderly)
      (operands : ∀ child ∈ kind.children, child < g.size)
      (selection : ∀ {x chosen}, kind = .swizzle x chosen →
        ∃ components, chosen = .ofList components := by intro _ _ found; cases found) :
      (g.pushDeduced kind).Orderly :=
    orderly.push (g.formed_deduced selection) fun child member =>
      operands child (mem_children_of_deduced member)
  induction built with
  | empty =>
      refine ⟨fun {id child} member => ?_, fun inside => ?_, fun member => ?_, fun member => ?_,
        fun found => ?_⟩
      · rw [children, node_of_size_le (Nat.zero_le id)] at member
        cases member
      · cases inside
      · cases member
      · cases member
      · simp [Graph.empty] at found
  | constant value _ ih =>
      exact ih.push (formed_given rfl rfl fun _ _ found => by cases found) fun _ member => by
        cases member
  | input decl _ ih =>
      exact ih.push (formed_given rfl rfl fun _ _ found => by cases found) fun _ member => by
        cases member
  | @declareInput g decl _ ih =>
      have pushed := ih.push (n := .ofKind (.input decl) decl.type)
        (formed_given rfl rfl fun _ _ found => by cases found) fun _ member => by cases member
      refine ⟨pushed.before, fun inside => (pushed.formed inside).of_types rfl,
        fun {id} member => ?_, pushed.rooted, pushed.cached⟩
      rcases List.mem_append.mp member with before | isNew
      · exact pushed.listed before
      · rw [List.mem_singleton.mp isNew]
        exact Nat.lt_of_lt_of_eq (Nat.lt_succ_self _) (size_push g _).symm
  | output decl inside _ ih =>
      exact ih.push (formed_given rfl rfl fun _ _ found => by cases found) fun child member => by
        rwa [List.mem_singleton.mp member]
  | @declareOutput g e decl inside _ ih =>
      have pushed := ih.push (n := .ofKind (.output decl e) decl.type)
        (formed_given rfl rfl fun _ _ found => by cases found) fun child member => by
          rwa [List.mem_singleton.mp member]
      refine ⟨pushed.before, fun inside => (pushed.formed inside).of_types rfl, pushed.listed,
        fun {root} member => ?_, pushed.cached⟩
      rcases List.mem_append.mp member with before | isNew
      · obtain ⟨other, x, kind, isDeclared⟩ := pushed.rooted before
        exact ⟨other, x, kind, List.mem_append_left _ isDeclared⟩
      · rw [List.mem_singleton.mp isNew]
        exact ⟨decl, e, congrArg Node.kind (node_push_self g _), List.mem_append_right _ (.head _)⟩
  | unary op inside _ ih =>
      exact deduces ih fun child member => by rwa [List.mem_singleton.mp member]
  | conversion target inside _ ih =>
      exact ih.push (formed_given rfl rfl fun _ _ found => by cases found) fun child member => by
        rwa [List.mem_singleton.mp member]
  | binary op inside _ ih =>
      exact deduces ih fun child member => by
        simp only [NodeKind.children, List.mem_cons, List.not_mem_nil, or_false] at member
        rcases member with rfl | rfl
        · exact inside.1
        · exact inside.2
  | ternary op inside _ ih =>
      exact deduces ih fun child member => by
        simp only [NodeKind.children, List.mem_cons, List.not_mem_nil, or_false] at member
        rcases member with rfl | rfl | rfl
        · exact inside.1
        · exact inside.2.1
        · exact inside.2.2
  | call candidates inside _ ih => exact deduces ih inside
  | construct type inside _ ih =>
      exact ih.push (formed_given rfl rfl fun _ _ found => by cases found) inside
  | swizzle components inside _ ih =>
      refine deduces ih (fun child member => by rwa [List.mem_singleton.mp member]) fun found => ?_
      cases found
      exact ⟨components, rfl⟩
  | component c inside _ ih => exact ih.component c inside

end StreamExpr
