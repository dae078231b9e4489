import StreamExpr.Proofs.Conversion

/-! Deducing a type again.
A call drops the arguments that the overload it selects has no inputs for, and then it is resolved
among fewer arguments. Overloads that take no more of them are as far as before. A longer one with
optional inputs is compared on the arguments that are left only, and may be closer than it was.
-/

namespace StreamExpr

/-! ## Resolution without spare arguments -/

open matchDistance? in
/-- Operands that are dropped count as little as expected classes that are dropped. -/
theorem total_take (actual expected : List RegisterClass) (count : Nat)
    : total (actual.take count) expected = total actual (expected.take count) := by
  induction count generalizing actual expected with
  | zero =>
      rw [List.take_zero, List.take_zero, total.eq_def, total.eq_def]
      cases actual <;> rfl
  | succ count ih =>
      cases actual with
      | nil => rfl
      | cons a actual =>
          cases expected with
          | nil => rfl
          | cons e expected => rw [List.take_succ_cons, List.take_succ_cons, total, total, ih]

/-- The distance of an overload from the first arguments. -/
theorem matchDistance?_take {arguments : List RegisterClass} {count : Nat}
    (spare : count < arguments.length) (f : FunctionSig)
    : matchDistance? (arguments.take count) f.inputs f.required
      = if count < f.required then none else matchDistance?.total arguments
        (f.inputs.take count) := by
  rw [matchDistance?, List.length_take, Nat.min_eq_left (Nat.le_of_lt spare), total_take]

/-- Another overload is closer than the selected one to the arguments that this one takes: it has
more inputs, requires no more than those, and comes first if both are as close. -/
def Outbids (candidates : List FunctionSig) (arguments : List RegisterClass) (k : Nat)
    (f : FunctionSig) (j : Nat)
    : Prop :=
  ∃ h ∈ candidates[j]?, f.arity < h.arity ∧ h.required ≤ f.arity ∧
    ∃ near ∈ matchDistance?.total arguments (h.inputs.take f.arity),
      ∃ own ∈ matchDistance?.total arguments f.inputs, near < own ∨ near = own ∧ j < k

/-- The selected overload has fewer inputs than there are arguments, and does not stay selected
without the spare ones: it requires more than its inputs, or another one is closer to what is
left. -/
def Overtaken (candidates : List FunctionSig) (arguments : List RegisterClass) (k : Nat) : Prop :=
  ∃ f ∈ candidates[k]?, f.arity < arguments.length ∧
    (f.arity < f.required ∨ ∃ j < candidates.length, Outbids candidates arguments k f j)

instance (candidates : List FunctionSig) (arguments : List RegisterClass) (k : Nat)
    (f : FunctionSig) (j : Nat)
    : Decidable (Outbids candidates arguments k f j) :=
  inferInstanceAs
    (Decidable (∃ h ∈ candidates[j]?, f.arity < h.arity ∧ h.required ≤ f.arity ∧ ∃ near ∈ _, _))

instance (candidates : List FunctionSig) (arguments : List RegisterClass) (k : Nat)
    : Decidable (Overtaken candidates arguments k) :=
  inferInstanceAs
  (Decidable (∃ f ∈ candidates[k]?, f.arity < arguments.length ∧ (_ ∨ ∃ j < candidates.length, _)))

/-- The selected overload stays selected without the spare arguments unless it is overtaken.
Witness: its own distance is the same, and so is that of every overload with no more inputs. -/
theorem resolveFunction?_take {candidates : List FunctionSig} {arguments : List RegisterClass}
    {k : Nat} {f : FunctionSig} (resolved : resolveFunction? candidates arguments = some k)
    (entry : candidates[k]? = some f)
    : resolveFunction? candidates (arguments.take f.arity) = some k
      ↔ ¬ Overtaken candidates arguments k := by
  by_cases spare : f.arity < arguments.length
  case neg =>
    rw [List.take_of_length_le (Nat.le_of_not_lt spare)]
    refine iff_of_true resolved ?_
    rintro ⟨_, sameEntry, longer, _⟩
    obtain rfl := Option.some.inj (entry.symm.trans sameEntry)
    exact spare longer
  obtain ⟨least, own, first⟩ := bestMatch?_eq_some.mp resolved
  simp only [List.getElem?_map, entry, Option.map_some, Option.some.injEq] at own
  simp only [List.getElem?_map, Option.map_eq_some_iff] at first
  rw [matchDistance?, Option.ite_none_left_eq_some] at own
  have whole : f.inputs.take f.arity = f.inputs := List.take_length
  rw [resolveFunction?, bestMatch?_eq_some]
  simp only [IsClosest, List.getElem?_map, entry, Option.map_some, Option.some.injEq,
    Option.map_eq_some_iff, matchDistance?_take spare, Option.ite_none_left_eq_some, whole]
  constructor
  · rintro ⟨left, ⟨covered, found⟩, closest⟩ ⟨_, sameEntry, _, loses⟩
    obtain rfl := Option.some.inj (entry.symm.trans sameEntry)
    rcases loses with uncovered | ⟨j, _, h, atIndex, _, optional, near, isNear, far, isFar, beats⟩
    · exact covered uncovered
    · have compared := closest j near ⟨h, atIndex, Nat.not_lt.mpr optional, isNear⟩
      obtain rfl := Option.some.inj (found.symm.trans isFar)
      omega
  · intro stays
    have covered : ¬ f.arity < f.required := fun uncovered =>
      stays ⟨f, entry, spare, .inl uncovered⟩
    refine ⟨least, ⟨covered, own.2⟩, ?_⟩
    rintro j near ⟨h, atIndex, optional, isNear⟩
    by_cases longer : f.arity < h.arity
    · have inside := (List.getElem?_eq_some_iff.mp atIndex).1
      have noOutbid : ¬ (near < least ∨ near = least ∧ j < k) :=
        fun beats => stays ⟨f, entry, spare, .inr
          ⟨j, inside, h, atIndex, longer, Nat.le_of_not_lt optional, near, isNear, least, own.2,
            beats⟩⟩
      omega
    · rw [List.take_of_length_le (Nat.le_of_not_lt longer)] at isNear
      exact first j near ⟨h, atIndex, by rw [matchDistance?, if_neg (by omega), isNear]⟩

/-- Overloads without optional inputs are not overtaken. -/
theorem Overtaken.optional {candidates : List FunctionSig} {arguments : List RegisterClass}
    {k : Nat} (overtaken : Overtaken candidates arguments k)
    : ∃ f ∈ candidates, f.required ≠ f.arity := by
  obtain ⟨f, entry, _, uncovered | ⟨j, _, h, atIndex, longer, optional, _⟩⟩ := overtaken
  · exact ⟨f, List.mem_of_getElem? entry, Nat.ne_of_gt uncovered⟩
  · exact ⟨h, List.mem_of_getElem? atIndex, by omega⟩

/-! ## Deduction -/

namespace Graph

variable {g h : Graph} {n : Node} {candidates : List FunctionSig}
    {arguments : List NodeId} {k : Nat}

/-- A node is a call, and the overload that it selects is overtaken. -/
def Overtaken (g : Graph) (n : Node) : Prop :=
  ∃ candidates arguments k,
    n.kind = .call candidates arguments
    ∧ (g.infer n).2 = some k
    ∧ StreamExpr.Overtaken candidates (arguments.map g.register) k

theorem overtaken_call (kind : n.kind = .call candidates arguments)
    (overload : (g.infer n).2 = some k)
    : g.Overtaken n ↔ StreamExpr.Overtaken candidates (arguments.map g.register) k := by
  refine ⟨?_, fun overtaken => ⟨candidates, arguments, k, kind, overload, overtaken⟩⟩
  rintro ⟨_, _, _, sameKind, sameOverload, overtaken⟩
  cases kind.symm.trans sameKind
  cases overload.symm.trans sameOverload
  exact overtaken

/-- Deducing the type of a node again changes nothing, unless its overload is overtaken. -/
theorem deduced_deduced (g : Graph) (n : Node)
    : g.deduced (g.deduced n) = g.deduced n ↔ ¬ g.Overtaken n := by
  have settles (again : g.infer (g.deduced n) = g.infer n)
    : g.deduced (g.deduced n) = g.deduced n := deduced_eq_self again length_deduced_le
  cases kind : n.kind with
  | call candidates arguments =>
      have trimmed := kind_deduced_call (g := g) kind
      cases overload : (g.infer n).2 with
      | none =>
          rw [overload] at trimmed
          refine iff_of_true (settles (infer_eq_of_kind (trimmed.trans kind.symm) rfl))
            fun overtaken => ?_
          obtain ⟨_, _, _, _, selected, _⟩ := overtaken
          cases overload.symm.trans selected
      | some k =>
          have resolved := resolve?_of_infer (by rw [kind]; rfl) overload
          rw [Node.children, kind, NodeKind.resolve?, NodeKind.children] at resolved
          obtain ⟨_, closest, _⟩ := bestMatch?_eq_some.mp resolved
          rw [List.getElem?_map, Option.map_eq_some_iff] at closest
          obtain ⟨f, entry, _⟩ := closest
          rw [overload, Option.bind_some, entry] at trimmed
          rw [overtaken_call kind overload, ← resolveFunction?_take resolved entry]
          refine ⟨fun same => ?_, fun again => settles ?_⟩
          · have selects : (g.infer (g.deduced n)).2 = some k :=
              (congrArg Node.overload same).trans overload
            have again := resolve?_of_infer (by rw [trimmed]; rfl) selects
            rw [Node.children, trimmed] at again
            rw [← List.map_take]
            exact again
          · exact infer_take kind trimmed overload entry again
  | _ =>
      refine iff_of_true
        (settles (infer_eq_of_kind (kind_deduced_of_ne fun _ _ isCall => ?_) rfl)) ?_
      · cases kind.symm.trans isCall
      · rintro ⟨_, _, _, isCall, _⟩
        cases kind.symm.trans isCall

theorem deduced_of_types {n : Node} (types : ∀ x ∈ n.children, h.type x = g.type x)
    : h.deduced n = g.deduced n := by
  have same : h.infer n = g.infer n := infer_eq_of_outline rfl (List.map_congr_left types)
  rw [deduced, deduced, same]

theorem node_deduce (g : Graph) (id other : NodeId)
    : (g.deduce id).node other = if other = id then g.deduced (g.node id) else g.node other := by
  by_cases inside : id < g.size
  · exact node_replace g _ inside other
  · have absent := node_of_size_le (Nat.le_of_not_lt inside)
    have same : g.deduced (g.node id) = g.node id := by
      rw [absent]
      rfl
    rw [deduce, same, replace_self]
    split
    case isTrue here =>
      rw [here]
    case isFalse => rfl

/-- Nothing is left to deduce of a node exactly if it is deduced already. -/
theorem deduce_eq_self (g : Graph) (id : NodeId)
    : g.deduce id = g ↔ g.deduced (g.node id) = g.node id := by
  constructor
  · intro same
    have node := g.node_deduce id id
    rw [same, if_pos rfl] at node
    exact node.symm
  · intro same
    rw [deduce, same, replace_self]

end Graph

/-- Deducing the type of a node that is not its own operand twice is like deducing it once, exactly
if its overload is not overtaken. Exactly then a call keeps what it was created with, as long as its
arguments keep their types. -/
theorem deduction_settles_unless_overtaken (g : Graph)
    : (∀ id, id ∉ g.children id →
        ((g.deduce id).deduce id = g.deduce id ↔ ¬ g.Overtaken (g.node id)))
      ∧ ∀ (later : Graph) (candidates : List FunctionSig) (arguments : List NodeId),
          later.node g.size = (g.pushCall candidates arguments).node g.size →
          (∀ x ∈ later.children g.size, later.type x = g.type x) →
            (later.deduce g.size = later ↔ ¬ g.Overtaken
            (.ofKind (.call candidates arguments) .unknown)) := by
  refine ⟨fun id apart => ?_, fun later candidates arguments created types => ?_⟩
  · have types (x) (member : x ∈ (g.deduced (g.node id)).children)
      : (g.deduce id).type x = g.type x := by
      have isOperand := Graph.mem_children_of_deduced member
      have other : x ≠ id := fun same => apart (same ▸ isOperand)
      rw [Graph.type, Graph.node_deduce, if_neg other, Graph.type]
    rw [Graph.deduce_eq_self, Graph.node_deduce, if_pos rfl, Graph.deduced_of_types types,
      Graph.deduced_deduced]
  · have node : (g.pushCall candidates arguments).node g.size
        = g.deduced (.ofKind (.call candidates arguments) .unknown) := Graph.node_push_self ..
    rw [node] at created
    rw [Graph.children, created] at types
    rw [Graph.deduce_eq_self, created, Graph.deduced_of_types types, Graph.deduced_deduced]

/-- Two integers and a number to call functions with. -/
def callArguments : Graph :=
  ((Graph.empty.pushInput ⟨"a", .scalarOf .int⟩).pushInput ⟨"b", .scalarOf .int⟩).pushInput
    ⟨"c", .scalarOf .float⟩

/-- Overloads with optional inputs. For an integer and a number the second is the closest one; of
the integer alone the first requires more, and the third is farther. -/
def settledOverloads : List FunctionSig :=
  [(FunctionSig.ofInputs "f" [.int, .int, .int] .bool).withRequired 2, .ofInputs "f" [.int] .int,
    (FunctionSig.ofInputs "f" [.float, .int, .int] .float).withRequired 1]

/-- A call of the two integers, the second of which is replaced by the number. -/
def replacedArgument (candidates : List FunctionSig) : Graph :=
  (callArguments.pushCall candidates [0, 1]).setChild 3 1 2

theorem deduction_settles_settledOverloads
    : 3 ∉ (replacedArgument settledOverloads).children 3
      ∧ (replacedArgument settledOverloads).children 3 = [0, 2]
      ∧ ((replacedArgument settledOverloads).deduce 3).children 3 = [0]
      ∧ ((replacedArgument settledOverloads).deduce 3).deduce 3
        = (replacedArgument settledOverloads).deduce 3
      ∧ (callArguments.pushCall settledOverloads [0, 2]).deduce 3
        = callArguments.pushCall settledOverloads [0, 2] :=
  have apart : 3 ∉ (replacedArgument settledOverloads).children 3 := by decide
  have replaced : ¬ (replacedArgument settledOverloads).Overtaken
    ((replacedArgument settledOverloads).node 3) := by
    rw [Graph.overtaken_call (k := 1) rfl rfl]
    decide
  have created : ¬ callArguments.Overtaken (.ofKind (.call settledOverloads [0, 2]) .unknown) := by
    rw [Graph.overtaken_call (k := 1) rfl rfl]
    decide
  ⟨apart, by decide, by decide, ((deduction_settles_unless_overtaken _).1 3 apart).mpr replaced,
    ((deduction_settles_unless_overtaken callArguments).2 _ settledOverloads [0, 2] rfl
    (by decide)).mpr created⟩

/-- Overloads of which the second is closer to an integer alone, and the first to an integer and a
number. -/
def flippingOverloads : List FunctionSig :=
  [.ofInputs "f" [.float] .float, (FunctionSig.ofInputs "f" [.int, .int, .int] .int).withRequired 1]

/-- A spare argument decides between two overloads and is dropped with the choice, so that the next
deduction chooses the other one. This is so for a call whose argument is replaced, and for one as it
was created. -/
theorem spare_argument_flips_overload
    : (((replacedArgument flippingOverloads).deduce 3).node 3).overload = some 0
      ∧ ((((replacedArgument flippingOverloads).deduce 3).deduce 3).node 3).overload = some 1
      ∧ ((replacedArgument flippingOverloads).deduce 3).type 3 = .scalarOf .float
      ∧ (((replacedArgument flippingOverloads).deduce 3).deduce 3).type 3 = .scalarOf .int
      ∧ ((callArguments.pushCall flippingOverloads [0, 2]).node 3).overload = some 0
      ∧ (((callArguments.pushCall flippingOverloads [0, 2]).deduce 3).node 3).overload
        = some 1 := by
  decide

end StreamExpr
