import StreamExpr.Proofs.Overloads
import StreamExpr.Proofs.ScalarMeaning

/-! Register classes of values.
An operator has values only on operands for which its table has an entry, and that entry tells the
class of the value. So in a well-typed graph every value has the class of its node.
-/

namespace StreamExpr

/-! ## Operator tables -/

theorem UnaryOp.signature_of_eval? {ops : FloatOps} {op : UnaryOp} {x v : Value}
    {target : RegisterClass} (proper : op ≠ .typeConversion)
    (evaluates : op.eval? ops x target = some v)
    : ⟨v.register, [x.register]⟩ ∈ op.signatures := by
  rw [eval?.eq_def, if_neg proper] at evaluates
  cases x <;> obtain ⟨y, found, rfl⟩ := Option.map_eq_some_iff.mp evaluates <;>
    cases op <;> simp only [evalFloat?, evalInt?, evalBool?, reduceCtorEq] at found <;>
      simp [signatures, Signature.closed, Value.register]

theorem BinaryOp.signature_of_eval? {ops : FloatOps} {op : BinaryOp} {x y v : Value}
    (evaluates : op.eval? ops x y = some v)
    : ⟨v.register, [x.register, y.register]⟩ ∈ op.signatures := by
  cases x <;> cases y <;> cases op <;>
    simp only [eval?, evalFloat?, evalInt?, evalBool?, reduceCtorEq] at evaluates <;>
      (repeat' split at evaluates) <;> cases evaluates <;>
        simp [signatures, Signature.closed, Signature.comparing, Value.register]

theorem TernaryOp.signature_of_eval? {ops : FloatOps} {op : TernaryOp} {x y z v : Value}
    (same : y.register = z.register) (evaluates : op.eval? ops x y z = some v)
    : ⟨v.register, [x.register, y.register, z.register]⟩ ∈ op.signatures := by
  have chosen (condition : Bool) : (if condition then y else z).register = z.register := by
    cases condition
    · rfl
    · exact same
  cases x <;> cases y <;> cases z <;> cases same <;> cases op <;>
    simp only [eval?, reduceCtorEq] at evaluates <;> cases evaluates <;>
      simp [signatures, Signature.closed, Signature.choosing, chosen] <;> simp [Value.register]

/-! ## Operators on scalars -/

/-- The table of an operator that applies to scalars of certain classes. -/
def NodeKind.signatures? : NodeKind → Option (List Signature)
  | .unary op _ => if op = .typeConversion then none else some op.signatures
  | .binary op _ _ => if op = .cross then none else some op.signatures
  | .ternary op _ _ _ => some op.signatures
  | _ => none

theorem NodeKind.signatures?_unary {op : UnaryOp} {x : NodeId} {table : List Signature}
    : (NodeKind.unary op x).signatures? = some table ↔ op ≠ .typeConversion
      ∧ op.signatures = table := by
  rw [signatures?, Option.ite_none_left_eq_some, Option.some.injEq]

theorem NodeKind.signatures?_binary {op : BinaryOp} {x y : NodeId} {table : List Signature}
    : (NodeKind.binary op x y).signatures? = some table ↔ op ≠ .cross ∧ op.signatures = table := by
  rw [signatures?, Option.ite_none_left_eq_some, Option.some.injEq]

theorem NodeKind.regular {kind : NodeKind} {table : List Signature}
    (found : kind.signatures? = some table)
    : Signature.Regular kind.children.length table := by
  cases kind with
  | unary op _ =>
      exact (signatures?_unary.mp found).2 ▸ op.regular
  | binary op _ _ =>
      exact (signatures?_binary.mp found).2 ▸ op.regular
  | ternary op _ _ _ =>
      obtain rfl := Option.some.inj found
      exact op.regular
  | _ => cases found

theorem NodeKind.overloads_of_signatures? {kind : NodeKind} {table : List Signature}
    (found : kind.signatures? = some table)
    : kind.inputs? = some (table.map Signature.arguments)
      ∧ kind.resolve? = resolveOperator? table
      ∧ kind.resultAt = Signature.resultAt table := by
  cases kind with
  | unary op _ =>
      obtain ⟨proper, rfl⟩ := signatures?_unary.mp found
      exact ⟨if_neg proper, rfl, rfl⟩
  | binary op _ _ =>
      obtain ⟨_, rfl⟩ := signatures?_binary.mp found
      exact ⟨rfl, rfl, rfl⟩
  | ternary op _ _ _ =>
      obtain rfl := Option.some.inj found
      exact ⟨rfl, rfl, rfl⟩
  | _ => cases found

/-- The classes of some operands are those of an entry of a table, and they select it. -/
structure Signature.Selects (table : List Signature) (operands : List RegisterClass) (i : Nat)
    (r : RegisterClass)
    : Prop where
  resolved : resolveOperator? table operands = some i
  entry : table[i]? = some ⟨r, operands⟩

/-- Operands of the classes of an entry select it. -/
theorem NodeKind.selects_of_mem {kind : NodeKind} {table : List Signature}
    {operands : List RegisterClass} {r : RegisterClass} (found : kind.signatures? = some table)
    (entry : ⟨r, operands⟩ ∈ table)
    : ∃ i, Signature.Selects table operands i r := by
  obtain ⟨i, inside, atEntry⟩ := List.getElem_of_mem entry
  have isEntry := List.getElem?_eq_some_iff.mpr ⟨inside, atEntry⟩
  exact ⟨i, (regular found i inside _ isEntry).1, isEntry⟩

namespace Graph

variable {g : Graph} {n : Node} {table : List Signature}

/-- The operands of an operator of known type have the classes of the entry that they select, if
they have those that its overload asks for. Witness: the type is known, so an entry was selected. -/
theorem selects_of_classes (found : n.kind.signatures? = some table) (known : n.type.isKnown = true)
    (inferred : g.infer n = (n.type, n.overload))
    (classes : ∀ {slot child r}, n.children[slot]? = some child →
      (n.overload.bind (table[·]?)).map (·.argument slot) = some r → r.isKnown = true
      → g.register child = r)
    : ∃ i, n.overload = some i ∧ Signature.Selects table
      (n.children.map g.register) i n.register := by
  obtain ⟨overloads, resolves, results⟩ := NodeKind.overloads_of_signatures? found
  obtain ⟨i, _, overload, resolved, _, register, _⟩ := overloaded overloads known inferred
  rw [resolves] at resolved
  rw [results, Signature.resultAt] at register
  cases entry : table[i]? with
  | none =>
      rw [entry] at register
      rw [DataType.isKnown, ← Node.register, register] at known
      cases known
  | some signature =>
      rw [entry] at register
      have inside := (List.getElem?_eq_some_iff.mp entry).1
      obtain ⟨_, count, knownArguments, _⟩ := NodeKind.regular found i inside signature entry
      have arguments : n.children.map g.register = signature.arguments := by
        refine List.ext_getElem (by rw [count, List.length_map]; rfl) fun slot _ within => ?_
        have isOperand : slot < n.children.length := count ▸ within
        rw [List.getElem_map]
        refine classes (List.getElem?_eq_getElem isOperand) ?_
          (knownArguments _ (List.getElem_mem within))
        rw [overload, Option.bind_some, entry, Option.map_some, Signature.argument,
          List.getD_eq_getElem?_getD, List.getElem?_eq_getElem within]
        rfl
      refine ⟨i, overload, resolved, ?_⟩
      rw [entry, arguments, register]
      rfl

/-- The type of a new operator depends on its kind only. -/
theorem kind_deduced {kind : NodeKind} (found : kind.signatures? = some table)
    : (g.deduced (.ofKind kind .unknown)).kind = kind := by
  cases kind <;> first | rfl | cases found

/-- The class that an operator asks of an operand is the one of its entry. -/
theorem expected?_signatures {id : NodeId} (found : (g.node id).kind.signatures? = some table)
    (slot : Nat)
    : g.expected? id slot = ((g.node id).overload.bind (table[·]?)).map (·.argument slot) := by
  rw [expected?.eq_def]
  generalize g.node id = n at found ⊢
  obtain ⟨kind, type, overload⟩ := n
  cases kind with
  | unary op x =>
      obtain ⟨proper, rfl⟩ := NodeKind.signatures?_unary.mp found
      cases op with
      | typeConversion => exact (proper rfl).elim
      | _ => rfl
  | binary op x y =>
      obtain ⟨_, rfl⟩ := NodeKind.signatures?_binary.mp found
      rfl
  | ternary op x y z =>
      obtain rfl := Option.some.inj found
      rfl
  | _ => cases found

/-- The classes of a typed operator and its operands are an entry of its table. -/
theorem TypedAt.signature {id : NodeId} (typed : g.TypedAt id)
    (found : (g.node id).kind.signatures? = some table)
    : ⟨g.register id, (g.children id).map g.register⟩ ∈ table := by
  obtain ⟨known, inferred, asked⟩ := typed
  obtain ⟨_, _, selects⟩ := selects_of_classes found known inferred fun {slot child r} atSlot asks
    isKnown =>
    asked slot (List.getElem?_eq_some_iff.mp atSlot).1 child atSlot r
      ((expected?_signatures found slot).trans asks) isKnown
  exact List.mem_of_getElem? selects.entry

end Graph

/-! ## Classes of values -/

section Classes

variable {env : Environment} {n : Node} {table : List Signature} {operands : List Value} {v : Value}

/-- The value of an operator on scalars is of the class of the entry for its operands. The branches
of a choice have to be of one class. -/
theorem Node.signature_of_result? (found : n.kind.signatures? = some table)
    (alike : ∀ y z, operands[1]? = some y → operands[2]? = some z → y.register = z.register)
    (result : n.result? env operands = some v)
    : ⟨v.register, operands.map Value.register⟩ ∈ table := by
  obtain ⟨kind, type, overload⟩ := n
  cases kind with
  | unary op x =>
      obtain ⟨proper, rfl⟩ := NodeKind.signatures?_unary.mp found
      rcases operands with _ | ⟨x, _ | ⟨y, operands⟩⟩
      · cases result
      · exact UnaryOp.signature_of_eval? proper result
      · cases result
  | binary op x y =>
      obtain ⟨_, rfl⟩ := NodeKind.signatures?_binary.mp found
      rcases operands with _ | ⟨x, _ | ⟨y, _ | ⟨z, operands⟩⟩⟩
      · cases result
      · cases result
      · exact BinaryOp.signature_of_eval? result
      · cases result
  | ternary op x y z =>
      obtain rfl := Option.some.inj found
      rcases operands with _ | ⟨x, _ | ⟨y, _ | ⟨z, _ | ⟨more, operands⟩⟩⟩⟩
      · cases result
      · cases result
      · cases result
      · exact TernaryOp.signature_of_eval? (alike y z rfl rfl) result
      · cases result
  | _ => cases found

/-- Two entries for the same operands are one. -/
theorem Signature.Regular.unique {count : Nat} (regular : Signature.Regular count table)
    {left right : Signature} (atLeft : left ∈ table) (atRight : right ∈ table)
    (same : left.arguments = right.arguments)
    : left = right := by
  obtain ⟨i, inside, rfl⟩ := List.getElem_of_mem atLeft
  obtain ⟨j, insideRight, rfl⟩ := List.getElem_of_mem atRight
  have resolved := (regular i inside _ (List.getElem?_eq_getElem inside)).1
  rw [same, (regular j insideRight _ (List.getElem?_eq_getElem insideRight)).1] at resolved
  obtain rfl := Option.some.inj resolved
  rfl

/-- The value of an operator on operands of the classes of an entry is of the class that the entry
tells. -/
theorem Node.register_of_result? {signature : Signature} (found : n.kind.signatures? = some table)
    (member : signature ∈ table) (arguments : signature.arguments = operands.map Value.register)
    (result : n.result? env operands = some v)
    : v.register = signature.result := by
  obtain ⟨i, inside, rfl⟩ := List.getElem_of_mem member
  obtain ⟨_, _, _, branches⟩ := NodeKind.regular found i inside _ (List.getElem?_eq_getElem inside)
  have alike (y z : Value) (atSecond : operands[1]? = some y) (atThird : operands[2]? = some z) :
      y.register = z.register := by
    refine branches _ ?_ _ ?_ <;> rw [arguments, List.getElem?_map]
    · rw [atSecond]; rfl
    · rw [atThird]; rfl
  rw [(NodeKind.regular found).unique member
    (Node.signature_of_result? found alike result) arguments]

theorem map_register_eq {g : Graph} {ids : List NodeId}
    (classes : List.Forall₂ (fun child x => x.register = g.register child) ids operands)
    : ids.map g.register = operands.map Value.register := by
  have related : List.Forall₂ Eq (ids.map g.register) (operands.map Value.register) := by
    rw [List.forall₂_map_left_iff, List.forall₂_map_right_iff]
    exact classes.imp fun _ _ same => same.symm
  rwa [List.forall₂_eq_eq_eq] at related

theorem BinaryOp.eval?_cross {ops : FloatOps} {x y : Value} : cross.eval? ops x y = none := by
  cases x <;> cases y <;> rfl

end Classes

/-- A call has the class that its function answers. -/
theorem Graph.output_of_call {g : Graph} {n : Node} {candidates : List FunctionSig}
    {arguments : List NodeId} {f : FunctionSig} (kind : n.kind = .call candidates arguments)
    (known : n.type.isKnown = true) (inferred : g.infer n = (n.type, n.overload))
    (function : n.function? = some f)
    : f.output = n.register := by
  obtain ⟨i, _, overload, _, _, register, _⟩ := overloaded (by rw [kind]; rfl) known inferred
  simp only [Node.function?, kind, overload, Option.bind_some] at function
  rw [register, kind, NodeKind.resultAt, function]
  rfl

/-- In a well-typed graph every value has the class of its node. Witness: induction on the
value; operands have the classes that the node asks for, which tell the class of its result. -/
theorem Graph.WellTyped.register_of_has {g : Graph} {env : Environment} (typed : g.WellTyped)
    (respectful : env.Respectful) {id : NodeId} {v : Value} (reachable : g.Reachable id)
    (has : g.Has env.meaning id v)
    : v.register = g.register id := by
  induction has using Evaluates.induct with
  | step id operands v values result =>
      have classes : List.Forall₂ (fun child x => x.register = g.register child) (g.children id)
          operands := by
        refine List.forall₂_iff_zip.mpr ⟨values.length_eq, fun {child x} paired => ?_⟩
        obtain ⟨_, holds⟩ := (List.forall₂_iff_zip.mp values).2 paired
        exact holds (reachable.operand (List.of_mem_zip paired).1)
      have typedAt := typed id reachable
      cases found : (g.node id).kind.signatures? with
      | some table =>
          exact Node.register_of_result? found (typedAt.signature found)
            (map_register_eq classes) result
      | none =>
          obtain ⟨known, inferred, asked⟩ := typedAt
          have type : (g.infer (g.node id)).1 = g.type id := congrArg Prod.fst inferred
          cases kind : (g.node id).kind with
          | constant value =>
              simp only [Environment.meaning, Node.result?, kind, Option.some.injEq] at result
              rw [infer.eq_def, kind] at type
              exact result ▸ congrArg DataType.register type
          | input decl =>
              simp only [Environment.meaning, Node.result?, kind, Option.some.injEq] at result
              rw [infer.eq_def, kind] at type
              have declared : decl.register = g.register id := congrArg DataType.register type
              rw [← result, respectful.stream decl (declared ▸ known), declared]
          | output decl expression =>
              have only : g.children id = [expression] := congrArg NodeKind.children kind
              rw [only] at classes
              cases classes with | cons first classes =>
              cases classes
              simp only [Environment.meaning, Node.result?, kind, Option.some.injEq] at result
              rw [← result, first]
              refine asked 0 (by simp [only]) expression (by simp [only]) _ ?_ known
              simp only [expected?, kind]
              rfl
          | unary op operand =>
              simp only [kind, NodeKind.signatures?, ite_eq_left_iff, reduceCtorEq, imp_false,
                not_not] at found
              have only : g.children id = [operand] := congrArg NodeKind.children kind
              rw [only] at classes
              cases classes with | cons first classes =>
              cases classes
              simp only [Environment.meaning, Node.result?, kind, found, UnaryOp.eval?,
                if_true] at result
              exact Value.register_of_convert? result
          | binary op left right =>
              simp only [kind, NodeKind.signatures?, ite_eq_left_iff, reduceCtorEq, imp_false,
                not_not] at found
              have both : g.children id = [left, right] := congrArg NodeKind.children kind
              rw [both] at classes
              cases classes with | cons first classes =>
              cases classes with | cons second classes =>
              cases classes
              simp only [Environment.meaning, Node.result?, kind, found] at result
              cases BinaryOp.eval?_cross.symm.trans result
          | call candidates arguments =>
              simp only [Environment.meaning, Node.result?, kind] at result
              obtain ⟨f, function, rfl⟩ := Option.map_eq_some_iff.mp result
              have answers : f.output = g.register id := output_of_call kind known inferred function
              rw [respectful.call f operands (answers ▸ known), answers]
          | ternary _ _ _ _ => simp [kind, NodeKind.signatures?] at found
          | construct _ | swizzle _ _ => simp [Environment.meaning, Node.result?, kind] at result

end StreamExpr
