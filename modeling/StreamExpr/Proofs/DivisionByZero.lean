import StreamExpr.Proofs.OutlookRules

/-! Divisions by zero in graphs that are folded and lowered.
An operand is dropped along with the divisions in it where it is a factor beside a constant zero, or
a branch that a constant passes over. Where nothing on the way to a division by zero can be such a
constant, the division stays.
-/

namespace StreamExpr

/-! ## Outlooks of nodes -/

/-- Typed scalars that are integers or truth values. -/
def Discipline.discrete : Discipline :=
  .typed fun type => type.register = .int ∨ type.register = .bool

theorem Graph.Obeys.register_ne_float {g : Graph} {id : NodeId} (obeys : g.Obeys .discrete)
    (reachable : g.Reachable id)
    : g.register id ≠ .float := by
  rcases (obeys.allowed reachable).2.2 with isInt | isBool
  · exact fun isFloat => by cases isFloat.symm.trans isInt
  · exact fun isFloat => by cases isFloat.symm.trans isBool

namespace Outlook

variable {env : Environment} {respectful : env.Respectful} {g : Graph} {id : NodeId}
    {x : Outlook env} {peer : env.Peer}
  {v : Value}

theorem exists_has (obeys : g.Obeys .discrete) (reachable : g.Reachable id)
    : ∃ x, g.Has (algebra respectful).meaning id x := by
  refine (g.valuation (algebra respectful) strictMono_id obeys.acyclic obeys.inside).induction
    (P := fun id => ∃ x, g.Has (algebra respectful).meaning id x) (fun {id} _ ih => ?_) reachable
  obtain ⟨xs, outlooks⟩ := exists_forall₂ ih
  exact ⟨_, .intro outlooks rfl⟩

/-- A value that an outlook has is that of the node. -/
theorem has_of_value (has : g.Has (algebra respectful).meaning id x) (atPeer : x.value peer v)
    : g.Has peer.other.meaning id v := by
  induction has using Graph.Evaluates.induct generalizing v with
  | step id operands x outlooks result =>
      obtain rfl := Option.some.inj result
      obtain ⟨_, _, values, atOperands, made⟩ := atPeer
      refine .intro (forall₂_comp (fun holds atValue => ?_) outlooks atOperands) made
      obtain ⟨_, holds⟩ := holds
      exact holds atValue

/-- The constants that tell their class are those that powers are unrolled for. -/
theorem tells_int (has : g.Has (algebra respectful).meaning id x)
    : x.tells .int ↔ ∃ m, g.value? id = some (.int m) ∧ 0 ≤ m ∧ m ≤ 16 := by
  obtain ⟨xs, _, made⟩ := has.operands
  obtain rfl := Option.some.inj made
  change told (g.node id) xs .int ↔ _
  rw [told, Graph.value?, Node.value?]
  cases (g.node id).kind with
  | constant c =>
      constructor
      · rintro ⟨_, impossible | ⟨m, rfl, small⟩⟩
        · cases impossible
        · exact ⟨m, rfl, small⟩
      · rintro ⟨m, same, small⟩
        obtain rfl := Option.some.inj same
        exact ⟨rfl, .inr ⟨m, rfl, small⟩⟩
  | _ => simp

/-- The exponent of a power tells its class if the power is unrolled. -/
theorem exponent_of_has {xs : List (Outlook env)} {a b : NodeId}
    (kind : (g.node id).kind = .binary .pow a b)
    (outlooks : List.Forall₂ (g.Has (algebra respectful).meaning) (g.children id) xs)
    : (∃ y, xs[1]? = some y ∧ y.tells .int) ↔ ∃ m, g.value? b = some (.int m) ∧ 0 ≤ m ∧ m ≤ 16 := by
  rw [Graph.children, Node.children, kind] at outlooks
  cases outlooks with | cons _ outlooks =>
  cases outlooks with | cons has _ => simpa using tells_int has

/-- Outlooks are of the classes of their nodes. -/
theorem classed_of_has (obeys : g.Obeys .discrete) (reachable : g.Reachable id)
    (has : g.Has (algebra respectful).meaning id x)
    : (algebra respectful).Classed x (g.register id) := by
  refine ⟨fun {peer _} atPeer => obeys.wellTyped.register_of_has peer.respectful reachable
    (has_of_value has atPeer), ?_⟩
  induction has using Graph.Evaluates.induct with
  | step id operands x outlooks result =>
      obtain rfl := Option.some.inj result
      intro r isTold
      change told (g.node id) operands r at isTold
      rw [told] at isTold
      split at isTold
      next c kind =>
        have found : g.value? id = some c := by rw [Graph.value?, Node.value?, kind]
        exact isTold.1.symm.trans ((obeys.allowed reachable).1.register_value found)
      · obtain ⟨rfl, x, member, ⟨_, isFloat⟩ | ⟨_, isFloat, _⟩⟩ := isTold
        · obtain ⟨slot, atSlot⟩ := List.mem_iff_getElem?.mp member
          obtain ⟨child, atChild, _, holds⟩ := exists_of_forall₂ outlooks.flip atSlot
          have below := reachable.operand (List.mem_of_getElem? atChild)
          exact (obeys.register_ne_float below (holds below isFloat).symm).elim
        · exact isFloat.symm
      · exact isTold.elim

/-- Of the integers and truth values, only powers are not lowered exactly. -/
theorem power_of_inexact (obeys : g.Obeys .discrete) (reachable : g.Reachable id)
    (inexactly : ¬ g.lowersExactly id = true)
    : ∃ a b, (g.node id).kind = .binary .pow a b ∧ ¬ ∃ m,
      g.value? b = some (.int m) ∧ 0 ≤ m ∧ m ≤ 16 := by
  have own : g.register id = .int ∨ g.register id = .bool := (obeys.allowed reachable).2.2
  have entry {table} (known : (g.node id).kind.signatures? = some table) :
      ∃ signature ∈ table, signature.result = g.register id :=
    ⟨_, (obeys.wellTyped id reachable).signature known, rfl⟩
  rw [Graph.lowersExactly] at inexactly
  generalize g.register id = r at own entry inexactly
  cases kind : (g.node id).kind with
  | unary op a =>
      rw [kind] at inexactly entry
      rcases own with rfl | rfl <;> cases op <;>
        first | exact (inexactly rfl).elim | exact absurd (entry rfl) (by decide)
  | binary op a b =>
      rw [kind] at inexactly entry
      cases op with
      | pow =>
          rcases own with rfl | rfl
          · refine ⟨a, b, rfl, ?_⟩
            rintro ⟨m, found, small⟩
            simp [found, small] at inexactly
          · exact absurd (entry rfl) (by decide)
      | _ =>
          rcases own with rfl | rfl <;>
            first | exact (inexactly rfl).elim | exact absurd (entry rfl) (by decide)
  | _ =>
      rw [kind] at inexactly
      exact (inexactly rfl).elim

theorem handles (obeys : g.Obeys .discrete) (reachable : g.Reachable id)
    : Lowering.Handles (algebra respectful) g (g.valueOf? (algebra respectful).meaning) id := by
  by_cases exactly : g.lowersExactly id = true
  · exact .inr (.inl ⟨loweringLaws respectful, exactly⟩)
  obtain ⟨a, b, kind, inexactly⟩ := power_of_inexact obeys reachable exactly
  refine .inr (.inr ⟨coarsens respectful, fun found => ⟨?_, a, b, kind⟩⟩)
  obtain ⟨xs, outlooks, made⟩ := (Graph.valueOf?_eq_some.mp found).operands
  obtain rfl := Option.some.inj made
  refine coarse (fun found => ?_) fun isTold => ?_
  · exact inexactly ((exponent_of_has kind outlooks).mp (found.2.1 (by rw [kind]; rfl)))
  · change told (g.node id) xs _ at isTold
    rw [told, kind] at isTold
    exact isTold

/-- An outlook has all values of a node in a graph without floats. -/
theorem value_of_has (obeys : g.Obeys .discrete) (reachable : g.Reachable id) (steady : g.Steady id)
    (has : g.Has (algebra respectful).meaning id x) (hasValue : g.Has peer.other.meaning id v)
    : x.value peer v := by
  induction hasValue using Graph.Evaluates.induct generalizing x with
  | step id operands v values result =>
      obtain ⟨xs, outlooks, made⟩ := has.operands
      obtain rfl := Option.some.inj made
      refine ⟨?_, fun isPower => ?_, operands, ?_, result⟩
      · rw [obeys.wellTyped.register_of_has peer.respectful reachable
          (.intro (values.imp fun _ _ => Exists.fst) result)]
        exact obeys.register_ne_float reachable
      · cases kind : (g.node id).kind with
        | binary op a b =>
            rw [kind] at isPower
            obtain rfl := Option.some.inj isPower
            exact (exponent_of_has kind outlooks).mpr (steady id .refl kind)
        | _ =>
            rw [kind] at isPower
            cases isPower
      · have among := (List.forall₂_and_left _ _).mpr ⟨fun _ uses => uses, values⟩
        refine forall₂_comp (fun {y child u} has holds => ?_) outlooks.flip among
        obtain ⟨uses, _, holds⟩ := holds
        exact holds (reachable.operand uses) (fun below path => steady below (.head uses path)) has

theorem escapes_of_can {drops : Value → Bool} (obeys : g.Obeys .discrete)
    (reachable : g.Reachable id) (has : g.Has (algebra respectful).meaning id x)
    (can : g.Can env id (drops · = false))
    : x.Escapes drops := by
  obtain ⟨steady, peer, v, hasValue, keeps⟩ := can
  exact .inr (.inl ⟨peer, v, value_of_has obeys reachable steady has hasValue, keeps⟩)

/-- The outlook of a node that falters does, too. -/
theorem falters_of_falters (obeys : g.Obeys .discrete) (reachable : g.Reachable id)
    (has : g.Has (algebra respectful).meaning id x) (falters : g.Falters env id)
    : x.falters := by
  have divisor {op : BinaryOp} {id left right : NodeId} {xs : List (Outlook env)}
      (reachable : g.Reachable id) (outlooks : List.Forall₂ (g.Has (algebra respectful).meaning)
      (g.children id) xs) (kind : (g.node id).kind = .binary op left right) :
      ∃ y, xs[1]? = some y ∧ g.Has (algebra respectful).meaning right y ∧ g.Reachable right := by
    have atRight : (g.children id)[1]? = some right := by
      rw [Graph.children, Node.children, kind]
      rfl
    obtain ⟨y, atY, has⟩ := exists_of_forall₂ outlooks atRight
    exact ⟨y, atY, has, reachable.operand (List.mem_of_getElem? atRight)⟩
  induction falters generalizing x with
  | divide kind steady zero =>
      obtain ⟨xs, outlooks, made⟩ := has.operands
      obtain rfl := Option.some.inj made
      obtain ⟨y, atY, has, reachable⟩ := divisor reachable outlooks kind
      refine .inl ⟨y, atY, value_of_has obeys reachable steady has zero, .inl ?_⟩
      rw [kind]
      rfl
  | modulo kind zero varies =>
      obtain ⟨xs, outlooks, made⟩ := has.operands
      obtain rfl := Option.some.inj made
      obtain ⟨y, atY, has, reachable⟩ := divisor reachable outlooks kind
      obtain ⟨steady, peer, v, hasValue, differs⟩ := varies
      refine .inl ⟨y, atY, value_of_has obeys reachable steady has zero,
        .inr ⟨?_, peer, v, ?_, differs⟩⟩
      · rw [kind]
        rfl
      · exact value_of_has obeys reachable steady has hasValue
  | operand atSlot _ keeps ih =>
      obtain ⟨xs, outlooks, made⟩ := has.operands
      obtain rfl := Option.some.inj made
      obtain ⟨y, atY, has⟩ := exists_of_forall₂ outlooks atSlot
      refine .inr ⟨_, y, atY, ih (reachable.operand (List.mem_of_getElem? atSlot)) has,
        fun place drops found => ?_⟩
      obtain ⟨other, atPlace, can⟩ := keeps place drops found
      obtain ⟨z, atZ, has⟩ := exists_of_forall₂ outlooks atPlace
      exact ⟨z, atZ, escapes_of_can obeys
        (reachable.operand (List.mem_of_getElem? atPlace)) has can⟩
  | both atSlot _ dropper atPlace _ ih also =>
      obtain ⟨xs, outlooks, made⟩ := has.operands
      obtain rfl := Option.some.inj made
      obtain ⟨y, atY, has⟩ := exists_of_forall₂ outlooks atSlot
      refine .inr ⟨_, y, atY, ih (reachable.operand (List.mem_of_getElem? atSlot)) has,
        fun place drops found => ?_⟩
      obtain ⟨rfl, rfl⟩ := Prod.mk.inj (Option.some.inj (dropper.symm.trans found))
      obtain ⟨z, atZ, has⟩ := exists_of_forall₂ outlooks atPlace
      exact ⟨z, atZ, .inl (also (reachable.operand (List.mem_of_getElem? atPlace)) has)⟩

/-- A node whose outlook falters stands above a division by zero. -/
theorem dividesByZero_of_falters (has : g.Has (algebra respectful).meaning id x)
    (falters : x.falters)
    : g.DividesByZero env id := by
  induction has using Graph.Evaluates.induct with
  | step id operands x outlooks result =>
      obtain rfl := Option.some.inj result
      rcases falters with ⟨y, atY, zero, divides⟩ | ⟨slot, y, atSlot, falters, _⟩
      · obtain ⟨op, left, right, kind, proper⟩ : ∃ op left right,
            (g.node id).kind = .binary op left right ∧ (op = .divide ∨ op = .modulo) := by
          cases found : (g.node id).kind <;> simp_all [NodeKind.operator?]
          rcases divides with same | ⟨same, _⟩
          · exact .inl same
          · exact .inr same
        obtain ⟨child, atChild, has, _⟩ := exists_of_forall₂ outlooks.flip atY
        rw [Graph.children, Node.children, kind] at atChild
        obtain rfl := Option.some.inj atChild
        exact ⟨id, op, left, _, .refl, kind, proper, has_of_value has zero⟩
      · obtain ⟨child, atChild, _, holds⟩ := exists_of_forall₂ outlooks.flip atSlot
        exact (holds falters).of_operand (List.mem_of_getElem? atChild)

end Outlook

/-! ## Folding, lowering and folding again -/

theorem Algebra.Refines.rooted {V : Type} {A : Algebra V} {g h : Graph}
    (refines : A.Refines g h) (rooted : g.Rooted)
    : h.Rooted := by
  rw [Graph.Rooted, refines.outputs]
  exact rooted.imp_right fun outputs root isRoot =>
    (Node.isOutput_eq_of_outline (refines.outline isRoot)).trans (outputs root isRoot)

/-- Folding, lowering and folding again a well-typed graph of integers and truth values succeeds if
all roots are outputs, and an output that has a division by zero below it that nothing can drop has
one in the end. -/
theorem division_by_zero_survives {env : Environment} {g : Graph} (respectful : env.Respectful)
    (acyclic : g.Acyclic) (typed : g.WellTyped) (scalar : g.Scalar)
    (discrete : ∀ id, g.Reachable id → g.register id = .int ∨ g.register id = .bool)
    (rooted : g.Rooted)
    : ∃ folded lowered refolded,
        Compiler.folding env.arithmetic g = .ok () folded
        ∧ Compiler.lowering folded = .ok () lowered
        ∧ Compiler.folding env.arithmetic lowered = .ok () refolded
        ∧ refolded.outputs = g.outputs
        ∧ ∀ root ∈ g.outputs, g.Falters env root → refolded.DividesByZero env root := by
  have obeys : g.Obeys .discrete := typed.obeys acyclic scalar discrete
  have folds := folding_obeys env.arithmetic (Discipline.typed_follows _) obeys
  have first := folding_refines (Outlook.foldingLaws respectful) acyclic typed.lt_size
  cases isFolded : Compiler.folding env.arithmetic g with
  | error e left =>
      rw [isFolded] at folds
      exact (folds rooted).elim
  | ok _ folded =>
  rw [isFolded] at folds first
  obtain ⟨obeysFolded, rootedFolded, _⟩ := folds
  have second := lowering_refines (Outlook.grades respectful) obeysFolded.acyclic
    obeysFolded.wellTyped obeysFolded.isScalar (Outlook.classed_of_has obeysFolded)
    (Outlook.handles obeysFolded)
  cases isLowered : Compiler.lowering folded with
  | error e left =>
      rw [isLowered] at second
      exact (second rootedFolded).elim
  | ok _ lowered =>
  rw [isLowered] at second
  obtain ⟨second, acyclicLowered, inside⟩ := second
  have third := folding_refines (Outlook.foldingLaws respectful) acyclicLowered inside
  cases isRefolded : Compiler.folding env.arithmetic lowered with
  | error e left =>
      rw [isRefolded] at third
      exact (third (second.rooted rootedFolded)).elim
  | ok _ refolded =>
  rw [isRefolded] at third
  have refines := (first.trans second).trans third
  refine ⟨folded, lowered, refolded, rfl, isLowered, isRefolded, refines.outputs,
    fun root isRoot falters => ?_⟩
  obtain ⟨x, has⟩ := Outlook.exists_has obeys (.root isRoot)
  obtain ⟨y, hasNext, less⟩ := refines.has isRoot has
  have falters := Outlook.falters_of_falters obeys (.root isRoot) has falters
  exact Outlook.dividesByZero_of_falters hasNext (less.falters falters)

/-- A choice between a stream and a quotient, by a stream or by a constant. -/
def selectedQuotient (known : Bool) : Graph :=
  let int : DataType := .scalarOf .int
  let g := (Graph.empty.declareInput ⟨"c", .scalarOf .bool⟩).declareInput ⟨"a", int⟩
  let g := ((g.declareInput ⟨"b", int⟩).pushConstant (.bool true)).pushBinary .divide 1 2
  (g.pushTernary .select (if known then 3 else 0) 1 4).declareOutput ⟨"y", int⟩ 5

theorem divisor_selectedQuotient (known : Bool)
    : (selectedQuotient known).Has (Environment.ofInteger 0).meaning 2 (.int 0) :=
  .of_kind rfl .nil rfl

theorem wellTyped_selectedQuotient (known : Bool) : (selectedQuotient known).WellTyped := by
  refine Graph.wellTyped_of_lt ?_ ?_ ?_ <;> cases known <;> decide +kernel

theorem Graph.steady_of_leaf {g : Graph} {id : NodeId} (leaf : g.children id = [])
    : g.Steady id := by
  intro below path x y kind
  rcases path.cases_head with rfl | ⟨child, uses, _⟩
  · rw [Graph.children, Node.children, kind] at leaf
    cases leaf
  · rw [Graph.Uses, leaf] at uses
    cases uses

theorem division_by_zero_survives_selectedQuotient
    : (selectedQuotient false).Falters (.ofInteger 0) 6
      ∧ ∃ folded lowered refolded,
          Compiler.folding .standard (selectedQuotient false) = .ok () folded
          ∧ Compiler.lowering folded = .ok () lowered
          ∧ Compiler.folding .standard lowered = .ok () refolded
          ∧ refolded.DividesByZero (.ofInteger 0) 6 := by
  have typed := wellTyped_selectedQuotient false
  have every {P : NodeId → Prop} (all : ∀ id < (selectedQuotient false).size, P id) (id : NodeId)
      (reachable : (selectedQuotient false).Reachable id) : P id :=
    all id (typed.lt_size reachable)
  have quotient : (selectedQuotient false).Falters (.ofInteger 0) 4 :=
    .divide rfl (Graph.steady_of_leaf rfl) (divisor_selectedQuotient false)
  have choice : (selectedQuotient false).Falters (.ofInteger 0) 5 := by
    refine .operand (show ((selectedQuotient false).children 5)[2]? = some 4 from rfl) quotient
      fun place drops found => ?_
    obtain ⟨rfl, rfl⟩ := Prod.mk.inj (Option.some.inj found)
    exact ⟨0, rfl, Graph.steady_of_leaf rfl, ⟨_, Environment.ofInteger_respectful 0, rfl⟩,
      .bool false, .of_kind rfl .nil rfl, rfl⟩
  have falters : (selectedQuotient false).Falters (.ofInteger 0) 6 := by
    refine .operand (show ((selectedQuotient false).children 6)[0]? = some 5 from rfl) choice
      fun place drops found => ?_
    cases found
  obtain ⟨folded, lowered, refolded, isFolded, isLowered, isRefolded, _, divides⟩ :=
    division_by_zero_survives (Environment.ofInteger_respectful 0)
      (Graph.acyclic_of_lt (by decide +kernel)) typed (every (by decide +kernel))
      (every (by decide +kernel)) ⟨by decide, by decide⟩
  exact ⟨falters, folded, lowered, refolded, isFolded, isLowered, isRefolded,
    divides 6 (by decide) falters⟩

/-- A branch that a constant passes over is dropped with its division. -/
theorem division_by_zero_dropped_in_branch
    : (selectedQuotient true).Acyclic
      ∧ (selectedQuotient true).WellTyped
      ∧ (∀ id < (selectedQuotient true).size,
          (selectedQuotient true).type id = .scalarOf .int
          ∨ (selectedQuotient true).type id = .scalarOf .bool)
      ∧ (selectedQuotient true).DividesByZero (.ofInteger 0) 6
      ∧ ∃ folded, Compiler.folding .standard (selectedQuotient true) = .ok () folded
        ∧ ∃ lowered, Compiler.lowering folded = .ok () lowered
        ∧ ∃ refolded, Compiler.folding .standard lowered = .ok () refolded
        ∧ ¬ refolded.DividesByZero (.ofInteger 0) 6 := by
  have ran : ∃ folded, Compiler.folding .standard (selectedQuotient true) = .ok () folded
      ∧ ∃ lowered, Compiler.lowering folded = .ok () lowered
      ∧ ∃ refolded, Compiler.folding .standard lowered = .ok () refolded
      ∧ (refolded.children 6 = [1] ∧ refolded.children 1 = [])
        ∧ (refolded.node 6).kind.operator? = none ∧ (refolded.node 1).kind.operator? = none := by
    decide +kernel
  obtain ⟨folded, isFolded, lowered, isLowered, refolded, isRefolded, operands, kinds⟩ := ran
  refine ⟨Graph.acyclic_of_lt (by decide +kernel),
    wellTyped_selectedQuotient
      true, by decide +kernel,
      ⟨4, .divide, 1, 2, .head (show 5 ∈ (selectedQuotient true).children 6 by decide)
        (.single (show 4 ∈ (selectedQuotient true).children 5 by decide)), rfl, .inl rfl,
        divisor_selectedQuotient true⟩,
    folded, isFolded, lowered, isLowered, refolded, isRefolded, ?_⟩
  -- Only the other branch is left below the output.
  have below {id : NodeId} (path : Relation.ReflTransGen refolded.Uses 6 id) : id = 6 ∨ id = 1 := by
    induction path with
    | refl => exact .inl rfl
    | tail _ uses ih =>
        rcases ih with rfl | rfl
        · exact .inr (List.mem_singleton.mp (operands.1 ▸ uses))
        · rw [Graph.Uses, operands.2] at uses
          cases uses
  rintro ⟨id, op, x, y, path, kind, _⟩
  have known := congrArg NodeKind.operator? kind
  rcases below path with rfl | rfl
  · cases kinds.1.symm.trans known
  · cases kinds.2.symm.trans known

end StreamExpr
