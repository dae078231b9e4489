import StreamExpr.Proofs.FoldedGraph
import StreamExpr.Proofs.Unchanged

/-! Shared graphs.
Sharing leaves one node for each key and replaces nodes by others that look the same to their users.
So it keeps what the passes before it have reached, and nothing is left to share.
-/

namespace StreamExpr

/-- The value that a register word stands for. -/
def Value.ofBits? : RegisterClass → UInt32 → Option Value
  | .unknown, _ => none
  | .bool, word => some (.bool (word ≠ 0))
  | .int, word => some (.int (.ofUInt32 word))
  | .float, word => some (.float ⟨word⟩)

theorem Value.ofBits?_bits (v : Value) : ofBits? v.register v.bits = some v := by
  cases v with
  | bool b => cases b <;> rfl
  | int n => rfl
  | float x => rfl

/-- Loose typing with nothing left to lower or to fold. Operands are replaced by others that look
the same. -/
def Discipline.quiet (ops : FloatOps) (broad : Prop) : Discipline where
  Tidies := True
  Allows g n := (Discipline.loose broad True).Allows g n ∧ Folding.isQuiet ops g n = true
  Serves := Eq
  refl _ := rfl
  trans := .trans
  kept {g h n m} allowed outline serves := by
    have faces : m.children.map h.face = n.children.map g.face := List.forall₂_eq_eq_eq ▸ serves
    exact ⟨(Discipline.loose broad True).kept allowed.1 outline (State.serves_of_eq faces),
      Folding.isQuiet_kept outline faces allowed.2⟩

namespace Sharing

variable {g : Graph} {n m : Node} {key : Key}

/-- Streams and constants are of the scalar type that they state. -/
theorem type_terminal (loose : g.Loose n)
    : (∀ {value}, n.kind = .constant value → n.type = .scalarOf value.register)
      ∧ ∀ {decl}, n.kind = .input decl → n.type = decl.type := by
  refine ⟨fun {value} kind => ?_, fun {decl} kind => ?_⟩
  · have width := loose.scalar (by rw [kind]; rfl)
    exact DataType.ext (loose.register_constant kind).symm width
  · have width := loose.scalar (by rw [kind]; rfl)
    have isInput : n.narrowed.kind = .input decl := kind
    have narrowed := (loose.sound (by rw [kind]; rfl)).type_input isInput
    rwa [Node.narrowed, DataType.scalar_eq_self width] at narrowed

/-- What the users of a node with some key see of it. -/
def Key.face (g : Graph) : Key → Face
  | .constant register bits => ⟨.scalarOf register, Value.ofBits? register bits⟩
  | .input decl => ⟨decl.type, none⟩
  | .unary _ type _ | .binary _ type _ _ | .ternary _ type _ _ _ | .call _ type
    _ | .construct type _ => ⟨type, none⟩
  | .swizzle operand selection => ⟨(g.type operand).withWidth selection.count, none⟩

theorem face_of_key (loose : g.Loose n) (found : key? n = some key)
    : ⟨n.type, n.value?⟩ = key.face g := by
  obtain ⟨constants, inputs⟩ := type_terminal loose
  have selected {x selection} (kind : n.kind = .swizzle x selection) := loose.selected kind
  rw [key?.eq_def] at found
  rw [Node.value?]
  cases kind : n.kind <;> simp only [kind, reduceCtorEq] at found ⊢
  case constant value =>
    obtain rfl := Option.some.inj found
    rw [constants kind, Key.face, Value.ofBits?_bits]
  case input decl =>
    obtain rfl := Option.some.inj found
    rw [inputs kind, Key.face]
  case call =>
    obtain ⟨f, _, rfl⟩ := Option.map_eq_some_iff.mp found
    rfl
  case swizzle x selection =>
    obtain rfl := Option.some.inj found
    rw [selected kind, Key.face]
  case binary op x y =>
    split at found <;> obtain rfl := Option.some.inj found <;> rfl
  all_goals
    obtain rfl := Option.some.inj found
    rfl

/-- Outputs have no key. -/
theorem isValue_of_key (found : key? n = some key) : n.isOutput = false := by
  rw [key?.eq_def] at found
  rw [Node.isOutput]
  cases kind : n.kind <;> simp only [kind, reduceCtorEq] at found ⊢

/-- The finished nodes with keys stand for them. -/
def ledger : Ledger Table where
  Holds table g done :=
    (∀ {key id}, table.find? key = some id → id ∈ done ∧ key? (g.node id) = some key)
    ∧ ∀ id ∈ done, ∀ {key}, key? (g.node id) = some key → table.find? key = some id
  congr {table g h done} _ same holds := by
    refine ⟨fun {key id} found => ?_, fun id isDone key found => ?_⟩
    · obtain ⟨isDone, own⟩ := holds.1 found
      exact ⟨isDone, (same id isDone).symm ▸ own⟩
    · rw [same id isDone] at found
      exact holds.2 id isDone found

/-- What stands for a key has it, also when a node is entered for its own. -/
theorem holds_insert {table : Table} {done : List NodeId} {id : NodeId}
    (holds : ledger.Holds table g done) (undone : id ∉ done) (own : key? (g.node id) = some key)
    (missing : table.find? key = none)
    : ledger.Holds (table.insert key id) g (id :: done) := by
  refine ⟨fun {other entered} found => ?_, fun entered member other found => ?_⟩
  · rw [Table.find?_insert] at found
    split at found
    case isTrue same =>
      subst same
      obtain rfl := Option.some.inj found
      exact ⟨List.mem_cons_self, own⟩
    case isFalse => exact (holds.1 found).imp_left (List.mem_cons_of_mem id)
  · rw [Table.find?_insert]
    rcases List.mem_cons.mp member with rfl | isDone
    · rw [if_pos (Option.some.inj (found.symm.trans own))]
    · have stands := holds.2 entered isDone found
      have differs : other ≠ key := by
        rintro rfl
        cases missing.symm.trans stands
      rw [if_neg differs]
      exact stands

variable {D : Discipline}

theorem step_of_key (g : Graph) (id : NodeId) (table : Table)
    : step id ⟨g, table⟩
      = match key? (g.node id) with
        | none => .ok id ⟨g, table⟩
        | some key =>
            match table.find? key with
            | some shared => .ok shared ⟨g, table⟩
            | none => .ok id ⟨g, table.insert key id⟩ := by
  change (match key? (g.node id) with
    | none => pure id
    | some key => _ : PassM Table NodeId) ⟨g, table⟩ = _
  cases found : key? (g.node id) with
  | none => rfl
  | some key =>
      simp only
      change (match table.find? key with
        | some shared => pure shared
        | none => _ : PassM Table NodeId) ⟨g, table⟩ = _
      cases table.find? key <;> rfl

/-- Sharing yields the node that stands for a key. -/
theorem runs_step (loose : ∀ {g n}, D.Allows g n → g.Loose n) {fails : Prop} {s : Draft D ledger}
    {id : NodeId} (isLive : s.live id) (unretired : ¬ s.retired id)
    (operands : ∀ child ∈ s.graph.children id, child ∈ s.done)
    : (Draft.invariant D ledger).Runs fails s (step id) (s.Yields id) := by
  by_cases isDone : id ∈ s.done
  · -- A finished node with a key stands for it.
    refine .of_ok (t := s) ?_ (.refl s) (Draft.yields_self isLive isDone)
    change step id ⟨s.graph, s.memory⟩ = .ok id ⟨s.graph, s.memory⟩
    rw [step_of_key]
    cases own : key? (s.graph.node id) with
    | none => rfl
    | some key => simp only [s.holds.2 id isDone own]
  cases own : key? (s.graph.node id) with
  | none =>
      -- A node without a key is finished as it is, and takes no part in the table.
      have holds : ledger.Holds s.memory s.graph (id :: s.done) := by
        refine ⟨fun found => (s.holds.1 found).imp_left (List.mem_cons_of_mem id),
          fun other member key found => ?_⟩
        rcases List.mem_cons.mp member with rfl | before
        · cases own.symm.trans found
        · exact s.holds.2 other before found
      refine .of_ok (t := s.finish isLive isDone unretired operands holds) ?_ (s.finish_later ..)
        (Draft.yields_finish isLive isDone unretired operands holds)
      change step id ⟨s.graph, s.memory⟩ = .ok id ⟨s.graph, s.memory⟩
      rw [step_of_key, own]
  | some key =>
      cases stands : s.memory.find? key with
      | none =>
          have holds := holds_insert s.holds isDone own stands
          refine .of_ok (t := s.finish isLive isDone unretired operands holds) ?_
            (s.finish_later ..) (Draft.yields_finish isLive isDone unretired operands holds)
          change step id ⟨s.graph, s.memory⟩ = .ok id ⟨s.graph, s.memory.insert key id⟩
          rw [step_of_key, own]
          simp only [stands]
      | some shared =>
          -- The node that holds the key is finished and looks like this one, which retires.
          obtain ⟨sharedDone, sharedKey⟩ := s.holds.1 stands
          have sharedLive := s.doneLive shared sharedDone
          have isValue : s.graph.isOutput id = false := isValue_of_key own
          have faces : s.graph.face shared = s.graph.face id :=
            (face_of_key (loose (s.allowed sharedLive)) sharedKey).trans
              (face_of_key (loose (s.allowed isLive)) own).symm
          have replaces : s.toState.Stands id shared :=
            ⟨isLive, sharedLive, faces ▸ D.refl _, fun _ _ => isValue_of_key sharedKey,
              fun isOutput =>
              (Bool.false_ne_true (isValue.symm.trans isOutput)).elim⟩
          refine .of_ok (t := s.retire isLive isDone isValue) ?_ (s.retire_later ..)
            (Draft.yields_retire isLive isDone isValue replaces sharedDone (.refl _)
            (fun before => before) isValue)
          change step id ⟨s.graph, s.memory⟩ = .ok shared ⟨s.graph, s.memory⟩
          rw [step_of_key, own]
          simp only [stands]

end Sharing

/-- No two reachable nodes have the same key. -/
def Graph.Shared (g : Graph) : Prop :=
  ∀ {id other key}, g.Reachable id → g.Reachable other → Sharing.key? (g.node id) = some key →
    Sharing.key? (g.node other) = some key → id = other

/-- Sharing a graph in good order leaves one in which nothing is left to share. -/
theorem sharing_orders {D : Discipline} {g : Graph} (loose : ∀ {g n}, D.Allows g n → g.Loose n)
    (tidies : D.Tidies) (orders : g.Orders D)
    : ∃ h, Compiler.sharing g = .ok () h ∧ h.Orders D ∧ g.Keeps h ∧ h.Shared := by
  have nothing : Sharing.ledger.Holds .empty g [] :=
    ⟨fun {key id} found => (by cases (Sharing.Table.find?_empty key).symm.trans found),
      fun _ member => (List.not_mem_nil member).elim⟩
  obtain ⟨t, ran, ordersNext, keeps, finished⟩ :=
    Draft.exists_completed (Draft.completes (Sharing.runs_step loose)) tidies orders nothing
  refine ⟨t.graph, ?_, ordersNext, keeps,
    fun {id other key} reachable otherReachable own same => ?_⟩
  · rw [Compiler.sharing, ran]
  · have stands := t.holds.2 id (finished id reachable) own
    exact Option.some.inj (stands.symm.trans (t.holds.2 other (finished other otherReachable) same))

end StreamExpr
