import Mathlib.Data.Set.Card
import StreamExpr.Proofs.Meaning
import StreamExpr.Proofs.Memoization
import StreamExpr.Proofs.SharedGraph

/-! Sharing merges equal subexpressions and no others.
A node unfolds to a tree of heads. Keys name operands by their places and not by their trees, so
that equal keys tell of equal trees only because operands are replaced before their users are looked
up. No key changes after it is entered.
-/

namespace StreamExpr

namespace Sharing

/-! ## Trees -/

/-- What a node is without its operands. -/
inductive Head where
  | constant (register : RegisterClass) (bits : UInt32)
  | input (decl : StreamDecl)
  | unary (op : UnaryOp) (type : DataType)
  | binary (op : BinaryOp) (type : DataType)
  | ternary (op : TernaryOp) (type : DataType)
  | call (name : String) (type : DataType)
  | construct (type : DataType)
  | swizzle (selection : Selection)
deriving DecidableEq

/-- The head of a node. Outputs and calls without an overload have none. -/
def head? (n : Node) : Option Head :=
  match n.kind with
  | .constant value => some (.constant value.register value.bits)
  | .input decl => some (.input decl)
  | .output _ _ => none
  | .unary op _ => some (.unary op n.type)
  | .binary op _ _ => some (.binary op n.type)
  | .ternary op _ _ _ => some (.ternary op n.type)
  | .call _ _ => n.function?.map fun f => .call f.mangledName n.type
  | .construct _ => some (.construct n.type)
  | .swizzle _ selection => some (.swizzle selection)

def Head.isCommutative : Head → Bool
  | .binary op _ => op.isCommutative
  | _ => false

/-- Operands match in order, or crosswise under a commutative operator. -/
inductive Head.Matches {α β : Type} (R : α → β → Prop) : Head → List α → List β → Prop
  | inOrder {head : Head} {xs : List α} {ys : List β}
    (each : List.Forall₂ R xs ys) : Matches R head xs ys
  | crosswise {head : Head} {x y : α} {u v : β} (commutes : head.isCommutative = true)
    (first : R x v) (second : R y u)
    : Matches R head [x, y] [u, v]

/-- What a node unfolds to. -/
inductive ExprTree where
  | node (head : Head) (operands : List ExprTree)

/-- Trees that are equal up to the order of the operands of commutative operators. -/
inductive ExprTree.Alike : ExprTree → ExprTree → Prop
  | inOrder {head : Head} {xs ys : List ExprTree} (each : List.Forall₂ Alike xs ys)
    : Alike (.node head xs) (.node head ys)
  | crosswise {head : Head} {x y u v : ExprTree} (commutes : head.isCommutative = true)
    (first : Alike x v) (second : Alike y u)
    : Alike (.node head [x, y]) (.node head [u, v])

theorem ExprTree.alike_node_iff {a b : Head} {xs ys : List ExprTree}
    : (node a xs).Alike (node b ys) ↔ a = b ∧ a.Matches Alike xs ys := by
  constructor
  · intro alike
    cases alike with
    | inOrder each => exact ⟨rfl, .inOrder each⟩
    | crosswise commutes first second => exact ⟨rfl, .crosswise commutes first second⟩
  · rintro ⟨rfl, operands⟩
    cases operands with
    | inOrder each => exact .inOrder each
    | crosswise commutes first second => exact .crosswise commutes first second

/-! ## Keys -/

/-- The operands of a node in the order of its key. -/
def Head.arrange (head : Head) : List NodeId → List NodeId
  | [x, y] => if head.isCommutative then [min x y, max x y] else [x, y]
  | operands => operands

theorem Head.arrange_of_plain {head : Head} (plain : head.isCommutative = false)
    (operands : List NodeId)
    : head.arrange operands = operands := by
  rw [arrange.eq_def]
  split
  · rw [plain]
    rfl
  · rfl

/-- Operands match if they are arranged alike. -/
theorem Head.matches_eq_iff (head : Head) (xs ys : List NodeId)
    : head.Matches Eq xs ys ↔ head.arrange xs = head.arrange ys := by
  cases commutes : head.isCommutative with
  | false =>
      rw [arrange_of_plain commutes, arrange_of_plain commutes]
      constructor
      · intro isMatch
        cases isMatch with
        | inOrder each => exact List.forall₂_eq_eq_eq ▸ each
        | crosswise commutative => cases commutes.symm.trans commutative
      · rintro rfl
        exact .inOrder (List.forall₂_refl xs)
  | true =>
      constructor
      · intro isMatch
        cases isMatch with
        | inOrder each => exact congrArg head.arrange (List.forall₂_eq_eq_eq ▸ each)
        | crosswise _ first second =>
            subst first second
            simp only [arrange, commutes, if_true, min_comm, max_comm]
      · intro arranged
        rw [arrange.eq_def, arrange.eq_def] at arranged
        simp only [commutes, if_true] at arranged
        split at arranged
        next x y =>
          split at arranged
          next u v =>
            have either {x y u v : Nat} (least : min x y = min u v) (greatest : max x y = max u v)
                : x = u ∧ y = v ∨ x = v ∧ y = u := by omega
            obtain ⟨least, tail⟩ := List.cons.inj arranged
            rcases either least (List.cons.inj tail).1 with ⟨rfl, rfl⟩ | ⟨rfl, rfl⟩
            · exact .inOrder (List.forall₂_refl _)
            · exact .crosswise commutes rfl rfl
          next noPair =>
            exact (noPair _ _ arranged.symm).elim
        next noPair =>
          split at arranged
          · exact (noPair _ _ arranged).elim
          · exact arranged ▸ .inOrder (List.forall₂_refl _)

/-- A key without its operands. -/
def Key.head : Key → Head
  | .constant register bits => .constant register bits
  | .input decl => .input decl
  | .unary op type _ => .unary op type
  | .binary op type _ _ => .binary op type
  | .ternary op type _ _ _ => .ternary op type
  | .call name type _ => .call name type
  | .construct type _ => .construct type
  | .swizzle _ selection => .swizzle selection

def Key.operands : Key → List NodeId
  | .constant _ _ | .input _ => []
  | .unary _ _ operand | .swizzle operand _ => [operand]
  | .binary _ _ left right => [left, right]
  | .ternary _ _ first second third => [first, second, third]
  | .call _ _ arguments | .construct _ arguments => arguments

theorem Key.eq_iff {key other : Key} : key = other ↔ key.head = other.head
    ∧ key.operands = other.operands := by
  cases key <;> cases other <;> simp [head, operands] <;> grind

theorem key?_of_head {n : Node} {head : Head} (own : head? n = some head)
    : ∃ key, key? n = some key ∧ key.head = head ∧ key.operands = head.arrange n.children := by
  obtain ⟨kind, type, overload⟩ := n
  cases kind with
  | output => cases own
  | call candidates arguments =>
      obtain ⟨f, function, rfl⟩ := Option.map_eq_some_iff.mp own
      refine ⟨.call f.mangledName type arguments, ?_, rfl,
        (Head.arrange_of_plain rfl arguments).symm⟩
      simp only [key?, function, Option.map_some]
  | binary op x y =>
      obtain rfl := Option.some.inj own
      cases commutes : op.isCommutative with
      | true =>
          exact ⟨.binary op type (min x y) (max x y), if_pos commutes, rfl, (if_pos commutes).symm⟩
      | false =>
          have plain : (Head.binary op type).isCommutative = false := commutes
          refine ⟨.binary op type x y, if_neg ?_, rfl, (Head.arrange_of_plain plain [x, y]).symm⟩
          rw [commutes]
          exact Bool.false_ne_true
  | _ =>
      obtain rfl := Option.some.inj own
      exact ⟨_, rfl, rfl, (Head.arrange_of_plain rfl _).symm⟩

theorem key?_eq_iff {n m : Node} {a b : Head} (own : head? n = some a) (other : head? m = some b)
    : key? n = key? m ↔ a = b ∧ a.Matches Eq n.children m.children := by
  obtain ⟨key, found, rfl, operands⟩ := key?_of_head own
  obtain ⟨otherKey, otherFound, rfl, otherOperands⟩ := key?_of_head other
  rw [found, otherFound, Option.some.injEq, Key.eq_iff, operands, otherOperands]
  refine and_congr_right fun same => ?_
  rw [← same, Head.matches_eq_iff]

theorem Head.Matches.mem {head : Head} {xs ys : List NodeId} (isMatch : head.Matches Eq xs ys)
    {x : NodeId} (member : x ∈ xs)
    : x ∈ ys := by
  cases isMatch with
  | inOrder each => exact (List.forall₂_eq_eq_eq ▸ each : xs = ys) ▸ member
  | crosswise _ first second =>
      subst first second
      simpa [or_comm] using member

/-- Operands match if those that correspond to them do. -/
theorem Head.Matches.transfer {α β γ δ : Type} {head : Head} {R : α → β → Prop} {S : γ → δ → Prop}
    {P : α → γ → Prop} {Q : β → δ → Prop} (agree : ∀ {x t y u}, P x t → Q y u → R x y → S t u)
    {xs : List α} {ts : List γ} {ys : List β} {us : List δ} (first : List.Forall₂ P xs ts)
    (second : List.Forall₂ Q ys us) (isMatch : head.Matches R xs ys)
    : head.Matches S ts us := by
  cases isMatch with
  | inOrder each =>
      refine .inOrder ?_
      induction each generalizing ts us with
      | nil =>
          cases first
          cases second
          exact .nil
      | cons related _ ih =>
          cases first with
          | cons atFirst first =>
              cases second with
              | cons atSecond second =>
                  exact .cons (agree atFirst atSecond related) (ih first second)
  | crosswise commutes left right =>
      obtain ⟨t, _, atX, tailX, rfl⟩ := List.forall₂_cons_left_iff.mp first
      obtain ⟨t', _, atY, nilY, rfl⟩ := List.forall₂_cons_left_iff.mp tailX
      obtain ⟨u, _, atU, tailU, rfl⟩ := List.forall₂_cons_left_iff.mp second
      obtain ⟨u', _, atV, nilV, rfl⟩ := List.forall₂_cons_left_iff.mp tailU
      cases nilY
      cases nilV
      exact .crosswise commutes (agree atX atV left) (agree atY atU right)

theorem head?_outline (n : Node) : head? n.outline = head? n := by
  rw [head?, head?, Node.function?_outline]
  obtain ⟨kind, type, overload⟩ := n
  cases kind <;> rfl

end Sharing

open Sharing

/-- The tree that a node unfolds to. -/
def Graph.Unfolds (g : Graph) : NodeId → ExprTree → Prop :=
  g.Evaluates fun id operands => (head? (g.node id)).map (ExprTree.node · operands)

/-- A graph whose operands are values: no output is an operand, and calls have overloads. -/
structure Graph.Valued (g : Graph) : Prop where
  operand : ∀ {parent child}, g.Uses parent child → g.isOutput child = false
  resolved : ∀ {id candidates arguments}, g.Reachable id → (g.node id).kind = .call candidates
    arguments → (g.node id).function?.isSome = true

namespace Graph

variable {g : Graph}

theorem Valued.exists_head (valued : g.Valued) {id : NodeId} (reachable : g.Reachable id)
    (isValue : g.isOutput id = false)
    : ∃ head, head? (g.node id) = some head := by
  rw [head?]
  cases kind : (g.node id).kind with
  | output =>
      rw [isOutput, Node.isOutput, kind] at isValue
      cases isValue
  | call candidates arguments =>
      obtain ⟨f, function⟩ := Option.isSome_iff_exists.mp (valued.resolved reachable kind)
      exact ⟨_, by rw [function]; rfl⟩
  | _ => exact ⟨_, rfl⟩

theorem valued_of_lt (operands : ∀ parent < g.size, ∀ child ∈ g.children parent,
    g.isOutput child = false) (heads : ∀ id < g.size, g.isOutput id = false
    → (head? (g.node id)).isSome = true)
    : g.Valued where
  operand uses := operands _ uses.lt_size _ uses
  resolved {id candidates arguments} _ kind := by
    have inside : id < g.size := by
      by_contra outside
      rw [node_of_size_le (Nat.le_of_not_lt outside)] at kind
      cases kind
    have headed := heads id inside (by rw [isOutput, Node.isOutput, kind])
    rwa [head?, kind, Option.isSome_map] at headed

/-- Every reachable node but the outputs unfolds to a tree. Witness: induction on ranks. -/
theorem Valued.exists_unfolds (valued : g.Valued) (acyclic : g.Acyclic) {id : NodeId}
    (reachable : g.Reachable id) (isValue : g.isOutput id = false)
    : ∃ tree, g.Unfolds id tree := by
  induction ranked : g.rank id using Nat.strong_induction_on generalizing id with
  | _ rank ih =>
      obtain ⟨head, own⟩ := valued.exists_head reachable isValue
      have unfolds (child) (uses : child ∈ g.children id) : ∃ tree, g.Unfolds child tree :=
        ih _ (ranked ▸ acyclic.rank_lt reachable uses) (reachable.operand uses)
          (valued.operand uses) rfl
      obtain ⟨operands, each⟩ := exists_forall₂ unfolds
      exact ⟨.node head operands, .intro each (by rw [own]; rfl)⟩

end Graph

/-! ## Merged nodes -/

namespace Sharing

/-- A graph in which the nodes of another one are replaced by some that stand for them. Nodes keep
their heads, and those that stand for others are told apart by their keys. -/
structure Merged (g h : Graph) (replacement : NodeId → NodeId) (done : List NodeId) : Prop where
  outline : ∀ id, (h.node id).outline = (g.node id).outline
  outputs : h.outputs = g.outputs
  operands : ∀ {id}, g.Reachable id → h.children id = (g.children id).map replacement
  shares : ∀ {id key}, g.Reachable id → key? (h.node id) = some key →
    replacement id ∈ done ∧ key? (h.node (replacement id)) = some key
  distinct : ∀ {id other key}, id ∈ done → other ∈ done → key? (h.node id) = some key →
    key? (h.node other) = some key → id = other
  live : ∀ {id}, id ∈ done → g.Reachable id ∧ replacement id = id ∧ g.isOutput id = false

namespace Merged

variable {g h : Graph} {replacement : NodeId → NodeId} {done : List NodeId}

theorem head (merged : Merged g h replacement done) (id : NodeId)
    : head? (h.node id) = head? (g.node id) := by
  rw [← head?_outline, merged.outline, head?_outline]

theorem isOutput (merged : Merged g h replacement done) (id : NodeId)
    : h.isOutput id = g.isOutput id :=
  Node.isOutput_eq_of_outline (merged.outline id)

/-- Two nodes have one replacement if they have one head and their operands match. -/
theorem replacement_eq_iff (merged : Merged g h replacement done) {a b : NodeId} {x y : Head}
    (reachable : g.Reachable a) (otherReachable : g.Reachable b) (own : head? (g.node a) = some x)
    (other : head? (g.node b) = some y)
    : replacement a = replacement b
      ↔ x = y ∧ x.Matches (fun c d => replacement c = replacement d)
        (g.children a) (g.children b) := by
  rw [← merged.head] at own other
  obtain ⟨key, found, _⟩ := key?_of_head own
  obtain ⟨otherKey, otherFound, _⟩ := key?_of_head other
  obtain ⟨isDone, kept⟩ := merged.shares reachable found
  obtain ⟨otherDone, otherKept⟩ := merged.shares otherReachable otherFound
  have keys : replacement a = replacement b ↔ key? (h.node a) = key? (h.node b) := by
    constructor
    · intro same
      rw [found, otherFound, ← kept, ← otherKept, same]
    · intro same
      rw [same, otherFound] at found
      exact merged.distinct isDone otherDone (found ▸ kept) otherKept
  have replaced (operands : List NodeId)
      : List.Forall₂ (fun old new => replacement old = new) operands (operands.map replacement) :=
    List.forall₂_map_right_iff.mpr (List.forall₂_same.mpr fun _ _ => rfl)
  have children (id) (reachable : g.Reachable id)
    : (h.node id).children = (g.children id).map replacement := merged.operands reachable
  rw [keys, key?_eq_iff own other, children a reachable, children b otherReachable]
  refine and_congr_right fun _ => ⟨fun isMatch => ?_, fun isMatch => ?_⟩
  · exact isMatch.transfer (fun atX atY same => atX.trans (same.trans atY.symm))
      (replaced _).flip (replaced _).flip
  · exact isMatch.transfer (fun atX atY same => atX.symm.trans (same.trans atY))
      (replaced _) (replaced _)

/-- Two nodes have one replacement if their trees are alike. Witness: induction on one of the
trees. -/
theorem replacement_eq_iff_alike (merged : Merged g h replacement done) {a b : NodeId}
    {s t : ExprTree} (reachable : g.Reachable a) (otherReachable : g.Reachable b)
    (unfolds : g.Unfolds a s) (otherUnfolds : g.Unfolds b t)
    : replacement a = replacement b ↔ s.Alike t := by
  rw [Graph.Unfolds] at unfolds
  induction unfolds using Graph.Evaluates.induct generalizing b t with
  | step a trees tree values result =>
      obtain ⟨x, own, rfl⟩ := Option.map_eq_some_iff.mp result
      obtain ⟨otherTrees, otherValues, otherResult⟩ := otherUnfolds.operands
      obtain ⟨y, other, rfl⟩ := Option.map_eq_some_iff.mp otherResult
      have operands := (List.forall₂_and_left _ _).mpr
        ⟨fun _ uses => reachable.operand uses, values⟩
      have otherOperands := (List.forall₂_and_left _ _).mpr
        ⟨fun _ uses => otherReachable.operand uses, otherValues⟩
      rw [merged.replacement_eq_iff reachable otherReachable own other, ExprTree.alike_node_iff]
      refine and_congr_right fun _ => ⟨fun isMatch => ?_, fun isMatch => ?_⟩
      · refine isMatch.transfer ?_ operands otherOperands
        rintro c tree d otherTree ⟨reachable, _, ih⟩ ⟨otherReachable, otherUnfolds⟩ same
        exact (ih reachable otherReachable otherUnfolds).mp same
      · refine isMatch.transfer ?_ operands.flip otherOperands.flip
        rintro tree c otherTree d ⟨reachable, _, ih⟩ ⟨otherReachable, otherUnfolds⟩ alike
        exact (ih reachable otherReachable otherUnfolds).mpr alike

variable (valued : g.Valued)

include valued

theorem mem_done (merged : Merged g h replacement done) {id : NodeId} (reachable : g.Reachable id)
    (isValue : g.isOutput id = false)
    : replacement id ∈ done := by
  obtain ⟨head, own⟩ := valued.exists_head reachable isValue
  obtain ⟨key, found, _⟩ := key?_of_head ((merged.head id).trans own)
  exact (merged.shares reachable found).1

/-- What stands for a node uses what stands for its operands. -/
theorem uses_replacement (merged : Merged g h replacement done) {parent child : NodeId}
    (reachable : g.Reachable parent) (isValue : g.isOutput parent = false)
    (uses : g.Uses parent child)
    : h.Uses (replacement parent) (replacement child) := by
  obtain ⟨head, own⟩ := valued.exists_head reachable isValue
  obtain ⟨key, found, rfl, _⟩ := key?_of_head ((merged.head parent).trans own)
  obtain ⟨isDone, kept⟩ := merged.shares reachable found
  obtain ⟨standing, _, _⟩ := merged.live isDone
  obtain ⟨other, otherOwn⟩ := valued.exists_head standing (merged.live isDone).2.2
  have isMatch :=
    ((key?_eq_iff ((merged.head parent).trans own) ((merged.head _).trans otherOwn)).mp
    (found.trans kept.symm)).2
  refine isMatch.mem ?_
  change replacement child ∈ h.children parent
  rw [merged.operands reachable]
  exact List.mem_map_of_mem uses

/-- What stands for a reachable node is reachable. -/
theorem reachable_replacement (merged : Merged g h replacement done) {id : NodeId}
    (reachable : g.Reachable id) (isValue : g.isOutput id = false)
    (rooted : ∀ root ∈ g.outputs, g.isOutput root = true)
    : h.Reachable (replacement id) := by
  obtain ⟨root, isRoot, path⟩ := reachable
  induction path with
  | refl => cases isValue.symm.trans (rooted root isRoot)
  | @tail parent child path uses ih =>
      cases isOutput : g.isOutput parent with
      | false =>
          exact (ih isOutput).operand
            (merged.uses_replacement valued ⟨root, isRoot, path⟩ isOutput uses)
      | true =>
          have parentReachable : g.Reachable parent := ⟨root, isRoot, path⟩
          have isRootLater : parent ∈ h.outputs :=
            merged.outputs ▸ parentReachable.mem_outputs isOutput valued.operand
          refine Graph.Reachable.operand (.root isRootLater) ?_
          rw [Graph.Uses, merged.operands parentReachable]
          exact List.mem_map_of_mem uses

/-- The nodes that stand for others are those that are left over, outputs apart. -/
theorem mem_done_iff (merged : Merged g h replacement done)
    (rooted : ∀ root ∈ g.outputs, g.isOutput root = true) (id : NodeId)
    : id ∈ done ↔ h.Reachable id ∧ h.isOutput id = false := by
  rw [merged.isOutput]
  constructor
  · intro isDone
    obtain ⟨reachable, same, isValue⟩ := merged.live isDone
    exact ⟨same ▸ merged.reachable_replacement valued reachable isValue rooted, isValue⟩
  · rintro ⟨⟨root, isRoot, path⟩, isValue⟩
    rw [merged.outputs] at isRoot
    have either : id ∈ g.outputs ∨ id ∈ done := by
      clear isValue
      induction path with
      | refl => exact .inl isRoot
      | @tail parent child _ uses ih =>
          have reachable : g.Reachable parent := ih.elim .root fun isDone => (merged.live isDone).1
          rw [Graph.Uses, merged.operands reachable] at uses
          obtain ⟨old, isOperand, rfl⟩ := List.mem_map.mp uses
          exact .inr (merged.mem_done valued (reachable.operand isOperand)
            (valued.operand isOperand))
    refine either.resolve_left fun isRootItself => ?_
    cases isValue.symm.trans (rooted id isRootItself)

end Merged

/-! ## Tables -/

/-- What a step answers for a node, and the table that it leaves. -/
inductive Looks (g : Graph) (table : Table) (id : NodeId) : NodeId → Table → Prop
  | unkeyed (own : key? (g.node id) = none) : Looks g table id id table
  | entered {key : Key} (own : key? (g.node id) = some key) (missing : table.find? key = none)
    : Looks g table id id (table.insert key id)
  | found {key : Key} {shared : NodeId} (own : key? (g.node id) = some key)
    (stands : table.find? key = some shared)
    : Looks g table id shared table

theorem exists_looks (g : Graph) (table : Table) (id : NodeId)
    : ∃ answer next, step id ⟨g, table⟩ = .ok answer ⟨g, next⟩ ∧ Looks g table id answer next := by
  rw [step_of_key]
  cases own : key? (g.node id) with
  | none => exact ⟨id, table, rfl, .unkeyed own⟩
  | some key =>
      cases stands : table.find? key with
      | none => exact ⟨id, table.insert key id, by simp only [stands], .entered own stands⟩
      | some shared => exact ⟨shared, table, by simp only [stands], .found own stands⟩

/-- The calls that fill a table, the last first. -/
inductive Fills : List Call → Table → Prop
  | nil : Fills [] .empty
  | cons {calls : List Call} {table next : Table} {call : Call} (fills : Fills calls table)
    (looks : Looks call.before table call.id call.answer next)
    : Fills (call :: calls) next

/-- What a table tells of the calls that fill it. Some nodes stand for their keys, and the answer to
a call stands for the key of its node. -/
structure Tabulates (h : Graph) (calls : List Call) (table : Table) (done : List NodeId)
    : Prop where
  holds : ledger.Holds table h done
  nodup : done.Nodup
  size : table.size = done.length
  keyed : ∀ id ∈ done, (∃ call ∈ calls, call.id = id ∧ call.answer = id) ∧ ∃ key,
    key? (h.node id) = some key
  answer : ∀ call ∈ calls, ∀ key, key? (h.node call.id) = some key →
    call.answer ∈ done ∧ key? (h.node call.answer) = some key
  itself : ∀ call ∈ calls, key? (h.node call.id) = none → call.answer = call.id

/-- A call that leaves the table as it is. -/
theorem Tabulates.keep {h : Graph} {calls : List Call} {table : Table} {done : List NodeId}
    {call : Call} (tabulates : Tabulates h calls table done)
    (answer : ∀ key, key? (h.node call.id) = some key → call.answer ∈ done
    ∧ key? (h.node call.answer) = some key)
      (itself : key? (h.node call.id) = none → call.answer = call.id)
    : Tabulates h (call :: calls) table done where
  holds := tabulates.holds
  nodup := tabulates.nodup
  size := tabulates.size
  keyed id isDone := by
    obtain ⟨⟨made, isCall, handed⟩, own⟩ := tabulates.keyed id isDone
    exact ⟨⟨made, List.mem_cons_of_mem call isCall, handed⟩, own⟩
  answer := List.forall_mem_cons.mpr ⟨answer, tabulates.answer⟩
  itself := List.forall_mem_cons.mpr ⟨itself, tabulates.itself⟩

/-- A call that enters its node for a key that has none. -/
theorem Tabulates.enter {h : Graph} {calls : List Call} {table : Table} {done : List NodeId}
    {call : Call} {key : Key} (tabulates : Tabulates h calls table done)
    (own : key? (h.node call.id) = some key) (missing : table.find? key = none)
    (itself : call.answer = call.id)
    : Tabulates h (call :: calls) (table.insert key call.id) (call.id :: done) := by
  have undone : call.id ∉ done := by
    intro isDone
    cases missing.symm.trans (tabulates.holds.2 call.id isDone own)
  refine ⟨holds_insert tabulates.holds undone own missing,
    List.nodup_cons.mpr ⟨undone, tabulates.nodup⟩, congrArg (· + 1) tabulates.size,
    fun id member => ?_, fun made member other found => ?_,
      List.forall_mem_cons.mpr ⟨fun unkeyed => ?_, tabulates.itself⟩⟩
  · rcases List.mem_cons.mp member with rfl | isDone
    · exact ⟨⟨call, List.mem_cons_self, rfl, itself⟩, key, own⟩
    · obtain ⟨⟨made, isCall, handed⟩, found⟩ := tabulates.keyed id isDone
      exact ⟨⟨made, List.mem_cons_of_mem call isCall, handed⟩, found⟩
  · rcases List.mem_cons.mp member with rfl | before
    · rw [itself]
      exact ⟨List.mem_cons_self, found⟩
    · exact (tabulates.answer made before other found).imp_left (List.mem_cons_of_mem call.id)
  · cases unkeyed.symm.trans own

/-- A table tells of the calls that fill it, in a graph where nodes are as the calls find them.
Witness: induction on the calls, by the cases of a step. -/
theorem Fills.tabulates {h : Graph} {calls : List Call} {table : Table} (fills : Fills calls table)
    (found : ∀ call ∈ calls, call.before.node call.id = h.node call.id)
    : ∃ done, Tabulates h calls table done := by
  induction fills with
  | nil =>
      refine ⟨[], ⟨fun {key id} isEntry => ?_, fun _ member => (by cases member)⟩,
        List.nodup_nil, rfl,
        fun _ member => (by cases member), fun _ member => (by cases member),
          fun _ member => (by cases member)⟩
      cases (Table.find?_empty key).symm.trans isEntry
  | @cons calls table next call fills looks ih =>
      obtain ⟨done, tabulates⟩ := ih fun other member =>
        found other (List.mem_cons_of_mem call member)
      have node := found call List.mem_cons_self
      generalize answered : call.answer = answer at looks
      cases looks with
      | unkeyed own =>
          rw [node] at own
          exact ⟨done, tabulates.keep (fun key impossible => by cases own.symm.trans impossible)
            fun _ => answered⟩
      | entered own missing =>
          rw [node] at own
          exact ⟨call.id :: done, tabulates.enter own missing answered⟩
      | @found key shared own stands =>
          rw [node] at own
          refine ⟨done, tabulates.keep (fun other same => ?_)
            fun impossible => by cases own.symm.trans impossible⟩
          obtain rfl := Option.some.inj (own.symm.trans same)
          rw [answered]
          exact tabulates.holds.1 stands

/-! ## The pass -/

/-- A workspace while nodes are shared: nothing has changed but operands, and the calls have filled
the table. -/
structure Tidy (g : Graph) (w : Workspace (Table × List Call)) : Prop where
  enclosed : w.graph.Enclosed
  size : w.graph.size = g.size
  outputs : w.graph.outputs = g.outputs
  outline : ∀ id, (w.graph.node id).outline = (g.node id).outline
  entry : ∀ {key id}, w.memory.1.find? key = some id → id < g.size
  calls : ∀ call ∈ w.calls, call.Grows ∧ ∀ id, (call.before.node id).outline = (g.node id).outline
  fills : Fills w.calls w.memory.1

variable {g : Graph}

theorem Tidy.isOutput {w : Workspace (Table × List Call)} (tidy : Tidy g w) (id : NodeId)
    : w.graph.isOutput id = g.isOutput id :=
  Node.isOutput_eq_of_outline (tidy.outline id)

theorem Tidy.point {w : Workspace (Table × List Call)} (tidy : Tidy g w) (parent : NodeId)
    (slot : Nat) {new : NodeId} (inside : new < g.size)
    : Tidy g { w with graph := w.graph.setChild parent slot new } :=
  { tidy with
    enclosed := tidy.enclosed.setChild parent slot (tidy.size ▸ inside)
    size := (Graph.size_setChild ..).trans tidy.size
    outline := fun id => by
      rw [Graph.node_setChild]
      split
      · rw [Node.outline_setChild, tidy.outline]
      · exact tidy.outline id }

/-- Outputs answer themselves. -/
def invariant (g : Graph) (rooted : ∀ root ∈ g.outputs, g.isOutput root = true)
    : Pass.Invariant (Table × List Call) { w // Tidy g w } where
  view := Subtype.val
  Later _ _ := True
  refl _ := trivial
  trans _ _ := trivial
  Live _ id := id < g.size
  Stands _ old new := new < g.size ∧ (g.isOutput old = true → new = old)
  Spent _ _ := False
  live_later _ inside := inside
  stands_later _ stands := stands
  stands_refl inside := ⟨inside, fun _ => rfl⟩
  live_of_stands stands := stands.1
  isOutput_later {s t id} _ _ := (t.property.isOutput id).trans (s.property.isOutput id).symm
  point {s parent slot child new} _ _ stands :=
    ⟨⟨_, s.property.point parent slot stands.1⟩, rfl, trivial, fun _ => False.elim⟩
  redirect {s index root new} atIndex stands := by
    have isRoot : root ∈ g.outputs := s.property.outputs ▸ List.mem_of_getElem? atIndex
    obtain rfl := stands.2 (rooted root isRoot)
    exact ⟨s, congrArg (Workspace.mk · s.val.memory) (Graph.setOutput_self atIndex).symm,
      trivial, fun _ => False.elim⟩

variable (rooted : ∀ root ∈ g.outputs, g.isOutput root = true)

theorem runs_recorded (s : { w // Tidy g w }) {id : NodeId} (inside : id < g.size)
    : (invariant g rooted).Runs False s (step.recorded id) fun new t =>
        (invariant g rooted).Stands t id new ∧ t.val.graph = s.val.graph := by
  obtain ⟨w, tidy⟩ := s
  obtain ⟨answer, next, ran, looks⟩ := exists_looks w.graph w.memory.1 id
  obtain ⟨answerInside, itself, entry⟩ : answer < g.size
      ∧ (g.isOutput id = true → answer = id)
      ∧ ∀ {key other}, next.find? key = some other → other < g.size := by
    cases looks with
    | unkeyed own => exact ⟨inside, fun _ => rfl, tidy.entry⟩
    | entered own missing =>
        refine ⟨inside, fun _ => rfl, fun {key other} found => ?_⟩
        rw [Table.find?_insert] at found
        split at found
        · exact Option.some.inj found ▸ inside
        · exact tidy.entry found
    | found own stands =>
        refine ⟨tidy.entry stands, fun isOutput => ?_, tidy.entry⟩
        cases (isValue_of_key own).symm.trans ((tidy.isOutput id).trans isOutput)
  have grows : Call.Grows ⟨w.graph, id, answer, w.graph⟩ :=
    ⟨.refl _, tidy.enclosed, tidy.size ▸ answerInside⟩
  let after : Workspace (Table × List Call) :=
    ⟨w.graph, next, ⟨w.graph, id, answer, w.graph⟩ :: w.calls⟩
  have tidyAfter : Tidy g after :=
    { tidy with
      entry := entry
      calls := List.forall_mem_cons.mpr ⟨⟨grows, tidy.outline⟩, tidy.calls⟩
      fills := .cons tidy.fills looks }
  refine .of_ok (t := ⟨after, tidyAfter⟩) ?_ trivial ⟨⟨answerInside, itself⟩, rfl⟩
  change step.recorded id w = _
  rw [Transform.recorded, ran]
  rfl

theorem admits : (invariant g rooted).Admits False step.recorded where
  operand {s _ _} _ uses := Nat.lt_of_lt_of_eq (s.property.enclosed.operand uses) s.property.size
  step {s id} inside _ := by
    refine (runs_recorded rooted s inside).imp fun new t _ answered =>
      ⟨⟨answered.1, trivial, fun isOutput => .inl ?_,
        fun parent _ => congrArg (Graph.children · parent) answered.2,
          congrArg Graph.outputs answered.2⟩, fun _ => False.elim⟩
    have isRoot : g.isOutput id = true := (s.property.isOutput id).symm.trans isOutput
    rw [answered.1.2 isRoot]
    exact (t.property.isOutput id).trans isRoot

/-- A call that finds its node with the operands it has in the end finds it as it is in the end. -/
theorem Tidy.node_eq {w : Workspace (Table × List Call)} (tidy : Tidy g w) {call : Call}
    (member : call ∈ w.calls) (children : call.before.children call.id = w.graph.children call.id)
    : call.before.node call.id = w.graph.node call.id := by
  have outline := ((tidy.calls call member).2 call.id).trans (tidy.outline call.id).symm
  have kind := NodeKind.eq_of_outline (congrArg Node.kind outline) children
  have type := Node.type_eq_of_outline outline
  have overload := Node.overload_eq_of_outline outline
  generalize call.before.node call.id = n at kind type overload
  obtain ⟨ownKind, ownType, ownOverload⟩ := n
  subst kind type overload
  rfl

/-- A pass over a graph without cycles leaves a graph in which nodes are merged. -/
theorem exists_merged {w : Workspace (Table × List Call)} (tidy : Tidy g w) (enclosed : g.Enclosed)
    (acyclic : g.Acyclic) (rooted : ∀ root ∈ g.outputs, g.isOutput root = true) (valued : g.Valued)
    (ran : Pass.run .postOrder step.recorded ⟨g, .empty, []⟩ = .ok () w)
    : ∃ replacement done,
        Merged g w.graph replacement done
        ∧ done.Nodup
        ∧ w.memory.1.size = done.length
        ∧ (∀ call ∈ w.calls, replacement call.id = call.answer)
        ∧ (∀ id, id ∈ w.calls.map Call.id ↔ g.Reachable id)
        ∧ ∀ root ∈ g.outputs, replacement root = root := by
  have unused (root) (isRoot : root ∈ g.outputs) (parent) (uses : g.Uses parent root) : False := by
    cases (valued.operand uses).symm.trans (rooted root isRoot)
  have guarded := run_guarded ran fun call member => (tidy.calls call member).1
  obtain ⟨memo, middle, finished, _⟩ :=
    ensures_postOrder (step.guarded_obeys Call.Grows) enclosed unused _ _ guarded
  have memoizes := finished.memoizes enclosed unused
  -- Operands go first, so a call finds its node as it is in the end.
  have found (call) (member : call ∈ w.calls) : call.before.node call.id = w.graph.node call.id :=
    tidy.node_eq member (finished.children_before enclosed unused member
      (acyclic _ (finished.replacing.reachable call member)))
  obtain ⟨done, tabulates⟩ := tidy.fills.tabulates found
  have itself (root) (isRoot : root ∈ g.outputs) : memo[root]?.getD root = root :=
    memoizes.itself root fun call _ noRoot same => noRoot (same ▸ isRoot)
  have noRoot {id key} (own : key? (w.graph.node id) = some key)
    : id ∉ g.outputs := fun isRoot => by
    cases (isValue_of_key own).symm.trans ((tidy.isOutput id).trans (rooted id isRoot))
  refine ⟨fun id => memo[id]?.getD id, done, ?_, tabulates.nodup, tabulates.size,
    fun call member => ?_, finished.mem_calls, itself⟩
  · refine ⟨tidy.outline, tidy.outputs, fun {id} reachable => ?_, fun {id key} reachable own => ?_,
      fun {id other key} isDone otherDone own same => ?_, fun {id} isDone => ?_⟩
    · rw [memoizes.operands id reachable, finished.replacing.firstOperands_eq
        (enclosed.lt_size reachable)]
    · obtain ⟨call, member, rfl⟩ := List.mem_map.mp ((finished.mem_calls id).mpr reachable)
      rw [memoizes.answer call member (noRoot own)]
      exact tabulates.answer call member key own
    · exact Option.some.inj ((tabulates.holds.2 id isDone own).symm.trans
        (tabulates.holds.2 other otherDone same))
    · obtain ⟨⟨call, member, rfl, answer⟩, key, own⟩ := tabulates.keyed id isDone
      refine ⟨finished.replacing.reachable call member, ?_,
        (tidy.isOutput _).symm.trans (isValue_of_key own)⟩
      rw [memoizes.answer call member (noRoot own), answer]
  -- Roots have no key, so their calls answer them as they are.
  · by_cases isRoot : call.id ∈ g.outputs
    · have unkeyed : key? (w.graph.node call.id) = none := by
        cases own : key? (w.graph.node call.id) with
        | none => rfl
        | some key => exact (noRoot own isRoot).elim
      exact (itself call.id isRoot).trans (tabulates.itself call member unkeyed).symm
    · exact memoizes.answer call member isRoot

/-- Sharing is exact. Nodes are replaced by one map, which takes two nodes to the same one exactly
if their trees are alike. Roots are left alone, and one node with each key is left over. -/
structure Exact (g : Graph) (w : Workspace Table) (replacement : NodeId → NodeId) : Prop where
  operands : ∀ {id}, g.Reachable id → w.graph.children id = (g.children id).map replacement
  outputs : w.graph.outputs = g.outputs
  roots : ∀ {id root}, g.Reachable id → root ∈ g.outputs → (replacement id = root ↔ id = root)
  unfolds : ∀ {id}, g.Reachable id → g.isOutput id = false → ∃ tree, g.Unfolds id tree
  alike : ∀ {a b s t}, g.Reachable a → g.Reachable b → g.Unfolds a s → g.Unfolds b t →
    (replacement a = replacement b ↔ s.Alike t)
  distinct : w.graph.Shared
  size : w.memory.size = Set.ncard { id | w.graph.Reachable id ∧ w.graph.isOutput id = false }

theorem Merged.exact {w : Workspace Table} {replacement : NodeId → NodeId} {done : List NodeId}
    (merged : Merged g w.graph replacement done) (acyclic : g.Acyclic)
    (rooted : ∀ root ∈ g.outputs, g.isOutput root = true) (valued : g.Valued) (nodup : done.Nodup)
    (size : w.memory.size = done.length) (itself : ∀ root ∈ g.outputs, replacement root = root)
    : Exact g w replacement where
  operands := merged.operands
  outputs := merged.outputs
  roots {id root} reachable isRoot := by
    refine ⟨fun same => ?_, fun same => same ▸ itself root isRoot⟩
    cases isOutput : g.isOutput id with
    | false =>
        have isDone := merged.mem_done valued reachable isOutput
        rw [same] at isDone
        cases (merged.live isDone).2.2.symm.trans (rooted root isRoot)
    | true => exact (itself id (reachable.mem_outputs isOutput valued.operand)).symm.trans same
  unfolds := valued.exists_unfolds acyclic
  alike := merged.replacement_eq_iff_alike
  distinct {id other key} reachable otherReachable own same := by
    have isDone {id} (reachable : w.graph.Reachable id) (own : key? (w.graph.node id) = some key)
      : id ∈ done := (merged.mem_done_iff valued rooted id).mpr ⟨reachable, isValue_of_key own⟩
    exact merged.distinct (isDone reachable own) (isDone otherReachable same) own same
  size := by
    have left : { id | w.graph.Reachable id ∧ w.graph.isOutput id = false } = done.toFinset := by
      ext id
      rw [Finset.mem_coe, List.mem_toFinset, merged.mem_done_iff valued rooted]
      rfl
    rw [size, left, Set.ncard_coe_finset, List.toFinset_card_of_nodup nodup]

end Sharing

/-- Sharing merges equal subexpressions and no others. In a graph without cycles, with outputs for
roots only and calls that have overloads, every reachable node is looked up, and its replacement is
that of another node exactly if both unfold to trees that are equal up to the order of the operands
of commutative operators. -/
theorem sharing_merges_equal_subexpressions {g : Graph} (enclosed : g.Enclosed)
    (acyclic : g.Acyclic) (rooted : g.Rooted) (valued : g.Valued)
    : ∃ w calls replacement,
        Pass.run .postOrder Sharing.step ⟨g, .empty⟩ = .ok () w
        ∧ Pass.run .postOrder Sharing.step.recorded ⟨g, .empty, []⟩ = .ok ()
          ⟨w.graph, w.memory, calls⟩
        ∧ (∀ call ∈ calls, replacement call.id = call.answer)
        ∧ (∀ id, id ∈ calls.map Call.id ↔ g.Reachable id)
        ∧ Sharing.Exact g w replacement := by
  have tidy : Sharing.Tidy g ⟨g, .empty, []⟩ :=
    ⟨enclosed, rfl, rfl, fun _ => rfl, fun {key id} found =>
      (by cases (Table.find?_empty key).symm.trans found),
      fun _ member => (by cases member), .nil⟩
  obtain ⟨_, ⟨w, tidyLast⟩, ran, _, _⟩ := ((Sharing.admits rooted.2).runs_postOrder (s := ⟨_, tidy⟩)
    acyclic (fun unrooted => unrooted rooted) enclosed.output fun _ => id).exists_ok
  obtain ⟨replacement, done, merged, nodup, size, answers, handed, itself⟩ :=
    Sharing.exists_merged tidyLast enclosed acyclic rooted.2 valued ran
  exact ⟨⟨w.graph, w.memory.1⟩, w.calls, replacement, run_of_recorded ran, ran, answers, handed,
    Sharing.Merged.exact merged acyclic rooted.2 valued nodup size itself⟩

/-- The sum of two inputs, one of them declared twice, in both orders; two differences, of which
none is the other with its operands exchanged; and the product of two equal calls. -/
def repeatedSums : Graph :=
  let int : DataType := .scalarOf .int
  let f : List FunctionSig := [.ofInputs "f" [.int, .int] .int]
  let g := ((Graph.empty.declareInput ⟨"x", int⟩).declareInput ⟨"y", int⟩).pushInput ⟨"x", int⟩
  let g := (g.pushBinary .add 0 1).pushBinary .add 1 2
  let g := (g.pushBinary .subtract 3 1).pushBinary .subtract 1 4
  let g := ((g.pushCall f [5, 6]).pushCall f [5, 6]).pushBinary .multiply 7 8
  g.declareOutput ⟨"z", int⟩ 9

theorem sharing_merges_equal_subexpressions_repeatedSums
    : repeatedSums.Enclosed
      ∧ repeatedSums.Acyclic
      ∧ repeatedSums.Rooted
      ∧ repeatedSums.Valued
      ∧ ∃ w calls replacement,
          Pass.run .postOrder Sharing.step ⟨repeatedSums, .empty⟩ = .ok () w
          ∧ Pass.run .postOrder Sharing.step.recorded ⟨repeatedSums, .empty, []⟩ = .ok ()
            ⟨w.graph, w.memory, calls⟩
          ∧ (∀ call ∈ calls, replacement call.id = call.answer)
          ∧ (∀ id, id ∈ calls.map Call.id ↔ repeatedSums.Reachable id)
          ∧ Sharing.Exact repeatedSums w replacement
          ∧ w.memory.size = 7 := by
  have enclosed : repeatedSums.Enclosed := by decide +kernel
  have acyclic : repeatedSums.Acyclic := Graph.acyclic_of_lt (by decide +kernel)
  have rooted : repeatedSums.Rooted := ⟨by decide +kernel, by decide +kernel⟩
  have valued : repeatedSums.Valued := Graph.valued_of_lt (by decide +kernel) (by decide +kernel)
  obtain ⟨w, calls, replacement, ran, recorded, answers, handed, isExact⟩ :=
    sharing_merges_equal_subexpressions enclosed acyclic rooted valued
  have computed : ∃ v, Pass.run .postOrder Sharing.step ⟨repeatedSums, .empty⟩ = .ok () v
    ∧ v.memory.size = 7 := ⟨_, rfl, by decide +kernel⟩
  obtain ⟨v, again, size⟩ := computed
  obtain rfl : w = v := (EStateM.Result.ok.inj (ran.symm.trans again)).2
  exact ⟨enclosed, acyclic, rooted, valued, w, calls, replacement, ran, recorded,
    answers, handed, isExact, size⟩

end StreamExpr
