import StreamExpr.Pass

/-! Sharing of equal subexpressions.
Operands are shared before their users, so two nodes mean the same exactly when they agree in kind,
operator, type and operands. The first node with a given key stands for all later ones. The operands
of commutative operators are ordered in the key. Outputs are never merged.
-/

namespace StreamExpr.Sharing

/-- What equal nodes agree in. -/
inductive Key where
  | constant (register : RegisterClass) (bits : UInt32)
  | input (decl : StreamDecl)
  | unary (op : UnaryOp) (type : DataType) (operand : NodeId)
  | binary (op : BinaryOp) (type : DataType) (left right : NodeId)
  | ternary (op : TernaryOp) (type : DataType) (first second third : NodeId)
  | call (name : String) (type : DataType) (arguments : List NodeId)
  | construct (type : DataType) (arguments : List NodeId)
  | swizzle (operand : NodeId) (selection : Selection)
deriving DecidableEq

/-- The key of a node. Outputs and calls without an overload have none. -/
def key? (n : Node) : Option Key :=
  match n.kind with
  | .constant value => some (.constant value.register value.bits)
  | .input decl => some (.input decl)
  | .output _ _ => none
  | .unary op operand => some (.unary op n.type operand)
  | .binary op left right =>
      if op.isCommutative then some (.binary op n.type (min left right) (max left right))
      else some (.binary op n.type left right)
  | .ternary op first second third => some (.ternary op n.type first second third)
  | .call _ arguments => n.function?.map fun f => .call f.mangledName n.type arguments
  | .construct arguments => some (.construct n.type arguments)
  | .swizzle operand selection => some (.swizzle operand selection)

/-- A number that tells most keys apart. Equal keys have the same number. -/
def Key.digest : Key → Nat
  | .constant _ bits => bits.toNat
  | .input _ => 0
  | .unary _ _ operand => operand
  | .binary _ _ left right => left + 65536 * right
  | .ternary _ _ first second third => first + 256 * second + 65536 * third
  | .call _ _ arguments => arguments.foldr (· + ·) 0
  | .construct _ arguments => arguments.foldr (· + ·) 0
  | .swizzle operand _ => operand

/-! ## Tables -/

/-- The nodes that stand for their keys, gathered by the digests of the keys. -/
structure Table where
  groups : Std.TreeMap Nat (List (Key × NodeId))
  /-- The number of keys. -/
  size : Nat

namespace Table

def empty : Table :=
  { groups := {}, size := 0 }

/-- The node that stands for a key. -/
def find? (t : Table) (key : Key) : Option NodeId :=
  (t.groups.getD key.digest []).lookup key

/-- Let a node stand for a key that has none. -/
def insert (t : Table) (key : Key) (id : NodeId) : Table :=
  { groups := t.groups.insert key.digest ((key, id) :: t.groups.getD key.digest [])
    size := t.size + 1 }

@[simp]
theorem find?_empty (key : Key)
    : empty.find? key = none := by
  simp [find?, empty]

/-- An insertion changes what stands for its own key only.
Witness: keys with another digest are in another group, and keys of the same group are compared. -/
theorem find?_insert (t : Table) (key other : Key) (id : NodeId)
    : (t.insert key id).find? other = if other = key then some id else t.find? other := by
  by_cases same : other = key
  · subst same
    simp [find?, insert]
  · by_cases digests : key.digest = other.digest
    · simp [find?, insert, digests, List.lookup_cons, beq_false_of_ne same, same]
    · simp [find?, insert, Std.TreeMap.getD_insert, digests, same]

end Table

/-- Answer the node that stands for the key of the given one. -/
def step : Transform Table := fun id => do
  match key? (← PassM.read (·.node id)) with
  | none => return id
  | some key =>
      match (← get).memory.find? key with
      | some shared => return shared
      | none =>
          modify fun w => { w with memory := w.memory.insert key id }
          return id

end StreamExpr.Sharing
