import Mathlib.Logic.Relation
import StreamExpr.Compiler
import StreamExpr.Proofs.Conversion
import StreamExpr.Proofs.Pass

/-! What one step of type deduction can do.
The type of a node is deduced, and then operands are put in the place of its operands one by one: an
operand of another class as a constant or behind a conversion, and the expression of an output cut
or padded. Everything about the step is proved by these cases.
-/

namespace StreamExpr.Typing

open Graph

variable {g h : Graph} {id child new : NodeId} {slot : Nat} {r : RegisterClass}
    {target : DataType} {n : Node}

/-! ## Operands that fit -/

/-- The operand in a slot has the class that is asked for. -/
def SlotFits (g : Graph) (id : NodeId) (slot : Nat) : Prop :=
  ∀ child r, (g.children id)[slot]? = some child → g.expected? id slot = some r → r.isKnown = true →
    g.register child = r

theorem SlotFits.setChild {other : Nat} (fits : other ≠ slot → SlotFits g id other)
    (own : ∀ r, g.expected? id slot = some r → r.isKnown = true → g.register new = r)
    : SlotFits (g.setChild id slot new) id other := by
  intro child r atOther asked known
  have outline : ((g.setChild id slot new).node id).outline = (g.node id).outline := by
    rw [node_setChild, if_pos rfl, Node.outline_setChild]
  rw [expected?_eq_of_outline outline] at asked
  rw [Graph.children, node_setChild, if_pos rfl, Node.children_setChild,
    List.getElem?_set] at atOther
  have keeps : (g.setChild id slot new).register child = g.register child :=
    congrArg DataType.register (type_setChild g id child slot new)
  rw [keeps]
  split at atOther
  case isTrue same =>
    subst same
    split at atOther
    · exact Option.some.inj atOther ▸ own r asked known
    · cases atOther
  case isFalse differs =>
    exact fits (Ne.symm differs) child r atOther asked known

theorem SlotFits.of_appends (fits : SlotFits g id slot) (inside : id < g.size)
    (operands : ∀ child ∈ g.children id, child < g.size) (appends : g.Appends h)
    : SlotFits h id slot := by
  intro child r atSlot asked known
  rw [Graph.children, appends.node inside] at atSlot
  rw [expected?_eq_of_outline (congrArg Node.outline (appends.node inside))] at asked
  rw [Graph.register, appends.node (operands child (List.mem_of_getElem? atSlot))]
  exact fits child r atSlot asked known

/-- The operand in a slot fits, or it is converted to the class that is asked for. -/
theorem fits_or_converts (g : Graph) (id : NodeId) (slot : Nat)
    : SlotFits g id slot ∧ convertSlot id slot g = .ok () g
      ∨ ∃ child r,
          (g.children id)[slot]? = some child
          ∧ g.expected? id slot = some r
          ∧ r.isKnown = true
          ∧ g.register child ≠ r
          ∧ convertSlot id slot g = (convert child r >>= fun new =>
            modify (·.setChild id slot new)) g := by
  rw [convertSlot, Edit.read_bind]
  cases atSlot : (g.children id)[slot]? with
  | none => exact .inl ⟨fun child r found => (by cases atSlot.symm.trans found), rfl⟩
  | some child =>
      cases asked : g.expected? id slot with
      | none => exact .inl ⟨fun other r _ found => (by cases asked.symm.trans found), rfl⟩
      | some r =>
          simp only [Option.bind_eq_bind, Option.bind_some]
          by_cases mismatch : (r.isKnown && decide (g.register child ≠ r)) = true
          · obtain ⟨known, differs⟩ := Bool.and_eq_true_iff.mp mismatch
            rw [if_pos mismatch]
            exact .inr ⟨child, r, rfl, rfl, known, of_decide_eq_true differs, rfl⟩
          · rw [if_neg mismatch]
            refine .inl ⟨fun other q found expected known => ?_, rfl⟩
            obtain rfl := Option.some.inj (atSlot.symm.trans found)
            obtain rfl := Option.some.inj (asked.symm.trans expected)
            by_contra differs
            exact mismatch (Bool.and_eq_true_iff.mpr ⟨known, decide_eq_true differs⟩)

/-! ## Operands in the place of others -/

/-- A node as one of another class. -/
inductive Converts (g : Graph) (child : NodeId) (r : RegisterClass) : Node → Prop
  | constant {former value : Value} (found : g.value? child = some former)
    (converts : former.convert? r = some value)
    : Converts g child r (.ofKind (.constant value) (.scalarOf value.register))
  | conversion
    : Converts g child r ⟨.unary .typeConversion child, (g.type child).withRegister r, some 0⟩

theorem Converts.register (converts : Converts g child r n) : n.register = r := by
  cases converts with
  | constant _ converts => exact Value.register_of_convert? converts
  | conversion => rfl

theorem convert_eq (g : Graph) (child : NodeId) (r : RegisterClass)
    : ∃ n, Converts g child r n ∧ convert child r g = .ok g.size (g.push n) := by
  rw [convert, Edit.read_bind]
  cases found : (g.value? child).bind (·.convert? r) with
  | none => exact ⟨_, .conversion, rfl⟩
  | some value =>
      obtain ⟨former, isConstant, converts⟩ := Option.bind_eq_some_iff.mp found
      exact ⟨_, .constant isConstant converts, rfl⟩

/-- An expression as one of another width: its first components, or a vector that is built from
it. -/
inductive Adapts (g : Graph) (e : NodeId) (target : DataType) : Node → Prop
  | cut {chosen : Selection} (range : Selection.ofList (List.range target.width) = chosen)
    (narrower : target.width < (g.type e).width)
    : Adapts g e target (.ofKind (.swizzle e chosen) target)
  | padded (wider : (g.type e).width < target.width) : Adapts g e target
    (.ofKind (.construct [e]) target)

/-- The first components of a vector, as many as a type has. -/
theorem deduced_firstComponents {e : NodeId} {chosen : Selection}
    (first : Selection.ofList (List.range target.width) = chosen)
    (register : g.register e = target.register)
    : chosen.count = target.width
      ∧ g.deduced (.ofKind (.swizzle e chosen) .unknown) = .ofKind (.swizzle e chosen) target := by
  have count : chosen.count = target.width := by
    rw [← first, Selection.count_ofList] <;> rw [List.length_range]
    · exact target.width_pos
    · exact target.width_le_four
  have type : (g.type e).withWidth chosen.count = target := by
    rw [count]
    exact DataType.ext register (DataType.width_of target.width_pos target.width_le_four)
  exact ⟨count, congrArg (Node.ofKind (.swizzle e chosen)) type⟩

theorem Adapts.type {e : NodeId} (adapts : Adapts g e target n) : n.type = target := by
  cases adapts <;> rfl

theorem adaptWidth_eq {e : NodeId} (register : g.register e = target.register)
    (differs : (g.type e).width ≠ target.width)
    : ∃ n, Adapts g e target n ∧ adaptWidth e target g = .ok g.size (g.push n) := by
  rw [adaptWidth, Edit.read_bind, if_neg differs]
  by_cases narrower : target.width < (g.type e).width
  · refine ⟨_, .cut rfl narrower, ?_⟩
    rw [if_pos narrower, ← (deduced_firstComponents rfl register).2]
    rfl
  · rw [if_neg narrower]
    exact ⟨_, .padded (by omega), rfl⟩

/-- A new node is put in the place of an operand that does not fit. -/
inductive Amends (id : NodeId) (g : Graph) : Graph → Prop
  | converted {slot : Nat} {child : NodeId} {r : RegisterClass} {n : Node}
    (atSlot : (g.children id)[slot]? = some child) (asked : g.expected? id slot = some r)
    (known : r.isKnown = true) (differs : g.register child ≠ r) (converts : Converts g child r n)
    : Amends id g ((g.push n).setChild id slot g.size)
  | adapted {decl : StreamDecl} {e : NodeId} {n : Node} (kind : (g.node id).kind = .output decl e)
    (known : (g.type id).isKnown = true) (register : g.register e = g.register id)
    (differs : (g.type e).width ≠ (g.type id).width) (adapts : Adapts g e (g.type id) n)
    : Amends id g ((g.push n).setChild id 0 g.size)

/-- A node of the arena with operands there. -/
structure Placed (g : Graph) (id : NodeId) : Prop where
  inside : id < g.size
  operands : ∀ child ∈ g.children id, child < g.size

/-- What a new operand changes: the node keeps its outline, and other nodes stay as they are. -/
structure Amended (id : NodeId) (g h : Graph) : Prop where
  placed : Placed h id
  size : g.size ≤ h.size
  outputs : h.outputs = g.outputs
  outline : (h.node id).outline = (g.node id).outline
  node : ∀ {other}, other < g.size → other ≠ id → h.node other = g.node other
  fits : ∀ slot, SlotFits g id slot → SlotFits h id slot

theorem Amended.refl (placed : Placed g id) : Amended id g g :=
  ⟨placed, Nat.le_refl _, rfl, rfl, fun _ _ => rfl, fun _ fits => fits⟩

theorem Amended.trans {k : Graph} (first : Amended id g h) (second : Amended id h k)
    : Amended id g k where
  placed := second.placed
  size := first.size.trans second.size
  outputs := second.outputs.trans first.outputs
  outline := second.outline.trans first.outline
  node inside differs := (second.node (Nat.lt_of_lt_of_le inside first.size) differs).trans
    (first.node inside differs)
  fits slot fits := second.fits slot (first.fits slot fits)

/-- A new node in a slot that asks for its class. -/
theorem amended_push (placed : Placed g id) (slot : Nat) (n : Node)
    (own : ∀ r, g.expected? id slot = some r → r.isKnown = true → n.register = r)
    : Amended id g ((g.push n).setChild id slot g.size)
      ∧ SlotFits ((g.push n).setChild id slot g.size) id slot := by
  have appends := g.appends_push n
  have ownNode := appends.node placed.inside
  have holds (r) (asked : (g.push n).expected? id slot = some r) (known : r.isKnown = true) :
      (g.push n).register g.size = r := by
    rw [expected?_eq_of_outline (congrArg Node.outline ownNode)] at asked
    rw [Graph.register, node_push_self]
    exact own r asked known
  refine ⟨⟨⟨?_, fun child member => ?_⟩, ?_, rfl, ?_, fun {other} inside differs => ?_,
    fun other fits =>
    .setChild (fun _ => fits.of_appends placed.inside placed.operands appends) holds⟩,
    .setChild (fun impossible => (impossible rfl).elim) holds⟩
  · rw [size_setChild, size_push]
    exact Nat.lt_succ_of_lt placed.inside
  · rw [Graph.children, node_setChild, if_pos rfl, Node.children_setChild, ownNode] at member
    rw [size_setChild, size_push]
    rcases List.mem_or_eq_of_mem_set member with before | rfl
    · exact Nat.lt_succ_of_lt (placed.operands child before)
    · exact Nat.lt_succ_self _
  · rw [size_setChild, size_push]
    exact Nat.le_succ _
  · rw [node_setChild, if_pos rfl, Node.outline_setChild, ownNode]
  · rw [node_setChild, if_neg differs, appends.node inside]

theorem Amends.amended (amends : Amends id g h) (placed : Placed g id) : Amended id g h := by
  cases amends with
  | converted _ asked _ _ converts =>
      exact (amended_push placed _ _ fun q found _ =>
        converts.register.trans (Option.some.inj (asked.symm.trans found))).1
  | adapted kind _ register _ adapts =>
      refine (amended_push placed 0 _ fun q found _ => ?_).1
      simp only [expected?, kind, Option.some.injEq] at found
      exact (congrArg DataType.register adapts.type).trans found

/-! ## The step -/

open Relation (ReflTransGen)

theorem convertSlot_eq (placed : Placed g id) (slot : Nat)
    : ∃ h, convertSlot id slot g = .ok () h ∧ ReflTransGen (Amends id) g h ∧ Amended id g h
      ∧ SlotFits h id slot := by
  rcases fits_or_converts g id slot with ⟨fits, kept⟩
    | ⟨child, r, atSlot, asked, known, differs, code⟩
  · exact ⟨g, kept, .refl, .refl placed, fits⟩
  · obtain ⟨n, converts, ran⟩ := convert_eq g child r
    obtain ⟨amended, fits⟩ := amended_push placed slot n fun q found _ =>
      converts.register.trans (Option.some.inj (asked.symm.trans found))
    refine ⟨_, ?_, .single (.converted atSlot asked known differs converts), amended, fits⟩
    rw [code]
    simp only [bind, EStateM.bind, ran]
    rfl

theorem convertSlots_eq (placed : Placed g id) (slots : List Nat)
    : ∃ h,
        slots.forM (convertSlot id) g = .ok () h
        ∧ ReflTransGen (Amends id) g h
        ∧ Amended id g h
        ∧ ∀ slot ∈ slots, SlotFits h id slot := by
  induction slots generalizing g with
  | nil => exact ⟨g, rfl, .refl, .refl placed, fun _ member => (by cases member)⟩
  | cons slot slots ih =>
      obtain ⟨h, ran, amends, amended, own⟩ := convertSlot_eq placed slot
      obtain ⟨k, rest, more, further, others⟩ := ih amended.placed
      refine ⟨k, ?_, amends.trans more, amended.trans further,
        List.forall_mem_cons.mpr ⟨further.fits slot own, others⟩⟩
      rw [List.forM]
      simp only [bind, EStateM.bind, ran]
      exact rest

/-- The expression of an output is brought to the output's type. -/
theorem adaptOutput_eq (placed : Placed g id) (known : (g.type id).isKnown = true)
    (fits : ∀ slot, SlotFits g id slot)
    : ∃ h,
        adaptOutput id g = .ok () h
        ∧ ReflTransGen (Amends id) g h
        ∧ Amended id g h
        ∧ ∀ {decl e}, (h.node id).kind = .output decl e → h.type e = h.type id := by
  rw [adaptOutput, Edit.read_bind]
  cases kind : (g.node id).kind with
  | output decl e =>
      have only : g.children id = [e] := congrArg NodeKind.children kind
      have asked : g.expected? id 0 = some (g.register id) := by
        simp only [expected?, kind]
        rfl
      have register : g.register e = g.register id := fits 0 e _ (by rw [only]; rfl) asked known
      by_cases same : (g.type e).width = (g.type id).width
      · have adapted : adaptWidth e (g.node id).type g = .ok e g := by
          rw [adaptWidth, Edit.read_bind, show (g.node id).type.width
            = (g.type id).width from rfl, if_pos same]
          rfl
        refine ⟨g, ?_, .refl, .refl placed, fun {decl' e'} found => ?_⟩
        · simp only [bind, EStateM.bind, adapted, ne_eq, not_true, if_false]
          rfl
        · obtain ⟨rfl, rfl⟩ := NodeKind.output.inj (kind.symm.trans found)
          exact DataType.ext register same
      · obtain ⟨n, adapts, ran⟩ := adaptWidth_eq register same
        -- The output is pointed elsewhere exactly if a node was added.
        have isNew : g.size ≠ e := fun isNew =>
          Nat.lt_irrefl _ (isNew ▸ placed.operands e (by simp [only]))
        have amends : Amends id g ((g.push n).setChild id 0 g.size) :=
          .adapted kind known register same adapts
        have amended := amends.amended placed
        refine ⟨_, ?_, .single amends, amended, fun {decl' e'} found => ?_⟩
        · simp only [bind, EStateM.bind, show adaptWidth e (g.node id).type g = _ from ran, ne_eq,
            isNew, not_false_eq_true, if_true]
          rfl
        · rw [node_setChild, if_pos rfl, (g.appends_push n).node placed.inside,
            Node.setChild, kind] at found
          obtain ⟨_, rfl⟩ := NodeKind.output.inj found
          have own : ((g.push n).setChild id 0 g.size).type id = g.type id :=
            Node.type_eq_of_outline amended.outline
          have ofNew : ((g.push n).setChild id 0 g.size).type g.size = n.type := by
            rw [type_setChild, Graph.type, node_push_self]
          simp only [if_true]
          rw [own, ofNew, adapts.type, Graph.type]
  | _ =>
      refine ⟨g, rfl, .refl, .refl placed, fun {decl e} found => ?_⟩
      cases kind.symm.trans found

/-- What a step leaves of a node whose type is known: its operands fit, and so does the expression
of an output. -/
structure Stepped (id : NodeId) (g h : Graph) : Prop where
  known : (g.type id).isKnown = true
  amends : ReflTransGen (Amends id) g h
  amended : Amended id g h
  fits : ∀ slot, SlotFits h id slot
  written : ∀ {decl e}, (h.node id).kind = .output decl e → h.type e = h.type id

/-- A step fails if the type that it deduces is unknown. -/
theorem step_eq (g : Graph) (id : NodeId) (placed : Placed (g.deduce id) id)
    : ((g.deduce id).type id).isKnown = false ∧ (∃ e, step id g = .error e (g.deduce id))
      ∨ ∃ h, step id g = .ok id h ∧ Stepped id (g.deduce id) h := by
  have reads {α : Type} (f : Graph → α) (g : Graph) : Edit.read f g = .ok (f g) g := rfl
  have deduces : (modify (·.deduce id) : Edit PUnit) g = .ok () (g.deduce id) := rfl
  generalize g.deduce id = d at placed deduces
  cases known : (d.type id).isKnown with
  | false =>
      refine .inl ⟨rfl, .abandoned (failure d id), ?_⟩
      simp only [step, bind, EStateM.bind, deduces, reads, known, Bool.not_false, if_true]
      rfl
  | true =>
      obtain ⟨h, converted, amends, amended, slots⟩ :=
        convertSlots_eq placed (List.range (d.children id).length)
      have fits (slot) : SlotFits h id slot := by
        by_cases within : slot < (d.children id).length
        · exact slots slot (List.mem_range.mpr within)
        · intro child r atSlot
          have sameLength := Node.length_children_eq_of_outline amended.outline
          exact absurd (sameLength ▸ (List.getElem?_eq_some_iff.mp atSlot).1) within
      have stillKnown : (h.type id).isKnown = true := by
        rw [Graph.type, Node.type_eq_of_outline amended.outline]
        exact known
      obtain ⟨k, adapted, more, further, written⟩ := adaptOutput_eq amended.placed stillKnown fits
      refine .inr ⟨k, ?_, known, amends.trans more, amended.trans further,
        fun slot => further.fits slot (fits slot), written⟩
      simp only [step, bind, EStateM.bind, deduces, reads, known, Bool.not_true, Bool.false_eq_true,
        if_false, converted, adapted]
      rfl

end StreamExpr.Typing
