import StreamExpr.Proofs.StreamParts

/-! Streams keep their identity.
A vector stream is carried by one scalar stream for each component, and from then on streams are
told apart by their names alone. Components of different streams have different names, so every
component of a declared stream has a slot of its own as long as no scalar stream is named like a
component of a declared vector.
-/

namespace StreamExpr

open StreamSplitting

/-! ## Names of parts -/

/-- Streams of different names, none of which is a scalar that is named like a component of
another. -/
structure StreamDecl.Apart (decls : List StreamDecl) : Prop where
  names : (decls.map StreamDecl.name).Nodup
  scalars : ∀ scalar ∈ decls, ∀ vector ∈ decls, scalar.type.isVector = false
    → vector.type.isVector = true → ∀ part ∈ vector.components, scalar.name ≠ part.name

/-- The scalar stream that carries a component of the stream at a place. -/
def partAt? (decls : List StreamDecl) (place c : Nat) : Option StreamDecl :=
  decls[place]?.bind fun decl => (declaredComponents decl)[c]?

theorem mem_flatMap_of_partAt? {decls : List StreamDecl} {place c : Nat} {part : StreamDecl}
    (found : partAt? decls place c = some part)
    : part ∈ decls.flatMap declaredComponents := by
  obtain ⟨decl, atPlace, atC⟩ := Option.bind_eq_some_iff.mp found
  exact List.mem_flatMap.mpr ⟨decl, List.mem_of_getElem? atPlace, List.mem_of_getElem? atC⟩

/-- Where all names differ, a name tells the place. -/
theorem place_of_name {decls : List StreamDecl} (names : (decls.map StreamDecl.name).Nodup)
    {i j : Nat} {first second : StreamDecl} (atI : decls[i]? = some first)
    (atJ : decls[j]? = some second) (same : first.name = second.name)
    : i = j := by
  have inside : i < (decls.map StreamDecl.name).length := by
    simpa using (List.getElem?_eq_some_iff.mp atI).1
  refine (List.getElem?_inj inside names).mp ?_
  rw [List.getElem?_map, List.getElem?_map, atI, atJ, Option.map_some, Option.map_some, same]

/-- The parts of one stream have different names. -/
theorem nodup_names_declaredComponents (decl : StreamDecl)
    : ((declaredComponents decl).map StreamDecl.name).Nodup := by
  rw [declaredComponents]
  split
  · rw [StreamDecl.components, List.map_map]
    refine List.nodup_range.map_on fun c inside d otherInside same => ?_
    have small {i} (member : i ∈ List.range decl.type.width) : i < 4 :=
      Nat.lt_of_lt_of_le (List.mem_range.mp member) decl.type.width_le_four
    exact (StreamDecl.name_component_inj (small inside) (small otherInside) same).2
  · exact List.nodup_singleton _

namespace StreamDecl.Apart

variable {decls : List StreamDecl} {i j c d : Nat} {part other : StreamDecl}

/-- The name of a part tells the name of its stream. Witness: scalars are their own parts,
components tell their streams, and no scalar is named like a component. -/
theorem name_of_part (apart : Apart decls) {first second : StreamDecl} (isFirst : first ∈ decls)
    (isSecond : second ∈ decls) (isPart : part ∈ declaredComponents first)
    (isOther : other ∈ declaredComponents second) (same : part.name = other.name)
    : first.name = second.name := by
  rcases mem_declaredComponents.mp isPart with ⟨firstVector, isComponent⟩ | ⟨firstScalar, rfl⟩ <;>
    rcases mem_declaredComponents.mp isOther with ⟨secondVector, isOtherComponent⟩
      | ⟨secondScalar, rfl⟩
  · obtain ⟨c, inside, rfl⟩ := List.mem_map.mp isComponent
    obtain ⟨d, otherInside, rfl⟩ := List.mem_map.mp isOtherComponent
    have small {decl : StreamDecl} {i} (member : i ∈ List.range decl.type.width) : i < 4 :=
      Nat.lt_of_lt_of_le (List.mem_range.mp member) decl.type.width_le_four
    exact (name_component_inj (small inside) (small otherInside) same).1
  · exact (apart.scalars other isSecond first isFirst secondScalar firstVector part
      isComponent same.symm).elim
  · exact (apart.scalars part isFirst second isSecond firstScalar secondVector other
      isOtherComponent same).elim
  · exact same

/-- The name of a part tells which stream it is a part of, and which one. -/
theorem partAt?_inj (apart : Apart decls) (first : partAt? decls i c = some part)
    (second : partAt? decls j d = some other) (same : part.name = other.name)
    : i = j ∧ c = d := by
  obtain ⟨decl, atI, atC⟩ := Option.bind_eq_some_iff.mp first
  obtain ⟨otherDecl, atJ, atD⟩ := Option.bind_eq_some_iff.mp second
  have names := apart.name_of_part (List.mem_of_getElem? atI) (List.mem_of_getElem? atJ)
    (List.mem_of_getElem? atC) (List.mem_of_getElem? atD) same
  obtain rfl := place_of_name apart.names atI atJ names
  obtain rfl := Option.some.inj (atI.symm.trans atJ)
  exact ⟨rfl, place_of_name (nodup_names_declaredComponents decl) atC atD same⟩

theorem nodup_names_parts (apart : Apart decls)
    : ((decls.flatMap declaredComponents).map StreamDecl.name).Nodup := by
  rw [List.map_flatMap, List.nodup_flatMap]
  refine ⟨fun decl _ => nodup_names_declaredComponents decl, ?_⟩
  refine (List.pairwise_map.mp apart.names).imp_of_mem fun {first second}
    isFirst isSecond differ => ?_
  intro name isName isOther
  obtain ⟨part, isPart, rfl⟩ := List.mem_map.mp isName
  obtain ⟨other, isOtherPart, same⟩ := List.mem_map.mp isOther
  exact differ (apart.name_of_part isFirst isSecond isPart isOtherPart same.symm)

end StreamDecl.Apart

theorem firstsBy_of_nodup {α κ : Type} [DecidableEq κ] {key : α → κ} {xs : List α}
    (distinct : (xs.map key).Nodup)
    : Emission.firstsBy key xs = xs := by
  induction xs with
  | nil => rfl
  | cons x xs ih =>
      rw [List.map_cons, List.nodup_cons] at distinct
      rw [Emission.firstsBy, ih distinct.2, List.filter_eq_self.mpr]
      intro other member
      exact decide_eq_true fun same => distinct.1 (same ▸ List.mem_map_of_mem member)

/-! ## Slots of parts -/

namespace Program

/-- Some instruction loads a stream from a slot, for a node that reads it. -/
def Loads (p : Program) (h : Graph) (ids : List NodeId) (part : StreamDecl) (slot : Nat) : Prop :=
  ∃ (place : Nat) (id : NodeId) (d : Decoded),
    ids[place]? = some id
    ∧ p.decode[place]? = some d
    ∧ (h.node id).kind = .input part
    ∧ d.inputSlot? = some slot

/-- Some instruction stores a stream to a slot, for a node that writes it. -/
def Stores (p : Program) (h : Graph) (ids : List NodeId) (part : StreamDecl) (slot : Nat) : Prop :=
  ∃ (place : Nat) (id : NodeId) (d : Decoded),
    ids[place]? = some id
    ∧ p.decode[place]? = some d
    ∧ (h.node id).kind.binding? = some (.output part)
    ∧ d.outputSlot? = some slot

/-- A program for the nodes of `h` that tells the components of the declared streams of `g`
apart. -/
structure Identifies (p : Program) (g h : Graph) (ids : List NodeId) : Prop where
  /-- Every component of a declared input has its own entry, in order. -/
  inputs : g.inputParts <+: p.inputs
  /-- Every component of a declared output has its own entry, in order. -/
  outputs : p.outputs = g.outputParts
  /-- What is loaded is a part of some input. -/
  load : ∀ d ∈ p.decode, ∀ slot ∈ d.inputSlot?, ∃ part, p.Loads h ids part slot
    ∧ ∃ source own, (g.node source).kind = .input own ∧ part ∈ declaredComponents own
  /-- What is stored is a part of some output. -/
  store : ∀ d ∈ p.decode, ∀ slot ∈ d.outputSlot?, ∃ part, p.Stores h ids part slot
    ∧ ∃ source own, (g.node source).kind.binding? = some (.output own)
      ∧ part ∈ declaredComponents own
  loadsOwn : ∀ {i c part slot}, partAt? g.declaredInputs i c = some part → p.Loads h ids part slot →
    p.inputs[slot]? = some part
  storesOwn : ∀ {i c part slot}, partAt? g.declared i c = some part → p.Stores h ids part slot →
    p.outputs[slot]? = some part
  loadsApart : ∀ {i c j d part other slot}, partAt? g.declaredInputs i c = some part →
    partAt? g.declaredInputs j d = some other → p.Loads h ids part slot
    → p.Loads h ids other slot → i = j ∧ c = d
  storesApart : ∀ {i c j d part other slot}, partAt? g.declared i c = some part →
    partAt? g.declared j d = some other → p.Stores h ids part slot
    → p.Stores h ids other slot → i = j ∧ c = d

end Program

section Slots

variable {g h : Graph} {p : Program} {ids : List NodeId} {part : StreamDecl} {slot : Nat}

theorem Program.Names.entry_of_loads (names : p.Names h ids) (loads : p.Loads h ids part slot)
    : ∃ entry, p.inputs[slot]? = some entry ∧ entry.name = part.name := by
  obtain ⟨place, id, d, atPlace, decoded, kind, isSlot⟩ := loads
  obtain ⟨decl, entry, reads, listed, named⟩ := names.load place id d slot atPlace decoded isSlot
  obtain rfl := NodeKind.input.inj (kind.symm.trans (Graph.inputDecl?_eq_some.mp reads))
  exact ⟨entry, listed, named⟩

theorem Program.Names.entry_of_stores (names : p.Names h ids) (stores : p.Stores h ids part slot)
    : ∃ entry, p.outputs[slot]? = some entry ∧ entry.name = part.name := by
  obtain ⟨place, id, d, atPlace, decoded, bound, isSlot⟩ := stores
  obtain ⟨decl, expression, kind, found⟩ := names.store place id d slot atPlace decoded isSlot
  rw [kind] at bound
  cases bound
  obtain ⟨inside, named, _⟩ := List.findIdx?_eq_some_iff_getElem.mp found
  exact ⟨_, List.getElem?_eq_getElem inside, of_decide_eq_true named⟩

/-- Declared inputs come first in the table. -/
theorem Program.Names.inputParts_prefix (names : p.Names h ids)
    (parts : h.declaredInputs = g.inputParts) (apart : StreamDecl.Apart g.declaredInputs)
    : g.inputParts <+: p.inputs := by
  have listed : Emission.firstsBy StreamDecl.name
    (h.inputs.filterMap h.inputDecl?) = g.inputParts := by
    rw [show h.inputs.filterMap h.inputDecl? = g.inputParts from parts]
    exact firstsBy_of_nodup apart.nodup_names_parts
  rw [names.inputs, listed]
  exact List.prefix_append _ _

/-- A part that has an entry in a table is found there. -/
theorem eq_entry_of_name {table : List StreamDecl} (names : (table.map StreamDecl.name).Nodup)
    {entry : StreamDecl} (listed : table[slot]? = some entry) (named : entry.name = part.name)
    (isEntry : part ∈ table)
    : table[slot]? = some part := by
  obtain ⟨place, atPlace⟩ := List.mem_iff_getElem?.mp isEntry
  rw [place_of_name names listed atPlace named, atPlace]

/-- An output that passes writes a scalar. -/
theorem Validation.isVector_of_output {id : NodeId} {decl : StreamDecl}
    (passes : failure? h id = none) (bound : (h.node id).kind.binding? = some (.output decl))
    : decl.type.isVector = false := by
  obtain ⟨expression, kind⟩ := NodeKind.binding?_eq_output.mp bound
  by_contra isVector
  simp only [failure?, leftover?, kind, Bool.not_eq_false] at passes isVector
  rw [if_pos isVector] at passes
  split_ifs at passes

namespace Compiler.Yields

variable {s : Schedule}

theorem exists_loads (yields : Yields g h s p) {d : Program.Decoded} (decoded : d ∈ p.decode)
    (isSlot : d.inputSlot? = some slot)
    : ∃ part, p.Loads h s.instructions part slot
        ∧ ∃ source own, (g.node source).kind = .input own ∧ part ∈ declaredComponents own := by
  obtain ⟨place, id, atPlace, atDecoded⟩ := yields.exists_scheduled decoded
  obtain ⟨part, _, reads, _⟩ := yields.names.load place id d slot atPlace atDecoded isSlot
  have kind := Graph.inputDecl?_eq_some.mp reads
  exact ⟨part, ⟨place, id, d, atPlace, atDecoded, kind, isSlot⟩, yields.parted.input kind⟩

/-- A scheduled output writes a part of an output, for what passes is split. -/
theorem part_of_output (yields : Yields g h s p) {id : NodeId} (isListed : id ∈ s.instructions)
    (bound : (h.node id).kind.binding? = some (.output part))
    : ∃ source own, (g.node source).kind.binding? = some (.output own)
      ∧ part ∈ declaredComponents own := by
  obtain ⟨source, own, written, isPart⟩ := yields.parted.output bound
  cases isPart with
  | whole =>
      have isScalar := Validation.isVector_of_output (yields.passes id isListed) bound
      exact ⟨source, part, written, mem_declaredComponents.mpr (.inr ⟨isScalar, rfl⟩)⟩
  | output isVector isComponent =>
      exact ⟨source, _, written, mem_declaredComponents.mpr (.inl ⟨isVector, isComponent⟩)⟩

theorem exists_stores (yields : Yields g h s p) {d : Program.Decoded} (decoded : d ∈ p.decode)
    (isSlot : d.outputSlot? = some slot)
    : ∃ part, p.Stores h s.instructions part slot
        ∧ ∃ source own, (g.node source).kind.binding? = some (.output own)
          ∧ part ∈ declaredComponents own := by
  obtain ⟨place, id, atPlace, atDecoded⟩ := yields.exists_scheduled decoded
  obtain ⟨part, expression, kind, _⟩ := yields.names.store place id d slot atPlace atDecoded isSlot
  have bound := NodeKind.binding?_eq_output.mpr ⟨expression, kind⟩
  exact ⟨part, ⟨place, id, d, atPlace, atDecoded, bound, isSlot⟩,
    yields.part_of_output (List.mem_of_getElem? atPlace) bound⟩

end Compiler.Yields

end Slots

/-- Every component of a declared stream has a slot of its own. Witness: a compiled graph is bound
to parts of the streams that it was bound to, its tables have an entry for every declared part, and
all entries differ in name. -/
theorem streams_keep_identity {g : Graph} {p : Program} (declares : g.DeclaresInputs)
    (inputs : StreamDecl.Apart g.declaredInputs) (outputs : StreamDecl.Apart g.declared)
    (compiled : (Compiler.standard.compile g ()).result = .ok p)
    : ∃ s,
        Schedule.ofGraph (Compiler.standard.compile g ()).graph = .ok s
        ∧ p.Identifies g (Compiler.standard.compile g ()).graph s.instructions := by
  obtain ⟨s, yields⟩ := Compiler.exists_yields compiled
  have inputEntries := yields.names.inputParts_prefix (yields.parted.inputs declares).2 inputs
  have outputEntries : p.outputs = g.outputParts := yields.outputs.trans yields.parted.declared
  have loadsOwn {i c part slot} (isPart : partAt? g.declaredInputs i c = some part)
      (loads : p.Loads (Compiler.standard.compile g ()).graph s.instructions part slot)
      : p.inputs[slot]? = some part := by
    obtain ⟨entry, listed, named⟩ := yields.names.entry_of_loads loads
    exact eq_entry_of_name yields.names.inputNames listed named
      (inputEntries.subset (mem_flatMap_of_partAt? isPart))
  have storesOwn {i c part slot} (isPart : partAt? g.declared i c = some part)
      (stores : p.Stores (Compiler.standard.compile g ()).graph s.instructions part slot)
      : p.outputs[slot]? = some part := by
    obtain ⟨entry, listed, named⟩ := yields.names.entry_of_stores stores
    refine eq_entry_of_name ?_ listed named ?_
    · exact outputEntries ▸ outputs.nodup_names_parts
    · exact outputEntries ▸ mem_flatMap_of_partAt? isPart
  refine ⟨s, yields.scheduled, inputEntries, outputEntries, fun d decoded slot =>
    yields.exists_loads decoded,
    fun d decoded slot => yields.exists_stores decoded, loadsOwn, storesOwn, ?_, ?_⟩
  · intro i c j d part other slot isPart isOther loads loadsOther
    have same := (loadsOwn isPart loads).symm.trans (loadsOwn isOther loadsOther)
    exact inputs.partAt?_inj isPart isOther (congrArg StreamDecl.name (Option.some.inj same))
  · intro i c j d part other slot isPart isOther stores storesOther
    have same := (storesOwn isPart stores).symm.trans (storesOwn isOther storesOther)
    exact outputs.partAt?_inj isPart isOther (congrArg StreamDecl.name (Option.some.inj same))

/-- Streams that are named alike, but not like components of each other. -/
def likeNames : Graph :=
  let pair : DataType := .of .float 2
  let float : DataType := .scalarOf .float
  let g := (Graph.empty.declareInput ⟨"p", pair⟩).declareInput ⟨"p.z", float⟩
  (g.declareOutput ⟨"c", pair⟩ 0).declareOutput ⟨"c.z", float⟩ 1

def likeNamesProgram : Program :=
  let float : DataType := .scalarOf .float
  { code := [177, 0, 2, 179, 2, 0, 177, 0, 1, 179, 1, 0, 177, 0, 0, 179, 0, 0]
    inputs := [⟨"p.x", float⟩, ⟨"p.y", float⟩, ⟨"p.z", float⟩]
    outputs := [⟨"c.x", float⟩, ⟨"c.y", float⟩, ⟨"c.z", float⟩]
    functions := [], registers := 1, instructionCount := 6 }

theorem streams_keep_identity_likeNames
    : likeNames.DeclaresInputs
      ∧ StreamDecl.Apart likeNames.declaredInputs
      ∧ StreamDecl.Apart likeNames.declared
      ∧ (Compiler.standard.compile likeNames ()).result = .ok likeNamesProgram
      ∧ ∃ s,
          Schedule.ofGraph (Compiler.standard.compile likeNames ()).graph = .ok s
          ∧ likeNamesProgram.Identifies likeNames
            (Compiler.standard.compile likeNames ()).graph s.instructions :=
  have declares : likeNames.DeclaresInputs := by decide
  have inputs : StreamDecl.Apart likeNames.declaredInputs := ⟨by decide, by decide⟩
  have outputs : StreamDecl.Apart likeNames.declared := ⟨by decide, by decide⟩
  have compiled : (Compiler.standard.compile likeNames ()).result = .ok likeNamesProgram := by
    decide +kernel
  ⟨declares, inputs, outputs, compiled, streams_keep_identity declares inputs outputs compiled⟩

/-- A scalar input and a scalar output that are named like components of vectors. -/
def componentNames : Graph :=
  let pair : DataType := .of .float 2
  let float : DataType := .scalarOf .float
  let g := (Graph.empty.declareInput ⟨"p", pair⟩).declareInput ⟨"p.x", float⟩
  (g.declareOutput ⟨"c", pair⟩ 0).declareOutput ⟨"c.x", float⟩ 1

def componentNamesProgram : Program :=
  let float : DataType := .scalarOf .float
  { code := [177, 0, 0, 179, 0, 0, 177, 1, 1, 179, 1, 1, 179, 0, 0]
    inputs := [⟨"p.x", float⟩, ⟨"p.y", float⟩]
    outputs := [⟨"c.x", float⟩, ⟨"c.y", float⟩, ⟨"c.x", float⟩]
    functions := [], registers := 2, instructionCount := 5 }

/-- Streams of different names may share a slot: three components are read from two entries, and two
outputs are stored to one. -/
theorem component_names_share_slots
    : componentNames.DeclaresInputs
      ∧ (componentNames.declaredInputs.map StreamDecl.name).Nodup
      ∧ (componentNames.declared.map StreamDecl.name).Nodup
      ∧ (Compiler.standard.compile componentNames ()).result = .ok componentNamesProgram
      ∧ componentNames.inputParts.length = 3
      ∧ componentNamesProgram.inputs.length = 2
      ∧ componentNamesProgram.decode.filterMap Program.Decoded.outputSlot? = [0, 1, 0] := by
  decide +kernel

end StreamExpr
