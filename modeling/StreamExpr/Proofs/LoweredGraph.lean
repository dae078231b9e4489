import StreamExpr.Proofs.LoweringStep

/-! Lowered graphs.
Lowering leaves a graph that keeps to its discipline, all of whose nodes have an instruction and
whose outputs say no less in an algebra.
-/

namespace StreamExpr

namespace Lowering

variable {V : Type} {A : Algebra V} {D : Discipline}
  {s t u : Stock D A} {top id : NodeId} {r : RegisterClass} {fails : Prop}

namespace Stock

/-- Forget a young power. -/
def unmark (s : Stock D A) (id : NodeId) : Stock D A :=
  { s with young := s.young.erase id, powers := fun isYoung =>
    s.powers (Finset.mem_of_mem_erase isYoung) }

theorem Later.unmark {s t : Stock D A} (later : s.Later t) (id : NodeId) : s.Later (t.unmark id) :=
  ⟨later.values, later.state, later.lowered⟩

/-- Operands keep their classes and values when a slot is pointed at what stands in for its
operand. -/
theorem passes_setChild (s : Stock D A) {parent child new : NodeId} {slot : Nat}
    (atSlot : (s.graph.children parent)[slot]? = some child)
    (stands : s.Stands child new) (id : NodeId)
    : List.Forall₂ (Passes s.graph (s.graph.setChild parent slot new))
        ((s.graph.setChild parent slot new).children id) (s.graph.children id) := by
  have passes {x y : NodeId} (found : Passes s.graph s.graph x y)
    : Passes s.graph (s.graph.setChild parent slot new) x y := by
    refine ⟨(congrArg DataType.register (s.graph.type_setChild parent x slot new)).trans found.1,
      fun c isConstant => ?_⟩
    rw [s.graph.value?_setChild]
    exact found.2 c isConstant
  have own : List.Forall₂ (Passes s.graph s.graph) (s.graph.children id) (s.graph.children id) :=
    List.forall₂_same.mpr fun _ _ => ⟨rfl, fun _ found => found⟩
  rw [Graph.children, Graph.node_setChild]
  split
  case isTrue here =>
    subst here
    rw [Node.children_setChild]
    refine List.Forall₂.imp (fun _ _ => passes) (forall₂_set own atSlot fun other found => ?_)
    exact ⟨stands.passes.1.trans found.1, fun c isConstant =>
      stands.passes.2 c (found.2 c isConstant)⟩
  case isFalse => exact own.imp fun _ _ => passes

/-- Point a slot at what stands in for its operand. -/
def setChild (s : Stock D A) {parent child new : NodeId} {slot : Nat}
    (atSlot : (s.graph.children parent)[slot]? = some child) (stands : s.Stands child new)
    : Stock D A :=
  have kept {id} (isLive : s.live id) := (s.state.setChild_later atSlot stands.state).outline isLive
  { s.toValuation.setChild atSlot stands.values with
    tidy := (s.state.setChild atSlot stands.state).tidy
    allowed := (s.state.setChild atSlot stands.state).allowed
    classed := fun {id v} isLive found => by
      have register : (s.graph.setChild parent slot new).register id = s.graph.register id :=
        congrArg DataType.register (s.graph.type_setChild parent id slot new)
      change A.Classed v ((s.graph.setChild parent slot new).register id)
      rw [register]
      exact s.classed isLive found
    handles := fun {id} isLive => (s.handles isLive).kept (kept isLive)
      (s.passes_setChild atSlot stands id) rfl
    young := s.young
    powers := fun {id} isYoung => by
      obtain ⟨isLive, register, x, y, kind⟩ := s.powers isYoung
      refine ⟨isLive, ?_, ?_⟩
      · rw [← register]
        exact congrArg DataType.register (s.graph.type_setChild parent id slot new)
      · change ∃ x y, ((s.graph.setChild parent slot new).node id).kind = _
        rw [Graph.node_setChild]
        split
        case isTrue here =>
          subst here
          rw [Node.setChild, kind]
          exact ⟨_, _, rfl⟩
        case isFalse => exact ⟨x, y, kind⟩ }

theorem setChild_later (s : Stock D A) {parent child new : NodeId} {slot : Nat}
    (atSlot : (s.graph.children parent)[slot]? = some child) (stands : s.Stands child new)
    : s.Later (s.setChild atSlot stands) := by
  have later := s.state.setChild_later atSlot stands.state
  refine ⟨s.toValuation.setChild_later atSlot stands.values, later, fun {id} isLive lowered => ?_⟩
  exact (isLowered_passes (later.outline isLive) (s.passes_setChild atSlot stands id)).trans lowered

/-- Replace a root. -/
def setOutput (s : Stock D A) (index : Nat) {root : NodeId} (isLive : s.live root) : Stock D A :=
  { s.toValuation.setOutput index root with
    tidy := (s.state.setOutput index isLive).tidy
    allowed := (s.state.setOutput index isLive).allowed
    classed := s.classed
    handles := fun isLive => (s.handles isLive).kept rfl
      (List.forall₂_same.mpr fun _ _ => ⟨rfl, fun _ found => found⟩) rfl
    young := s.young
    powers := s.powers }

end Stock

/-- A stock with the nodes of the graph before the pass that may still be replaced. -/
structure State (D : Discipline) (A : Algebra V) extends Stock D A where
  fresh : Finset NodeId

/-- What is left to be done: nodes are replaced by others that stay and by young powers, and these
by nodes that stay. -/
def State.left (s : State D A) : ℕ ×ₗ ℕ :=
  toLex (s.fresh.card, s.young.card)

/-- A node that was replaced before. -/
def State.Spent (s : State D A) (id : NodeId) : Prop :=
  s.live id ∧ ¬ Lowered s.toStock id ∧ id ∉ s.fresh ∧ id ∉ s.young

/-- States of the pass in the order of time. -/
def passEvolution (D : Discipline) (A : Algebra V) : Evolution Graph (State D A) :=
  Evolution.declining {
    view := fun s => s.graph
    Later := fun s t => s.toStock.Later t.toStock
    refl := fun s => .refl s.toStock
    trans := .trans } State.left fun s => s.graph.size

/-- What lowering keeps up. -/
def invariant (D : Discipline) (A : Algebra V) : Pass.Invariant Unit (State D A) where
  toEvolution := (passEvolution D A).workspace
  Live s := s.live
  Stands s old new := s.toStock.Stands old new
  Spent := State.Spent
  Finished s id := s.live id ∧ Lowered s.toStock id
  live_later later isLive := later.1.values.live isLive
  stands_later later stands := stands.later later.1
  finished_later later finished :=
    ⟨later.1.values.live finished.1, later.1.lowered finished.1 finished.2⟩
  stands_refl := .refl
  live_of_stands stands := stands.values.newLive
  isOutput_later later isLive := later.1.state.isOutput isLive
  point {s parent slot child new} _ atSlot stands := by
    have later := s.toStock.setChild_later atSlot stands
    refine ⟨⟨s.toStock.setChild atSlot stands, s.fresh⟩, rfl, ⟨later, ?_⟩, fun id spent => ?_⟩
    · exact Prod.Lex.toLex_le_toLex.mpr (.inr ⟨rfl, (s.graph.size_setChild parent slot new).le⟩)
    exact ⟨spent.1, fun lowered => spent.2.1 (later.lowered spent.1 lowered), spent.2.2⟩
  redirect {s index root new} _ stands := by
    have isLive := stands.values.newLive
    refine ⟨⟨s.toStock.setOutput index isLive, s.fresh⟩, rfl, ⟨?_, le_refl _⟩, fun _ spent => spent⟩
    exact ⟨s.toValuation.setOutput_later index new, s.state.setOutput_later index isLive,
      fun _ lowered => lowered⟩

/-- What a step leaves of a node that was not spent. -/
structure Yields (s : State D A) (id new : NodeId) (t : State D A) : Prop where
  stands : t.toStock.Stands id new
  lowered : Lowered t.toStock new
  appends : s.graph.Appends t.graph
  spent : ∀ {other}, t.Spent other → s.Spent other ∨ other = id ∧ s.graph.isOutput id = false

/-- Nodes that were spent in a step were spent before or are the given one. -/
theorem spent_of_grows {s t : State D A} {powers : Bool} {u : Stock D A}
    (grows : Grows powers s.toStock u) (later : s.toStock.Later u)
    (same : t.graph = u.graph ∧ t.live = u.live) {other : NodeId} (spent : t.Spent other)
    (fresh : other ∈ s.fresh → other ∈ t.fresh) (young : other ∈ u.young → other ∈ t.young)
    : s.Spent other := by
  obtain ⟨isLive, unlowered, notFresh, notYoung⟩ := spent
  have unchanged : Lowered u other → Lowered t.toStock other := fun lowered => by
    rw [Lowered, same.1]
    exact lowered
  rw [same.2] at isLive
  rcases grows.lowered isLive with wasLive | isLowered | isYoung
  · refine ⟨wasLive, fun lowered => unlowered (unchanged (later.lowered wasLive lowered)),
      fun isFresh => notFresh (fresh isFresh),
        fun isYoung => notYoung (young (grows.young isYoung))⟩
  · exact (unlowered (unchanged isLowered)).elim
  · exact (notYoung (young isYoung)).elim

/-- A step on a node that was not spent. Witness: a lowered node stays, a young power is replaced by
nodes that stay, and a node of the graph before the pass is spent by its replacement. -/
theorem runs_yields {s : State D A} {id : NodeId} (follows : Follows D) (grades : Grades A)
    (isLive : s.live id) (unspent : s.Spent id → s.graph.isOutput id = true)
    : (invariant D A).Runs fails s (Transform.ofEdit step id) (Yields s id) := by
  by_cases lowered : Lowered s.toStock id
  · refine .ofEdit (E := passEvolution D A)
      (.of_ok (t := s) (Edit.settle_of_fixed (Graph.lowerOnce_lowered lowered))
      ((passEvolution D A).refl s) ?_)
    exact ⟨.refl isLive, lowered, .refl _, .inl⟩
  have isValue : s.graph.isOutput id = false := by
    by_contra isOutput
    rw [Bool.not_eq_false] at isOutput
    exact lowered (Graph.isLowered_of_isSettled
      (isSettled_of_isFixed (Node.isFixed_of_isOutput isOutput)))
  by_cases isYoung : id ∈ s.young
  · refine .ofEdit (E := passEvolution D A)
      ((runs_step_young follows grades isYoung lowered).lift rfl ?_)
    intro new t later settles
    -- No young powers are added, and this one is forgotten.
    have fewer : (t.young.erase id).card < s.young.card := by
      rw [settles.grows.calm rfl]
      exact Finset.card_erase_lt_of_mem isYoung
    have stands : (t.unmark id).Stands id new :=
      ⟨settles.stands.values, settles.stands.state, settles.stands.passes⟩
    refine ⟨⟨t.unmark id, s.fresh⟩, rfl, ⟨later.unmark id, Prod.Lex.toLex_le_toLex.mpr (.inl ?_)⟩,
      ⟨stands, settles.lowered, settles.grows.appends, ?_⟩⟩
    · exact Prod.Lex.toLex_lt_toLex.mpr (.inr ⟨rfl, fewer⟩)
    intro other spent
    by_cases here : other = id
    · exact .inr ⟨here, isValue⟩
    · exact .inl (spent_of_grows settles.grows later ⟨rfl, rfl⟩ spent (fun isFresh => isFresh)
        fun wasYoung => Finset.mem_erase.mpr ⟨here, wasYoung⟩)
  have isFresh : id ∈ s.fresh := by
    by_contra notFresh
    exact Bool.false_ne_true (isValue.symm.trans (unspent ⟨isLive, lowered, notFresh, isYoung⟩))
  refine .ofEdit (E := passEvolution D A) ((runs_step follows grades isLive).lift rfl ?_)
  intro new t later settles
  refine ⟨⟨t, s.fresh.erase id⟩, rfl, ⟨later, Prod.Lex.toLex_le_toLex.mpr (.inl ?_)⟩,
    ⟨settles.stands, settles.lowered, settles.grows.appends, ?_⟩⟩
  · exact Prod.Lex.toLex_lt_toLex.mpr (.inl (Finset.card_erase_lt_of_mem isFresh))
  intro other spent
  by_cases here : other = id
  · exact .inr ⟨here, isValue⟩
  · exact .inl (spent_of_grows settles.grows later ⟨rfl, rfl⟩ spent
      (fun isFresh => Finset.mem_erase.mpr ⟨here, isFresh⟩) fun wasYoung => wasYoung)

theorem admits_step (follows : Follows D) (grades : Grades A)
    : (invariant D A).Admits fails (Transform.ofEdit step) where
  operand {s _ _} isLive isOperand := (s.operand isLive isOperand).1
  step {s id} isLive unspent := by
    refine (runs_yields follows grades isLive unspent).imp fun new t later found =>
      ⟨⟨found.stands, ⟨found.stands.values.newLive, found.lowered⟩, fun isOutput => .inl ?_,
        fun parent parentLive =>
        congrArg Node.children (found.appends.node (s.inside parentLive)), found.appends.outputs⟩,
        fun _ => found.spent⟩
    have stillOutput : t.graph.isOutput id = true := (later.1.state.isOutput isLive).trans isOutput
    exact (found.stands.state.output stillOutput) ▸ stillOutput

def descent : (invariant D A).Descent where
  left := State.left
  bound s := s.graph.size
  inside {s _} isLive := s.inside isLive
  later later := later.2

/-- Lowering a graph whose reachable nodes are in use succeeds if all roots are outputs. What is
reachable in the end is lowered. Witness: every node of the graph is replaced at most once, by a few
nodes that stay or are replaced once more. -/
theorem lowers (follows : Follows D) (grades : Grades A) (s : Stock D A)
    (reached : s.live = s.graph.Reachable)
    : match Compiler.lowering s.graph with
      | .ok _ lowered => ∃ t : Stock D A,
          t.graph = lowered ∧ s.Later t ∧ t.graph.outputs = s.graph.outputs
          ∧ ∀ id, t.graph.Reachable id → t.live id ∧ Lowered t id
      | .error _ _ => ¬ s.graph.Rooted := by
  let start : State D A := ⟨s, Finset.range s.graph.size⟩
  have unspent (id : NodeId) : ¬ start.Spent id := fun spent =>
    spent.2.2.1 (Finset.mem_range.mpr (s.inside spent.1))
  have live {root} (isRoot : root ∈ s.graph.outputs) : s.live root := reached ▸ .root isRoot
  have runs := ((admits_step follows grades).leads.runs_preOrder_finished (s := start)
    (.inr ⟨descent⟩) (fun unrooted : ¬ s.graph.Rooted => unrooted) (fun _ => live) unspent).pass
      (E := passEvolution D A)
  cases outcome : Compiler.lowering s.graph with
  | error e left => exact runs.fails_of_error outcome
  | ok _ lowered =>
      obtain ⟨t, same, later, succeeds, finished⟩ := runs.state_of_ok outcome
      refine ⟨t.toStock, same, later.1, ?_, fun id reachable => (finished id reachable).2⟩
      refine List.forall₂_eq_eq_eq ▸ List.Forall₂.flip (succeeds.imp fun root new found => ?_)
      exact found.stands.state.output found.isOutput

/-- Loose typing says enough for lowering. -/
theorem loose_follows (broad : Prop) : Follows (.loose broad False) where
  known allowed := allowed.1.known
  widths allowed _ plain := allowed.1.widths plain
  signature allowed := allowed.1.signature
  allows _ sound unmixed whole scalar _ := ⟨sound.loose unmixed scalar, fun _ => whole, False.elim⟩
  serves _ narrows _ := narrows

/-- So does typing. -/
theorem typed_follows (types : DataType → Prop) (every : ∀ t, types t)
    : Follows (.typed types) where
  known allowed := allowed.1.known
  widths _ operands _ := List.forall_mem_map.mpr fun child isOperand =>
    .inl (operands child isOperand).2.1
  signature allowed := (Graph.typedAt_iff.mpr allowed.1).signature
  allows allowed sound _ _ _ width :=
    ⟨⟨sound.known, sound.inferred, sound.classes⟩,
      width.elim id fun same => same.trans allowed.2.1, every _⟩
  serves allowed narrows kept :=
    ⟨DataType.ext narrows.register
      (narrows.width.elim (fun scalar => scalar.trans allowed.2.1.symm) id), kept⟩

end Lowering

/-- Lowering a graph in good order succeeds and leaves one all of whose nodes are lowered. -/
theorem lowering_orders {broad low : Prop} {g : Graph} (orders : g.Orders (.loose broad low))
    : ∃ h, Compiler.lowering g = .ok () h ∧ h.Orders (.loose broad True) ∧ g.Keeps h := by
  have loosely : g.Orders (.loose broad False) :=
    { orders with allowed := fun reachable =>
      ⟨(orders.allowed reachable).1, (orders.allowed reachable).2.1, False.elim⟩ }
  let state : (Discipline.loose broad False).State := .ofGraph loosely.obeys
  let s : Lowering.Stock (.loose broad False) Lowering.silent :=
    { state with
      rank := fun id => g.rank id
      value := fun _ => none
      operand := fun isLive isOperand =>
        ⟨state.operand isLive isOperand, Nat.cast_lt.mpr (orders.acyclic.rank_lt isLive isOperand)⟩
      backed := fun _ found => by cases found
      classed := fun _ _ => trivial
      handles := fun _ => .inr (.inr ⟨Lowering.silent_coarsens, fun found => by cases found⟩)
      young := ∅
      powers := fun isYoung => absurd isYoung (Finset.notMem_empty _) }
  have lowers := Lowering.lowers (Lowering.loose_follows broad) Lowering.silent_grades s rfl
  change match Compiler.lowering g with | .ok _ lowered => _ | .error _ _ => _ at lowers
  cases outcome : Compiler.lowering g with
  | error e left =>
      rw [outcome] at lowers
      exact (lowers orders.rooted).elim
  | ok _ lowered =>
      rw [outcome] at lowers
      obtain ⟨t, rfl, later, outputs, finished⟩ := lowers
      refine ⟨t.graph, rfl, ?_, later.state.keeps (fun _ => .root) outputs⟩
      exact {
        toTidy := t.tidy trivial
        acyclic := Graph.acyclic_of_rank t.rank fun reachable uses =>
          (t.operand (finished _ reachable).1 uses).2
        rooted := ⟨outputs ▸ orders.rooted.1, fun root isRoot => by
          rw [outputs] at isRoot
          exact (later.state.isOutput (.root isRoot)).trans (orders.rooted.2 root isRoot)⟩
        allowed := fun {id} reachable => by
          obtain ⟨isLive, lowered⟩ := finished id reachable
          exact ⟨(t.allowed isLive).1, (t.allowed isLive).2.1, fun _ => lowered⟩
      }

/-- Lowering a well-typed graph of scalars without cycles succeeds if all roots are outputs, and
refines it in every algebra that has the laws. -/
theorem lowering_refines {V : Type} {A : Algebra V} {g : Graph} (grades : Lowering.Grades A)
    (acyclic : g.Acyclic) (typed : g.WellTyped) (scalar : g.Scalar)
    (classed : ∀ {id v}, g.Reachable id → g.Has A.meaning id v → A.Classed v (g.register id))
    (handles : ∀ {id}, g.Reachable id → Lowering.Handles A g (g.valueOf? A.meaning) id)
    : match Compiler.lowering g with
      | .ok _ lowered =>
          A.Refines g lowered ∧ lowered.Acyclic ∧ ∀ {id}, lowered.Reachable id → id < lowered.size
      | .error _ _ => ¬ g.Rooted := by
  have obeys : g.Obeys (.typed fun _ => True) := typed.obeys acyclic scalar fun _ _ => trivial
  let s : Lowering.Stock (.typed fun _ => True) A :=
    { g.valuation A Nat.strictMono_cast acyclic typed.lt_size with
      tidy := obeys.tidy
      allowed := obeys.allowed
      classed := fun reachable found => classed reachable (Graph.valueOf?_eq_some.mp found)
      handles := handles
      young := ∅
      powers := fun isYoung => absurd isYoung (Finset.notMem_empty _) }
  have lowers := Lowering.lowers (Lowering.typed_follows _ fun _ => trivial) grades s rfl
  change match Compiler.lowering g with | .ok _ lowered => _ | .error _ _ => _ at lowers
  cases outcome : Compiler.lowering g with
  | error e left => rwa [outcome] at lowers
  | ok _ lowered =>
      rw [outcome] at lowers
      obtain ⟨t, rfl, later, outputs, finished⟩ := lowers
      have roots {root} (isRoot : root ∈ t.graph.outputs) : t.live root :=
        later.values.live (.root (show root ∈ g.outputs from outputs ▸ isRoot))
      exact ⟨later.values.refines rfl .root outputs, t.acyclic roots,
        fun reachable => t.inside (finished _ reachable).1⟩

end StreamExpr
