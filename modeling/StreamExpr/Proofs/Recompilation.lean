import StreamExpr.Proofs.Compilation

/-! Compiling again changes nothing.
A graph that a program was generated from is left alone by every stage: it is typed, its streams and
its reachable nodes are scalar, and nothing is left to fold, to lower or to share. So a second
compile generates the same program.
-/

namespace StreamExpr

variable {g : Graph} {id : NodeId}

/-! ## Stages that change nothing -/

/-- A pass whose step answers every reachable node with itself leaves the graph as it is. -/
theorem Edit.pass_of_fixed {order : PassOrder} {step : NodeId → Edit NodeId} (enclosed : g.Enclosed)
    (acyclic : g.Acyclic) (rooted : g.Rooted)
    (fixed : ∀ {id}, g.Reachable id → step id g = .ok id g)
    : Edit.pass order step g = .ok () g := by
  have agrees : Edit.Agrees g (fun _ => True) False step := fun id reachable =>
    .of_ok (t := ()) (fixed reachable) trivial ⟨rfl, trivial⟩
  have unrooted (isUnrooted : ¬ g.Rooted) : False := isUnrooted rooted
  cases order with
  | preOrder =>
      obtain ⟨_, _, ran, _⟩ := (agrees.runs_preOrder (.inr enclosed) unrooted).exists_ok
      exact ran
  | postOrder =>
      obtain ⟨_, _, ran, _⟩ := (agrees.runs_postOrder acyclic unrooted).exists_ok
      exact ran

namespace Typing

theorem step_of_sound (enclosed : g.Enclosed) (sound : g.Sound (g.node id))
    : step id g = .ok id g := by
  refine step_of_fit ?_ ⟨sound.known, fun {slot child r} atSlot asked known => ?_,
    fun {decl e} kind => ?_⟩
    fun _ uses => enclosed.operand uses
  · rw [Graph.deduce, Graph.deduced_eq_self sound.inferred sound.trimmed, Graph.replace_self]
  · have atType : ((g.node id).children.map g.type)[slot]? = some (g.type child) := by
      rw [List.getElem?_map]
      exact congrArg (Option.map g.type) atSlot
    exact sound.classes atType ((g.expected?_eq_asks? id slot).symm.trans asked) known
  · obtain ⟨own, written⟩ := sound.type_output kind
    exact congrArg DataType.width (written.trans own.symm)

end Typing

namespace StreamSplitting

/-- Where no node reads a vector stream, nothing is split. -/
theorem splitAll_of_narrow (narrow : ∀ id, Narrow g id) (ids : List NodeId) (carriers : Carriers)
    : splitAll ids carriers g = .ok carriers g := by
  induction ids with
  | nil => rfl
  | cons id ids ih =>
      simp only [splitAll, bind, EStateM.bind, splitInput_of_narrow (narrow id)]
      exact ih

theorem splitInputs_of_narrow (narrow : ∀ id, Narrow g id) : splitInputs g = .ok () g := by
  rw [splitInputs, Edit.read_bind]
  simp only [bind, EStateM.bind, splitAll_of_narrow narrow]
  have same : (g.inputs.flatMap fun id => (∅ : Carriers).getD id [id]) = g.inputs := by simp
  change EStateM.Result.ok () { g with
    inputs := g.inputs.flatMap fun id => (∅ : Carriers).getD id [id] } = _
  rw [same]

/-- Roots that write scalar streams stay. -/
theorem splitRoots_of_scalar {roots : List NodeId}
    (scalar : ∀ root ∈ roots, ∃ decl e, (g.node root).kind = .output decl e
    ∧ decl.type.isVector = false)
    : splitRoots roots g = .ok roots g := by
  induction roots with
  | nil => rfl
  | cons root roots ih =>
      obtain ⟨⟨decl, e, kind, isScalar⟩, rest⟩ := List.forall_mem_cons.mp scalar
      have stays : splitRoot root g = .ok [root] g := by
        rw [splitRoot, Edit.read_bind]
        simp only [kind, isScalar, Bool.false_eq_true, if_false]
        rfl
      simp only [splitRoots, bind, EStateM.bind, stays, ih rest]
      rfl

theorem splitOutputs_of_scalar (declares : g.Declares)
    (scalar : ∀ decl ∈ g.declared, decl.type.isVector = false)
    : splitOutputs g = .ok () g := by
  have stay : splitRoots g.outputs g = .ok g.outputs g := by
    refine splitRoots_of_scalar fun root isRoot => ?_
    obtain ⟨decl, e, kind, isDeclared⟩ := declares isRoot
    exact ⟨decl, e, kind, scalar decl isDeclared⟩
  have same : g.declared.flatMap declaredComponents = g.declared := by
    have single : ∀ decl ∈ g.declared, declaredComponents decl = [decl] := fun decl isDeclared => by
      rw [declaredComponents, scalar decl isDeclared]
      rfl
    rw [List.flatMap_congr single, List.flatMap_singleton']
  rw [splitOutputs, Edit.read_bind]
  simp only [bind, EStateM.bind, stay]
  change EStateM.Result.ok () { g with declared := g.declared.flatMap declaredComponents } = _
  rw [same]

end StreamSplitting

/-- Without operators on vectors there is nothing to replace. -/
theorem VectorOperators.step_of_unmixed (unmixed : (g.node id).kind.mixes = false)
    : step id g = .ok id g := by
  refine Edit.settle_of_fixed ?_
  rw [replaceOnce, Edit.read_bind]
  cases kind : (g.node id).kind with
  | unary op x =>
      rw [kind] at unmixed
      cases op <;> first | (cases unmixed; done) | rfl
  | binary op x y =>
      rw [kind] at unmixed
      cases op <;> first | (cases unmixed; done) | rfl
  | _ => rfl

/-- Without operators on vectors and what is put together from parts there is no component to
select. -/
theorem Scalarization.step_of_whole (unmixed : (g.node id).kind.mixes = false)
    (whole : (g.node id).kind.isAssembly = false)
    : step id g = .ok id g := by
  refine Edit.settle_of_fixed (scalarizeOnce_of_settled ?_)
  rw [Node.isSettled]
  cases kind : (g.node id).kind with
  | unary op x =>
      rw [kind] at unmixed
      cases op <;> first | rfl | cases unmixed
  | binary op x y =>
      rw [kind] at unmixed
      cases op <;> first | rfl | cases unmixed
  | swizzle x chosen =>
      rw [kind] at whole
      cases whole
  | _ => rfl

/-- A table in which reachable nodes stand for their keys. -/
structure Sharing.Roster (g : Graph) where
  table : Table
  stands : ∀ {key id}, table.find? key = some id → g.Reachable id ∧ key? (g.node id) = some key

/-- A node is entered for its own key at most, and answered with itself, where no two nodes have the
same key. -/
theorem Sharing.agrees_step (shared : g.Shared)
    : Pass.Agrees g (fun s : Roster g => s.table) (fun _ => True) False step := by
  intro s id reachable
  have ran := step_of_key g id s.table
  cases own : key? (g.node id) with
  | none =>
      rw [own] at ran
      exact .of_ok (t := s) ran trivial ⟨rfl, trivial⟩
  | some key =>
      rw [own] at ran
      cases found : s.table.find? key with
      | some other =>
          simp only [found] at ran
          obtain ⟨otherReachable, same⟩ := s.stands found
          obtain rfl := shared reachable otherReachable own same
          exact .of_ok (t := s) ran trivial ⟨rfl, trivial⟩
      | none =>
          simp only [found] at ran
          refine .of_ok (t := ⟨s.table.insert key id, fun {other entered} isEntered => ?_⟩)
            ran trivial ⟨rfl, trivial⟩
          rw [Table.find?_insert] at isEntered
          split at isEntered
          case isTrue same =>
            obtain rfl := Option.some.inj isEntered
            exact ⟨reachable, same ▸ own⟩
          case isFalse => exact s.stands isEntered

/-- Where no two nodes have the same key, nothing is shared. -/
theorem sharing_of_shared (acyclic : g.Acyclic) (rooted : g.Rooted) (shared : g.Shared)
    : Compiler.sharing g = .ok () g := by
  let start : Sharing.Roster g :=
    ⟨.empty, fun {key id} found => by cases (Sharing.Table.find?_empty key).symm.trans found⟩
  obtain ⟨_, t, ran, _⟩ :=
    ((Sharing.agrees_step shared).runs_postOrder acyclic
      (fun unrooted => unrooted rooted) start).exists_ok
  have stays : Pass.run .postOrder Sharing.step ⟨g, .empty⟩ = .ok () ⟨g, t.table⟩ := ran
  rw [Compiler.sharing, stays]

/-! ## The stages together -/

/-- What has passed validation is not put together from parts. -/
theorem Validation.whole_of_passes (passes : failure? g id = none)
    : (g.node id).kind.isAssembly = false := by
  obtain ⟨code, found⟩ := (passed_of_failure? passes).selected
  rw [Graph.opCode?] at found
  cases kind : (g.node id).kind <;> first | rfl | simp only [kind, reduceCtorEq] at found

/-- No stage changes a graph without vectors in which nothing is left to fold, to lower or to
share. -/
theorem Graph.Orders.stages {ops : FloatOps} {broad : Prop} (orders : g.Orders (.quiet ops broad))
    (whole : ∀ {id}, g.Reachable id → (g.node id).kind.isAssembly = false) (shared : g.Shared)
    (narrow : ∀ id, StreamSplitting.Narrow g id) (declares : g.Declares)
    (declared : ∀ decl ∈ g.declared, decl.type.isVector = false)
    : Compiler.Stages ops g g g g g g g g := by
  have unchanged {order : PassOrder} {step : NodeId → Edit NodeId}
      (fixed : ∀ {id}, g.Reachable id → step id g = .ok id g) : Edit.pass order step g = .ok () g :=
    Edit.pass_of_fixed orders.toEnclosed orders.acyclic orders.rooted fixed
  have loose {id} (reachable : g.Reachable id)
    : g.Loose (g.node id) := (orders.allowed reachable).1.1
  have folds : Compiler.folding ops g = .ok () g :=
    unchanged fun reachable => Folding.step_quiet (orders.allowed reachable).2
  refine ⟨unchanged fun reachable => Typing.step_of_sound orders.toEnclosed
    (orders.loosely.sound whole reachable),
    unchanged fun reachable => VectorOperators.step_of_unmixed (loose reachable).unmixed, ?_, folds,
    unchanged fun reachable => ?_, folds, sharing_of_shared orders.acyclic orders.rooted shared⟩
  · simp only [Compiler.scalarization, bind, EStateM.bind,
      StreamSplitting.splitInputs_of_narrow narrow, StreamSplitting.splitOutputs_of_scalar declares
      declared]
    exact unchanged fun reachable => Scalarization.step_of_whole
      (loose reachable).unmixed (whole reachable)
  · exact Edit.settle_of_fixed (Graph.lowerOnce_lowered ((orders.allowed reachable).1.2.2 trivial))

namespace Compiler

variable {h : Graph} {program : Program}

/-- Types were deduced in a compile that succeeds. -/
theorem exists_typed {ops : FloatOps} (ran : pipeline ops g = .ok program h)
    : ∃ typed, typing g = .ok () typed := by
  cases deduced : typing g with
  | ok _ typed => exact ⟨typed, rfl⟩
  | error e left =>
      simp only [pipeline, bind, EStateM.bind, deduced] at ran
      cases ran

/-- Validation and generation leave the graph as it is. -/
theorem generated_of_ok (enclosed : g.Enclosed)
    (ran : (do validation; generation : Edit Program) g = .ok program h)
    : h = g ∧ validation g = .ok () g ∧ generate g = .ok program := by
  cases accepted : validation g with
  | error e left =>
      simp only [bind, EStateM.bind, accepted] at ran
      cases ran
  | ok _ left =>
      obtain ⟨rfl, _⟩ := Validation.validation_eq_ok enclosed accepted
      simp only [bind, EStateM.bind, accepted, generation] at ran
      cases generated : generate left with
      | error e =>
          simp only [generated] at ran
          cases ran
      | ok other =>
          simp only [generated] at ran
          cases ran
          exact ⟨rfl, rfl, rfl⟩

end Compiler

/-- Compiling a graph again that was built and compiled gives the same program and leaves the graph
as it is. Witness: nothing that validation accepts is a vector, and the first compile has left
nothing to do for any stage. -/
theorem recompile_eq {base graph : Graph} {program : Program} (built : Built base)
    (requires : ∀ id, (base.node id).kind.requiresInputs = true)
    (unused : ∀ {id child}, base.Uses id child → base.isOutput child = false)
    (compiled : Compiler.standard.compile base () = ⟨.ok program, graph, ()⟩)
    : Compiler.standard.compile graph () = ⟨.ok program, graph, ()⟩ := by
  have ran := Compiler.compile_eq_ok_iff.mp compiled
  obtain ⟨typed, deduced⟩ := Compiler.exists_typed ran
  have started : typed.Conforms (.typed Unit False) ∧ typed.Declares :=
    built.conforms requires unused False.elim deduced
  obtain ⟨conforms, declares⟩ := started
  obtain ⟨plain, carried, written, scalar, front⟩ := conforms.exists_scalar declares
  obtain ⟨folded, lowered, refolded, shared, back⟩ :=
    front.isSettled.orders.exists_optimized .standard
  have enclosed : shared.Enclosed := back.isShared.toEnclosed
  rw [(front.stages back deduced).pipeline_eq] at ran
  obtain ⟨rfl, accepted, generated⟩ := Compiler.generated_of_ok enclosed ran
  obtain ⟨_, _, passes⟩ := Validation.validation_eq_ok enclosed accepted
  have again : Compiler.Stages .standard graph graph graph graph graph graph graph graph := by
    refine back.isShared.stages (fun reachable => Validation.whole_of_passes (passes _ reachable))
      back.distinct (fun id {decl} kind => front.narrow id (back.keeps.carries kind))
      (Graph.Declares.of_outlines front.declares back.keeps.outputs
      back.keeps.declared back.keeps.outline) ?_
    rw [back.keeps.declared]
    exact front.declared
  exact Compiler.compile_eq_ok_iff.mpr (again.pipeline_of_generated accepted generated)

theorem recompile_eq_mixedStreams
    : Built mixedStreams
      ∧ (∀ id, (mixedStreams.node id).kind.requiresInputs = true)
      ∧ (∀ {id child}, mixedStreams.Uses id child → mixedStreams.isOutput child = false)
      ∧ ∃ program graph,
          Compiler.standard.compile mixedStreams () = ⟨.ok program, graph, ()⟩
          ∧ Compiler.standard.compile graph () = ⟨.ok program, graph, ()⟩ := by
  obtain ⟨typed, deduced⟩ := exists_typed_mixedStreams
  obtain ⟨conforms, declares⟩ := built_mixedStreams.conforms requires_mixedStreams
    unused_mixedStreams (fun _ => broad_mixedStreams) deduced
  obtain ⟨_, _, _, _, _, _, _, graph, program, _, _, generated⟩ :=
    conforms.exists_program .standard declares deduced
  have compiled := Compiler.compile_eq_ok_iff.mpr generated
  exact ⟨built_mixedStreams, requires_mixedStreams, unused_mixedStreams, program, graph, compiled,
    recompile_eq built_mixedStreams requires_mixedStreams unused_mixedStreams compiled⟩

end StreamExpr
