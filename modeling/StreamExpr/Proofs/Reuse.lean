import StreamExpr.Proofs.Buffers
import StreamExpr.Proofs.Compilation
import StreamExpr.Proofs.Emitter
import StreamExpr.Scratch

/-! A compiler carries nothing from one compile to the next.
Every stage finds its scratch cleared or clears it before it reads from it, so a compile with the
scratch of earlier ones is a compile with new scratch, and none of it depends on the dumper.
-/

namespace StreamExpr

/-! ## Schedules and intervals -/

/-- A graph is scheduled as it would be in new buffers, in place of any older schedule. -/
theorem Schedule.rebuild_eq (g : Graph) (b : Buffers) (s : Schedule)
    : match rebuild g (b, s) with
      | .ok _ (_, s') => ofGraph g = .ok s'
      | .error e _ => ofGraph g = .error e := by
  unfold rebuild ofGraph
  by_cases none : g.outputs.isEmpty
  · simp only [none, if_true]
    rfl
  simp only [none, Bool.false_eq_true, if_false]
  cases g.outputs.find? (!g.isOutput ·) with
  | some root => rfl
  | none =>
      simp only [← Traversal.order_postOrder g g.registerOperands g.outputs.reverse b]
      rfl

namespace LiveInterval

theorem foldl_define (s : Schedule) (entries : List (NodeId × Nat)) (intervals : Array LiveInterval)
    : (entries.foldl (define s) intervals).toList
      = intervals.toList ++ entries.filterMap fun (node, index) =>
          (s.register? node).map fun register =>
          { register, start := index, stop := index, node } := by
  induction entries generalizing intervals with
  | nil => simp
  | cons entry entries ih =>
      rw [List.foldl_cons, ih]
      cases found : s.register? entry.1 <;> simp [define, found]

/-- Older intervals leave no trace. -/
theorem toList_refill (g : Graph) (s : Schedule) (intervals : Array LiveInterval)
    : (refill g s intervals).toList = ofSchedule g s := by
  have defined : s.instructions.zipIdx.foldl (define s) (intervals.take 0) = definitions s := by
    apply Array.toList_inj.mp
    simp [foldl_define, definitions]
  rw [refill, defined, ofSchedule]

end LiveInterval

/-! ## Stages -/

namespace Compiler

variable {α δ : Type} {kept : Graph × δ × Scratch}

/-- What is seen without the scratch. -/
def unscratched (kept : Graph × δ × Scratch) : Graph × δ :=
  (kept.1, kept.2.1)

theorem mirrors_edit (e : Edit α)
    : Mirrors unscratched kept (edit e) (edit e) fun b _ a => a = b := by
  cases ran : e kept.1 with
  | ok a g =>
      exact .of_ok (a := a) (b := a) (u := (g, kept.2)) (by simp only [edit, ran])
        (by simp only [edit, unscratched, ran]) rfl
  | error err g =>
      exact .of_error (e := err) (u := (g, kept.2)) (by simp only [edit, ran])
        (by simp only [edit, unscratched, ran])

theorem mirrors_stage (c : Compiler δ) (tag : String)
    : Mirrors unscratched kept (c.stageWith tag) (c.stage tag) fun _ _ _ => True := by
  unfold stageWith stage
  cases c.dumper with
  | some dumper => exact .of_ok rfl rfl trivial
  | none => exact .pure trivial

/-- What a pass with scratch does is what it does without, if its memory is the same at the
start. -/
theorem mirrors_passIn {σ : Type} {memory : Scratch → σ} {put : σ → Scratch → Scratch}
    {order : PassOrder} {transform : Transform σ} {e : Edit Unit}
    (ends : ∀ {g scratch w}, Pass.run order transform ⟨g, memory scratch⟩ = .ok () w
    → e g = .ok () w.graph) (fails : ∀ {g scratch err w},
      Pass.run order transform ⟨g, memory scratch⟩ = .error err w
      → e g = .error err w.graph)
    : Mirrors unscratched kept (passIn memory put order transform) (edit e) fun _ _ _ => True := by
  obtain ⟨g, notes, scratch⟩ := kept
  have mirrors := BufferM.mirrors_run order transform ⟨g, memory scratch, scratch.buffers⟩
  cases ran : BufferM.run order transform ⟨g, memory scratch, scratch.buffers⟩ with
  | ok _ w =>
      obtain ⟨_, same, _⟩ := mirrors.of_eq_ok ran
      have ended := ends same
      exact .of_ok (a := ()) (b := ())
        (u := (w.graph, notes, put w.memory.1 { scratch with buffers := w.memory.2 }))
        (by simp only [passIn, ran]) (by simp only [edit, unscratched, ended, BufferM.seen]) trivial
  | error err w =>
      have failed := fails (mirrors.of_eq_error ran)
      exact .of_error (e := err)
        (u := (w.graph, notes, put w.memory.1 { scratch with buffers := w.memory.2 }))
        (by simp only [passIn, ran]) (by simp only [edit, unscratched, failed, BufferM.seen])

theorem mirrors_pass (order : PassOrder) (step : NodeId → Edit NodeId)
    : Mirrors unscratched kept (passWith order step)
      (edit (Edit.pass order step)) fun _ _ _ => True :=
  mirrors_passIn (fun ran => by simp only [Edit.pass, ran])
    (fun failed => by simp only [Edit.pass, failed])

/-- A pass and the dump after it. -/
theorem mirrors_staged (c : Compiler δ) {order : PassOrder} {step : NodeId → Edit NodeId}
    {tag : String} {next : ScratchM δ Program} {same : CompileM δ Program}
    (rest : ∀ kept, Mirrors unscratched kept next same fun program _ same => same = program)
    : Mirrors unscratched kept (do passWith order step; c.stageWith tag; next)
        (do edit (Edit.pass order step); c.stage tag; same) fun program _ same => same = program :=
  (mirrors_pass order step).bind fun _ _ _ _ => (mirrors_stage c tag).bind
  fun _ kept _ _ => rest kept

theorem mirrors_sharing : Mirrors unscratched kept sharingWith
    (edit sharing) fun _ _ _ => True := by
  have cleared (scratch : Scratch) : scratch.table.clear = .empty := rfl
  refine mirrors_passIn (fun ran => ?_) (fun failed => ?_)
  · rw [cleared] at ran
    simp only [sharing, ran]
  · rw [cleared] at failed
    simp only [sharing, failed]

/-- Custom passes run in the buffers one after the other. -/
theorem mirrors_customPasses (passes : List CustomPass)
    : Mirrors unscratched kept (passes.forM fun p => passWith p.order p.step)
      (edit (passes.forM CustomPass.run))
        fun _ _ _ => True := by
  induction passes generalizing kept with
  | nil => exact .of_ok rfl rfl trivial
  | cons p passes ih =>
      rw [List.forM, List.forM, edit_bind]
      exact (mirrors_pass p.order p.step).bind fun _ _ _ _ => ih

/-- The program is emitted that belongs to the schedule and the intervals in the scratch. -/
theorem mirrors_emission {g : Graph} {notes : δ} {scratch : Scratch}
    (scheduled : Schedule.ofGraph g = .ok scratch.schedule)
    (live : scratch.intervals.toList = LiveInterval.ofSchedule g scratch.schedule)
    : Mirrors unscratched (g, notes, scratch) emissionWith (edit generation) fun program _
      same => same = program := by
  let src : Emission.Source := ⟨g, scratch.schedule, .ofIntervals scratch.intervals.toList⟩
  have generated : generate g = Program.emit src.graph src.schedule src.allocation := by
    simp only [generate, scheduled, ← live, bind, Except.bind, src]
  have emitted := EmitterM.emit_eq src scratch.emitter
  cases ended : EmitterM.emit src scratch.emitter with
  | ok program emitter =>
      rw [ended] at emitted
      have written := generated.trans emitted
      exact .of_ok (a := program) (b := program) (u := (g, notes, { scratch with emitter }))
        (by simp only [emissionWith, src, ended])
        (by simp only [edit, generation, unscratched, written]) rfl
  | error err emitter =>
      rw [ended] at emitted
      have failed := generated.trans emitted
      exact .of_error (e := .abandoned err) (u := (g, notes, { scratch with emitter }))
        (by simp only [emissionWith, src, ended])
        (by simp only [edit, generation, unscratched, failed])

/-- A program is generated from nothing that was in the scratch before. -/
theorem mirrors_generation (kept : Graph × δ × Scratch)
    : Mirrors unscratched kept (do scheduleWith; intervalsWith; emissionWith) (edit generation)
        fun program _ same => same = program := by
  obtain ⟨g, notes, scratch⟩ := kept
  have scheduled := Schedule.rebuild_eq g scratch.buffers scratch.schedule
  cases built : Schedule.rebuild g (scratch.buffers, scratch.schedule) with
  | error err parts =>
      rw [built] at scheduled
      have failed : generate g = .error err := by simp only [generate, scheduled, bind, Except.bind]
      exact .of_error (e := .abandoned err)
        (u := (g, notes, { scratch with buffers := parts.1, schedule := parts.2 }))
        (by simp only [bind, EStateM.bind, scheduleWith, built])
        (by simp only [edit, generation, unscratched, failed])
  | ok _ parts =>
      rw [built] at scheduled
      refine .silent (b := ())
        (u := (g, notes, { scratch with buffers := parts.1, schedule := parts.2 }))
        (by simp only [scheduleWith, built]) rfl ?_
      refine .silent rfl rfl ?_
      exact mirrors_emission scheduled (LiveInterval.toList_refill g parts.2 scratch.intervals)

/-- A compile with scratch mirrors one without, whatever the scratch holds. -/
theorem mirrors_runWith (c : Compiler δ) (kept : Graph × δ × Scratch)
    : Mirrors unscratched kept c.runWith c.run fun program _ same => same = program := by
  have scalarizes : (edit scalarization : CompileM δ Unit) = (do
      edit StreamSplitting.splitInputs
      edit StreamSplitting.splitOutputs
      edit (Edit.pass .preOrder Scalarization.step)) := by
    simp only [scalarization, edit_bind]
  unfold runWith run
  simp only [scalarizes, bind_assoc]
  refine (mirrors_stage c _).bind fun _ _ _ _ => ?_
  refine c.mirrors_staged fun _ => ?_
  refine c.mirrors_staged fun _ => ?_
  refine (mirrors_edit _).bind fun _ _ _ _ => ?_
  refine (mirrors_edit _).bind fun _ _ _ _ => ?_
  refine c.mirrors_staged fun _ => ?_
  refine c.mirrors_staged fun _ => ?_
  refine c.mirrors_staged fun _ => ?_
  refine c.mirrors_staged fun _ => ?_
  refine mirrors_sharing.bind fun _ _ _ _ => ?_
  refine (mirrors_customPasses c.passes).bind fun _ _ _ _ => ?_
  exact c.mirrors_staged mirrors_generation

/-- What a compile with scratch answers is what a compile answers. -/
theorem compileWith_fst (c : Compiler δ) (g : Graph) (notes : δ) (scratch : Scratch)
    : (c.compileWith g notes scratch).1 = c.compile g notes := by
  have mirrors := c.mirrors_runWith (g, notes, scratch)
  unfold compileWith compile
  cases ran : c.runWith (g, notes, scratch) with
  | ok program kept =>
      obtain ⟨_, same, rfl⟩ := mirrors.of_eq_ok ran
      rw [show c.run (g, notes) = _ from same]
      rfl
  | error e kept =>
      rw [show c.run (g, notes) = _ from mirrors.of_eq_error ran]
      rfl

/-! ## Dumpers -/

theorem mirrors_edit_fst (e : Edit α) {kept : Graph × δ}
    : Mirrors Prod.fst kept (edit e) e fun b _ a => a = b := by
  cases ran : e kept.1 with
  | ok a g => exact .of_ok (a := a) (b := a) (u := (g, kept.2)) (by simp only [edit, ran]) ran rfl
  | error err g => exact .of_error (e := err) (u := (g, kept.2)) (by simp only [edit, ran]) ran

section Unseen

variable {next : CompileM δ Program} {x : Edit Program}
  (rest : ∀ kept, Mirrors Prod.fst kept next x fun program _ same => same = program)

include rest

/-- A dump changes nothing that can be seen of the graph. -/
theorem silent_stage (c : Compiler δ) (tag : String) (kept : Graph × δ)
    : Mirrors Prod.fst kept (do c.stage tag; next) x fun program _ same => same = program := by
  unfold stage
  cases c.dumper with
  | some dumper =>
      exact .silent (b := ()) (u := (kept.1, (dumper.dump kept.1 tag kept.2).2)) rfl rfl (rest _)
  | none => exact .silent (b := ()) (u := kept) rfl rfl (rest _)

/-- A dump and the edit after it. -/
theorem silent_stage_edit (c : Compiler δ) (tag : String) (e : Edit Unit) (kept : Graph × δ)
    : Mirrors Prod.fst kept (do c.stage tag; edit e; next) (do e; x)
      fun program _ same => same = program :=
  silent_stage (fun _ => (mirrors_edit_fst e).bind fun _ kept _ _ => rest kept) c tag kept

end Unseen

/-- Without custom passes, a compile edits the graph as the pipeline does and answers its
program. -/
theorem mirrors_run (dumper : Option (Dumper δ)) (ops : FloatOps) (kept : Graph × δ)
    : Mirrors Prod.fst kept (run { passes := [], dumper, arithmetic := ops }) (pipeline ops)
        fun program _ same => same = program := by
  unfold run pipeline
  -- A dump comes before each of the edits up to sharing.
  iterate 7
    refine silent_stage_edit (fun _ => ?_) _ _ _ _
  -- There are no custom passes between sharing and validation.
  refine .silent rfl rfl ((mirrors_edit_fst validation).bind fun _ _ _ _ => ?_)
  exact silent_stage (fun _ => mirrors_edit_fst generation) _ _ _

/-- What a compile without custom passes answers and leaves is what the pipeline does, whoever looks
on. -/
theorem compileWith_eq_pipeline (dumper : Option (Dumper δ)) (ops : FloatOps) (g : Graph)
    (notes : δ) (scratch : Scratch)
    : let outcome := (compileWith { passes := [], dumper, arithmetic := ops } g notes scratch).1
      (outcome.result, outcome.graph) = match pipeline ops g with
        | .ok program h => (.ok program, h)
        | .error e h => (.error e, h) := by
  have mirrors := mirrors_run dumper ops (g, notes)
  rw [compileWith_fst]
  unfold compile
  cases ran : run { passes := [], dumper, arithmetic := ops } (g, notes) with
  | ok program kept =>
      obtain ⟨_, same, rfl⟩ := mirrors.of_eq_ok ran
      rw [show pipeline ops g = _ from same]
  | error e kept => rw [show pipeline ops g = _ from mirrors.of_eq_error ran]

/-! ## Compiles one after the other -/

/-- A compiler carries nothing from one compile to the next. Whatever it has compiled before and
whoever looked on, it answers what a new compiler that nobody looks at answers, and leaves the graph
as that one does. -/
theorem carries_nothing (dumper : Option (Dumper δ)) (ops : FloatOps) (notes : δ)
    (earlier : List Graph) (g : Graph)
    : let c : Compiler δ := { passes := [], dumper, arithmetic := ops }
      let new : Compiler Unit := { standard with arithmetic := ops }
      let kept := c.afterAll earlier (notes, .fresh)
      let outcome := (c.compileWith g kept.1 kept.2).1
      let first := (new.compileWith g () .fresh).1
      outcome.result = first.result ∧ outcome.graph = first.graph := by
  intro c new kept outcome first
  have reused := compileWith_eq_pipeline dumper ops g kept.1 kept.2
  have alone := compileWith_eq_pipeline (none : Option (Dumper Unit)) ops g () .fresh
  exact Prod.mk.inj (reused.trans alone.symm)

end Compiler

end StreamExpr
