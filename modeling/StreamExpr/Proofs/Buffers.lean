import StreamExpr.Buffers
import StreamExpr.Proofs.Calls

/-! Passes that run in buffers do what passes do.
Whatever the buffers hold when a pass starts, it makes the same calls, leaves the same graph, and
fails in the same way. A pass reads from the buffers only what it has written there since it
started.
-/

namespace StreamExpr

variable {ε σ τ α β γ κ : Type}

/-! ## Passes -/

theorem Buffers.memo_postOrder (g : Graph) (operands : NodeId → List NodeId)
    (roots : List NodeId) (b : Buffers)
    : (b.postOrder g operands roots).memo = b.memo := by
  rw [Traversal.postOrder_buffers (Traversal.searches_foldl g operands roots _)]
  rfl

namespace BufferM

variable {w : Workspace (σ × Buffers)}

/-- What is seen without the buffers. -/
def seen (w : Workspace (σ × Buffers)) : Workspace σ :=
  ⟨w.graph, w.memory.1⟩

/-- What is done beside the buffers leaves them alone. -/
def besides (σ : Type) : Pass.Likeness σ (σ × Buffers) where
  Alike x y := ∀ w, Mirrors seen w y x fun b u a => a = b ∧ u.memory.2 = w.memory.2
  pure _ _ := .pure ⟨rfl, rfl⟩
  throw e _ := .throw e
  read _ _ := .of_ok rfl rfl ⟨rfl, rfl⟩
  point _ _ _ _ := .of_ok rfl rfl ⟨rfl, rfl⟩
  redirect _ _ _ := .of_ok rfl rfl ⟨rfl, rfl⟩
  bind first next w := (first w).bind <| by
    rintro b u _ ⟨rfl, kept⟩
    refine (next _ u).imp ?_
    rintro c v _ ⟨rfl, keptOn⟩
    exact ⟨rfl, keptOn.trans kept⟩
  loop := by
    intro _ _ body other alike a w
    refine .untilDone (fun b u a => a = b ∧ u.memory.2 = w.memory.2) ?_ ⟨rfl, rfl⟩
    rintro b u _ ⟨rfl, kept⟩
    refine (alike _ u).imp ?_
    rintro _ v outcome ⟨rfl, keptOn⟩
    cases outcome with
    | inl _ => exact .inl ⟨rfl, keptOn.trans kept⟩
    | inr _ => exact .inr ⟨rfl, keptOn.trans kept⟩

theorem alike_beside (x : PassM σ α) : (besides σ).Alike x (beside x) := by
  intro w
  cases ran : x ⟨w.graph, w.memory.1⟩ with
  | ok a v =>
      exact .of_ok (u := ⟨v.graph, v.memory, w.memory.2⟩)
        (by simp only [beside, ran]) ran ⟨rfl, rfl⟩
  | error e v =>
      exact .of_error (u := ⟨v.graph, v.memory, w.memory.2⟩) (by simp only [beside, ran]) ran

/-- The workspace after a change of its buffers. -/
def changed (f : Buffers → Buffers) (w : Workspace (σ × Buffers)) : Workspace (σ × Buffers) :=
  { w with memory := (w.memory.1, f w.memory.2) }

section Silent

variable {x : PassM σ α} {post : β → Workspace (σ × Buffers) → α → Prop}

theorem silent_read {f : Buffers → γ} {next : γ → BufferM σ β}
    (mirrors : Mirrors seen w (next (f w.memory.2)) x post)
    : Mirrors seen w (read f >>= next) x post :=
  .silent rfl rfl mirrors

theorem silent_change {f : Buffers → Buffers} {next : Unit → BufferM σ β}
    (mirrors : Mirrors seen (changed f w) (next ()) x post)
    : Mirrors seen w (change f >>= next) x post :=
  .silent rfl rfl mirrors

end Silent

/-! ## Parents first -/

/-- The frontier of a walk: its pending nodes with what the buffers hold. -/
def frontier (w : Workspace (σ × Buffers)) (pending : List NodeId) : Pass.Frontier :=
  { memo := w.memory.2.memo, met := w.memory.2.met, pending }

theorem frontier_of_eq {u : Workspace (σ × Buffers)} (kept : u.memory.2 = w.memory.2)
    (pending : List NodeId)
    : frontier u pending = frontier w pending := by
  simp only [frontier, kept]

theorem mirrors_resolve (transform : Transform σ) (id : NodeId)
    : Mirrors seen w (resolve transform id) (Pass.resolve transform w.memory.2.memo id)
        fun new u a => a = (new, u.memory.2.memo) ∧ u.memory.2.met = w.memory.2.met := by
  unfold resolve Pass.resolve
  apply silent_read
  cases w.memory.2.memo[id]? with
  | some done => exact .pure ⟨rfl, rfl⟩
  | none =>
      refine (alike_beside (transform id) w).bind ?_
      rintro _ u done ⟨rfl, kept⟩
      apply silent_change
      exact .pure ⟨by simp only [changed, kept], by simp only [changed, kept]⟩

/-- Meeting a node changes nothing but the frontier. -/
theorem silent_meet {x : PassM σ α} {id : NodeId} {pending : List NodeId}
    {next : List NodeId → BufferM σ β} {post : β → Workspace (σ × Buffers) → α → Prop}
    (mirrors : ∀ u met, frontier u met = (frontier w pending).meet id
    → Mirrors seen u (next met) x post)
    : Mirrors seen w (meet id pending >>= next) x post := by
  rw [meet, bind_assoc]
  apply silent_read
  by_cases known : w.memory.2.met.contains id
  · rw [if_pos known, pure_bind]
    exact mirrors w pending (by rw [Pass.Frontier.meet, if_pos (by exact known)])
  · rw [if_neg known, bind_assoc]
    apply silent_change
    rw [pure_bind]
    exact mirrors _ _ (by rw [Pass.Frontier.meet, if_neg (by exact known)]; rfl)

theorem mirrors_descend (transform : Transform σ) (parent : NodeId) (slots : List Nat)
    (pending : List NodeId)
    : Mirrors seen w (descend transform parent slots pending)
        (Pass.descend transform parent slots (frontier w pending)) fun pending u f =>
        f = frontier u pending := by
  induction slots generalizing w pending with
  | nil => exact .pure rfl
  | cons slot slots ih =>
      unfold descend Pass.descend
      refine ((besides σ).read (·.children parent) w).bind ?_
      rintro _ u children ⟨rfl, kept⟩
      rw [← frontier_of_eq kept]
      cases children[slot]? with
      | none => exact ih pending
      | some child =>
          refine (mirrors_resolve transform child).bind ?_
          rintro new v _ ⟨rfl, met⟩
          refine ((besides σ).pointSlot parent slot child new v).bind ?_
          rintro _ v' _ ⟨rfl, keptOn⟩
          have same
            : frontier v' pending = { frontier u pending with memo := v.memory.2.memo } := by
            simp only [frontier, keptOn, met]
          rw [← same]
          apply silent_meet
          intro t pending found
          rw [← found]
          exact ih pending

theorem mirrors_visit (transform : Transform σ) (pending : List NodeId)
    : Mirrors seen w (visit transform pending) (Pass.visit transform (frontier w pending))
      fun outcome u seen =>
        Sum.LiftRel (fun pending f => f = frontier u pending)
          (fun _ f => f = frontier u []) outcome seen := by
  cases pending with
  | nil => exact .pure (.inr rfl)
  | cons parent pending =>
      unfold visit Pass.visit
      refine ((besides σ).read (fun g => List.range (g.children parent).length) w).bind ?_
      rintro _ u slots ⟨rfl, kept⟩
      have same : { frontier w (parent :: pending) with pending } = frontier u pending :=
        (frontier_of_eq kept pending).symm
      rw [same]
      refine (mirrors_descend transform parent slots pending).bind ?_
      rintro pending v _ rfl
      exact .pure (.inl rfl)

theorem mirrors_drain (transform : Transform σ) (pending : List NodeId)
    : Mirrors seen w (drain transform pending) (Pass.drain transform (frontier w pending))
        fun _ u f => f = frontier u [] := by
  refine .untilDone (fun pending u f => f = frontier u pending) ?_ rfl
  rintro pending u _ rfl
  exact mirrors_visit transform pending

theorem mirrors_preOrderRoots (transform : Transform σ) (roots : List (Nat × NodeId))
    : Mirrors seen w (preOrderRoots transform roots)
        (Pass.preOrderRoots transform roots (frontier w [])) fun _ _ _ => True := by
  induction roots generalizing w with
  | nil => exact .pure trivial
  | cons root roots ih =>
      obtain ⟨index, root⟩ := root
      unfold preOrderRoots Pass.preOrderRoots
      refine ((besides σ).transformRoot (fun id => alike_beside (transform id)) root w).bind ?_
      rintro _ u root ⟨rfl, kept⟩
      refine ((besides σ).redirect index root u).bind ?_
      rintro _ v _ ⟨rfl, keptOn⟩
      rw [← frontier_of_eq (keptOn.trans kept)]
      apply silent_meet
      intro t pending found
      rw [← found]
      refine (mirrors_drain transform pending).bind ?_
      rintro _ t' _ rfl
      exact ih

/-! ## Operands first -/

theorem mirrors_replaceSlots (transform : Transform σ) (parent : NodeId) (slots : List Nat)
    : Mirrors seen w (replaceSlots transform parent slots)
        (Pass.replaceSlots transform parent slots w.memory.2.memo) fun _ u memo =>
        memo = u.memory.2.memo := by
  induction slots generalizing w with
  | nil => exact .pure rfl
  | cons slot slots ih =>
      unfold replaceSlots Pass.replaceSlots
      refine ((besides σ).read (·.children parent) w).bind ?_
      rintro _ u children ⟨rfl, kept⟩
      rw [← kept]
      cases children[slot]? with
      | none => exact ih
      | some child =>
          simp only
          apply silent_read
          cases u.memory.2.memo[child]? with
          | some done =>
              refine ((besides σ).pointSlot parent slot child done u).bind ?_
              rintro _ v _ ⟨rfl, keptOn⟩
              rw [← keptOn]
              exact ih
          | none =>
              refine (alike_beside (transform child) u).bind ?_
              rintro _ v done ⟨rfl, keptOn⟩
              apply silent_change
              refine ((besides σ).pointSlot parent slot child done _).bind ?_
              rintro _ t _ ⟨rfl, inserted⟩
              have same : u.memory.2.memo.insert child done = t.memory.2.memo := by
                simp only [inserted, changed, keptOn]
              rw [same]
              exact ih

theorem mirrors_replaceAll (transform : Transform σ) (nodes : List NodeId)
    : Mirrors seen w (replaceAll transform nodes) (Pass.replaceAll transform nodes w.memory.2.memo)
        fun _ _ _ => True := by
  induction nodes generalizing w with
  | nil => exact .pure trivial
  | cons parent rest ih =>
      unfold replaceAll Pass.replaceAll
      refine ((besides σ).read (fun g => List.range (g.children parent).length) w).bind ?_
      rintro _ u slots ⟨rfl, kept⟩
      rw [← kept]
      refine (mirrors_replaceSlots transform parent slots).bind ?_
      rintro _ v _ rfl
      exact ih

/-! ## Whole passes -/

/-- A pass that runs in buffers mirrors one that runs without, whatever the buffers hold. -/
theorem mirrors_run (order : PassOrder) (transform : Transform σ) (w : Workspace (σ × Buffers))
    : Mirrors seen w (run order transform) (Pass.run order transform) fun _ _ _ => True := by
  unfold run Pass.run
  refine ((besides σ).read Graph.outputs w).bind ?_
  rintro _ u roots ⟨rfl, _⟩
  by_cases none : roots.isEmpty
  · simp only [none, if_true]
    exact .throw_bind _
  simp only [none, Bool.false_eq_true, if_false]
  apply silent_change
  cases order with
  | preOrder =>
      exact mirrors_preOrderRoots transform _
  | postOrder =>
      refine .silent (b := u.graph) rfl rfl ?_
      apply silent_change
      apply silent_read
      apply silent_change
      refine .look (a := u.graph.postOrder u.graph.children roots) rfl ?_
      have blank : (u.memory.2.clear.postOrder u.graph u.graph.children roots).memo = {} :=
        Buffers.memo_postOrder ..
      rw [← Traversal.order_postOrder u.graph u.graph.children roots u.memory.2.clear, ← blank]
      refine (mirrors_replaceAll transform _).bind ?_
      intro _ v _ _
      rw [← bind_pure (Pass.postOrderRoots transform _)]
      refine ((besides σ).postOrderRoots (fun id => alike_beside (transform id)) _ v).bind ?_
      intro _ _ _ _
      exact .of_ok rfl rfl trivial

end BufferM

end StreamExpr
