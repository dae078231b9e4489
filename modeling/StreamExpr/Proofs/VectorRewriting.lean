import StreamExpr.Proofs.Rewriting
import StreamExpr.Proofs.VectorOperators

/-! The replacement of operators on vectors comes to an end.
A replacement is built from operators that are left alone, a dot product apart, which takes one
further node if its operands turn out to be scalars. A cross product takes the most nodes.
-/

namespace StreamExpr.VectorOperators

/-- How many nodes the replacement of a node takes. -/
def need : NodeKind → Nat
  | .unary .length _ | .unary .normalize _ | .unary .all _ | .unary .any _ | .binary .cross _ _ =>
      22
  | .binary .dot _ _ => 1
  | _ => 0

theorem need_outline {n other : Node} (same : n.outline = other.outline)
    : need n.kind = need other.kind := by
  have forgets (kind : NodeKind) : need kind.outline = need kind := by
    cases kind with
    | unary op x => cases op <;> rfl
    | binary op x y => cases op <;> rfl
    | _ => rfl
  rw [← forgets, show n.kind.outline = other.kind.outline from congrArg Node.kind same, forgets]

theorem need_le (n : Node) : need n.kind ≤ 22 := by
  rw [need.eq_def]
  split <;> decide

/-- What the replacement of operators on vectors costs. -/
def tariff : Tariff :=
  .flat (fun n => need n.kind) 1 22 need_outline need_le

variable {base limit : Nat} {bound : ℚ} {ids : List NodeId} {s : RankedGraph} {a b v : NodeId}

/-- Operators on each component are left alone. -/
theorem fits_of_need {n : Node} (inert : need n.kind = 0) : tariff.Fits 0 n :=
  ⟨trivial, Nat.le_of_eq inert, (Nat.le_of_eq inert).trans (Nat.zero_le 1)⟩

theorem concludes_component (stock : tariff.Stock base bound limit ids s)
    (member : v ∈ ids) (c : Nat)
    : tariff.building.Concludes s (Edit.component v c) fun id t =>
        tariff.Stock base bound (limit + 1) (id :: ids) t :=
  (stock.component member fun _ _ => ⟨fits_of_need rfl, Nat.le_refl _⟩).imp
    fun _ _ _ found => found.2

theorem concludes_length (stock : tariff.Stock base bound limit ids s) (member : v ∈ ids)
    : tariff.building.Concludes s (length v) (tariff.Built base bound (limit + 3) ids) := by
  have dot : tariff.Fits 1 (s.graph.deduced (.ofKind (.binary .dot v v) .unknown)) :=
    ⟨trivial, Nat.le_refl _, Nat.le_refl _⟩
  refine .bind (stock.binary member member dot) fun square t _ squared => ?_
  refine (squared.stock.unary List.mem_cons_self (fits_of_need rfl)).imp fun root u _ rooted => ?_
  exact rooted.built rfl (by omega) (List.subset_cons_self _ _)

theorem concludes_magnitude (stock : tariff.Stock base bound limit ids s) (member : v ∈ ids)
    : tariff.building.Concludes s (magnitude v) (tariff.Built base bound (limit + 3) ids) := by
  rw [magnitude, Tariff.concludes_read]
  split
  · refine (stock.unary member (fits_of_need rfl)).imp fun absolute t _ made => ?_
    exact made.built rfl (by omega) (List.Subset.refl _)
  · exact concludes_length stock member

theorem concludes_minor (stock : tariff.Stock base bound limit ids s) (left : a ∈ ids)
    (right : b ∈ ids) (i j : Nat)
    : tariff.building.Concludes s (minor a b i j) (tariff.Built base bound (limit + 7) ids) := by
  refine .bind (concludes_component stock left i) fun aᵢ _ _ stock => ?_
  refine .bind (concludes_component stock (by simp [right]) j) fun bⱼ _ _ stock => ?_
  refine .bind (concludes_component stock (by simp [left]) j) fun aⱼ _ _ stock => ?_
  refine .bind (concludes_component stock (by simp [right]) i) fun bᵢ _ _ stock => ?_
  refine .bind (stock.binary (by simp) (by simp) (fits_of_need rfl)) fun first _ _ made => ?_
  refine .bind (made.stock.binary (by simp) (by simp) (fits_of_need rfl)) fun second _ _ made => ?_
  refine (made.stock.binary (by simp) (by simp) (fits_of_need rfl)).imp
    fun difference _ _ made => ?_
  exact made.built rfl (by omega) fun _ member => by simp [member]

theorem concludes_cross (stock : tariff.Stock base bound limit ids s) (left : a ∈ ids)
    (right : b ∈ ids) (type : DataType)
    : tariff.building.Concludes s (cross a b type) (tariff.Built base bound (limit + 22) ids) := by
  refine .bind (concludes_minor stock left right 1 2) fun x _ _ built => ?_
  refine .bind (concludes_minor built.stock (by simp [left]) (by simp [right]) 2 0)
    fun y _ _ built => ?_
  refine .bind (concludes_minor built.stock (by simp [left]) (by simp [right]) 0 1)
    fun z _ _ built => ?_
  refine (built.stock.construct (by simp) (fits_of_need rfl)).imp fun product _ _ made => ?_
  exact made.built rfl (by omega) fun _ member => by simp [member]

theorem concludes_normalize (stock : tariff.Stock base bound limit ids s) (member : v ∈ ids)
    : tariff.building.Concludes s
        (do
          let length ← magnitude v
          Edit.binary .divide v length)
        (tariff.Built base bound (limit + 4) ids) := by
  refine .bind (concludes_magnitude stock member) fun length _ _ built => ?_
  refine (built.stock.binary (by simp [member]) (by simp) (fits_of_need rfl)).imp
    fun quotient _ _ made => ?_
  exact made.built rfl (by omega) fun _ member => by simp [member]

/-- A node that needs nothing is left alone. -/
theorem replaceOnce_of_need {g : Graph} {id : NodeId} (inert : tariff.need (g.node id) = 0)
    : replaceOnce id g = .ok id g := by
  change need (g.node id).kind = 0 at inert
  rcases replaceOnce_or_busy g id with found | ⟨_, busy⟩
  · exact found.2
  · cases busy with
    | reduction kind reduces _ =>
        rcases reduces with rfl | rfl <;> rw [kind] at inert <;> cases inert
    | length kind | normalize kind | dot kind | cross kind =>
        rw [kind] at inert
        cases inert

/-- What is built from the operands of a node is a stable replacement. -/
theorem advances_of_operands {edit : Edit NodeId} {id : NodeId} {kind : NodeKind} {cost : Nat}
    (fair : tariff.Fair base s.graph) (own : (s.graph.node id).kind = kind)
    (proper : ∀ v chosen, kind ≠ .swizzle v chosen) (few : cost ≤ need kind)
    (built : tariff.Stock base (s.rank id).level (tariff.worth base s.graph) kind.children s →
      tariff.building.Concludes s edit
        (tariff.Built base (s.rank id).level (tariff.worth base s.graph + cost) kind.children))
    : tariff.Advances replaceOnce base s id edit :=
  Tariff.advances_of_operands fair replaceOnce_of_need own proper
    (few.trans (Nat.le_of_eq (congrArg need own.symm))) built

theorem covers_replaceOnce : tariff.Covers replaceOnce where
  output {g id} isOutput := by
    refine replaceOnce_of_need ?_
    rw [Graph.isOutput, Node.isOutput] at isOutput
    split at isOutput
    next kind =>
      exact congrArg need kind
    · cases isOutput
  advances {base s id} fair inside := by
    rcases replaceOnce_or_busy s.graph id with ⟨_, fixed⟩ | ⟨_, busy⟩
    · exact .of_ok (t := s) fixed ((RankedGraph.edits _).refl s)
        (.stays (Tariff.Ends.refl fair inside))
    rw [Tariff.Advances, replaceOnce, RankedGraph.concludes_read]
    cases busy with
    | length kind =>
        rw [kind]
        exact advances_of_operands fair kind (fun _ _ found => by cases found) (by simp [need])
          fun stock =>
          concludes_magnitude stock (by simp [NodeKind.children])
    | normalize kind =>
        rw [kind]
        exact advances_of_operands fair kind (fun _ _ found => by cases found) (by simp [need])
          fun stock =>
          concludes_normalize stock (by simp [NodeKind.children])
    | @reduction op v kind reduces narrow =>
        have uses : v ∈ (s.graph.node id).kind.children := by simp [kind, NodeKind.children]
        obtain ⟨operandInside, lower⟩ := s.operand uses
        have large : need (s.graph.node id).kind = 22 := by
          rw [kind]
          rcases reduces with rfl | rfl <;> rfl
        have advances : (tariff.settling base).Advances replaceOnce s id v s :=
          Tariff.advances_of_lower fair operandInside lower
            ((tariff.granted _).trans (Nat.le_of_eq large.symm))
            (Nat.lt_of_lt_of_eq (by decide) large.symm)
        rcases reduces with rfl | rfl <;>
        · rw [kind]
          simp only
          rw [RankedGraph.concludes_read, if_pos narrow]
          exact .pure advances
    | dot kind left right =>
        rw [kind]
        simp only
        rw [RankedGraph.concludes_read, left, right]
        exact advances_of_operands fair kind (fun _ _ found => by cases found) (Nat.le_refl 1)
          fun stock =>
          (stock.binary (by simp [NodeKind.children]) (by simp [NodeKind.children])
          (fits_of_need rfl)).imp
            fun product _ _ made => made.built rfl (Nat.le_refl _) (List.Subset.refl _)
    | cross kind =>
        rw [kind]
        exact advances_of_operands fair kind (fun _ _ found => by cases found) (Nat.le_refl 22)
          fun stock =>
          concludes_cross stock (by simp [NodeKind.children]) (by simp [NodeKind.children]) _

end StreamExpr.VectorOperators
