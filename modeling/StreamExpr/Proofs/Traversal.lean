import Mathlib.Algebra.BigOperators.Group.Finset.Basic
import Mathlib.Algebra.Order.BigOperators.Group.Finset
import StreamExpr.Buffers
import StreamExpr.Proofs.Reachability

/-! The traversal with an explicit stack is a recursive depth-first search.
Working off an entered node together with what it pushes changes the progress as a recursive call
does, and the budget pays for it. On graphs that rank operands below their users the listing has
every node once and after its operands.
-/

namespace StreamExpr

open Relation

namespace Traversal

/-- The nodes a search has met, and those it has listed, last first. -/
structure Progress where
  met : Std.TreeSet NodeId
  listed : List NodeId

/-- A recursive search from the left: a node is marked, its operands are searched, and it is listed.
The depth bounds the length of a path. -/
def search (operands : NodeId → List NodeId) : Nat → Progress → NodeId → Progress
  | 0, p, _ => p
  | depth + 1, p, id =>
      if p.met.contains id then p
      else
        let inner := (operands id).foldl (search operands depth) { p with met := p.met.insert id }
        { inner with listed := id :: inner.listed }

variable {operands : NodeId → List NodeId} {size : Nat}

/-! ## The nodes met only grow -/

theorem search_of_met {depth : Nat} {p : Progress} {id : NodeId} (met : p.met.contains id = true)
    : search operands depth p id = p := by
  cases depth with
  | zero => rfl
  | succ depth => rw [search, if_pos met]

theorem search_of_unmet {depth : Nat} {p : Progress} {id : NodeId} (unmet : ¬ p.met.contains id)
    : search operands (depth + 1) p id
      = { met := ((operands id).foldl (search operands depth)
            { p with met := p.met.insert id }).met
          listed := id :: ((operands id).foldl (search operands depth)
            { p with met := p.met.insert id }).listed } := by
  rw [search, if_neg unmet]

/-- What holds of every call of a search holds of the searches from several nodes. -/
theorem foldl_search_induct {motive : Progress → Prop} {depth : Nat} {p : Progress}
    {ids : List NodeId} (start : motive p)
    (step : ∀ p, motive p → ∀ id ∈ ids, motive (search operands depth p id))
    : motive (ids.foldl (search operands depth) p) := by
  induction ids generalizing p with
  | nil => exact start
  | cons id ids ih =>
      exact ih (step p start id (by simp)) fun p holds id member =>
        step p holds id (List.mem_cons_of_mem _ member)

theorem search_met_mono {depth : Nat} {p : Progress} {id other : NodeId}
    (met : p.met.contains other = true)
    : (search operands depth p id).met.contains other = true := by
  induction depth generalizing p id with
  | zero => exact met
  | succ depth ih =>
      by_cases known : p.met.contains id
      · rwa [search_of_met known]
      · rw [search_of_unmet known]
        refine foldl_search_induct (motive := fun p => p.met.contains other = true) ?_ ?_
        · simp only [Std.TreeSet.contains_insert, met, Bool.or_true]
        · exact fun _ holds _ _ => ih holds

/-! ## The budget of the stack -/

/-- The places of an arena that are not met. -/
def unmet (size : Nat) (met : Std.TreeSet NodeId) : Finset NodeId :=
  {id ∈ Finset.range size | met.contains id = false}

/-- The mentions of operands that are still to come. -/
def load (size : Nat) (operands : NodeId → List NodeId) (met : Std.TreeSet NodeId) : Nat :=
  ∑ id ∈ unmet size met, (operands id).length

theorem unmet_insert {met : Std.TreeSet NodeId} {id : NodeId}
    : unmet size (met.insert id) = (unmet size met).erase id := by
  ext other
  simp only [unmet, Finset.mem_filter, Finset.mem_range, Finset.mem_erase,
    Std.TreeSet.contains_insert, Bool.or_eq_false_iff, beq_eq_false_iff_ne, ne_eq,
    Nat.compare_eq_eq]
  tauto

theorem mem_unmet {met : Std.TreeSet NodeId} {id : NodeId} (inside : id < size)
    (fresh : ¬ met.contains id)
    : id ∈ unmet size met := by
  simp only [unmet, Finset.mem_filter, Finset.mem_range]
  exact ⟨inside, Bool.not_eq_true _ ▸ fresh⟩

theorem card_unmet_insert {met : Std.TreeSet NodeId} {id : NodeId} (inside : id < size)
    (fresh : ¬ met.contains id)
    : (unmet size (met.insert id)).card + 1 = (unmet size met).card := by
  rw [unmet_insert, Finset.card_erase_add_one (mem_unmet inside fresh)]

theorem card_unmet_le (size : Nat) (met : Std.TreeSet NodeId)
    : (unmet size met).card ≤ size := by
  have few := Finset.card_filter_le (Finset.range size) (fun id => met.contains id = false)
  rwa [Finset.card_range] at few

/-- Meeting a node takes its operands off the load; a place outside the arena has none. -/
theorem load_insert (outside : ∀ id, size ≤ id → operands id = []) {met : Std.TreeSet NodeId}
    {id : NodeId} (fresh : ¬ met.contains id)
    : load size operands (met.insert id) + (operands id).length = load size operands met := by
  by_cases inside : id < size
  · rw [load, unmet_insert, Finset.sum_erase_add _ _ (mem_unmet inside fresh), load]
  · have absent : id ∉ unmet size met := by
      simp only [unmet, Finset.mem_filter, Finset.mem_range]
      exact fun member => inside member.1
    rw [load, unmet_insert, Finset.erase_eq_of_notMem absent, load,
      outside id (Nat.le_of_not_lt inside), List.length_nil, Nat.add_zero]

theorem unmet_search_subset (size : Nat) (operands : NodeId → List NodeId) (depth : Nat)
    (p : Progress) (id : NodeId)
    : unmet size (search operands depth p id).met ⊆ unmet size p.met := by
  intro other member
  simp only [unmet, Finset.mem_filter, Finset.mem_range] at member ⊢
  refine ⟨member.1, Bool.eq_false_iff.mpr fun met => ?_⟩
  rw [search_met_mono met] at member
  exact absurd member.2 (by simp)

/-! ## Recursive calls and pending visits -/

/-- A recursive search from some nodes, the first one first, with no bound on its depth. A node that
is met is passed over; any other is marked, its operands are searched, and it is listed. -/
inductive Searches (operands : NodeId → List NodeId) : List NodeId → Progress → Progress → Prop
  | done {p} : Searches operands [] p p
  | skip {p next id ids} (met : p.met.contains id = true) (rest : Searches operands ids p next)
    : Searches operands (id :: ids) p next
  | visit {p inner next id ids} (unmet : ¬ p.met.contains id)
    (below : Searches operands (operands id) { p with met := p.met.insert id } inner)
    (rest : Searches operands ids { inner with listed := id :: inner.listed } next)
    : Searches operands (id :: ids) p next

theorem Searches.unique {ids : List NodeId} {p next other : Progress}
    (searches : Searches operands ids p next) (again : Searches operands ids p other)
    : other = next := by
  induction searches generalizing other with
  | done =>
      cases again
      rfl
  | skip met _ ih =>
      cases again with
      | skip _ rest => exact ih rest
      | visit unmet => exact absurd met unmet
  | visit unmet _ _ ihBelow ihRest =>
      cases again with
      | skip met => exact absurd met unmet
      | visit _ below rest =>
          obtain rfl := ihBelow below
          exact ihRest rest

theorem Searches.met_mono {ids : List NodeId} {p next : Progress}
    (searches : Searches operands ids p next) {other : NodeId} (met : p.met.contains other = true)
    : next.met.contains other = true := by
  induction searches with
  | done => exact met
  | skip _ _ ih => exact ih met
  | visit _ _ _ ihBelow ihRest =>
      exact ihRest (ihBelow (by simp only [Std.TreeSet.contains_insert, met, Bool.or_true]))

/-- A search that may go deep enough makes all recursive calls. Witness: a call marks a node of the
arena, or has no operands to follow. -/
theorem searches_search (outside : ∀ id, size ≤ id → operands id = []) {depth : Nat} {p : Progress}
    (ids : List NodeId) (deep : (unmet size p.met).card < depth)
    : Searches operands ids p (ids.foldl (search operands depth) p) := by
  induction depth generalizing p ids with
  | zero => omega
  | succ depth ihDepth =>
      induction ids generalizing p with
      | nil => exact .done
      | cons id ids ih =>
          have fewer := Finset.card_le_card (unmet_search_subset size operands (depth + 1) p id)
          have rest := ih (Nat.lt_of_le_of_lt fewer deep)
          rw [List.foldl_cons]
          by_cases known : p.met.contains id
          · rw [search_of_met known] at rest ⊢
            exact .skip known rest
          · rw [search_of_unmet known] at rest ⊢
            refine .visit known ?_ rest
            by_cases inside : id < size
            · have smaller := card_unmet_insert inside known
              exact ihDepth _ (by simp only; omega)
            · rw [outside id (Nat.le_of_not_lt inside)]
              exact .done

/-- Buffers in which a search has come some way, with visits still to be made. -/
def Progress.buffers (p : Progress) (b : Buffers) (stack : List Visit) : Buffers :=
  { b with stack, met := p.met, order := p.listed.reverse.toArray }

/-- Working off some visits on a stack amounts to a progress: it takes a number of steps that the
operands no longer to come pay for, and what lies below on the stack is left alone. -/
structure WorksOff (size : Nat) (operands : NodeId → List NodeId) (visits : List Visit)
    (p next : Progress) (steps : Nat)
    : Prop where
  paid : steps + 2 * load size operands next.met ≤ 2 * visits.length + 2 * load size operands p.met
  traverse
    : ∀ budget b stack,
        Buffers.traverse operands (steps + budget) (p.buffers b (visits ++ stack))
        = Buffers.traverse operands budget (next.buffers b stack)

theorem traverse_enter_met {p : Progress} {id : NodeId} (met : p.met.contains id = true)
    (budget : Nat) (b : Buffers) (stack : List Visit)
    : Buffers.traverse operands (1 + budget) (p.buffers b (.enter id :: stack))
      = Buffers.traverse operands budget (p.buffers b stack) := by
  rw [Nat.add_comm, Buffers.traverse]
  simp only [Progress.buffers, met, if_true]

theorem traverse_enter_unmet {p : Progress} {id : NodeId} (unmet : ¬ p.met.contains id)
    (budget : Nat) (b : Buffers) (stack : List Visit)
    : Buffers.traverse operands (1 + budget) (p.buffers b (.enter id :: stack))
      = Buffers.traverse operands budget ({ p with met := p.met.insert id }.buffers b
          (((operands id).filter (!(p.met.insert id).contains ·)).map Visit.enter
          ++ Visit.leave id :: stack)) := by
  rw [Nat.add_comm, Buffers.traverse]
  simp only [Progress.buffers, unmet]
  rfl

theorem traverse_leave (p : Progress) (id : NodeId) (budget : Nat) (b : Buffers)
    (stack : List Visit)
    : Buffers.traverse operands (1 + budget) (p.buffers b (.leave id :: stack))
      = Buffers.traverse operands budget ({ p with listed := id :: p.listed }.buffers b stack) := by
  rw [Nat.add_comm, Buffers.traverse]
  simp only [Progress.buffers, List.push_toArray, List.reverse_cons]

/-- Pending visits are the recursive calls that are still to be made. What was met when the visits
were pushed may be missing from the stack. Witness: induction on the calls; a node takes a step to
enter, the steps of its operands, and a step to leave. -/
theorem Searches.worksOff (outside : ∀ id, size ≤ id → operands id = []) {ids : List NodeId}
    {p next : Progress} (searches : Searches operands ids p next) (seen : Std.TreeSet NodeId)
    (included : ∀ id, seen.contains id = true → p.met.contains id = true)
    : ∃ steps, WorksOff size operands ((ids.filter (!seen.contains ·)).map .enter)
      p next steps := by
  induction searches generalizing seen with
  | done => exact ⟨0, by simp, fun _ _ _ => by simp⟩
  | @skip p next id ids met rest ih =>
      obtain ⟨steps, paid, works⟩ := ih seen included
      by_cases missing : seen.contains id
      · rw [List.filter_cons_of_neg (by simp [missing])]
        exact ⟨steps, paid, works⟩
      · rw [List.filter_cons_of_pos (by simp [missing])]
        refine ⟨1 + steps, ?_, fun budget b stack => ?_⟩
        · simp only [List.length_map, List.length_cons] at paid ⊢
          omega
        · rw [List.map_cons, List.cons_append, Nat.add_assoc, traverse_enter_met met, works]
  | @visit p inner next id ids unmet below rest ihBelow ihRest =>
      have present : ¬ seen.contains id := fun known => unmet (included id known)
      obtain ⟨first, belowPaid, belowWorks⟩ := ihBelow (p.met.insert id) fun _ met => met
      obtain ⟨last, restPaid, restWorks⟩ := ihRest seen fun other known =>
        below.met_mono
          (by simp only [Std.TreeSet.contains_insert, included other known, Bool.or_true])
      rw [List.filter_cons_of_pos (by simp [present])]
      refine ⟨1 + (first + (1 + last)), ?_, fun budget b stack => ?_⟩
      · have fewer := List.length_filter_le (!(p.met.insert id).contains ·) (operands id)
        have pays := load_insert outside unmet
        simp only [List.length_map, List.length_cons] at belowPaid restPaid ⊢
        omega
      · rw [List.map_cons, List.cons_append, Nat.add_assoc, traverse_enter_unmet unmet,
          Nat.add_assoc, belowWorks, Nat.add_assoc, traverse_leave, restWorks]

theorem load_empty
    : load size operands {}
      = ((List.range size).map fun id => (operands id).length).foldr (· + ·) 0 := by
  have all : unmet size {} = Finset.range size := by
    ext id
    simp [unmet]
  rw [load, all]
  rfl

theorem followed_of_size_le {id : NodeId} (outside : size ≤ id)
    : followed size operands id = [] := by
  rw [followed, if_neg (Nat.not_lt.mpr outside)]

theorem searches_foldl (g : Graph) (operands : NodeId → List NodeId)
    (roots : List NodeId) (p : Progress)
    : Searches (followed g.size operands) roots p
        (roots.foldl (search (followed g.size operands) (g.size + 1)) p) :=
  searches_search (fun _ => followed_of_size_le) roots
    (Nat.lt_succ_of_le (card_unmet_le g.size p.met))

/-- Whatever the buffers held, a traversal leaves in them what the recursive search from the roots
finds, and no visit to be made. Witness: every operand is mentioned in the load of the empty
progress, and the budget covers it. -/
theorem postOrder_buffers {g : Graph} {roots : List NodeId} {found : Progress}
    (searches : Searches (followed g.size operands) roots ⟨{}, []⟩ found) (b : Buffers)
    : b.postOrder g operands roots = found.buffers b [] := by
  obtain ⟨steps, paid, works⟩ := searches.worksOff (fun id => followed_of_size_le) {} (by simp)
  have all : roots.filter (!({} : Std.TreeSet NodeId).contains ·) = roots := by simp
  rw [all] at paid works
  rw [load_empty, List.length_map] at paid
  have enough : steps ≤ budget g.size (followed g.size operands) roots := by
    rw [budget]
    omega
  have finished := works (budget g.size (followed g.size operands) roots - steps) b []
  rw [Nat.add_sub_cancel' enough, List.append_nil] at finished
  refine finished.trans ?_
  cases budget g.size (followed g.size operands) roots - steps <;> rfl

/-- Working off the stack lists what it lists outside the buffers. -/
theorem order_traverse (budget : Nat) (b : Buffers)
    : (b.traverse operands budget).order.toList.reverse
      = run operands budget b.stack b.met b.order.toList.reverse := by
  induction budget generalizing b with
  | zero => rfl
  | succ budget ih =>
      cases stack : b.stack with
      | nil => simp only [Buffers.traverse, stack, run]
      | cons visit rest =>
          cases visit with
          | leave id =>
              simp only [Buffers.traverse, stack, run, ih, Array.toList_push, List.reverse_append,
                List.reverse_singleton, List.singleton_append]
          | enter id =>
              simp only [Buffers.traverse, stack, run]
              split
              · exact ih _
              · exact ih _

/-- A traversal lists the nodes in post-order, whatever the buffers held. -/
theorem order_postOrder (g : Graph) (operands : NodeId → List NodeId)
    (roots : List NodeId) (b : Buffers)
    : (b.postOrder g operands roots).order.toList = g.postOrder operands roots := by
  rw [Buffers.postOrder, ← List.reverse_inj, order_traverse, Graph.postOrder, List.reverse_reverse]
  rfl

/-- The stack machine lists what the recursive search from each root lists. -/
theorem postOrder_eq_search (g : Graph) (operands : NodeId → List NodeId) (roots : List NodeId)
    : g.postOrder operands roots
      = (roots.foldl (search (followed g.size operands) (g.size + 1)) ⟨{}, []⟩).listed.reverse := by
  rw [← order_postOrder g operands roots .empty,
    postOrder_buffers (searches_foldl g operands roots _)]
  rfl

theorem Searches.listed_of_closed {live : NodeId → Prop}
    (closed : ∀ {parent child}, live parent → child ∈ operands parent → live child)
    {ids : List NodeId} {p next : Progress} (searches : Searches operands ids p next)
    (idsLive : ∀ id ∈ ids, live id) (listed : ∀ other ∈ p.listed, live other)
    : ∀ other ∈ next.listed, live other := by
  induction searches with
  | done => exact listed
  | skip _ _ ih => exact ih (fun id member => idsLive id (List.mem_cons_of_mem _ member)) listed
  | @visit p inner next id ids _ _ _ ihBelow ihRest =>
      have isLive : live id := idsLive id List.mem_cons_self
      refine ihRest (fun id member => idsLive id (List.mem_cons_of_mem _ member)) ?_
      exact List.forall_mem_cons.mpr
        ⟨isLive, ihBelow (fun child member => closed isLive member) listed⟩

/-- What is closed under the operands that are followed and has all roots has all nodes of the
listing. -/
theorem postOrder_of_followed {g : Graph} {live : NodeId → Prop} {roots : List NodeId}
    (closed : ∀ {parent child}, live parent → child ∈ followed g.size operands parent → live child)
    (rootsLive : ∀ root ∈ roots, live root)
    : ∀ id ∈ g.postOrder operands roots, live id := by
  rw [postOrder_eq_search]
  intro id member
  exact (searches_foldl g operands roots ⟨{}, []⟩).listed_of_closed closed rootsLive (by simp) id
    (List.mem_reverse.mp member)

/-- What is closed under operands and has all roots has all nodes of the listing. -/
theorem postOrder_of_closed {g : Graph} {live : NodeId → Prop} {roots : List NodeId}
    (closed : ∀ {parent child}, live parent → child ∈ operands parent → live child)
    (rootsLive : ∀ root ∈ roots, live root)
    : ∀ id ∈ g.postOrder operands roots, live id := by
  refine postOrder_of_followed (fun {parent child} isLive member => ?_) rootsLive
  rw [followed] at member
  split at member
  · exact closed isLive member
  · cases member

/-! ## Listings of any graph -/

/-- What searching from some nodes lists: nodes that were not met, each once, with all their
operands met in the end. Cycles do no harm. -/
structure Explores (operands : NodeId → List NodeId) (starts : List NodeId) (p next : Progress)
    (added : List NodeId)
    : Prop where
  listed : next.listed = added ++ p.listed
  nodup : added.Nodup
  met : ∀ {id}, next.met.contains id = true ↔ id ∈ added ∨ p.met.contains id = true
  fresh : ∀ id ∈ added, ¬ p.met.contains id
  closed : ∀ id ∈ added, ∀ child ∈ operands id, next.met.contains child = true
  started : ∀ id ∈ starts, next.met.contains id = true

theorem contains_insert_iff {met : Std.TreeSet NodeId} {id other : NodeId}
    : (met.insert id).contains other = true ↔ other = id ∨ met.contains other = true := by
  rw [Std.TreeSet.contains_insert, Bool.or_eq_true, beq_iff_eq, Std.compare_eq_iff_eq, eq_comm]

/-- A search lists what it meets. Witness: induction on the calls. A node is listed when it is left,
and it was met before its operands were searched. -/
theorem Searches.explores {ids : List NodeId} {p next : Progress}
    (searches : Searches operands ids p next)
    : ∃ added, Explores operands ids p next added := by
  induction searches with
  | done => exact ⟨[], rfl, List.nodup_nil, by simp, by simp, by simp, by simp⟩
  | skip met _ ih =>
      obtain ⟨added, rest⟩ := ih
      exact ⟨added, {
        rest with started := List.forall_mem_cons.mpr ⟨rest.met.mpr (.inr met), rest.started⟩
      }⟩
  | @visit p inner next id ids unmet _ _ ihBelow ihRest =>
      obtain ⟨found, below⟩ := ihBelow
      obtain ⟨added, rest⟩ := ihRest
      have metBelow {other} : inner.met.contains other = true
          ↔ other ∈ found ∨ other = id ∨ p.met.contains other = true :=
        below.met.trans (or_congr_right contains_insert_iff)
      -- The node was met before its operands were searched, so the search below has not listed it.
      have unfound : id ∉ found := fun member => below.fresh id member
        (contains_insert_iff.mpr (.inl rfl))
      have metAll {other} : next.met.contains other = true
          ↔ other ∈ added ++ id :: found ∨ p.met.contains other = true := by
        rw [rest.met, metBelow, List.mem_append, List.mem_cons]
        tauto
      refine ⟨added ++ id :: found, ?_, ?_, metAll, ?_, ?_,
        List.forall_mem_cons.mpr ⟨?_, rest.started⟩⟩
      · rw [rest.listed, below.listed, List.append_assoc, List.cons_append]
      · refine List.nodup_append.mpr ⟨rest.nodup, List.nodup_cons.mpr ⟨unfound, below.nodup⟩, ?_⟩
        rintro other isAdded _ isFound rfl
        refine rest.fresh other isAdded (metBelow.mpr ?_)
        rcases List.mem_cons.mp isFound with rfl | earlier
        · exact .inr (.inl rfl)
        · exact .inl earlier
      · intro other member known
        rcases List.mem_append.mp member with isAdded | isFound
        · exact rest.fresh other isAdded (metBelow.mpr (.inr (.inr known)))
        · rcases List.mem_cons.mp isFound with rfl | earlier
          · exact unmet known
          · exact below.fresh other earlier (contains_insert_iff.mpr (.inr known))
      · intro other member child isOperand
        rcases List.mem_append.mp member with isAdded | isFound
        · exact rest.closed other isAdded child isOperand
        · refine rest.met.mpr (.inr ?_)
          rcases List.mem_cons.mp isFound with rfl | earlier
          · exact below.started child isOperand
          · exact below.closed other earlier child isOperand
      · exact metAll.mpr (.inl (by simp))

/-- A listing has every node once, and with the roots all that is followed from what it has. -/
structure Complete (operands : NodeId → List NodeId) (roots order : List NodeId) : Prop where
  nodup : order.Nodup
  roots : ∀ root ∈ roots, root ∈ order
  operand : ∀ {parent child}, parent ∈ order → child ∈ operands parent → child ∈ order

theorem postOrder_complete (g : Graph) (operands : NodeId → List NodeId) (roots : List NodeId)
    : Complete (followed g.size operands) roots (g.postOrder operands roots) := by
  obtain ⟨added, explores⟩ := (searches_foldl g operands roots ⟨{}, []⟩).explores
  have order : g.postOrder operands roots = added.reverse := by
    rw [postOrder_eq_search, explores.listed, List.append_nil]
  have listed {id} := (@explores.met id).trans (or_iff_left (by simp))
  rw [order]
  refine ⟨List.nodup_reverse.mpr explores.nodup, fun root isRoot => ?_,
    fun {parent child} member isOperand => ?_⟩
  · exact List.mem_reverse.mpr (listed.mp (explores.started root isRoot))
  · have isAdded := List.mem_reverse.mp member
    exact List.mem_reverse.mpr (listed.mp (explores.closed parent isAdded child isOperand))

/-- Every node of a listing, last first, stands after its operands, apart from operands that lead
back to it. -/
def Trails (operands : NodeId → List NodeId) : List NodeId → Prop
  | [] => True
  | id :: listed =>
      (∀ child ∈ operands id,
        child ∈ listed ∨ ReflTransGen (fun parent child => child ∈ operands parent) child id)
      ∧ Trails operands listed

theorem Trails.operand_mem_of_append {above below : List NodeId} {parent child : NodeId}
    (trails : Trails operands (above ++ parent :: below)) (operand : child ∈ operands parent)
    (apart : ¬ ReflTransGen (fun parent child => child ∈ operands parent) child parent)
    : child ∈ below := by
  induction above with
  | nil => exact (trails.1 child operand).resolve_right apart
  | cons id above ih => exact ih trails.2

/-- Searching keeps a listing trailing, if the nodes that are met but not left lead to where the
search starts. Witness: induction on the calls. When a node is left, an operand that is not listed
is still being searched, and the search has come from it to the node. -/
theorem Searches.trails {ids : List NodeId} {p next : Progress}
    (searches : Searches operands ids p next) (trails : Trails operands p.listed)
    (leads : ∀ {other}, p.met.contains other = true → other ∉ p.listed → ∀ start ∈ ids,
      ReflTransGen (fun parent child => child ∈ operands parent) other start)
    : Trails operands next.listed := by
  induction searches with
  | done => exact trails
  | skip _ _ ih =>
      exact ih trails fun isMet unlisted start member =>
        leads isMet unlisted start (List.mem_cons_of_mem _ member)
  | @visit p inner next id ids unmet belowSearches _ ihBelow ihRest =>
      obtain ⟨found, below⟩ := belowSearches.explores
      have entered {other} (isMet : (p.met.insert id).contains other = true)
        (unlisted : other ∉ p.listed)
          : ReflTransGen (fun parent child => child ∈ operands parent) other id := by
        rcases contains_insert_iff.mp isMet with rfl | before
        · exact .refl
        · exact leads before unlisted id List.mem_cons_self
      have still {other} (isMet : inner.met.contains other = true) (unlisted : other ∉ inner.listed)
          : (p.met.insert id).contains other = true ∧ other ∉ p.listed := by
        rw [below.listed, List.mem_append, not_or] at unlisted
        exact ⟨(below.met.mp isMet).resolve_left unlisted.1, unlisted.2⟩
      refine ihRest ⟨fun child isOperand => ?_, ?_⟩ fun {other} isMet unlisted start member => ?_
      · by_cases listed : child ∈ inner.listed
        · exact .inl listed
        · have opened := still (below.started child isOperand) listed
          exact .inr (entered opened.1 opened.2)
      · exact ihBelow trails fun isMet unlisted child isOperand =>
          (entered isMet unlisted).tail isOperand
      · have opened := still isMet fun listed => unlisted (List.mem_cons_of_mem _ listed)
        rcases contains_insert_iff.mp opened.1 with rfl | before
        · exact absurd List.mem_cons_self unlisted
        · exact leads before opened.2 start (List.mem_cons_of_mem _ member)

/-- In the listing of any graph, an operand that does not lead back to its user comes before it. -/
theorem postOrder_trails (g : Graph) (operands : NodeId → List NodeId) (roots : List NodeId)
    : Trails (followed g.size operands) (g.postOrder operands roots).reverse := by
  rw [postOrder_eq_search, List.reverse_reverse]
  exact (searches_foldl g operands roots ⟨{}, []⟩).trails trivial (by simp)

/-- The listing has all that the roots lead to and nothing else. -/
theorem mem_postOrder_iff {g : Graph} {roots : List NodeId} {id : NodeId}
    : id ∈ g.postOrder operands roots
      ↔ ∃ root ∈ roots, ReflTransGen
        (fun parent child => child ∈ followed g.size operands parent) root id := by
  constructor
  · have closed {parent child : NodeId}
        (leads : ∃ root ∈ roots, ReflTransGen
        (fun parent child => child ∈ followed g.size operands parent) root parent)
        (follows : child ∈ followed g.size operands parent) : ∃ root ∈ roots,
        ReflTransGen (fun parent child => child ∈ followed g.size operands parent) root child := by
      obtain ⟨root, isRoot, path⟩ := leads
      exact ⟨root, isRoot, path.tail follows⟩
    exact postOrder_of_followed closed (fun root isRoot => ⟨root, isRoot, .refl⟩) id
  · rintro ⟨root, isRoot, path⟩
    have complete := postOrder_complete g operands roots
    induction path with
    | refl => exact complete.roots root isRoot
    | tail _ follows ih => exact complete.operand ih follows

/-- An operand that is on no cycle is listed before its users. -/
theorem operand_mem_of_split {g : Graph} {roots before after : List NodeId} {parent child : NodeId}
    (split : g.postOrder operands roots = before ++ parent :: after)
    (isOperand : child ∈ followed g.size operands parent)
    (apart : ¬ TransGen (fun parent child => child ∈ followed g.size operands parent) child child)
    : child ∈ before := by
  have trails := postOrder_trails g operands roots
  rw [split, List.reverse_append, List.reverse_cons, List.append_assoc,
    List.singleton_append] at trails
  refine List.mem_reverse.mp (trails.operand_mem_of_append isOperand fun path => apart ?_)
  exact .tail' path isOperand

end Traversal

open Traversal in
/-- A traversal with an explicit stack is a recursive depth-first search from the left. Whatever the
buffers held, it ends with no visit to be made, and it has met and listed what the recursive search
from the roots meets and lists. So every node that the roots lead to is listed once, and no other
is; an operand that is on no cycle comes before its users. -/
theorem Buffers.postOrder_depthFirst (g : Graph) (operands : NodeId → List NodeId)
    (roots : List NodeId) (b : Buffers)
    : let follow := followed g.size operands
      let after := b.postOrder g operands roots
      after.stack = []
      ∧ (∀ found : Progress,
          Searches follow roots ⟨{}, []⟩ found ↔ found.met = after.met
          ∧ found.listed.reverse = after.order.toList)
      ∧ after.order.toList.Nodup
      ∧ (∀ id, id ∈ after.order ↔ ∃ root ∈ roots,
        ReflTransGen (fun parent child => child ∈ follow parent) root id)
      ∧ ∀ before parent rest child,
          after.order.toList = before ++ parent :: rest
          → child ∈ follow parent
          → ¬ TransGen (fun parent child => child ∈ follow parent) child child
          → child ∈ before := by
  intro follow after
  have searches := searches_foldl g operands roots ⟨{}, []⟩
  generalize roots.foldl (search (followed g.size operands) (g.size + 1))
    ⟨{}, []⟩ = found at searches
  have final : after = found.buffers b [] := postOrder_buffers searches b
  have listing : after.order.toList = g.postOrder operands roots :=
    order_postOrder g operands roots b
  refine ⟨congrArg Buffers.stack final, fun other => ?_, ?_, fun id => ?_,
    fun before parent rest child split => ?_⟩
  · rw [final]
    constructor
    · intro again
      obtain rfl := searches.unique again
      exact ⟨rfl, rfl⟩
    · rintro ⟨met, listed⟩
      have same : other = found := by
        obtain ⟨otherMet, otherListed⟩ := other
        obtain ⟨foundMet, foundListed⟩ := found
        obtain rfl : otherMet = foundMet := met
        obtain rfl : otherListed = foundListed := List.reverse_inj.mp listed
        rfl
      exact same ▸ searches
  · rw [listing]
    exact (postOrder_complete g operands roots).nodup
  · rw [← Array.mem_toList_iff, listing]
    exact mem_postOrder_iff
  · rw [listing] at split
    exact operand_mem_of_split split

namespace Traversal

/-- Following the operands of all nodes leaves none out. -/
theorem followed_children (g : Graph)
    : followed g.size g.children = g.children := by
  funext id
  rw [followed]
  split
  case isTrue => rfl
  case isFalse outside =>
    exact (Graph.children_of_size_le (Nat.le_of_not_lt outside)).symm

/-- The listing has all that is reachable and nothing else. -/
theorem mem_postOrder {g : Graph} {id : NodeId}
    : id ∈ g.postOrder g.children g.outputs ↔ g.Reachable id := by
  rw [mem_postOrder_iff, followed_children]
  rfl

/-- An operand on no cycle is listed before its users. -/
theorem operand_mem_of_postOrder {g : Graph} {before after : List NodeId} {parent child : NodeId}
    (split : g.postOrder g.children g.outputs = before ++ parent :: after)
    (uses : g.Uses parent child) (apart : ¬ TransGen g.Uses child child)
    : child ∈ before := by
  refine operand_mem_of_split split ?_ ?_
  · rwa [followed_children]
  · rwa [followed_children]

/-! ## Listings of ranked graphs -/

/-- Every node of a listing, last first, stands there once and after all its operands. -/
def Linear (operands : NodeId → List NodeId) : List NodeId → Prop
  | [] => True
  | id :: listed =>
      id ∉ listed ∧ (∀ child ∈ operands id, child ∈ listed) ∧ Linear operands listed

theorem Linear.nodup {listed : List NodeId} (linear : Linear operands listed)
    : listed.Nodup := by
  induction listed with
  | nil => exact List.nodup_nil
  | cons id rest ih => exact List.nodup_cons.mpr ⟨linear.1, ih linear.2.2⟩

theorem Linear.operand_mem {listed : List NodeId} (linear : Linear operands listed)
    {parent child : NodeId} (member : parent ∈ listed) (operand : child ∈ operands parent)
    : child ∈ listed := by
  induction listed with
  | nil => cases member
  | cons id rest ih =>
      rcases List.mem_cons.mp member with same | later
      · exact List.mem_cons_of_mem _ (linear.2.1 child (same ▸ operand))
      · exact List.mem_cons_of_mem _ (ih linear.2.2 later)

/-- The operands of a listed node are listed below it. -/
theorem Linear.operand_mem_of_append {above below : List NodeId} {parent child : NodeId}
    (linear : Linear operands (above ++ parent :: below)) (operand : child ∈ operands parent)
    : child ∈ below := by
  induction above with
  | nil => exact linear.2.1 child operand
  | cons id above ih => exact ih linear.2.2

/-- The live nodes are closed under operands, and operands rank below their users. -/
structure Ranking (operands : NodeId → List NodeId) (live : NodeId → Prop) (rank : NodeId → Nat)
    : Prop where
  closed : ∀ {parent child}, live parent → child ∈ operands parent → live child
  lt : ∀ {parent child}, live parent → child ∈ operands parent → rank child < rank parent

/-- What is reached from a live node ranks no higher. -/
theorem Ranking.rank_le {live : NodeId → Prop} {rank : NodeId → Nat}
    (ranking : Ranking operands live rank) {start id : NodeId} (isLive : live start)
    (path : ReflTransGen (fun a b => b ∈ operands a) start id)
    : rank id ≤ rank start := by
  induction path using ReflTransGen.head_induction_on with
  | refl => exact Nat.le_refl _
  | head step _ ih =>
      exact Nat.le_of_lt (Nat.lt_of_le_of_lt (ih (ranking.closed isLive step))
        (ranking.lt isLive step))

/-- A listing that trails is in order where no operand leads back to its user. -/
theorem Trails.linear {listed : List NodeId} (trails : Trails operands listed)
    (nodup : listed.Nodup) (apart : ∀ parent ∈ listed, ∀ child ∈ operands parent,
      ¬ ReflTransGen (fun parent child => child ∈ operands parent) child parent)
    : Linear operands listed := by
  induction listed with
  | nil => trivial
  | cons id listed ih =>
      obtain ⟨fresh, restNodup⟩ := List.nodup_cons.mp nodup
      refine ⟨fresh, fun child isOperand => ?_, ?_⟩
      · exact (trails.1 child isOperand).resolve_right (apart id List.mem_cons_self child isOperand)
      · exact ih trails.2 restNodup fun parent member =>
          apart parent (List.mem_cons_of_mem id member)

/-- Searching lists the marked nodes among its starts, in the order in which they first occur, if no
operand is marked. Witness: induction on the calls; below a node nothing marked is listed, so of the
later starts it has met itself only. -/
theorem Searches.marked {live : NodeId → Prop} {mark : NodeId → Bool}
    (closed : ∀ {parent child}, live parent → child ∈ operands parent → live child)
    (unmarked : ∀ {parent child}, live parent → child ∈ operands parent → mark child = false)
    {ids : List NodeId} {p next : Progress} (searches : Searches operands ids p next)
    (idsLive : ∀ id ∈ ids, live id)
    : next.listed.filter mark
      = ((ids.filter mark).filter (!p.met.contains ·)).eraseDups.reverse
        ++ p.listed.filter mark := by
  induction searches with
  | done => simp
  | @skip p next id ids met _ ih =>
      rw [ih fun id member => idsLive id (List.mem_cons_of_mem _ member), List.filter_filter,
        List.filter_filter, List.filter_cons_of_neg (by simp [met])]
  | @visit p inner next id ids unmet belowSearches _ ihBelow ihRest =>
      have isLive : live id := idsLive id List.mem_cons_self
      obtain ⟨found, below⟩ := belowSearches.explores
      have none : (operands id).filter mark = [] :=
        List.filter_eq_nil_iff.mpr fun child isOperand => by simp [unmarked isLive isOperand]
      have kept := ihBelow fun child isOperand => closed isLive isOperand
      rw [none] at kept
      -- Marked nodes are no operands, so the search below has met no other one.
      have plain : found.filter mark = [] := by
        simpa [below.listed] using kept
      have metMarked {other} (isMarked : mark other = true)
          : inner.met.contains other = true ↔ other = id ∨ p.met.contains other = true := by
        rw [below.met, contains_insert_iff]
        exact or_iff_right fun member => List.filter_eq_nil_iff.mp plain other member isMarked
      have later : (ids.filter mark).filter (!inner.met.contains ·)
          = ((ids.filter mark).filter (!p.met.contains ·)).filter (!· == id) := by
        conv_rhs => rw [List.filter_filter]
        refine List.filter_congr fun other member => ?_
        rw [Bool.eq_iff_iff]
        simp only [Bool.not_eq_true', Bool.and_eq_true, ← Bool.not_eq_true,
          metMarked (List.mem_filter.mp member).2, not_or, beq_iff_eq]
      rw [ihRest fun id member => idsLive id (List.mem_cons_of_mem _ member), later]
      by_cases isMarked : mark id = true
      · simp [List.filter_cons_of_pos, isMarked, unmet, below.listed, plain, List.eraseDups_cons]
      · have others : ((ids.filter mark).filter (!p.met.contains ·)).filter (!· == id)
            = (ids.filter mark).filter (!p.met.contains ·) := by
          refine List.filter_eq_self.mpr fun other member => ?_
          have otherMarked := (List.mem_filter.mp (List.mem_filter.mp member).1).2
          simp only [Bool.not_eq_true', beq_eq_false_iff_ne]
          rintro rfl
          exact isMarked otherMarked
        rw [others]
        simp [isMarked, below.listed, plain]

/-- The listing of a ranked graph from its roots. -/
structure Linearizes (operands : NodeId → List NodeId) (roots order : List NodeId) : Prop where
  linear : Linear operands order.reverse
  rootsListed : ∀ root ∈ roots, root ∈ order

/-- The traversal of a ranked graph lists what the roots need, operands first. -/
theorem Ranking.postOrder_linearizes {g : Graph} {live : NodeId → Prop} {rank : NodeId → Nat}
    (ranking : Ranking (followed g.size operands) live rank) {roots : List NodeId}
    (starts : ∀ root ∈ roots, live root)
    : Linearizes (followed g.size operands) roots (g.postOrder operands roots) where
  linear := by
    have nodup := (postOrder_complete g operands roots).nodup
    refine (postOrder_trails g operands roots).linear (List.nodup_reverse.mpr nodup) ?_
    intro parent member child isOperand path
    have isLive := postOrder_of_followed ranking.closed starts parent (List.mem_reverse.mp member)
    exact absurd (ranking.rank_le (ranking.closed isLive isOperand) path)
      (Nat.not_le.mpr (ranking.lt isLive isOperand))
  rootsListed := (postOrder_complete g operands roots).roots

/-- The traversal lists marked roots, which are no operands, in the order in which they first
occur. -/
theorem postOrder_marked {g : Graph} {live : NodeId → Prop} {mark : NodeId → Bool}
    (closed : ∀ {parent child}, live parent → child ∈ followed g.size operands parent → live child)
    (unmarked : ∀ {parent child}, live parent → child ∈ followed g.size operands parent
    → mark child = false) {roots : List NodeId}
      (starts : ∀ root ∈ roots, live root ∧ mark root = true)
    : (g.postOrder operands roots).filter mark = roots.eraseDups := by
  have listed := (searches_foldl g operands roots ⟨{}, []⟩).marked closed unmarked
    fun root member =>
    (starts root member).1
  have all : roots.filter mark = roots := List.filter_eq_self.mpr fun root member =>
    (starts root member).2
  rw [postOrder_eq_search, List.filter_reverse, listed, all]
  simp

end Traversal

open Traversal

/-- Ranks of a graph without cycles tell the order of its listing. -/
theorem Graph.Acyclic.linear_postOrder {g : Graph} (acyclic : g.Acyclic)
    : Linear g.children (g.postOrder g.children g.outputs).reverse := by
  have ranking : Ranking (followed g.size g.children) g.Reachable g.rank := by
    rw [followed_children]
    exact ⟨fun isLive isOperand => isLive.operand isOperand, fun isLive isOperand =>
      acyclic.rank_lt isLive isOperand⟩
  have linearizes : Linearizes _ g.outputs _ := ranking.postOrder_linearizes fun _ => .root
  rw [followed_children] at linearizes
  exact linearizes.linear

end StreamExpr
