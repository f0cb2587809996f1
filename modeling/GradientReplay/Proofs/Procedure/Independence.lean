import GradientReplay.Proofs.Procedure.Determined
import GradientReplay.Proofs.Procedure.Sight

/-!
Without links the indices of a procedure are independent.

Of a procedure one can look at what it holds at a single index (`Procedure.only`). What a caller
does at that index needs no more (`visit_only`), and what he does at another index does not touch
it (`visit_only_of_ne`). The views at all indices make up the procedure (`ext_only`), so the calls
at different indices can be put in any order (`visits_independent`).
-/

namespace GradientReplay

variable {α β : Type}

/-! ### Series seen at one index -/

namespace Series

/-- What is stored at one index, and nothing else. -/
def only (k : Index) (s : Series β) : Series β := (s.get? k).elim empty (empty.insert k)

@[simp] theorem get?_only (s : Series β) (k j : Index) :
    (s.only k).get? j = if j = k then s.get? k else none := by
  unfold only
  cases s.get? k <;> simp

theorem only_insert (s : Series β) (k : Index) (b : β) :
    (s.insert k b).only k = (s.only k).insert k b := by
  apply ext_get?
  intro j
  by_cases here : j = k <;> simp [here]

theorem only_insert_of_ne (s : Series β) {i k : Index} (ne : k ≠ i) (b : β) :
    (s.insert i b).only k = s.only k := by
  simp [only, ne]

theorem only_erase (s : Series β) (k : Index) : (s.erase k).only k = (s.only k).erase k := by
  apply ext_get?
  intro j
  by_cases here : j = k <;> simp [here]

theorem only_erase_of_ne (s : Series β) {i k : Index} (ne : k ≠ i) :
    (s.erase i).only k = s.only k := by
  simp [only, ne]

/-- A series is what it stores at each index. -/
theorem ext_only {s t : Series β} (same : ∀ k, s.only k = t.only k) : s = t := by
  apply ext_get?
  intro k
  simpa using congrArg (·.get? k) (same k)

end Series

/-! ### Nodes seen at one index -/

namespace Node

/-- The node with nothing but what it holds at one index; a constant keeps its shared value. -/
def only (k : Index) (n : Node α) : Node α :=
  { n with values := n.values.only k, gradients := n.gradients.only k }

@[simp] theorem value?_only (n : Node α) (k : Index) : (n.only k).value? k = n.value? k := by
  simp [only, value?]

@[simp] theorem gradient?_only (n : Node α) (k : Index) :
    (n.only k).gradient? k = n.gradient? k := by
  simp [only, gradient?]

theorem only_setValue (n : Node α) (k : Index) (v : Tensor α) :
    (n.setValue k v).only k = (n.only k).setValue k v := by
  cases constant : n.constant <;> simp [only, setValue, constant, Series.only_insert]

theorem only_setValue_of_ne (n : Node α) {i k : Index} (ne : k ≠ i) (v : Tensor α) :
    (n.setValue i v).only k = n.only k := by
  cases constant : n.constant <;> simp [only, setValue, constant, Series.only_insert_of_ne _ ne]

theorem only_setGradient (n : Node α) (k : Index) (g : Tensor α) :
    (n.setGradient k g).only k = (n.only k).setGradient k g := by
  simp [only, setGradient, Series.only_insert]

theorem only_setGradient_of_ne (n : Node α) {i k : Index} (ne : k ≠ i) (g : Tensor α) :
    (n.setGradient i g).only k = n.only k := by
  simp [only, setGradient, Series.only_insert_of_ne _ ne]

theorem only_showsValues (k : Index) : Node.ShowsValues (only k : Node α → Node α) k :=
  ⟨fun _ => rfl, fun n => n.value?_only k, fun n v => n.only_setValue k v⟩

theorem only_showsGradients (k : Index) : Node.ShowsGradients (only k : Node α → Node α) k :=
  ⟨fun _ => rfl, fun _ => rfl, fun n => n.gradient?_only k, fun n g => n.only_setGradient k g⟩

theorem only_resetIndex (n : Node α) (k : Index) :
    (n.resetIndex k).only k = (n.only k).resetIndex k := by
  simp [only, resetIndex, Series.only_erase]

theorem only_resetIndex_of_ne (n : Node α) {i k : Index} (ne : k ≠ i) :
    (n.resetIndex i).only k = n.only k := by
  simp [only, resetIndex, Series.only_erase_of_ne _ ne]

theorem ext_only {n m : Node α} (same : ∀ k, n.only k = m.only k) : n = m := by
  have values : n.values = m.values := Series.ext_only fun k => congrArg Node.values (same k)
  have gradients : n.gradients = m.gradients :=
    Series.ext_only fun k => congrArg Node.gradients (same k)
  have fixed := same 0
  cases n
  cases m
  simp_all [only]

end Node

namespace Nodes

/-- The nodes with nothing but what they hold at one index. -/
def only (k : Index) (nodes : Nodes α) : Nodes α := nodes.map (Node.only k)

@[simp] theorem value?_only (nodes : Nodes α) (m : NodeId) (k : Index) :
    (nodes.only k).value? m k = nodes.value? m k := by
  cases h : nodes[m]? <;> simp [value?, only, h]

@[simp] theorem gradient?_only (nodes : Nodes α) (m : NodeId) (k : Index) :
    (nodes.only k).gradient? m k = nodes.gradient? m k := by
  cases h : nodes[m]? <;> simp [gradient?, only, h]

theorem ext_only {nodes nodes' : Nodes α} (same : ∀ k, nodes.only k = nodes'.only k) :
    nodes = nodes' := by
  refine List.ext_getElem? fun j => ?_
  have view (k : Index) : nodes[j]?.map (Node.only k) = nodes'[j]?.map (Node.only k) :=
    getElem?_map_of_eq (same k) j
  cases hn : nodes[j]? with
  | none =>
      have none := view 0
      rw [hn] at none
      exact (Option.map_eq_none_iff.mp none.symm).symm
  | some n =>
      have some := view 0
      rw [hn] at some
      obtain ⟨n', hn', -⟩ := Option.map_eq_some_iff.mp some.symm
      rw [hn']
      congr 1
      apply Node.ext_only
      intro k
      simpa [hn, hn'] using view k

end Nodes

/-! ### Procedures seen at one index -/

/-- What a caller can do at an index. -/
inductive Visit (α : Type) where
  | forward (input : Tensor α)
  | backward (gradient : Tensor α)
  | reset

namespace Procedure

/-- The procedure with nothing but what its nodes hold at one index. -/
def only (k : Index) (p : Procedure α) : Procedure α := { p with nodes := p.nodes.only k }

/-- A procedure is what it holds at each index. -/
theorem ext_only {p q : Procedure α} (same : ∀ k, p.only k = q.only k) : p = q := by
  have nodes : p.nodes = q.nodes := Nodes.ext_only fun k => congrArg Procedure.nodes (same k)
  have fixed := same 0
  cases p
  cases q
  simp_all [only]

/-- Procedures of one plan without links hold the same at an index if their nodes do. -/
theorem only_congr {p q : Procedure α} {k : Index} (plan : q.plan = p.plan)
    (unlinked : p.links = []) (nodes : q.nodes.only k = p.nodes.only k) :
    q.only k = p.only k := by
  have links := links_eq_nil plan unlinked
  cases p
  cases q
  simp_all [only, Procedure.plan]

theorem resetIndex_only (p : Procedure α) (k : Index) :
    (p.only k).resetIndex k = (p.resetIndex k).only k := by
  simp [only, resetIndex, Nodes.only, Node.only_resetIndex]

variable [Zero α] [Add α] [Sub α] [Mul α] [Div α] [Neg α] [BEq α] {p q : Procedure α}

/-- What is done at an index, answered by the node and what it holds there: the output and its
value, or the input and its gradient. A reset answers nothing. -/
def visit (p : Procedure α) (i : Index) :
    Visit α → Outcome ReplayError (Procedure α) (Option (NodeId × Option (Tensor α)))
  | .forward input => (p.forward i input).andThen fun p n => .done p (some (n, p.nodes.value? n i))
  | .backward gradient =>
      (p.backward i gradient).andThen fun p n => .done p (some (n, p.nodes.gradient? n i))
  | .reset => .done (p.resetIndex i) none

/-! ### What is done at the index of the view -/

omit [Neg α] in
theorem forward_only (unlinked : p.links = []) (k : Index) (x : Tensor α) :
    (p.only k).forward k x = (p.forward k x).embed (only k) := by
  apply p.forward_view (Node.only_showsValues k)
  rw [unlinked]
  rfl

theorem backward_only (unlinked : p.links = []) (k : Index) (g : Tensor α) :
    (p.only k).backward k g = (p.backward k g).embed (only k) := by
  apply p.backward_view (Node.only_showsValues k) (Node.only_showsGradients k)
  rw [given, unlinked]
  rfl

/-- What is done at an index needs no more of a procedure than what it holds there. -/
theorem visit_only (unlinked : p.links = []) (k : Index) (v : Visit α) :
    (p.only k).visit k v = (p.visit k v).embed (only k) := by
  cases v with
  | forward x =>
      rw [visit, forward_only unlinked]
      apply Outcome.embed_andThen
      intro n
      simp [only, Outcome.embed, Outcome.done]
  | backward g =>
      rw [visit, backward_only unlinked]
      apply Outcome.embed_andThen
      intro n
      simp [only, Outcome.embed, Outcome.done]
  | reset =>
      rw [visit, resetIndex_only]
      rfl

/-! ### What is done at another index -/

theorem visit_state (p : Procedure α) (i : Index) (v : Visit α) :
    (p.visit i v).state =
      match v with
      | .forward x => (p.forward i x).state
      | .backward g => (p.backward i g).state
      | .reset => p.resetIndex i := by
  cases v with
  | forward x => exact Outcome.andThen_done_state _ _
  | backward g => exact Outcome.andThen_done_state _ _
  | reset => rfl

theorem visit_plan (p : Procedure α) (i : Index) (v : Visit α) :
    (p.visit i v).state.plan = p.plan := by
  rw [visit_state]
  cases v with
  | forward x => exact p.forward_plan i x
  | backward g => exact p.backward_plan i g
  | reset => exact p.resetIndex_plan i

/-- What is done at an index leaves alone what a procedure holds at another one. -/
theorem visit_only_of_ne (unlinked : p.links = []) {i k : Index} (ne : k ≠ i) (v : Visit α) :
    (p.visit i v).state.only k = p.only k := by
  apply only_congr (p.visit_plan i v) unlinked
  rw [visit_state]
  cases v with
  | forward x => exact forward_map (fun n v => n.only_setValue_of_ne ne v) x
  | backward g => exact backward_map (fun n γ => n.only_setGradient_of_ne ne γ) g
  | reset => simp [resetIndex, Nodes.only, Node.only_resetIndex_of_ne _ ne]

/-! ### Histories of calls -/

/-- The state after calls at any indices. -/
def afterVisits (p : Procedure α) : List (Index × Visit α) → Procedure α
  | [] => p
  | (i, v) :: calls => afterVisits (p.visit i v).state calls

/-- What calls at any indices answer, each with its index. -/
def answers (p : Procedure α) : List (Index × Visit α) →
    List (Index × Except ReplayError (Option (NodeId × Option (Tensor α))))
  | [] => []
  | (i, v) :: calls => (i, (p.visit i v).result) :: answers (p.visit i v).state calls

/-- The entries at one index, in their order. -/
def entriesAt (k : Index) (entries : List (Index × β)) : List (Index × β) :=
  entries.filter (·.1 = k)

/-- What calls leave at an index, and what they answer there, comes from the calls at the index and
from what was there. -/
theorem visits_only (unlinked : p.links = []) (k : Index) (calls : List (Index × Visit α)) :
    (p.afterVisits calls).only k = (p.only k).afterVisits (entriesAt k calls) ∧
      entriesAt k (p.answers calls) = (p.only k).answers (entriesAt k calls) := by
  induction calls generalizing p with
  | nil => exact ⟨rfl, rfl⟩
  | cons call calls ih =>
      obtain ⟨i, v⟩ := call
      obtain ⟨state, answered⟩ := ih (links_eq_nil (p.visit_plan i v) unlinked)
      by_cases here : i = k
      · subst here
        have step := visit_only unlinked i v
        have at_i : entriesAt i ((i, v) :: calls) = (i, v) :: entriesAt i calls := by
          simp [entriesAt]
        rw [at_i]
        constructor
        · rw [afterVisits, afterVisits, step]
          exact state
        · rw [answers, answers, step]
          simp only [entriesAt, decide_true, List.filter_cons_of_pos]
          exact congrArg _ answered
      · have elsewhere := visit_only_of_ne unlinked (Ne.symm here) v
        have at_k : entriesAt k ((i, v) :: calls) = entriesAt k calls := by
          simp [entriesAt, here]
        rw [at_k, ← elsewhere]
        refine ⟨state, ?_⟩
        rw [← answered]
        simp [entriesAt, answers, here]

/-- Without links, what is done at two indices can be done in either order: both orders answer the
same and leave the same procedure, whether the calls succeed or stop half way. So any history of
such calls can be reordered, as long as the calls at each index keep their order: all answers and
the procedure left behind stay the same. -/
theorem visits_independent (reaches : p.Reaches q) (unlinked : p.links = []) :
    (∀ i j a b, i ≠ j →
      (q.visit i a).result = ((q.visit j b).state.visit i a).result ∧
        (q.visit j b).result = ((q.visit i a).state.visit j b).result ∧
        ((q.visit i a).state.visit j b).state = ((q.visit j b).state.visit i a).state) ∧
      ∀ calls calls', (∀ k, entriesAt k calls' = entriesAt k calls) →
        (∀ k, entriesAt k (q.answers calls') = entriesAt k (q.answers calls)) ∧
          q.afterVisits calls' = q.afterVisits calls := by
  have none := links_eq_nil (reaches_plan reaches) unlinked
  have reorder (calls calls' : List (Index × Visit α))
      (same : ∀ k, entriesAt k calls' = entriesAt k calls) :
      (∀ k, entriesAt k (q.answers calls') = entriesAt k (q.answers calls)) ∧
        q.afterVisits calls' = q.afterVisits calls := by
    constructor
    · intro k
      rw [(visits_only none k calls').2, (visits_only none k calls).2, same]
    · apply ext_only
      intro k
      rw [(visits_only none k calls').1, (visits_only none k calls).1, same]
  refine ⟨fun i j a b ne => ?_, reorder⟩
  have swapped (k : Index) : entriesAt k [(i, a), (j, b)] = entriesAt k [(j, b), (i, a)] := by
    by_cases hi : i = k <;> by_cases hj : j = k <;> simp_all [entriesAt]
  obtain ⟨answered, state⟩ := reorder [(j, b), (i, a)] [(i, a), (j, b)] swapped
  refine ⟨?_, ?_, state⟩
  · simpa [answers, entriesAt, ne.symm] using answered i
  · simpa [answers, entriesAt, ne] using (answered j).symm

end Procedure

/-- A replay at index 0 with an input of another shape, which fails half way, and one at index 1 in
either order; and two indices gone forward and back, one after the other or in turns. -/
theorem fan_independent :
    ∃ q, Session.Compiled fanProcedure ∧ fanProcedure.Reaches q ∧ fanProcedure.links = [] ∧
      (∃ cause, (q.visit 0 (.forward (.fill [3] 1))).result = .error cause) ∧
      ((q.visit 1 (.forward (.fill [2] 1))).state.visit 0 (.forward (.fill [3] 1))).state =
        ((q.visit 0 (.forward (.fill [3] 1))).state.visit 1 (.forward (.fill [2] 1))).state ∧
      (q.visit 1 (.forward (.fill [2] 1))).result = .ok (some (5, some (.fill [2] 12))) ∧
      (q.visit 1 (.forward (.fill [2] 1))).result =
        ((q.visit 0 (.forward (.fill [3] 1))).state.visit 1 (.forward (.fill [2] 1))).result ∧
      q.afterVisits [(0, .forward (.fill [2] 1)), (1, .forward (.fill [2] 4)),
          (1, .backward (.fill [2] 1)), (0, .backward (.fill [2] 1))] =
        q.afterVisits [(0, .forward (.fill [2] 1)), (0, .backward (.fill [2] 1)),
          (1, .forward (.fill [2] 4)), (1, .backward (.fill [2] 1))] := by
  obtain ⟨r, records, -⟩ := fan_records
  have reaches : fanProcedure.Reaches (fanProcedure.forward 0 (.fill [2] 7)).state :=
    ⟨[.forward 0 (.fill [2] 7)], rfl⟩
  obtain ⟨commute, reorder⟩ := Procedure.visits_independent reaches rfl
  obtain ⟨result, -, state⟩ := commute 1 0 (.forward (.fill [2] 1)) (.forward (.fill [3] 1))
    (by decide)
  refine ⟨_, records.compiled, reaches, rfl, ⟨_, rfl⟩, state, rfl, result, (reorder _ _ ?_).2⟩
  intro k
  by_cases zero : k = 0
  · subst zero
    rfl
  · by_cases one : k = 1
    · subst one
      rfl
    · simp [Procedure.entriesAt, Ne.symm zero, Ne.symm one]

end GradientReplay
