import GradientReplay.Proofs.Procedure.Backward

/-!
Replaying a sequence.

Each index of a sequence is written once, so after a successful replay forward the equations hold at
all its indices (`forwardSeries_holds`). Going back changes the gradients of one index after the
other (`collect_backward_gradient?`), and the links remember what they read last (`backward_links`).
-/

namespace GradientReplay

variable {α : Type}

/-! ### Sequences -/

theorem Index.next?_toUInt64 {t : Nat} (below : t.toUInt64 ≠ Index.last) :
    Index.next? t.toUInt64 = some (t + 1).toUInt64 :=
  (if_neg below).trans (congrArg some (UInt64.ofNat_add t 1).symm)

/-- The series holds a sequence: its entries are at the indices from zero on. -/
def Series.IsSequence {β : Type} (s : Series β) (n : Nat) (x : Nat → β) : Prop :=
  s.entries = (List.range n).map fun t => (t.toUInt64, x t)

/-- The indices of a sequence ascend, so it has no more entries than there are indices. -/
theorem Series.IsSequence.ascending {β : Type} {s : Series β} {n : Nat} {x : Nat → β}
    (h : s.IsSequence n x) {t u : Nat} (before : t < u) (inside : u < n) :
    t.toUInt64 < u.toUInt64 := by
  have sorted := s.sorted
  rw [h, List.pairwise_map] at sorted
  have ordered := List.pairwise_iff_getElem.mp sorted t u (by rw [List.length_range]; omega)
    (by rw [List.length_range]; omega) before
  rw [List.getElem_range, List.getElem_range] at ordered
  exact ordered

theorem Series.IsSequence.injOn {β : Type} {s : Series β} {n : Nat} {x : Nat → β}
    (h : s.IsSequence n x) : Set.InjOn Nat.toUInt64 (Finset.range n : Set Nat) := by
  intro t ht u hu same
  have ht : t < n := Finset.mem_range.mp ht
  have hu : u < n := Finset.mem_range.mp hu
  rcases Nat.lt_trichotomy t u with less | equal | greater
  · exact absurd (h.ascending less hu) (same ▸ UInt64.lt_irrefl _)
  · exact equal
  · exact absurd (h.ascending greater ht) (same ▸ UInt64.lt_irrefl _)

/-- The entries of a sequence before an index, the last one first. -/
def descending {β : Type} (x : Nat → β) (k : Nat) : List (Index × β) :=
  ((List.range k).map fun t => (t.toUInt64, x t)).reverse

theorem descending_succ {β : Type} (x : Nat → β) (k : Nat) :
    descending x (k + 1) = (k.toUInt64, x k) :: descending x k := by
  rw [descending, List.range_succ, List.map_append, List.reverse_append]
  rfl

theorem mem_descending {β : Type} {x : Nat → β} {k : Nat} {entry : Index × β} :
    entry ∈ descending x k ↔ ∃ t < k, (t.toUInt64, x t) = entry := by
  simp [descending]

theorem Series.IsSequence.reverse {β : Type} {s : Series β} {n : Nat} {x : Nat → β}
    (h : s.IsSequence n x) : s.entries.reverse = descending x n :=
  congrArg List.reverse h

namespace Procedure

/-! ### Resets -/

theorem reset_gradient? (p : Procedure α) (n : NodeId) (i : Index) :
    p.reset.nodes.gradient? n i = none := by
  unfold Nodes.gradient? reset
  rw [List.getElem?_map]
  cases p.nodes[n]? <;> rfl

theorem reset_isOpen {p : Procedure α} (isOpen : p.nodes.Open) : p.reset.nodes.Open := by
  intro n hn
  obtain ⟨c, hc, rfl⟩ := List.mem_map.mp hn
  exact isOpen c hc

/-- The links have read no gradient since they were reset. -/
def Unread (p : Procedure α) : Prop := ∀ l ∈ p.links, l.lastGradient = none

theorem reset_unread (p : Procedure α) : p.reset.Unread := by
  intro l hl
  obtain ⟨l', -, rfl⟩ := List.mem_map.mp hl
  rfl

/-! ### Forward -/

section Forward

theorem Link.carryAll_lastGradient [Zero α] {i : Index} {links : List (Link α)} {nodes : Nodes α}
    (unread : ∀ l ∈ links, l.lastGradient = none) :
    ∀ l ∈ (Link.carryAll i links nodes).1, l.lastGradient = none := by
  induction links generalizing nodes with
  | nil =>
      intro l hl
      cases hl
  | cons link links ih =>
      intro l hl
      rcases List.mem_cons.mp hl with rfl | hl
      · exact unread link List.mem_cons_self
      · exact ih (fun l hl => unread l (List.mem_cons_of_mem _ hl)) l hl

variable [Zero α] [Add α] [Sub α] [Mul α] [Div α] [BEq α] {p : Procedure α}

theorem forwardSeries_unvalued (p : Procedure α) (inputs : Series (Tensor α)) :
    (p.forwardSeries inputs).state.nodes.unvalued = p.nodes.unvalued := by
  apply forwardSeries_preserves (P := fun q : Procedure α => q.nodes.unvalued = p.nodes.unvalued) _
    rfl
  intro q i x same
  rw [q.forward_unvalued, same]

theorem forwardSeries_plan (p : Procedure α) (inputs : Series (Tensor α)) :
    (p.forwardSeries inputs).state.plan = p.plan := by
  apply forwardSeries_preserves (P := fun q : Procedure α => q.plan = p.plan) _ rfl
  intro q i x same
  rw [q.forward_plan, same]

theorem forwardSeries_unread (unread : p.Unread) (inputs : Series (Tensor α)) :
    (p.forwardSeries inputs).state.Unread := by
  apply forwardSeries_preserves (P := Unread) _ unread
  intro q i x unread
  unfold Unread
  rw [forward_state]
  exact Link.carryAll_lastGradient unread

theorem collect_forward_value? {entries : List (Index × Tensor α)} {n : NodeId} {j : Index}
    (apart : ∀ entry ∈ entries, entry.1 ≠ j) :
    (Outcome.collect forwardEntry p entries).state.nodes.value? n j = p.nodes.value? n j := by
  induction entries generalizing p with
  | nil => rfl
  | cons entry entries ih =>
      have here : (p.forwardEntry entry).state.nodes.value? n j = p.nodes.value? n j := by
        rw [forwardEntry_state]
        exact forward_value?_of_not_written (.inr (apart entry List.mem_cons_self).symm)
      have rest : ∀ entry ∈ entries, entry.1 ≠ j :=
        fun e he => apart e (List.mem_cons_of_mem _ he)
      apply Outcome.andThen_preserves (P := fun q : Procedure α =>
        q.nodes.value? n j = p.nodes.value? n j) here
      intro _
      rw [Outcome.andThen_done_state, ih rest, here]

/-- After a successful replay of distinct indices all equations hold at all of them. -/
theorem collect_forward_holds {entries : List (Index × Tensor α)} (valid : p.plan.Valid)
    (distinct : entries.Pairwise fun a b => a.1 < b.1) {answers : List (Index × Tensor α)}
    (ok : (Outcome.collect forwardEntry p entries).result = .ok answers) :
    ∀ entry ∈ entries, ∀ e ∈ p.forwardOrder,
      e.Holds entry.1 (Outcome.collect forwardEntry p entries).state.nodes := by
  induction entries generalizing p answers with
  | nil =>
      intro entry hentry
      cases hentry
  | cons head entries ih =>
      obtain ⟨first, distinct⟩ := List.pairwise_cons.mp distinct
      obtain ⟨⟨answer, here⟩, ⟨rest, later⟩, state⟩ := Outcome.collect_cons_ok ok
      obtain ⟨out, computed, -⟩ := Outcome.andThen_ok.mp here
      have plan : (p.forwardEntry head).state.plan = p.plan := by
        rw [forwardEntry_state, p.forward_plan]
      rw [state]
      intro entry hentry e he
      rcases List.mem_cons.mp hentry with rfl | hentry
      · -- The later indices are others.
        have apart : ∀ other ∈ entries, other.1 ≠ entry.1 := by
          intro other hother same
          exact absurd (first other hother) (same ▸ UInt64.lt_irrefl _)
        have holds := forward_holds valid computed e he
        rw [← forwardEntry_state] at holds
        apply holds.agree
        · intro a _
          exact collect_forward_value? apart
        · exact collect_forward_value? apart
      · have he' : e ∈ (p.forwardEntry head).state.forwardOrder := by
          rw [forwardEntry_state, p.forward_forwardOrder]
          exact he
        exact ih (plan ▸ valid) distinct later entry hentry e he'

/-- After a successful replay of a sequence all equations hold at all its indices. -/
theorem forwardSeries_holds (valid : p.plan.Valid) {inputs outputs : Series (Tensor α)}
    (ok : (p.forwardSeries inputs).result = .ok outputs) :
    ∀ entry ∈ inputs.entries, ∀ e ∈ p.forwardOrder,
      e.Holds entry.1 (p.forwardSeries inputs).state.nodes := by
  obtain ⟨answers, collected, -⟩ := Outcome.andThen_ok.mp ok
  unfold forwardSeries
  rw [Outcome.andThen_done_state]
  exact collect_forward_holds valid inputs.sorted collected

end Forward

/-! ### Back -/

section Back

variable [Zero α] [Add α] [Sub α] [Mul α] [Div α] [Neg α] [BEq α] {p : Procedure α} {i : Index}
  {g : Tensor α}

omit [Mul α] [Div α] [BEq α] in
/-- Links that gave back remember what they read. -/
theorem Link.giveBackAll_links {links : List (Link α)} {nodes : Nodes α}
    (ok : (Link.giveBackAll i links nodes).result = .ok ()) :
    (Link.giveBackAll i links nodes).state.1 =
      links.map fun l =>
        { l with lastGradient := i.next?.bind (nodes.gradient? l.consumer) } := by
  induction links generalizing nodes with
  | nil => rfl
  | cons link links ih =>
      rw [Link.giveBackAll_cons] at ok ⊢
      cases first : (link.giveBack i nodes).result with
      | error e =>
          rw [first] at ok
          cases ok
      | ok b =>
          rw [first] at ok
          have read (l : Link α) :
              i.next?.bind ((link.giveBack i nodes).state.2.gradient? l.consumer) =
                i.next?.bind (nodes.gradient? l.consumer) :=
            Index.next?_bind_congr fun j ne => link.giveBack_gradient?_of_ne nodes l.consumer ne
          simp only [Outcome.embed_state, List.map_cons]
          rw [ih ok, link.giveBack_link_of_ne (Link.giveBack_ok first).1]
          simp only [read]

/-- After a successful replay back each link remembers the gradient that its consumer had at the
index after. -/
theorem backward_links {out : NodeId} (ok : (p.backward i g).result = .ok out) :
    (p.backward i g).state.links =
      p.links.map fun l =>
        { l with lastGradient := i.next?.bind (p.nodes.gradient? l.consumer) } := by
  obtain ⟨given, -⟩ := backward_ok ok
  rw [(backward_of_given given).1]
  have links := Link.giveBackAll_links given
  have read (l : Link α) :
      i.next?.bind ((p.nodes.setGradient p.output i g).gradient? l.consumer) =
        i.next?.bind (p.nodes.gradient? l.consumer) :=
    Index.next?_bind_congr fun j ne => Nodes.gradient?_setGradient_of_ne _ _ (.inr ne)
  simp only [read] at links
  exact links

/-- Going back over entries leaves the gradients at other indices. -/
theorem collect_backward_gradient? {entries : List (Index × Tensor α)} {n : NodeId} {j : Index}
    (apart : ∀ entry ∈ entries, j ≠ entry.1) :
    (Outcome.collect backwardEntry p entries).state.nodes.gradient? n j =
      p.nodes.gradient? n j := by
  induction entries generalizing p with
  | nil => rfl
  | cons entry entries ih =>
      have here : (p.backwardEntry entry).state.nodes.gradient? n j = p.nodes.gradient? n j := by
        rw [backwardEntry_state]
        exact p.backward_gradient?_of_ne entry.2 n (apart entry List.mem_cons_self)
      have rest : ∀ entry ∈ entries, j ≠ entry.1 :=
        fun e he => apart e (List.mem_cons_of_mem _ he)
      apply Outcome.andThen_preserves (P := fun q : Procedure α =>
        q.nodes.gradient? n j = p.nodes.gradient? n j) here
      intro _
      rw [Outcome.andThen_done_state, ih rest, here]

/-- Without a count a series of replays back goes over all entries. -/
theorem backwardSeries_all (p : Procedure α) (gradients : Series (Tensor α)) :
    p.backwardSeries gradients none =
      (Outcome.collect backwardEntry p gradients.entries.reverse).andThen
        fun p found => .done p (.ofList found) := by
  unfold backwardSeries
  rw [stepCount, Series.size, List.take_of_length_le (List.length_reverse.le)]

end Back

end Procedure

end GradientReplay
