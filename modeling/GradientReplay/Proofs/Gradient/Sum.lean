import GradientReplay.Proofs.Gradient.Sweep

/-!
The sum of the gradients of a node over all indices.

Gradients that are like their node can be added up (`Node.gradientSum_pair`), and their sum pairs
with a tangent as they do index by index (`Nodes.gradientSum_eq`).
-/

namespace GradientReplay

open Finset

variable {α : Type}

/-! ### Sums over a series -/

namespace Series

variable {β : Type}

/-- What is stored at an index below all others is found nowhere else. -/
theorem find_eq_none {i : Index} {entries : List (Index × β)}
    (above : ∀ entry ∈ entries, i < entry.1) : find i entries = none := by
  induction entries with
  | nil => rfl
  | cons entry entries ih =>
      have ne : i ≠ entry.1 := by
        intro same
        exact UInt64.lt_irrefl _ (same ▸ above entry List.mem_cons_self)
      rw [find, if_neg ne]
      apply ih
      intro other hother
      exact above other (List.mem_cons_of_mem _ hother)

variable [AddCommMonoid α]

theorem sum_find {entries : List (Index × β)} (sorted : entries.Pairwise fun a b => a.1 < b.1)
    (f : β → α) {S : Finset Index} (inside : ∀ entry ∈ entries, entry.1 ∈ S) :
    (entries.map fun entry => f entry.2).sum = ∑ i ∈ S, ((find i entries).map f).getD 0 := by
  induction entries with
  | nil => exact sum_const_zero.symm
  | cons entry entries ih =>
      obtain ⟨first, sorted⟩ := List.pairwise_cons.mp sorted
      have split (i : Index) : ((find i (entry :: entries)).map f).getD 0 =
          (if i = entry.1 then f entry.2 else 0) + ((find i entries).map f).getD 0 := by
        rw [find]
        by_cases same : i = entry.1
        · rw [if_pos same, if_pos same, same, find_eq_none first]
          exact (add_zero _).symm
        · rw [if_neg same, if_neg same, zero_add]
      rw [sum_congr rfl fun i _ => split i, sum_add_distrib, sum_ite_eq',
        if_pos (inside entry List.mem_cons_self), List.map_cons, List.sum_cons]
      congr 1
      apply ih sorted
      intro other hother
      exact inside other (List.mem_cons_of_mem _ hother)

/-- A sum over what is stored is a sum over indices, if they are among those given. -/
theorem sum_values (s : Series β) (f : β → α) {S : Finset Index}
    (inside : ∀ i b, s.get? i = some b → i ∈ S) :
    (s.values.map f).sum = ∑ i ∈ S, ((s.get? i).map f).getD 0 := by
  unfold values get?
  rw [List.map_map]
  apply sum_find s.sorted
  intro entry hentry
  exact inside entry.1 entry.2 (find_of_mem s.sorted hentry)

end Series

/-! ### Adding gradients up -/

namespace Tensor

variable [CommRing α] {s : Shape}

/-- Gradients like one node can be added. -/
theorem increase_alike {a b : Tensor α} (ha : a.shape.Alike s) (hb : b.shape.Alike s) :
    ∃ c, a.increase b = .ok c ∧ c.shape.Alike s ∧ ∀ σ, c.pair σ = a.pair σ + b.pair σ := by
  have old : ∀ o ∈ some a, o.shape.Alike s := by
    rintro o ⟨⟩
    exact ha
  have combined : ∃ c, Node.combineGradient .plus (some a) b = .ok c :=
    Node.combineGradient_of_alike old hb
  obtain ⟨c, made⟩ := combined
  have shape : c.shape = a.shape := Node.combineGradient_shape made
  exact ⟨c, made, shape ▸ ha, combineGradient_pair made old hb⟩

theorem foldlM_increase {gs : List (Tensor α)} {a : Tensor α} (ha : a.shape.Alike s)
    (hgs : ∀ g ∈ gs, g.shape.Alike s) :
    ∃ c, gs.foldlM increase a = .ok c ∧
      ∀ σ, c.pair σ = a.pair σ + (gs.map (·.pair σ)).sum := by
  induction gs generalizing a with
  | nil =>
      refine ⟨a, rfl, ?_⟩
      intro σ
      exact (add_zero _).symm
  | cons g gs ih =>
      obtain ⟨b, made, alike, paired⟩ := increase_alike ha (hgs g List.mem_cons_self)
      obtain ⟨c, rest, total⟩ := ih alike fun g hg => hgs g (List.mem_cons_of_mem _ hg)
      refine ⟨c, ?_, ?_⟩
      · rw [List.foldlM_cons, made]
        exact rest
      · intro σ
        rw [total, paired, List.map_cons, List.sum_cons, add_assoc]

end Tensor

/-- The gradients of a node, if all are like it, have a sum that pairs as they do one by one. -/
theorem Node.gradientSum_pair [CommRing α] {n : Node α}
    (alike : ∀ g ∈ n.gradients.values, g.shape.Alike n.shape) :
    ∃ sum, n.gradientSum = .ok sum ∧
      ∀ σ, (sum.map (·.pair σ)).getD 0 = (n.gradients.values.map (·.pair σ)).sum := by
  unfold gradientSum
  cases values : n.gradients.values with
  | nil =>
      refine ⟨none, rfl, ?_⟩
      intro σ
      rfl
  | cons first rest =>
      rw [values] at alike
      obtain ⟨sum, made, paired⟩ := Tensor.foldlM_increase (alike first List.mem_cons_self)
        fun g hg => alike g (List.mem_cons_of_mem _ hg)
      refine ⟨some sum, ?_, ?_⟩
      · simp only [made]
        rfl
      · exact paired

namespace Nodes

/-- The sum of the gradients of a node over all indices; `none` if there are none. -/
def gradientSum [Add α] (nodes : Nodes α) (n : NodeId) : Except TensorError (Option (Tensor α)) :=
  match nodes[n]? with
  | some c => c.gradientSum
  | none => .ok none

/-- When all gradients are like their nodes and at some of the indices `S`, the sum of those of a
node exists, and pairs as they do index by index. -/
theorem gradientSum_eq [Field α] {nodes : Nodes α} (graded : ∀ i, nodes.Graded i)
    {S : Finset Index} (inside : ∀ n i, (nodes.gradient? n i).isSome → i ∈ S) (n : NodeId) :
    ∃ sum, nodes.gradientSum n = .ok sum ∧
      ∀ σ, (sum.map (·.pair σ)).getD 0 = ∑ i ∈ S, nodes.pairing i n σ := by
  unfold gradientSum
  cases hc : nodes[n]? with
  | none =>
      refine ⟨none, rfl, ?_⟩
      intro σ
      refine (sum_eq_zero fun i _ => pairing_of_length_le ?_ σ).symm
      exact List.getElem?_eq_none_iff.mp hc
  | some c =>
      have found (i : Index) : nodes.gradient? n i = c.gradients.get? i :=
        gradient?_of_getElem? hc i
      have alike : ∀ g ∈ c.gradients.values, g.shape.Alike c.shape := by
        intro g hg
        obtain ⟨entry, hentry, rfl⟩ := List.mem_map.mp hg
        rw [← shapeOf_of_getElem? hc]
        apply graded entry.1 n
        rw [found]
        exact Series.find_of_mem c.gradients.sorted hentry
      obtain ⟨sum, made, paired⟩ := Node.gradientSum_pair alike
      refine ⟨sum, made, ?_⟩
      intro σ
      rw [paired, Series.sum_values c.gradients (S := S)]
      · simp only [pairing, found]
      · intro i g stored
        apply inside n i
        rw [found, stored]
        rfl

end Nodes

end GradientReplay
