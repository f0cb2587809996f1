import GradientReplay.Outcome
import GradientReplay.Proofs.Series.Parts
import GradientReplay.Proofs.Tensor.Fitting

/-!
Adding up the gradients of a node in the order of their indices.

The gradients are added to the one at the smallest index, so each of the others has to spread over
its shape (`Node.gradientSum_error_iff`). Whether they do, and in which shape the sum comes out,
depends on which gradient stands first, unless all have one shape or two of several elements differ
in shape (`Node.gradientSum_laws`).
-/

namespace GradientReplay

variable {α : Type}

/-! ### Additions in place -/

namespace Tensor

variable [Zero α] [Add α] {a c : Tensor α} {gs : List (Tensor α)}

/-- Tensors that were all added to one spread over it, and the sum has its shape and at each offset
their numbers added up. -/
theorem foldlM_increase_ok (h : gs.foldlM increase a = .ok c) :
    (∀ g ∈ gs, g.shape.SpreadsOver a.shape) ∧ c.shape = a.shape ∧
      ∀ k < a.shape.size, c.coord k = (gs.map (·.spread k)).foldl (· + ·) (a.coord k) := by
  induction gs generalizing a with
  | nil =>
      cases h
      exact ⟨fun g hg => absurd hg List.not_mem_nil, rfl, fun k _ => rfl⟩
  | cons g gs ih =>
      obtain ⟨b, added, rest⟩ := bind_ok_iff.mp h
      obtain ⟨spreads, shape, element⟩ := update_ok added
      obtain ⟨others, shape', elements⟩ := ih rest
      rw [shape] at others shape' elements
      refine ⟨fun h hh => ?_, shape', fun k hk => ?_⟩
      · rcases List.mem_cons.mp hh with rfl | hh
        · exact spreads
        · exact others h hh
      · rw [elements k hk, element k hk]
        rfl

/-- Adding fails at the first tensor that does not spread over the one it is added to. -/
theorem foldlM_increase_error {e : TensorError} (failed : gs.foldlM increase a = .error e) :
    ∃ before g after, gs = before ++ g :: after ∧ (∀ b ∈ before, b.shape.SpreadsOver a.shape) ∧
      ¬ g.shape.SpreadsOver a.shape ∧ e = .shapesDiffer .increase a.shape g.shape := by
  induction gs generalizing a with
  | nil => cases failed
  | cons g gs ih =>
      rcases bind_error_iff.mp failed with here | ⟨b, added, later⟩
      · obtain ⟨apart, cause⟩ := update_error.mp here
        exact ⟨[], g, gs, rfl, fun b hb => absurd hb List.not_mem_nil, apart, cause⟩
      · obtain ⟨spreads, shape, -⟩ := update_ok added
        obtain ⟨before, g', after, split, fits, apart, cause⟩ := ih later
        rw [shape] at fits apart cause
        refine ⟨g :: before, g', after, by rw [split]; rfl, fun b hb => ?_, apart, cause⟩
        rcases List.mem_cons.mp hb with rfl | hb
        · exact spreads
        · exact fits b hb

theorem foldlM_increase_of_spreads (spreads : ∀ g ∈ gs, g.shape.SpreadsOver a.shape) :
    ∃ c, gs.foldlM increase a = .ok c := by
  cases added : gs.foldlM increase a with
  | ok c => exact ⟨c, rfl⟩
  | error e =>
      obtain ⟨before, g, after, rfl, -, apart, -⟩ := foldlM_increase_error added
      exact absurd (spreads g (List.mem_append_right before List.mem_cons_self)) apart

end Tensor

/-! ### The sum of the gradients -/

namespace Node

variable {n m : Node α} {first : Tensor α} {rest : List (Tensor α)}

theorem gradients_eq_nil : n.gradients.values = [] ↔ ∀ i, n.gradient? i = none := by
  constructor
  · intro empty i
    have entries : n.gradients.entries = [] := List.map_eq_nil_iff.mp empty
    rw [gradient?, Series.get?, entries]
    rfl
  · intro none
    by_contra some
    have stored : n.gradients.entries ≠ [] := fun empty => some (List.map_eq_nil_iff.mpr empty)
    obtain ⟨⟨i, g⟩, hg⟩ := List.exists_mem_of_ne_nil _ stored
    have found := Series.find_of_mem n.gradients.sorted hg
    rw [← Series.get?, ← gradient?, none i] at found
    cases found

section Sum

variable [Add α]

theorem gradientSum_of_nil (h : n.gradients.values = []) : n.gradientSum = .ok none := by
  rw [gradientSum, h]

theorem gradientSum_of_cons (h : n.gradients.values = first :: rest) :
    n.gradientSum = (rest.foldlM Tensor.increase first).map some := by
  rw [gradientSum, h]
  rfl

theorem gradientSum_none_iff : n.gradientSum = .ok none ↔ ∀ i, n.gradient? i = none := by
  rw [← gradients_eq_nil]
  constructor
  · intro ok
    cases values : n.gradients.values with
    | nil => rfl
    | cons first rest =>
        rw [gradientSum_of_cons values] at ok
        cases added : rest.foldlM Tensor.increase first <;> rw [added] at ok <;> cases ok
  · exact gradientSum_of_nil

/-- The mean is the sum with each number divided by how many gradients there are. -/
theorem gradientMean_eq [Div α] [NatCast α] (n : Node α) :
    n.gradientMean =
      n.gradientSum.map (Option.map fun sum => sum.divNumber (n.gradients.size : α)) := by
  unfold gradientMean
  cases n.gradientSum <;> rfl

variable [Zero α]

/-- A sum comes out in the shape of the first gradient, over which all others spread. -/
theorem gradientSum_ok (h : n.gradients.values = first :: rest) {sum : Tensor α}
    (ok : n.gradientSum = .ok (some sum)) :
    (∀ g ∈ rest, g.shape.SpreadsOver first.shape) ∧ sum.shape = first.shape ∧
      ∀ k < first.shape.size, sum.coord k = (rest.map (·.spread k)).foldl (· + ·) (first.coord k) := by
  rw [gradientSum_of_cons h] at ok
  cases added : rest.foldlM Tensor.increase first with
  | error e =>
      rw [added] at ok
      cases ok
  | ok c =>
      rw [added] at ok
      cases ok
      exact Tensor.foldlM_increase_ok added

theorem gradientSum_of_spreads (h : n.gradients.values = first :: rest)
    (spreads : ∀ g ∈ rest, g.shape.SpreadsOver first.shape) :
    ∃ sum, n.gradientSum = .ok (some sum) ∧ sum.shape = first.shape := by
  obtain ⟨sum, added⟩ := Tensor.foldlM_increase_of_spreads spreads
  have ok : n.gradientSum = .ok (some sum) := by
    rw [gradientSum_of_cons h, added]
    rfl
  exact ⟨sum, ok, (gradientSum_ok h ok).2.1⟩

/-- There is no sum where one gradient does not spread over the first; the first such is named. -/
theorem gradientSum_error (h : n.gradients.values = first :: rest) {e : TensorError}
    (failed : n.gradientSum = .error e) :
    ∃ before g after, rest = before ++ g :: after ∧
      (∀ b ∈ before, b.shape.SpreadsOver first.shape) ∧ ¬ g.shape.SpreadsOver first.shape ∧
      e = .shapesDiffer .increase first.shape g.shape := by
  rw [gradientSum_of_cons h] at failed
  cases added : rest.foldlM Tensor.increase first with
  | error e' =>
      rw [added] at failed
      cases failed
      exact Tensor.foldlM_increase_error added
  | ok c =>
      rw [added] at failed
      cases failed

theorem gradientSum_error_iff (h : n.gradients.values = first :: rest) :
    (∃ e, n.gradientSum = .error e) ↔ ∃ g ∈ rest, ¬ g.shape.SpreadsOver first.shape := by
  constructor
  · rintro ⟨e, failed⟩
    obtain ⟨before, g, after, rfl, -, apart, -⟩ := gradientSum_error h failed
    exact ⟨g, List.mem_append_right before List.mem_cons_self, apart⟩
  · rintro ⟨g, hg, apart⟩
    cases added : n.gradientSum with
    | error e => exact ⟨e, rfl⟩
    | ok sum? =>
        cases sum? with
        | none =>
            rw [gradientSum_none_iff, ← gradients_eq_nil, h] at added
            cases added
        | some sum => exact absurd ((gradientSum_ok h added).1 g hg) apart

end Sum

/-! ### Other orders -/

/-- All gradients have one shape. -/
def Uniform (n : Node α) : Prop :=
  ∀ g ∈ n.gradients.values, ∀ h ∈ n.gradients.values, g.shape = h.shape

/-- Two gradients differ in shape, neither of which has a single element. -/
def Clashing (n : Node α) : Prop :=
  ∃ g ∈ n.gradients.values, ∃ h ∈ n.gradients.values,
    g.shape ≠ h.shape ∧ g.shape.size ≠ 1 ∧ h.shape.size ≠ 1

/-- The nodes have the same gradients at the same indices, but for which is at which. -/
def Rearranges (m n : Node α) : Prop :=
  m.gradients.indices = n.gradients.indices ∧ m.gradients.values.Perm n.gradients.values

/-- The shape of the sum, `some none` if nothing is there to be added; `none` if there is no sum. -/
def sumShape? [Add α] (n : Node α) : Option (Option Shape) :=
  n.gradientSum.toOption.map (Option.map Tensor.shape)

theorem Rearranges.uniform (other : m.Rearranges n) : m.Uniform ↔ n.Uniform := by
  simp only [Uniform, other.2.mem_iff]

theorem Rearranges.clashing (other : m.Rearranges n) : m.Clashing ↔ n.Clashing := by
  simp only [Clashing, other.2.mem_iff]

/-- Any gradient can be put first. -/
theorem exists_leading {g : Tensor α} (hg : g ∈ n.gradients.values) :
    ∃ (m : Node α) (rest : List (Tensor α)), m.Rearranges n ∧ m.gradients.values = g :: rest := by
  obtain ⟨before, after, split⟩ := List.append_of_mem hg
  have perm : (g :: (before ++ after)).Perm n.gradients.values := split ▸ List.perm_middle.symm
  have length : n.gradients.indices.length = (g :: (before ++ after)).length := by
    rw [perm.length_eq, Series.indices, Series.values, List.length_map, List.length_map]
  have indices : (n.gradients.indices.zip (g :: (before ++ after))).map Prod.fst =
      n.gradients.indices := List.map_fst_zip length.le
  let gradients : Series (Tensor α) :=
    ⟨n.gradients.indices.zip (g :: (before ++ after)), Series.pairwise_of_indices _ indices⟩
  have values : gradients.values = g :: (before ++ after) := List.map_snd_zip length.ge
  refine ⟨{ n with gradients }, before ++ after, ⟨indices, ?_⟩, values⟩
  rw [← values] at perm
  exact perm

section Shapes

variable [Zero α] [Add α]

/-- Gradients of one shape have a sum of this shape, or are none at all. -/
theorem Uniform.sum (uniform : n.Uniform) :
    n.gradientSum = .ok none ∧ n.gradients.values = [] ∨
      ∃ sum first, n.gradientSum = .ok (some sum) ∧ first ∈ n.gradients.values ∧
        sum.shape = first.shape := by
  cases values : n.gradients.values with
  | nil => exact .inl ⟨gradientSum_of_nil values, rfl⟩
  | cons first rest =>
      have spreads : ∀ g ∈ rest, g.shape.SpreadsOver first.shape := by
        intro g hg
        have uniform := uniform g (by rw [values]; exact List.mem_cons_of_mem _ hg) first
          (by rw [values]; exact List.mem_cons_self)
        exact .inr uniform
      obtain ⟨sum, ok, shape⟩ := gradientSum_of_spreads values spreads
      exact .inr ⟨sum, first, ok, List.mem_cons_self, shape⟩

/-- Gradients that clash have no sum in any order. -/
theorem Clashing.fails (clashing : n.Clashing) : ∃ e, n.gradientSum = .error e := by
  obtain ⟨g, hg, h, hh, differ, many, many'⟩ := clashing
  cases values : n.gradients.values with
  | nil =>
      rw [values] at hg
      cases hg
  | cons first rest =>
      rw [values] at hg hh
      rw [gradientSum_error_iff values]
      -- One of the two is not the first and has another shape.
      by_cases same : g.shape = first.shape
      · rcases List.mem_cons.mp hh with rfl | hh
        · exact absurd same differ
        · exact ⟨h, hh, not_or.mpr ⟨many', fun other => differ (same.trans other.symm)⟩⟩
      · rcases List.mem_cons.mp hg with rfl | hg
        · exact absurd rfl same
        · exact ⟨g, hg, not_or.mpr ⟨many, same⟩⟩

omit [Zero α] [Add α] in
/-- Where shapes differ without a clash, one gradient has a single element and another one, of
another shape, is such that all others spread over it. -/
theorem exists_odd (mixed : ¬ n.Uniform) (calm : ¬ n.Clashing) :
    ∃ c ∈ n.gradients.values, ∃ s ∈ n.gradients.values,
      s.shape.size = 1 ∧ s.shape ≠ c.shape ∧
        ∀ h ∈ n.gradients.values, h.shape.SpreadsOver c.shape := by
  unfold Uniform at mixed
  push Not at mixed
  obtain ⟨g, hg, h, hh, differ⟩ := mixed
  by_cases several : ∃ c ∈ n.gradients.values, c.shape.size ≠ 1
  · obtain ⟨c, hc, many⟩ := several
    have spreads : ∀ h ∈ n.gradients.values, h.shape.SpreadsOver c.shape := by
      intro h hh
      by_contra apart
      obtain ⟨many', differ⟩ := not_or.mp apart
      exact calm ⟨h, hh, c, hc, differ, many', many⟩
    obtain ⟨s, hs, other⟩ : ∃ s ∈ n.gradients.values, s.shape ≠ c.shape := by
      by_cases same : g.shape = c.shape
      · exact ⟨h, hh, fun same' => differ (same.trans same'.symm)⟩
      · exact ⟨g, hg, same⟩
    exact ⟨c, hc, s, hs, (spreads s hs).resolve_right other, other, spreads⟩
  · push Not at several
    exact ⟨g, hg, h, hh, several h hh, differ.symm, fun k hk => .inl (several k hk)⟩

theorem sumShape?_of_spreads (h : n.gradients.values = first :: rest)
    (spreads : ∀ g ∈ rest, g.shape.SpreadsOver first.shape) :
    n.sumShape? = some (some first.shape) := by
  obtain ⟨sum, ok, shape⟩ := gradientSum_of_spreads h spreads
  rw [sumShape?, ok, ← shape]
  rfl

theorem sumShape?_eq_some {s : Shape} (h : n.gradients.values = first :: rest)
    (shape : n.sumShape? = some (some s)) : s = first.shape := by
  cases added : n.gradientSum with
  | error e =>
      rw [sumShape?, added] at shape
      cases shape
  | ok sum? =>
      cases sum? with
      | none =>
          rw [sumShape?, added] at shape
          cases shape
      | some sum =>
          rw [sumShape?, added] at shape
          cases shape
          exact (gradientSum_ok h added).2.1

/-- The gradients fail to add up exactly where two shapes differ, in any order, if and only if all
have one shape or two of them clash. -/
theorem fails_iff_mixed :
    (∀ m : Node α, m.Rearranges n → ((∃ e, m.gradientSum = .error e) ↔ ¬ m.Uniform)) ↔
      n.Uniform ∨ n.Clashing := by
  constructor
  · intro law
    by_contra neither
    obtain ⟨mixed, calm⟩ := not_or.mp neither
    obtain ⟨c, hc, -, -, -, -, spreads⟩ := exists_odd mixed calm
    obtain ⟨m, rest, other, values⟩ := exists_leading hc
    have fits : ∀ g ∈ rest, g.shape.SpreadsOver c.shape := fun g hg =>
      spreads g (other.2.mem_iff.mp (values ▸ List.mem_cons_of_mem c hg))
    obtain ⟨sum, ok, -⟩ := gradientSum_of_spreads values fits
    obtain ⟨e, failed⟩ := (law m other).mpr (other.uniform.not.mpr mixed)
    rw [ok] at failed
    cases failed
  · rintro (uniform | clashing) m other
    · have uniform := other.uniform.mpr uniform
      refine iff_of_false ?_ (not_not.mpr uniform)
      rintro ⟨e, failed⟩
      rcases uniform.sum with ⟨ok, -⟩ | ⟨sum, first, ok, -, -⟩
      · rw [ok] at failed
        cases failed
      · rw [ok] at failed
        cases failed
    · have clashing := other.clashing.mpr clashing
      refine iff_of_true clashing.fails fun uniform => ?_
      obtain ⟨g, hg, h, hh, differ, -, -⟩ := clashing
      exact differ (uniform g hg h hh)

/-- Whether there is a sum, and in which shape, is the same in all orders if and only if all
gradients have one shape or two of them clash. -/
theorem sumShape?_arranged :
    (∀ m : Node α, m.Rearranges n → m.sumShape? = n.sumShape?) ↔ n.Uniform ∨ n.Clashing := by
  constructor
  · intro same
    by_contra neither
    obtain ⟨mixed, calm⟩ := not_or.mp neither
    obtain ⟨c, hc, s, hs, single, differ, spreads⟩ := exists_odd mixed calm
    obtain ⟨m, rest, other, values⟩ := exists_leading hc
    obtain ⟨m', rest', other', values'⟩ := exists_leading hs
    have fits : ∀ g ∈ rest, g.shape.SpreadsOver c.shape := fun g hg =>
      spreads g (other.2.mem_iff.mp (values ▸ List.mem_cons_of_mem c hg))
    have shape := sumShape?_of_spreads values fits
    rw [same m other, ← same m' other'] at shape
    exact differ (sumShape?_eq_some values' shape).symm
  · rintro (uniform | clashing) m other
    · have uniform' := other.uniform.mpr uniform
      rcases uniform'.sum with ⟨ok', none'⟩ | ⟨sum', first', ok', hfirst', shape'⟩ <;>
        rcases uniform.sum with ⟨ok, none⟩ | ⟨sum, first, ok, hfirst, shape⟩
      · rw [sumShape?, sumShape?, ok, ok']
      · exact absurd (none' ▸ other.2.mem_iff.mpr hfirst) List.not_mem_nil
      · exact absurd (none ▸ other.2.mem_iff.mp hfirst') List.not_mem_nil
      · have same := uniform first' (other.2.mem_iff.mp hfirst') first hfirst
        rw [sumShape?, sumShape?, ok, ok']
        exact congrArg (some ∘ some) (shape'.trans (same.trans shape.symm))
    · obtain ⟨e, failed⟩ := clashing.fails
      obtain ⟨e', failed'⟩ := (other.clashing.mpr clashing).fails
      rw [sumShape?, sumShape?, failed, failed']
      rfl

/-- Gradients of one shape are added up number by number. -/
theorem Uniform.coord (uniform : n.Uniform) (h : n.gradients.values = first :: rest) :
    ∃ sum, n.gradientSum = .ok (some sum) ∧ sum.shape = first.shape ∧
      ∀ k < first.shape.size, sum.coord k = (rest.map (·.coord k)).foldl (· + ·) (first.coord k) := by
  have same : ∀ g ∈ rest, g.shape = first.shape := fun g hg =>
    uniform g (h ▸ List.mem_cons_of_mem first hg) first (h ▸ List.mem_cons_self)
  obtain ⟨sum, ok, shape⟩ := gradientSum_of_spreads h fun g hg => .inr (same g hg)
  refine ⟨sum, ok, shape, fun k hk => ?_⟩
  have spread : rest.map (·.spread k) = rest.map (·.coord k) :=
    List.map_congr_left fun g hg => Tensor.spread_of_lt (same g hg ▸ hk)
  rw [(gradientSum_ok h ok).2.2 k hk, spread]

/-- There is nothing to add up where no gradient is stored. Where there is, adding fails exactly if
some gradient does not spread over the one at the smallest index, and names the first such; else the
sum has the shape of the one at the smallest index, and at each offset the numbers of all gradients,
in the order of the indices, added up. The mean is the sum divided by the number of indices.
Gradients of one shape always have a sum. That adding fails exactly where two shapes differ holds in
all orders of the gradients if and only if they have one shape or two of them clash; so does it that
the order has no say in whether there is a sum and in which shape. -/
theorem gradientSum_laws [Div α] [NatCast α] (n : Node α) :
    (n.gradientSum = .ok none ↔ ∀ i, n.gradient? i = none) ∧
      (∀ first rest, n.gradients.values = first :: rest →
        ((∃ e, n.gradientSum = .error e) ↔ ∃ g ∈ rest, ¬ g.shape.SpreadsOver first.shape) ∧
          (∀ e, n.gradientSum = .error e →
            ∃ before g after, rest = before ++ g :: after ∧
              (∀ b ∈ before, b.shape.SpreadsOver first.shape) ∧
              ¬ g.shape.SpreadsOver first.shape ∧
              e = .shapesDiffer .increase first.shape g.shape) ∧
          (∀ sum, n.gradientSum = .ok (some sum) →
            sum.shape = first.shape ∧
              ∀ k < first.shape.size,
                sum.coord k = (rest.map (·.spread k)).foldl (· + ·) (first.coord k)) ∧
          (n.Uniform →
            ∃ sum, n.gradientSum = .ok (some sum) ∧ sum.shape = first.shape ∧
              ∀ k < first.shape.size,
                sum.coord k = (rest.map (·.coord k)).foldl (· + ·) (first.coord k))) ∧
      n.gradientMean =
        n.gradientSum.map (Option.map fun sum => sum.divNumber (n.gradients.size : α)) ∧
      ((∀ m : Node α, m.Rearranges n → ((∃ e, m.gradientSum = .error e) ↔ ¬ m.Uniform)) ↔
        n.Uniform ∨ n.Clashing) ∧
      ((∀ m : Node α, m.Rearranges n → m.sumShape? = n.sumShape?) ↔ n.Uniform ∨ n.Clashing) := by
  refine ⟨gradientSum_none_iff, fun first rest values => ?_, gradientMean_eq n, fails_iff_mixed,
    sumShape?_arranged⟩
  refine ⟨gradientSum_error_iff values, fun e failed => gradientSum_error values failed,
    fun sum ok => ?_, fun uniform => uniform.coord values⟩
  exact (gradientSum_ok values ok).2

end Shapes

/-- A node whose gradient at the index 1 has a single element. -/
def unevenNode : Node Int :=
  ((create 0 (.fill [2] 0) false 0 (.leaf 0)).setGradient 0 ⟨[2], [1, 2], rfl⟩).setGradient 1
    (.fill [1] 5)

/-- The same gradients the other way round. -/
def unevenSwapped : Node Int :=
  ((create 0 (.fill [2] 0) false 0 (.leaf 0)).setGradient 0 (.fill [1] 5)).setGradient 1
    ⟨[2], [1, 2], rfl⟩

/-- Gradients of the shapes `[2]` and `[1]` are added up in this order, but not in the other. -/
theorem uneven_adds_up :
    unevenNode.gradients.values.map Tensor.shape = [[2], [1]] ∧
      unevenNode.gradientSum = .ok (some ⟨[2], [6, 7], rfl⟩) ∧ unevenSwapped.Rearranges unevenNode ∧
      unevenSwapped.gradientSum = .error (.shapesDiffer .increase [1] [2]) :=
  ⟨rfl, rfl, ⟨rfl, .swap _ _ _⟩, rfl⟩

/-- Of these gradients the order matters. -/
theorem uneven_arranged :
    (∀ e, unevenNode.gradientSum ≠ .error e) ∧
      ¬ (∀ m : Node Int, m.Rearranges unevenNode → m.sumShape? = unevenNode.sumShape?) := by
  have values : unevenNode.gradients.values = [⟨[2], [1, 2], rfl⟩, .fill [1] 5] := rfl
  have mixed : ¬ unevenNode.Uniform := by
    intro uniform
    have same := uniform ⟨[2], [1, 2], rfl⟩ (values ▸ List.mem_cons_self) (.fill [1] 5)
      (values ▸ List.mem_cons_of_mem _ List.mem_cons_self)
    cases same
  have calm : ¬ unevenNode.Clashing := by
    rintro ⟨g, hg, h, hh, differ, many, many'⟩
    rw [values] at hg hh
    have shape {t : Tensor Int} (ht : t ∈ [⟨[2], [1, 2], rfl⟩, .fill [1] 5])
        (many : t.shape.size ≠ 1) : t.shape = [2] := by
      rcases List.mem_pair.mp ht with rfl | rfl
      · rfl
      · exact absurd rfl many
    exact differ ((shape hg many).trans (shape hh many').symm)
  obtain ⟨-, at_values, -, -, arranged⟩ := gradientSum_laws unevenNode
  obtain ⟨fails, -⟩ := at_values _ _ values
  constructor
  · intro e failed
    obtain ⟨g, hg, apart⟩ := fails.mp ⟨e, failed⟩
    rcases List.mem_singleton.mp hg with rfl
    exact apart (.inl rfl)
  · rw [arranged]
    exact not_or.mpr ⟨mixed, calm⟩

end Node

end GradientReplay
