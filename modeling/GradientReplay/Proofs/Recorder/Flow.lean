import GradientReplay.Recorder.Flow
import Mathlib.Data.List.Nodup
import Mathlib.Order.Nat

/-!
The two analyses of a build, as what they find.

The backward order of a node holds exactly the expressions that the node depends on
(`mem_backwardOrder_iff`), from the last to the first, and with an expression all that give its
arguments (`backwardOrder_closed`). A link leads from the result of an expression to a carried
argument (`stateLinks_cases`), and no two links have one consumer (`consumers_nodup`).
-/

namespace GradientReplay

variable {α : Type}

/-! ### Dependence -/

/-- `DependsOn es n m`: the value of node `n` is computed from that of `m` by expressions of
`es`, in any number of steps. -/
inductive DependsOn (es : List (Expression α)) : NodeId → NodeId → Prop where
  | self (n : NodeId) : DependsOn es n n
  | argument {n a : NodeId} {e : Expression α} : DependsOn es n e.result → e ∈ es →
      a ∈ e.term.arguments → DependsOn es n a

theorem DependsOn.trans {es : List (Expression α)} {n m k : NodeId} (h : DependsOn es n m)
    (h' : DependsOn es m k) : DependsOn es n k := by
  induction h' with
  | self => exact h
  | argument _ he ha ih => exact .argument ih he ha

/-! ### The backward order -/

theorem wantedFrom_sublist (wanted : List NodeId) (es : List (Expression α)) :
    (wantedFrom wanted es).Sublist es := by
  induction es generalizing wanted with
  | nil => exact .slnil
  | cons e earlier ih =>
      unfold wantedFrom
      split
      · exact (ih _).cons_cons e
      · exact (ih _).cons e

/-- An expression whose result is wanted is found. -/
theorem mem_wantedFrom {wanted : List NodeId} {es : List (Expression α)} {e : Expression α}
    (he : e ∈ es) (want : e.result ∈ wanted) : e ∈ wantedFrom wanted es := by
  induction es generalizing wanted with
  | nil => cases he
  | cons head earlier ih =>
      unfold wantedFrom
      rcases List.mem_cons.mp he with rfl | he
      · rw [if_pos want]
        exact List.mem_cons_self
      · split
        · exact List.mem_cons_of_mem _ (ih he (List.mem_append_right _ want))
        · exact ih he want

/-- What is found is wanted, or something wanted depends on it. -/
theorem dependsOn_of_mem_wantedFrom {es : List (Expression α)} {wanted : List NodeId}
    {later : List (Expression α)} (sub : later ⊆ es) {e : Expression α}
    (he : e ∈ wantedFrom wanted later) : ∃ n ∈ wanted, DependsOn es n e.result := by
  induction later generalizing wanted with
  | nil => cases he
  | cons head earlier ih =>
      have subEarlier : earlier ⊆ es := fun x hx => sub (List.mem_cons_of_mem _ hx)
      unfold wantedFrom at he
      split at he
      · rename_i want
        rcases List.mem_cons.mp he with rfl | he
        · exact ⟨e.result, want, .self _⟩
        · obtain ⟨n, hn, depends⟩ := ih subEarlier he
          rcases List.mem_append.mp hn with hn | hn
          · refine ⟨head.result, want, DependsOn.trans ?_ depends⟩
            exact .argument (.self _) (sub List.mem_cons_self) hn
          · exact ⟨n, hn, depends⟩
      · exact ih subEarlier he

section Ordered

/-- Expressions in the order of a build: arguments come before the result, and results ascend. -/
structure Ordered (es : List (Expression α)) : Prop where
  arguments : ∀ e ∈ es, ∀ a ∈ e.term.arguments, a < e.result
  ascending : es.Pairwise (·.result < ·.result)

variable {es : List (Expression α)} {output : NodeId}

theorem Ordered.tail {e : Expression α} (ordered : Ordered (e :: es)) : Ordered es where
  arguments := fun e' he' => ordered.arguments e' (List.mem_cons_of_mem _ he')
  ascending := (List.pairwise_cons.mp ordered.ascending).2

theorem Ordered.later {e : Expression α} (ordered : Ordered (e :: es)) :
    ∀ e' ∈ es, e.result < e'.result :=
  (List.pairwise_cons.mp ordered.ascending).1

/-- What comes before the result of the first expression is given by none. -/
theorem Ordered.free {e : Expression α} (ordered : Ordered (e :: es)) {n : NodeId}
    (before : n < e.result) : ∀ e' ∈ e :: es, e'.result ≠ n := by
  intro e' he'
  rcases List.mem_cons.mp he' with rfl | he'
  · exact ne_of_gt before
  · exact ne_of_gt (lt_trans before (ordered.later e' he'))

/-- Each node is the result of one expression at most. -/
theorem Ordered.eq_of_result_eq (ordered : Ordered es) {e e' : Expression α} (he : e ∈ es)
    (he' : e' ∈ es) (same : e.result = e'.result) : e = e' := by
  obtain ⟨k, hk⟩ := List.mem_iff_getElem?.mp he
  obtain ⟨k', hk'⟩ := List.mem_iff_getElem?.mp he'
  obtain ⟨lt, rfl⟩ := List.getElem?_eq_some_iff.mp hk
  obtain ⟨lt', rfl⟩ := List.getElem?_eq_some_iff.mp hk'
  have ascending := List.pairwise_iff_getElem.mp ordered.ascending
  rcases lt_trichotomy k k' with less | rfl | less
  · exact absurd same (ne_of_lt (ascending k k' lt lt' less))
  · rfl
  · exact absurd same.symm (ne_of_lt (ascending k' k lt' lt less))

/-- With an expression all that give its arguments are found: they come earlier. -/
theorem wantedFrom_closed {wanted : List NodeId} {later : List (Expression α)}
    (arguments : ∀ e ∈ later, ∀ a ∈ e.term.arguments, a < e.result)
    (descending : later.Pairwise fun e e' => e'.result < e.result) {e e' : Expression α}
    (he : e ∈ wantedFrom wanted later) (he' : e' ∈ later) (give : e'.result ∈ e.term.arguments) :
    e' ∈ wantedFrom wanted later := by
  induction later generalizing wanted with
  | nil => cases he'
  | cons head earlier ih =>
      obtain ⟨first, tail⟩ := List.pairwise_cons.mp descending
      have rest {W : List NodeId} (found : e ∈ wantedFrom W earlier) (he' : e' ∈ earlier) :
          e' ∈ wantedFrom W earlier :=
        ih (fun e he => arguments e (List.mem_cons_of_mem _ he)) tail found he'
      -- Nothing found after the head uses the result of the head.
      have earlier_of {wanted : List NodeId} (found : e ∈ wantedFrom wanted earlier) :
          e' ∈ earlier := by
        have mem : e ∈ earlier := (wantedFrom_sublist _ _).subset found
        rcases List.mem_cons.mp he' with rfl | he'
        · have := arguments e (List.mem_cons_of_mem _ mem) _ give
          exact absurd (lt_trans this (first e mem)) (lt_irrefl _)
        · exact he'
      unfold wantedFrom at he ⊢
      split at he
      · rename_i want
        rw [if_pos want]
        rcases List.mem_cons.mp he with rfl | he
        · rcases List.mem_cons.mp he' with rfl | he'
          · exact List.mem_cons_self
          · exact List.mem_cons_of_mem _ (mem_wantedFrom he' (List.mem_append_left _ give))
        · exact List.mem_cons_of_mem _ (rest he (earlier_of he))
      · rename_i unwanted
        rw [if_neg unwanted]
        exact rest he (earlier_of he)

theorem Ordered.reverse_arguments (ordered : Ordered es) :
    ∀ e ∈ es.reverse, ∀ a ∈ e.term.arguments, a < e.result :=
  fun e he => ordered.arguments e (List.mem_reverse.mp he)

theorem Ordered.reverse_descending (ordered : Ordered es) :
    es.reverse.Pairwise fun e e' => e'.result < e.result :=
  List.pairwise_reverse.mpr ordered.ascending

theorem backwardOrder_subset (es : List (Expression α)) (output : NodeId) :
    backwardOrder es output ⊆ es :=
  fun _ he => List.mem_reverse.mp ((wantedFrom_sublist _ _).subset he)

/-- The backward order descends. -/
theorem Ordered.backwardOrder_descending (ordered : Ordered es) :
    (backwardOrder es output).Pairwise fun e e' => e'.result < e.result :=
  ordered.reverse_descending.sublist (wantedFrom_sublist _ _)

theorem Ordered.backwardOrder_closed (ordered : Ordered es) {e e' : Expression α}
    (he : e ∈ backwardOrder es output) (he' : e' ∈ es) (give : e'.result ∈ e.term.arguments) :
    e' ∈ backwardOrder es output :=
  wantedFrom_closed ordered.reverse_arguments ordered.reverse_descending he
    (List.mem_reverse.mpr he') give

/-- The backward order of a node holds exactly the expressions that the node depends on. -/
theorem Ordered.mem_backwardOrder_iff (ordered : Ordered es) {e : Expression α} :
    e ∈ backwardOrder es output ↔ e ∈ es ∧ DependsOn es output e.result := by
  constructor
  · intro he
    refine ⟨backwardOrder_subset es output he, ?_⟩
    obtain ⟨n, hn, depends⟩ :=
      dependsOn_of_mem_wantedFrom (fun x hx => List.mem_reverse.mp hx) he
    cases List.mem_singleton.mp hn
    exact depends
  · rintro ⟨he, depends⟩
    generalize hm : e.result = m at depends
    induction depends generalizing e with
    | self => exact mem_wantedFrom (List.mem_reverse.mpr he) (by simp [hm])
    | argument _ he₀ ha ih =>
        exact ordered.backwardOrder_closed (ih he₀ rfl) he (hm ▸ ha)

end Ordered

/-! ### The links -/

theorem carriedFrom?_eq_some {nodes : Nodes α} {k : NodeId} {source : ExpressionId}
    (h : carriedFrom? nodes k = some source) :
    ∃ n, nodes[k]? = some n ∧ n.origin.isCarried = true := by
  unfold carriedFrom? at h
  cases hn : nodes[k]? with
  | none =>
      rw [hn] at h
      cases h
  | some n =>
      refine ⟨n, rfl, ?_⟩
      cases origin : n.origin with
      | carried e => rfl
      | leaf e => simp [hn, origin] at h
      | result e => simp [hn, origin] at h

/-- A link leads from the result of an expression to a carried node that is an argument. -/
theorem stateLinks_cases {arities : List Nat} {nodes : Nodes α} {es : List (Expression α)}
    {link : Link α} (h : link ∈ stateLinks arities nodes es) :
    ∃ source, carriedFrom? nodes link.consumer = some source ∧
      ∃ e ∈ es, link = .create e.result link.consumer := by
  unfold stateLinks at h
  split at h
  · cases h
  · obtain ⟨consumer, -, found⟩ := List.mem_filterMap.mp h
    cases carried : carriedFrom? nodes consumer with
    | none => simp [carried] at found
    | some source =>
        cases producer : es[source]? with
        | none => simp [carried, producer] at found
        | some e =>
            simp [carried, producer] at found
            subst found
            exact ⟨source, carried, e, List.mem_of_getElem? producer, rfl⟩

theorem eraseDups_nodup {β : Type} [BEq β] [LawfulBEq β] (xs : List β) : xs.eraseDups.Nodup := by
  match xs with
  | [] => simp
  | x :: xs =>
      have shorter : (xs.filter fun y => !y == x).length < xs.length + 1 :=
        Nat.lt_succ_of_le (List.length_filter_le _ xs)
      rw [List.eraseDups_cons, List.nodup_cons]
      refine ⟨?_, eraseDups_nodup _⟩
      simp [List.mem_eraseDups]
termination_by xs.length

/-- No two links have one consumer. -/
theorem consumers_nodup (arities : List Nat) (nodes : Nodes α) (es : List (Expression α)) :
    ((stateLinks arities nodes es).map (·.consumer)).Nodup := by
  unfold stateLinks
  split
  · exact .nil
  · rw [List.map_filterMap]
    refine List.Nodup.filterMap ?_ (eraseDups_nodup _)
    intro c c' k hk hk'
    have same {c : NodeId} (h : k ∈ (do
        let source ← carriedFrom? nodes c
        let producer ← es[source]?
        some (Link.create (α := α) producer.result c) : Option (Link α)).map (·.consumer)) :
        k = c := by
      cases carried : carriedFrom? nodes c with
      | none => simp [carried] at h
      | some source =>
          cases producer : es[source]? with
          | none => simp [carried, producer] at h
          | some e =>
              simp [carried, producer, Link.create] at h
              exact h.symm
    exact (same hk).symm.trans (same hk')

end GradientReplay
