import GradientReplay.Proofs.Recorder.Flow
import Mathlib.Data.Finset.Card
import Mathlib.Data.List.Sort

/-!
The backward order as a search with a stack.

From the output on, the node on top of the stack is visited: if an expression gives it that was not
seen yet, the expression is noted and its arguments go on the stack. A node can go on the stack many
times, but each time an expression is noted, so the search comes to an end on every list of
expressions (`Search.exists_ends`). On the expressions of a build it ends with exactly those that
the output depends on, each noted once, and in descending order these are the backward order
(`Search.Ends.sorted`).
-/

namespace GradientReplay

variable {α : Type}

theorem Term.arguments_length_le {ν : Type} (t : Term α ν) : t.arguments.length ≤ 2 := by
  cases t <;> simp [arguments, first, second?]

/-- A search that is going on. -/
structure Search where
  /-- The nodes that are still to be visited, the next one first. -/
  stack : List NodeId
  /-- The expressions noted so far. -/
  seen : List ExpressionId

namespace Search

/-- The expression that gives a node. -/
def producer? (es : List (Expression α)) (n : NodeId) : Option (Expression α) :=
  es.find? fun e => e.result == n

def start (output : NodeId) : Search := ⟨[output], []⟩

/-- Visit the next node, if there is one. The second argument of an expression goes on the stack
above the first. -/
def next (es : List (Expression α)) : Search → Option Search
  | ⟨[], _⟩ => none
  | ⟨n :: stack, seen⟩ =>
      match producer? es n with
      | none => some ⟨stack, seen⟩
      | some e =>
          if e.id ∈ seen then some ⟨stack, seen⟩
          else some ⟨e.term.arguments.reverse ++ stack, e.id :: seen⟩

/-- The search ends, and these expressions have been noted. -/
inductive Ends (es : List (Expression α)) : Search → List ExpressionId → Prop where
  | stop {s : Search} : s.next es = none → Ends es s s.seen
  | step {s s' : Search} {ids : List ExpressionId} :
      s.next es = some s' → Ends es s' ids → Ends es s ids

section Steps

variable {es : List (Expression α)} {s s' : Search} {n : NodeId} {e : Expression α}

theorem producer?_some (h : producer? es n = some e) : e ∈ es ∧ e.result = n :=
  ⟨List.mem_of_find?_eq_some h, by simpa using List.find?_some h⟩

theorem producer?_none (h : producer? es n = none) : ∀ e ∈ es, e.result ≠ n := by
  simpa [producer?] using h

theorem next_none (h : s.next es = none) : s.stack = [] := by
  unfold next at h
  split at h
  · rfl
  · split at h
    · cases h
    · split at h <;> cases h

/-- The next node is visited: no expression gives it, or one that was noted already, or one that is
noted now. -/
theorem next_cases (h : s.next es = some s') :
    ∃ n stack, s.stack = n :: stack ∧
      (s' = ⟨stack, s.seen⟩ ∧ (producer? es n = none ∨
          ∃ e, producer? es n = some e ∧ e.id ∈ s.seen) ∨
        ∃ e, producer? es n = some e ∧ e.id ∉ s.seen ∧
          s' = ⟨e.term.arguments.reverse ++ stack, e.id :: s.seen⟩) := by
  unfold next at h
  split at h
  · cases h
  · rename_i n stack seen
    refine ⟨n, stack, rfl, ?_⟩
    split at h
    · rename_i free
      cases h
      exact .inl ⟨rfl, .inl free⟩
    · rename_i e found
      split at h
      · rename_i noted
        cases h
        exact .inl ⟨rfl, .inr ⟨e, found, noted⟩⟩
      · rename_i new
        cases h
        exact .inr ⟨e, found, new, rfl⟩

/-! ### The search ends -/

/-- What the search still has before it: each expression that was not noted is noted and puts two
arguments on the stack at most, and each node on the stack is visited. -/
def ahead (es : List (Expression α)) (s : Search) : Nat :=
  3 * ((es.map (·.id)).toFinset \ s.seen.toFinset).card + s.stack.length

/-- When an expression is noted, fewer are left. -/
theorem card_noted_lt {seen : List ExpressionId} (he : e ∈ es) (new : e.id ∉ seen) :
    ((es.map (·.id)).toFinset \ (e.id :: seen).toFinset).card <
      ((es.map (·.id)).toFinset \ seen.toFinset).card := by
  rw [List.toFinset_cons, Finset.sdiff_insert]
  apply Finset.card_erase_lt_of_mem
  rw [Finset.mem_sdiff, List.mem_toFinset, List.mem_toFinset]
  exact ⟨List.mem_map_of_mem he, new⟩

theorem ahead_lt (h : s.next es = some s') : s'.ahead es < s.ahead es := by
  obtain ⟨n, stack, top, ⟨rfl, -⟩ | ⟨e, found, new, rfl⟩⟩ := next_cases h
  · simp only [ahead, top, List.length_cons]
    omega
  · have fewer := card_noted_lt (producer?_some found).1 new
    have two := e.term.arguments_length_le
    simp only [ahead, top, List.length_cons, List.length_append, List.length_reverse]
    omega

/-- From wherever it is, the search ends. -/
theorem exists_ends (es : List (Expression α)) (s : Search) : ∃ ids, Ends es s ids := by
  induction h : s.ahead es using Nat.strong_induction_on generalizing s with
  | _ k ih =>
      cases step : s.next es with
      | none => exact ⟨s.seen, .stop step⟩
      | some s' =>
          obtain ⟨ids, ends⟩ := ih _ (h ▸ ahead_lt step) s' rfl
          exact ⟨ids, .step step ends⟩

end Steps

/-! ### What the search finds -/

/-- Nothing that gives the node is overlooked: it is still to be visited, or what gives it has been
noted. -/
def Handled (es : List (Expression α)) (s : Search) (n : NodeId) : Prop :=
  n ∈ s.stack ∨ ∀ e ∈ es, e.result = n → e.id ∈ s.seen

/-- What a search from the output satisfies at each of its steps. -/
structure Sound (es : List (Expression α)) (output : NodeId) (s : Search) : Prop where
  distinct : s.seen.Nodup
  wanted : ∀ n ∈ s.stack, DependsOn es output n
  noted : ∀ id ∈ s.seen, ∃ e ∈ es, e.id = id ∧ DependsOn es output e.result
  output : Handled es s output
  arguments : ∀ e ∈ es, e.id ∈ s.seen → ∀ a ∈ e.term.arguments, Handled es s a

variable {es : List (Expression α)} {output : NodeId} {s s' : Search}

theorem Sound.start (es : List (Expression α)) (output : NodeId) :
    Sound es output (Search.start output) where
  distinct := .nil
  wanted := by
    intro n hn
    cases List.mem_singleton.mp hn
    exact .self output
  noted := fun id hid => by cases hid
  output := .inl List.mem_cons_self
  arguments := fun e _ he => by cases he

section Numbered

variable (ordered : Ordered es)
  (numbered : ∀ (j : ExpressionId) (e : Expression α), es[j]? = some e → e.id = j)

include numbered

omit ordered in
/-- Expressions are told apart by their numbers. -/
theorem eq_of_id_eq {e e' : Expression α} (he : e ∈ es) (he' : e' ∈ es) (same : e.id = e'.id) :
    e = e' := by
  obtain ⟨j, hj⟩ := List.mem_iff_getElem?.mp he
  obtain ⟨j', hj'⟩ := List.mem_iff_getElem?.mp he'
  rw [numbered j e hj, numbered j' e' hj'] at same
  subst same
  exact Option.some.inj (hj.symm.trans hj')

include ordered

/-- A step keeps the search sound. -/
theorem Sound.next (sound : Sound es output s) (h : s.next es = some s') :
    Sound es output s' := by
  obtain ⟨n, stack, top, ⟨rfl, visited⟩ | ⟨e, found, new, rfl⟩⟩ := next_cases h
  · -- What gives the visited node, if anything does, was noted before.
    have here : ∀ e' ∈ es, e'.result = n → e'.id ∈ s.seen := by
      intro e' he' give
      rcases visited with free | ⟨e, found, noted⟩
      · exact absurd give (producer?_none free e' he')
      · obtain ⟨he, gives⟩ := producer?_some found
        rw [ordered.eq_of_result_eq he' he (give.trans gives.symm)]
        exact noted
    have handled {m : NodeId} (before : Handled es s m) : Handled es ⟨stack, s.seen⟩ m := by
      rcases before with on | noted
      · rw [top] at on
        rcases List.mem_cons.mp on with rfl | on
        · exact .inr here
        · exact .inl on
      · exact .inr noted
    refine ⟨sound.distinct, fun m hm => ?_, sound.noted, handled sound.output, ?_⟩
    · exact sound.wanted m (top ▸ List.mem_cons_of_mem n hm)
    · intro e he noted a ha
      exact handled (sound.arguments e he noted a ha)
  · obtain ⟨he, gives⟩ := producer?_some found
    have depends : DependsOn es output e.result :=
      gives ▸ sound.wanted n (top ▸ List.mem_cons_self)
    have handled {m : NodeId} (before : Handled es s m) :
        Handled es ⟨e.term.arguments.reverse ++ stack, e.id :: s.seen⟩ m := by
      rcases before with on | noted
      · rw [top] at on
        rcases List.mem_cons.mp on with rfl | on
        · refine .inr fun e' he' give => ?_
          rw [ordered.eq_of_result_eq he' he (give.trans gives.symm)]
          exact List.mem_cons_self
        · exact .inl (List.mem_append_right _ on)
      · exact .inr fun e' he' give => List.mem_cons_of_mem _ (noted e' he' give)
    constructor
    · exact List.nodup_cons.mpr ⟨new, sound.distinct⟩
    · intro m hm
      rcases List.mem_append.mp hm with hm | hm
      · exact .argument depends he (List.mem_reverse.mp hm)
      · exact sound.wanted m (top ▸ List.mem_cons_of_mem n hm)
    · intro id hid
      rcases List.mem_cons.mp hid with rfl | hid
      · exact ⟨e, he, rfl, depends⟩
      · exact sound.noted id hid
    · exact handled sound.output
    · intro e' he' noted a ha
      rcases List.mem_cons.mp noted with same | noted
      · rw [eq_of_id_eq numbered he' he same] at ha
        exact .inl (List.mem_append_left _ (List.mem_reverse.mpr ha))
      · exact handled (sound.arguments e' he' noted a ha)

/-- When a sound search ends, exactly the expressions that the output depends on have been noted,
each once. -/
theorem Sound.ends (sound : Sound es output s) {ids : List ExpressionId} (h : Ends es s ids) :
    ids.Nodup ∧ ∀ id, id ∈ ids ↔ ∃ e ∈ es, e.id = id ∧ DependsOn es output e.result := by
  induction h with
  | step next _ ih => exact ih (sound.next ordered numbered next)
  | @stop s stopped =>
      have empty := next_none stopped
      have noted {m : NodeId} (handled : Handled es s m) :
          ∀ e ∈ es, e.result = m → e.id ∈ s.seen := by
        rcases handled with on | noted
        · rw [empty] at on
          cases on
        · exact noted
      refine ⟨sound.distinct, fun id => ⟨sound.noted id, ?_⟩⟩
      rintro ⟨e, he, rfl, depends⟩
      generalize give : e.result = m at depends
      induction depends generalizing e with
      | self => exact noted sound.output e he give
      | argument _ he₀ ha ih =>
          exact noted (sound.arguments _ he₀ (ih _ he₀ rfl) _ ha) e he give

omit ordered in
/-- The expressions at the numbers of some expressions are these. -/
theorem map_getElem?_id {found : List (Expression α)} (sub : found ⊆ es) :
    (found.map (·.id)).map (es[·]?) = found.map some := by
  rw [List.map_map]
  refine List.map_congr_left fun e he => ?_
  obtain ⟨j, hj⟩ := List.mem_iff_getElem?.mp (sub he)
  simp only [Function.comp_apply, numbered j e hj, hj]

omit ordered in
/-- The backward order descends in the numbers. -/
theorem backwardOrder_ids (output : NodeId) :
    ((backwardOrder es output).map (·.id)).Pairwise (· > ·) := by
  have ascending : es.Pairwise (·.id < ·.id) := by
    rw [List.pairwise_iff_getElem]
    intro i j hi hj less
    rw [numbered i _ (List.getElem?_eq_getElem hi), numbered j _ (List.getElem?_eq_getElem hj)]
    exact less
  rw [List.pairwise_map]
  exact (List.pairwise_reverse.mpr ascending).sublist (wantedFrom_sublist _ _)

/-- The search from the output ends with the backward order, once the expressions it noted are put
into descending order. -/
theorem Ends.sorted {ids : List ExpressionId} (h : Ends es (Search.start output) ids) :
    ids.Nodup ∧
      (ids.mergeSort (· ≥ ·)).map (es[·]?) = (backwardOrder es output).map some := by
  obtain ⟨distinct, exact⟩ := (Sound.start es output).ends ordered numbered h
  refine ⟨distinct, ?_⟩
  have descending := backwardOrder_ids numbered output
  have members : ids.Perm ((backwardOrder es output).map (·.id)) := by
    refine (List.perm_ext_iff_of_nodup distinct descending.nodup).mpr fun id => ?_
    rw [exact id, List.mem_map]
    simp only [ordered.mem_backwardOrder_iff]
    constructor
    · rintro ⟨e, he, same, depends⟩
      exact ⟨e, ⟨he, depends⟩, same⟩
    · rintro ⟨e, ⟨he, depends⟩, same⟩
      exact ⟨e, he, same, depends⟩
  have same : ids.mergeSort (· ≥ ·) = (backwardOrder es output).map (·.id) :=
    ((List.mergeSort_perm ids _).trans members).eq_of_pairwise'
      (List.pairwise_mergeSort' (· ≥ ·) ids) (descending.imp Nat.le_of_lt)
  rw [same, map_getElem?_id numbered (backwardOrder_subset es output)]

end Numbered

end Search

end GradientReplay
