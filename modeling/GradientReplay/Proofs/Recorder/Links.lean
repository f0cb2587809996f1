import GradientReplay.Proofs.Recorder.Lineage

/-!
The links of a build, seen against the build before it.

A node that was carried over is an argument of some expression (`Session.reached_used`), and its
origin names an expression of the build before. So if the expressions of both builds go together,
each carried node is fed by one link, from the result of the expression at the place that it came
from; if their counts differ there are no links (`Session.finish_links`).
-/

namespace GradientReplay

variable {α β : Type}

/-! ### First occurrences -/

section Order

variable [BEq β] [LawfulBEq β]

/-- Of what is kept by a filter, what stands first stood first before. -/
theorem idxOf_lt_of_filter {keep : β → Bool} {xs : List β} {a b : β} (ha : keep a = true)
    (hb : keep b = true) (lt : (xs.filter keep).idxOf a < (xs.filter keep).idxOf b) :
    xs.idxOf a < xs.idxOf b := by
  induction xs with
  | nil => simp at lt
  | cons x xs ih =>
      by_cases hx : keep x = true
      · rw [List.filter_cons_of_pos hx] at lt
        by_cases xa : x = a
        · by_cases xb : x = b
          · simp [← xa, ← xb] at lt
          · simp [← xa, List.idxOf_cons_ne _ xb]
        · by_cases xb : x = b
          · simp [← xb] at lt
          · rw [List.idxOf_cons_ne _ xa, List.idxOf_cons_ne _ xb] at lt ⊢
            exact Nat.succ_lt_succ (ih (Nat.lt_of_succ_lt_succ lt))
      · have xa : x ≠ a := fun same => hx (same ▸ ha)
        have xb : x ≠ b := fun same => hx (same ▸ hb)
        rw [List.filter_cons_of_neg hx] at lt
        rw [List.idxOf_cons_ne _ xa, List.idxOf_cons_ne _ xb]
        exact Nat.succ_lt_succ (ih lt)

/-- Without repetitions the elements are listed in the order of their first occurrences. -/
theorem eraseDups_ascending (xs : List β) :
    xs.eraseDups.Pairwise fun a b => xs.idxOf a < xs.idxOf b := by
  match xs with
  | [] => simp
  | x :: xs =>
      have shorter : (xs.filter fun y => !y == x).length < xs.length + 1 :=
        Nat.lt_succ_of_le (List.length_filter_le _ xs)
      have other {y : β} (hy : y ∈ (xs.filter fun y => !y == x).eraseDups) : x ≠ y := by
        rintro rfl
        simpa using (List.mem_filter.mp (List.mem_eraseDups.mp hy)).2
      rw [List.eraseDups_cons, List.pairwise_cons]
      constructor
      · intro y hy
        rw [List.idxOf_cons_self, List.idxOf_cons_ne _ (other hy)]
        exact Nat.succ_pos _
      · refine (eraseDups_ascending _).imp_of_mem fun {a b} ha hb lt => ?_
        rw [List.idxOf_cons_ne _ (other ha), List.idxOf_cons_ne _ (other hb)]
        exact Nat.succ_lt_succ (idxOf_lt_of_filter (by simpa using (other ha).symm)
          (by simpa using (other hb).symm) lt)
termination_by xs.length

end Order

/-- Where no two elements have one key, an element is all there is with its key. -/
theorem filter_key_eq {γ : Type} [DecidableEq γ] {key : β → γ} {xs : List β} {x : β}
    (distinct : (xs.map key).Nodup) (hx : x ∈ xs) : xs.filter (key · = key x) = [x] := by
  obtain ⟨before, after, rfl⟩ := List.append_of_mem hx
  rw [List.map_append, List.map_cons, List.nodup_append, List.nodup_cons] at distinct
  obtain ⟨-, ⟨later, -⟩, earlier⟩ := distinct
  have hbefore : before.filter (key · = key x) = [] := by
    refine List.filter_eq_nil_iff.mpr fun y hy same => ?_
    exact earlier (key y) (List.mem_map_of_mem hy) (key x) List.mem_cons_self (by simpa using same)
  have hafter : after.filter (key · = key x) = [] := by
    refine List.filter_eq_nil_iff.mpr fun y hy same => ?_
    exact later (List.mem_map.mpr ⟨y, hy, by simpa using same⟩)
  simp [hbefore, hafter]

/-! ### The build that is going on -/

section Current

variable {P : Recording α → Prop} (begun : ∀ build input, P (.start build input))
  (kept : ∀ r previous term result r' id, P r →
    r.record previous term result = .ok (r', id) → P r')

include begun kept

/-- What a new build has and each recording keeps, a step keeps. -/
theorem Recorder.Step.keeps {recorder after : Recorder α} {ended : Option (Recording α)}
    (step : recorder.Step ended after) (h : ∀ r, recorder.current = some r → P r) :
    ∀ r, after.current = some r → P r := by
  cases step with
  | aside current previous => exact fun r live => h r (current ▸ live)
  | begin input idle =>
      rintro _ ⟨⟩
      exact begun _ input
  | record current recorded =>
      rintro _ ⟨⟩
      exact kept _ _ _ _ _ _ (h _ current) recorded
  | giveUp current => rintro _ ⟨⟩
  | finish current => rintro _ ⟨⟩

/-- So every build that is going on has it. -/
theorem Session.reached_current [Zero α] [Add α] [Sub α] [Mul α] [Div α] [BEq α] {s : Session α}
    (reached : s.Reached) : ∀ r, s.recorder.current = some r → P r := by
  obtain ⟨name, calls, rfl⟩ := reached
  refine run_preserves (P := fun s => ∀ r, s.recorder.current = some r → P r) ?_ ?_
  · intro c _ s h
    exact (s.perform_step c).keeps begun kept h
  · intro r h
    cases h

end Current

/-- The nodes that were carried over are arguments of expressions. -/
def Recording.Used (r : Recording α) : Prop :=
  ∀ (k : NodeId) (n : Node α), r.arena.nodes[k]? = some n → n.origin.isCarried = true →
    ∃ e ∈ r.expressions, k ∈ e.term.arguments

namespace Recording

variable {r r' : Recording α} {previous : Option Predecessor} {term : Term α (Operand α)}
  {result : Operand α} {id : ExpressionId}

/-- A node that is made while a term is recorded is an argument of it, or its result. -/
theorem Used.record (used : r.Used) (paired : r.arena.Paired)
    (h : r.record previous term result = .ok (r', id)) : r'.arena.Paired ∧ r'.Used := by
  obtain ⟨-, s, adds, rfl⟩ := record_ok paired h
  refine ⟨adds.paired, fun k n hn carried => ?_⟩
  rcases getElem?_concat_iff.mp hn with hn | ⟨-, rfl⟩
  · rcases Nat.lt_or_ge k r.arena.nodes.length with old | new
    · have before := (adds.binds.grown.getElem? hn).resolve_right (Nat.not_le_of_lt old)
      obtain ⟨e, he, uses⟩ := used k n before carried
      exact ⟨e, List.mem_append_left _ he, uses⟩
    · obtain ⟨x, hx, found, -⟩ := adds.binds.fresh k n new hn
      refine ⟨_, List.mem_append_right _ List.mem_cons_self, ?_⟩
      rw [Term.arguments_map, ← nodeOf_eq found]
      exact List.mem_map_of_mem hx
  · cases carried

end Recording

theorem Session.reached_used [Zero α] [Add α] [Sub α] [Mul α] [Div α] [BEq α] {s : Session α}
    (reached : s.Reached) {r : Recording α} (current : s.recorder.current = some r) : r.Used := by
  refine (reached_current (P := fun r => r.arena.Paired ∧ r.Used) ?_ ?_ reached r current).2
  · intro build input
    refine ⟨Arena.Paired.empty.add rfl _, fun k n hn carried => ?_⟩
    -- The declared input is the only node.
    rcases k with _ | k
    · cases hn
      cases carried
    · cases hn
  · intro r previous term result r' id h recorded
    exact h.2.record h.1 recorded

/-! ### The build before -/

/-- The build that was ended last was going on at some point. -/
theorem Session.reached_of_lastEnded [Zero α] [Add α] [Sub α] [Mul α] [Div α] [BEq α]
    {s : Session α} (reached : s.Reached) {calls : List (Call α)} {before : Recording α}
    (ended : s.lastEnded calls = some before) :
    ∃ s' : Session α, s'.Reached ∧ s'.recorder.current = some before := by
  induction calls generalizing s with
  | nil => cases ended
  | cons c calls ih =>
      rcases Option.or_eq_some_iff.mp ended with later | ⟨-, now⟩
      · exact ih (reached_run reached [c]) later
      · have step := s.perform_step c
        rw [now] at step
        exact ⟨s, reached, step.current_of_ended⟩

namespace Recording

variable {held : List (Tensor α)} {before r : Recording α}

theorem carriedFrom?_iff {nodes : Nodes α} {c : NodeId} {k : ExpressionId} :
    carriedFrom? nodes c = some k ↔ ∃ n, nodes[c]? = some n ∧ n.origin = .carried k := by
  unfold carriedFrom?
  cases nodes[c]? with
  | none => simp
  | some n => cases origin : n.origin <;> simp [origin]

/-- A carried node is bound to a result of the build before. -/
theorem Placed.carried (placed : r.Placed (some before)) (valid : r.Valid held) {c : NodeId}
    {k : ExpressionId} (carried : carriedFrom? r.arena.nodes c = some k) :
    ∃ x, r.arena.find? x = some c ∧ before.graph.Gives x k := by
  obtain ⟨n, hn, origin⟩ := carriedFrom?_iff.mp carried
  obtain ⟨-, first, hfirst, -, plain⟩ := valid.input
  have ne : c ≠ 0 := by
    rintro rfl
    cases hfirst.symm.trans hn
    rw [origin] at plain
    cases plain
  obtain ⟨x, hx⟩ := placed.paired.exists_tensor (List.getElem?_eq_some_iff.mp hn).1
  have kind := placed.kinds x c n hx hn ne
  simp only [Graph.Kind, Node.profile, origin] at kind
  obtain ⟨-, -, b, hb, gives, -⟩ := kind
  cases hb
  exact ⟨x, hx, gives⟩

/-- The place that a carried node came from is one of the build before. -/
theorem Placed.carried_lt (placed : r.Placed (some before)) (valid : r.Valid held) {c : NodeId}
    {k : ExpressionId} (carried : carriedFrom? r.arena.nodes c = some k) :
    k < before.expressions.length := by
  obtain ⟨x, -, e, he, -⟩ := placed.carried valid carried
  exact (List.getElem?_eq_some_iff.mp he).1

/-- Nodes that were carried over from one place are one node. -/
theorem Placed.carried_inj (placed : r.Placed (some before)) (valid : r.Valid held)
    (paired : before.arena.Paired) {c c' : NodeId} {k : ExpressionId}
    (carried : carriedFrom? r.arena.nodes c = some k)
    (carried' : carriedFrom? r.arena.nodes c' = some k) : c = c' := by
  obtain ⟨x, hx, e, he, given⟩ := placed.carried valid carried
  obtain ⟨x', hx', e', he', given'⟩ := placed.carried valid carried'
  cases he.symm.trans he'
  have same : x = x' := paired.distinct given given'
  subst same
  exact Option.some.inj (hx.symm.trans hx')

end Recording

/-! ### Links and carried nodes -/

/-- How many arguments an expression has. -/
def Expression.arity (e : Expression α) : Nat := e.term.arguments.length

/-- The arguments of expressions in the order in which they are used. -/
def uses (es : List (Expression α)) : List NodeId := es.flatMap (·.term.arguments)

/-- The arguments that have a counterpart in the build before, in the order in which they are
used. -/
def comparedUses (arities : List Nat) (es : List (Expression α)) : List NodeId :=
  (List.zipWith pairedArguments es arities).flatten

/-- If the counts of arguments are the same, all arguments have a counterpart. -/
theorem comparedUses_of_arities {arities : List Nat} {es : List (Expression α)}
    (same : es.map Expression.arity = arities) : comparedUses arities es = uses es := by
  subst same
  unfold comparedUses uses
  rw [List.flatMap_def]
  congr 1
  induction es with
  | nil => rfl
  | cons e es ih => simp [pairedArguments, Expression.arity, ih]

variable {arities : List Nat} {nodes : Nodes α} {es : List (Expression α)} {link : Link α}

/-- A carried node is fed from the result at the place that it came from. -/
theorem feeding_iff {c : NodeId} :
    ((carriedFrom? nodes c).bind fun source => es[source]?.bind fun producer =>
        some (Link.create producer.result c)) = some link ↔
      ∃ k e, carriedFrom? nodes c = some k ∧ es[k]? = some e ∧ link = .create e.result c := by
  simp only [Option.bind_eq_some_iff, Option.some.injEq]
  constructor
  · rintro ⟨k, carried, e, producer, rfl⟩
    exact ⟨k, e, carried, producer, rfl⟩
  · rintro ⟨k, e, carried, producer, rfl⟩
    exact ⟨k, carried, e, producer, rfl⟩

/-- In builds of one length there is a link for each carried argument that has a counterpart and
comes from a place in the build; otherwise there are none. -/
theorem mem_stateLinks_iff :
    link ∈ stateLinks arities nodes es ↔
      arities.length = es.length ∧ link.consumer ∈ comparedUses arities es ∧
        ∃ k e, carriedFrom? nodes link.consumer = some k ∧ es[k]? = some e ∧
          link = .create e.result link.consumer := by
  unfold stateLinks
  split
  · rename_i unlike
    simp [unlike]
  · rename_i alike
    rw [List.mem_filterMap]
    constructor
    · rintro ⟨c, hc, found⟩
      obtain ⟨k, e, carried, producer, rfl⟩ := feeding_iff.mp found
      have used := (List.mem_filter.mp (List.mem_eraseDups.mp hc)).1
      exact ⟨not_not.mp alike, used, k, e, carried, producer, rfl⟩
    · rintro ⟨-, used, k, e, carried, producer, eq⟩
      refine ⟨link.consumer, ?_, feeding_iff.mpr ⟨k, e, carried, producer, eq⟩⟩
      refine List.mem_eraseDups.mpr (List.mem_filter.mpr ⟨used, ?_⟩)
      exact Option.isSome_of_eq_some carried

/-- Links are listed by the first use of their consumers among the arguments with a counterpart. -/
theorem stateLinks_ascending (arities : List Nat) (nodes : Nodes α) (es : List (Expression α)) :
    (stateLinks arities nodes es).Pairwise fun l l' =>
      (comparedUses arities es).idxOf l.consumer < (comparedUses arities es).idxOf l'.consumer := by
  unfold stateLinks
  split
  · exact .nil
  · refine List.pairwise_filterMap.mpr ((eraseDups_ascending _).imp ?_)
    intro c c' lt l hl l' hl'
    obtain ⟨k, e, carried, -, rfl⟩ := feeding_iff.mp hl
    obtain ⟨k', e', carried', -, rfl⟩ := feeding_iff.mp hl'
    exact idxOf_lt_of_filter (Option.isSome_of_eq_some carried)
      (Option.isSome_of_eq_some carried') lt

/-! ### The links of a compiled procedure -/

/-- How the links of a procedure stand to its build and to the build before. -/
structure Procedure.LinkedAfter (before : Recording α) (p : Procedure α) : Prop where
  /-- Builds of different lengths have no links between them. -/
  unlike : before.expressions.length ≠ p.forwardOrder.length → p.links = []
  /-- If all counts of arguments are the same, each carried node is fed by one link, from the result
  of the expression at the place that it came from. -/
  fed : before.expressions.map Expression.arity = p.forwardOrder.map Expression.arity →
    ∀ (c : NodeId) (n : Node α) (k : ExpressionId), p.nodes[c]? = some n →
      n.origin = .carried k →
        ∃ e, p.forwardOrder[k]? = some e ∧ p.links.filter (·.consumer = c) = [.create e.result c]
  /-- In any case each link leads from such a result to a carried node. -/
  carried : ∀ l ∈ p.links, ∃ n k e, p.nodes[l.consumer]? = some n ∧ n.origin = .carried k ∧
    p.forwardOrder[k]? = some e ∧ l = .create e.result l.consumer
  consumers : (p.links.map (·.consumer)).Nodup
  producers : (p.links.map (·.producer)).Nodup
  apart : ∀ l ∈ p.links, ∀ l' ∈ p.links, l.producer ≠ l'.consumer
  /-- No end of a link is a constant or the input. -/
  plain : ∀ l ∈ p.links, ∀ m ∈ [l.producer, l.consumer],
    m ≠ p.input ∧ ∃ n, p.nodes[m]? = some n ∧ n.constant = false
  /-- Links are listed by the first use of their consumers. -/
  listed : before.expressions.map Expression.arity = p.forwardOrder.map Expression.arity →
    p.links.Pairwise fun l l' =>
      (uses p.forwardOrder).idxOf l.consumer < (uses p.forwardOrder).idxOf l'.consumer
  /-- If the counts of arguments differ, only uses with a counterpart count. -/
  compared : p.links.Pairwise fun l l' =>
    let uses := comparedUses (before.expressions.map Expression.arity) p.forwardOrder
    uses.idxOf l.consumer < uses.idxOf l'.consumer

/-- What is computed or carried over is no constant. -/
theorem Procedure.exists_plain {p : Procedure α} {m : NodeId}
    (kind : p.plan.Computed m ∨ p.plan.Carried m) :
    ∃ n, p.nodes[m]? = some n ∧ n.constant = false := by
  have plain : ∃ c, p.plan.nodes[m]? = some c ∧ c.constant = false := by
    rcases kind with ⟨c, hc, plain, -⟩ | ⟨c, hc, plain, -⟩ <;> exact ⟨c, hc, plain⟩
  obtain ⟨c, hc, plain⟩ := plain
  rw [plan_nodes_getElem?] at hc
  obtain ⟨n, hn, rfl⟩ := Option.map_eq_some_iff.mp hc
  exact ⟨n, hn, plain⟩

namespace Recording

variable {held : List (Tensor α)} {before r : Recording α}

/-- An argument that was carried over, and has a counterpart, is fed by one link. -/
theorem Placed.filter_links (placed : r.Placed (some before)) (valid : r.Valid held)
    (same : before.expressions.length = r.expressions.length) {c : NodeId} {k : ExpressionId}
    (carried : carriedFrom? r.arena.nodes c = some k)
    (used : c ∈ comparedUses (before.expressions.map Expression.arity) r.expressions) :
    ∃ e, r.expressions[k]? = some e ∧
      (stateLinks (before.expressions.map Expression.arity) r.arena.nodes r.expressions).filter
        (·.consumer = c) = [.create e.result c] := by
  have inside := placed.carried_lt valid carried
  rw [same] at inside
  have producer := List.getElem?_eq_getElem inside
  have mem : Link.create r.expressions[k].result c ∈
      stateLinks (before.expressions.map Expression.arity) r.arena.nodes r.expressions :=
    mem_stateLinks_iff.mpr ⟨by rw [List.length_map, same], used, k, _, carried, producer, rfl⟩
  exact ⟨_, producer, filter_key_eq (consumers_nodup _ r.arena.nodes r.expressions) mem⟩

/-- No two carried nodes came from one place, so no two links have one producer. -/
theorem Placed.producers_nodup (placed : r.Placed (some before)) (valid : r.Valid held)
    (paired : before.arena.Paired) (arities : List Nat) :
    ((stateLinks arities r.arena.nodes r.expressions).map (·.producer)).Nodup := by
  have consumers := consumers_nodup arities r.arena.nodes r.expressions
  have ordered : Ordered r.expressions := ⟨valid.arguments, valid.ascending⟩
  refine List.Nodup.map_on ?_ (List.Nodup.of_map _ consumers)
  intro l hl l' hl' sameProducer
  obtain ⟨-, -, k, e, carried, he, eq⟩ := mem_stateLinks_iff.mp hl
  obtain ⟨-, -, k', e', carried', he', eq'⟩ := mem_stateLinks_iff.mp hl'
  have results : e.result = e'.result := by
    rw [eq, eq'] at sameProducer
    exact sameProducer
  have expressions : e = e' :=
    ordered.eq_of_result_eq (List.mem_of_getElem? he) (List.mem_of_getElem? he') results
  have places : k = k' := by
    rw [← placed.positions k e he, ← placed.positions k' e' he', expressions]
  subst places
  have sameConsumer := placed.carried_inj valid paired carried carried'
  exact List.inj_on_of_nodup_map consumers hl hl' sameConsumer

/-- A procedure with a valid plan whose links were looked for in this way is linked to the build
before as it should be. -/
theorem Placed.linkedAfter (placed : r.Placed (some before)) (valid : r.Valid held)
    (used : r.Used) (paired : before.arena.Paired) {p : Procedure α} (plan : p.plan.Valid)
    (nodes : p.nodes = r.arena.nodes) (order : p.forwardOrder = r.expressions)
    (links : p.links =
      stateLinks (before.expressions.map Expression.arity) r.arena.nodes r.expressions) :
    p.LinkedAfter before := by
  constructor
  · intro unlike
    rw [order] at unlike
    rw [links, stateLinks, if_pos]
    rwa [List.length_map]
  · intro alike c n k hn origin
    rw [order] at alike ⊢
    rw [nodes] at hn
    rw [links]
    have same : before.expressions.length = r.expressions.length := by
      simpa using congrArg List.length alike
    obtain ⟨e, he, uses⟩ := used c n hn (by rw [origin]; rfl)
    refine placed.filter_links valid same (carriedFrom?_iff.mpr ⟨n, hn, origin⟩) ?_
    rw [comparedUses_of_arities alike.symm]
    exact List.mem_flatMap.mpr ⟨e, he, uses⟩
  · intro l hl
    rw [links] at hl
    rw [nodes, order]
    obtain ⟨-, -, k, e, carried, he, eq⟩ := mem_stateLinks_iff.mp hl
    obtain ⟨n, hn, origin⟩ := carriedFrom?_iff.mp carried
    exact ⟨n, k, e, hn, origin, he, eq⟩
  · rw [links]
    exact consumers_nodup _ r.arena.nodes r.expressions
  · rw [links]
    exact placed.producers_nodup valid paired _
  · intro l hl l' hl' same
    exact (Procedure.producer_computed plan hl).not_carried
      (same ▸ Procedure.consumer_carried plan hl')
  · intro l hl m hm
    rcases List.mem_cons.mp hm with rfl | hm
    · exact ⟨Procedure.producer_ne_input plan hl,
        Procedure.exists_plain (.inl (Procedure.producer_computed plan hl))⟩
    · cases List.mem_singleton.mp hm
      exact ⟨Procedure.consumer_ne_input plan hl,
        Procedure.exists_plain (.inr (Procedure.consumer_carried plan hl))⟩
  · intro alike
    rw [links]
    rw [order] at alike ⊢
    rw [← comparedUses_of_arities alike.symm]
    exact stateLinks_ascending _ r.arena.nodes r.expressions
  · rw [links, order]
    exact stateLinks_ascending _ r.arena.nodes r.expressions

end Recording

/-- After every history, a build that is ended successfully and is not the first one compiles to a
procedure that is linked to the build before as it should be. -/
theorem Session.finish_links [Zero α] [Add α] [Sub α] [Mul α] [Div α] [BEq α] (name : String)
    (calls : List (Call α)) {before : Recording α}
    (ended : (start name).lastEnded calls = some before) {output : TensorId}
    {answer : Option (Procedure α)}
    (finished : (((start name).run calls).recorder.finish output).result = .ok answer) :
    ∃ p, answer = some p ∧ p.LinkedAfter before := by
  have follows := reached_follows name calls
  rw [ended] at follows
  obtain ⟨r, node, current, found, rfl⟩ := Recorder.finish_answer finished
  have reached : ((start name).run calls).Reached := ⟨name, calls, rfl⟩
  have valid := reached_valid reached r current
  have previous : ((start name).run calls).recorder.previous = some before.summarize :=
    follows.precedes.summary
  obtain ⟨s', reached', current'⟩ := reached_of_lastEnded ⟨name, [], rfl⟩ ended
  obtain ⟨last, placedBefore⟩ := reached_placed reached' current'
  refine ⟨_, by rw [previous]; rfl, ?_⟩
  exact (follows.placed r current).linkedAfter valid (reached_used reached current)
    placedBefore.paired (valid.plan_valid _ _ before.summarize found) rfl rfl rfl

/-- Three builds of `a = a + x`, `b = b + a` with the old `a` in both sums, the third one not ended
yet. -/
def pairCalls : List (Call Int) :=
  [.hold (.fill [1] 3), .hold (.fill [1] 0), .hold (.fill [1] 0),
    .begin 0, .compute (.arithmetic .add 1 0), .compute (.arithmetic .add 2 1), .finish 4,
    .begin 0, .compute (.arithmetic .add 3 0), .compute (.arithmetic .add 4 3), .finish 6,
    .begin 0, .compute (.arithmetic .add 5 0), .compute (.arithmetic .add 6 5)]

/-- The old `a`, which both sums use, is linked once and before the old `b`. -/
theorem pair_links :
    ∃ (before : Recording Int) (p : Procedure Int),
      (Session.start "pair").lastEnded pairCalls = some before ∧
        before.expressions.map Expression.arity = [2, 2] ∧
        (((Session.start "pair").run pairCalls).recorder.finish 8).result = .ok (some p) ∧
        p.LinkedAfter before ∧ p.links.map Link.ends = [(2, 1), (4, 3)] := by
  have ended : (Session.start "pair").lastEnded pairCalls = some _ := rfl
  have finished : (((Session.start "pair").run pairCalls).recorder.finish 8).result = .ok _ := rfl
  obtain ⟨p, answer, linked⟩ := Session.finish_links "pair" pairCalls ended finished
  cases answer
  exact ⟨_, _, ended, rfl, finished, linked, rfl⟩

end GradientReplay
