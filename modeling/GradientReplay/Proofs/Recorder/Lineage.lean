import GradientReplay.Proofs.Procedure.Replay
import GradientReplay.Proofs.Recorder.Build

/-!
What every build satisfies as a graph, whatever calls led to it.

Recording a term keeps the tensors and nodes paired, the expressions numbered and the origin of
each node true (`Recording.Placed`). The origins of carried nodes name the build that was ended last
among all calls (`Session.lastEnded`), which the recorder remembers as a summary
(`Recorder.Follows`). Whatever a call does, it makes one of five steps of the recorder
(`Session.perform_step`), and each keeps this (`Follows.step`). So after every history the build that is going on is a graph as it should be,
and so is each procedure that it compiles to (`Session.reached_built`).
-/

namespace GradientReplay

variable {α : Type}

/-! ### The build before -/

/-- The recorder remembers the build that was ended last, with the expressions of its results. -/
structure Precedes (last : Option (Recording α)) (previous : Option Predecessor) : Prop where
  summary : previous = last.map Recording.summarize
  gives : ∀ r ∈ last, ∀ x j, r.results.lookup x = some j ↔ r.graph.Gives x j

/-- An argument that was not bound becomes a carried node if it is a result of the build that was
ended last, and a constant otherwise. -/
theorem Precedes.leaf_cases {last : Option (Recording α)} {previous : Option Predecessor}
    (precedes : Precedes last previous) (r : Recording α) (x : Operand α) (k : NodeId) :
    (∃ b ∈ last, ∃ j, b.graph.Gives x.id j ∧
      r.leaf previous x k = .create k x.tensor false b.build (.carried j)) ∨
    (∀ b ∈ last, ∀ j, ¬ b.graph.Gives x.id j) ∧
      r.leaf previous x k = .create k x.tensor true r.build (.leaf r.expressions.length) := by
  rw [precedes.summary]
  cases last with
  | none =>
      refine .inr ⟨fun b hb => ?_, rfl⟩
      cases hb
  | some b =>
      have gives := precedes.gives b rfl x.id
      cases found : b.results.lookup x.id with
      | some j =>
          refine .inl ⟨b, rfl, j, (gives j).mp found, ?_⟩
          simp [Recording.leaf, Recording.summarize, found]
      | none =>
          refine .inr ⟨fun b' hb j given => ?_, ?_⟩
          · cases hb
            rw [(gives j).mpr given] at found
            cases found
          · simp [Recording.leaf, Recording.summarize, found]

/-! ### One recording -/

namespace Recording

/-- Tensors, nodes and expressions are where they should be. -/
structure Placed (last : Option (Recording α)) (r : Recording α) : Prop where
  paired : r.arena.Paired
  declared : r.arena.find? r.input = some 0
  positions : ∀ (j : ExpressionId) (e : Expression α), r.expressions[j]? = some e → e.id = j
  gives : ∀ x j, r.results.lookup x = some j ↔ r.graph.Gives x j
  kinds : ∀ x k n, r.arena.find? x = some k → r.arena.nodes[k]? = some n → k ≠ 0 →
    Graph.Kind last r.expressions x k n.profile

variable {last : Option (Recording α)} {previous : Option Predecessor} {held : List (Tensor α)}
  {r r' : Recording α}

theorem Placed.start (last : Option (Recording α)) (build : Nat) (input : Operand α) :
    (Recording.start build input).Placed last where
  paired := Arena.Paired.empty.add rfl _
  declared := by simp [Recording.start, Arena.define, Arena.find?, Arena.empty]
  positions := fun j e he => by cases he
  gives := by
    intro x j
    constructor
    · intro found
      cases found
    · rintro ⟨e, he, -⟩
      cases he
  kinds := by
    intro x k n _ hn ne
    rcases k with _ | k
    · exact absurd rfl ne
    · cases hn

theorem lookup_concat (results : List (TensorId × ExpressionId)) (x y : TensorId)
    (j : ExpressionId) :
    (results ++ [(x, j)]).lookup y = (results.lookup y).or (if y = x then some j else none) := by
  rw [List.lookup_append]
  by_cases h : y = x <;> simp [h]

/-- A node that was made for an argument is what its origin says, once the expression is added that
uses it. -/
theorem leaf_kind (precedes : Precedes last previous) (valid : r.Valid held) {x : Operand α}
    {k : NodeId} (new : r.arena.nodes.length ≤ k) {e : Expression α} (uses : k ∈ e.term.arguments)
    (before : k < e.result) :
    Graph.Kind last (r.expressions ++ [e]) x.id k (r.leaf previous x k).profile := by
  have older : ∀ e' ∈ r.expressions, e'.result < k := by
    intro e' he'
    exact lt_of_lt_of_le (valid.result_lt he') new
  have none : Graph.NoResult (r.expressions ++ [e]) k := by
    refine Graph.NoResult.concat ?_ (ne_of_gt before)
    intro e' he'
    exact ne_of_lt (older e' he')
  rcases precedes.leaf_cases r x k with ⟨b, hb, j, given, eq⟩ | ⟨fresh, eq⟩
  · rw [eq]
    exact ⟨rfl, none, b, hb, given, rfl⟩
  · rw [eq]
    refine ⟨rfl, ⟨⟨e, getElem?_concat_iff.mpr (.inr ⟨rfl, rfl⟩), uses⟩, ?_⟩, none, fresh⟩
    intro i e' hi uses'
    rcases getElem?_concat_iff.mp hi with hi | ⟨rfl, -⟩
    · -- The expressions from before use nodes from before.
      have he' := List.mem_of_getElem? hi
      exact absurd (valid.arguments e' he' k uses') (not_lt_of_gt (older e' he'))
    · exact le_rfl

section Adds

variable {s : Recording α} {term : Term α (Operand α)} {result : Operand α}

/-- With the expression its result is given, and nothing else. -/
theorem Placed.gives_adding (placed : r.Placed last) (valid : r.Valid held)
    (adds : Adds previous term result r s) (x : TensorId) (j : ExpressionId) :
    (r.adding s term result).results.lookup x = some j ↔
      (r.adding s term result).graph.Gives x j := by
  refine Iff.trans (by rw [adding, lookup_concat]) ?_
  constructor
  · intro given
    rcases Option.or_eq_some_iff.mp given with given | ⟨-, given⟩
    · obtain ⟨e, he, there⟩ := (placed.gives x j).mp given
      exact ⟨e, getElem?_concat_iff.mpr (.inl he), adds.grown.keep _ _ there⟩
    · split at given
      · rename_i same
        cases given
        exact ⟨_, getElem?_concat_iff.mpr (.inr ⟨rfl, rfl⟩), same ▸ adds.bound⟩
      · cases given
  · rintro ⟨e, he, there⟩
    rcases getElem?_concat_iff.mp he with he | ⟨rfl, rfl⟩
    · have lt := valid.result_lt (List.mem_of_getElem? he)
      rw [(placed.gives x j).mpr ⟨e, he, adds.grown.find?_of_lt there lt⟩]
      rfl
    · have same : x = result.id := adds.paired.distinct there adds.bound
      have none : r.results.lookup x = none := by
        cases given : r.results.lookup x with
        | none => rfl
        | some i =>
            obtain ⟨e, -, there⟩ := (placed.gives x i).mp given
            change r.arena.find? x = _ at there
            rw [same, adds.new] at there
            cases there
      rw [none, if_pos same]
      rfl

/-- The nodes of the arguments are what their origins say, those from before and those made now. -/
theorem Placed.kind_of_argument (placed : r.Placed last) (precedes : Precedes last previous)
    (valid : r.Valid held) (adds : Adds previous term result r s) {x : TensorId} {k : NodeId}
    {n : Node α} (there : s.arena.find? x = some k) (hn : s.arena.nodes[k]? = some n)
    (ne : k ≠ 0) : Graph.Kind last (r.adding s term result).expressions x k n.profile := by
  have lt : k < s.arena.nodes.length := adds.binds.paired.lt there
  rcases Nat.lt_or_ge k r.arena.nodes.length with old | new
  · have kind := placed.kinds x k n (adds.binds.grown.find?_of_lt there old)
      ((adds.binds.grown.getElem? hn).resolve_right (Nat.not_le_of_lt old)) ne
    exact kind.concat (ne_of_gt lt)
  · obtain ⟨y, hy, here, rfl⟩ := adds.binds.fresh k n new hn
    have same : x = y.id := adds.binds.paired.distinct there here
    rw [same]
    refine leaf_kind precedes valid new ?_ lt
    rw [Term.arguments_map, ← nodeOf_eq here]
    exact List.mem_map_of_mem hy

/-- The node of the result is the result of the new expression only. -/
theorem kind_of_result (valid : r.Valid held) (adds : Adds previous term result r s)
    (x : TensorId) :
    Graph.Kind last (r.adding s term result).expressions x s.arena.nodes.length
      (Node.create s.arena.nodes.length result.tensor false r.build
        (.result r.expressions.length)).profile := by
  refine ⟨rfl, ⟨_, getElem?_concat_iff.mpr (.inr ⟨rfl, rfl⟩), rfl⟩, ?_⟩
  intro i e hi gives
  rcases getElem?_concat_iff.mp hi with hi | ⟨rfl, -⟩
  · have lt := lt_of_lt_of_le (valid.result_lt (List.mem_of_getElem? hi))
      adds.binds.grown.nodes.length_le
    exact absurd gives (ne_of_lt lt)
  · rfl

/-- Recording a term keeps everything where it should be. -/
theorem Placed.record (placed : r.Placed last) (precedes : Precedes last previous)
    (valid : r.Valid held) {id : ExpressionId}
    (h : r.record previous term result = .ok (r', id)) : r'.Placed last := by
  obtain ⟨-, s, adds, rfl⟩ := record_ok placed.paired h
  constructor
  · exact adds.paired
  · exact adds.grown.keep _ _ placed.declared
  · intro j e he
    rcases getElem?_concat_iff.mp he with he | ⟨rfl, rfl⟩
    · exact placed.positions j e he
    · rfl
  · exact placed.gives_adding valid adds
  · intro x k n there hn ne
    rcases (extends_adding r s term result).new x k there with there | last
    · rcases getElem?_concat_iff.mp hn with hn | ⟨rfl, -⟩
      · exact placed.kind_of_argument precedes valid adds there hn ne
      · exact absurd (adds.binds.paired.lt there) (lt_irrefl _)
    · rcases getElem?_concat_iff.mp hn with hn | ⟨rfl, rfl⟩
      · exact absurd (List.getElem?_eq_some_iff.mp hn).1 (Nat.not_lt_of_le last)
      · exact kind_of_result valid adds x

end Adds

/-- A recording with everything where it should be is a graph as it should be. -/
theorem Placed.built (placed : r.Placed last) (valid : r.Valid held) :
    Graph.Built last r.graph := by
  have profile {k : NodeId} {c : Node.Profile} (hc : r.graph.nodes[k]? = some c) :
      ∃ n, r.arena.nodes[k]? = some n ∧ n.profile = c :=
    Option.map_eq_some_iff.mp (List.getElem?_map.symm.trans hc)
  have length : r.graph.nodes.length = r.arena.nodes.length := List.length_map _
  obtain ⟨zero, n₀, hn₀, plain, -⟩ := valid.input
  constructor
  · intro k c hc
    obtain ⟨n, hn, rfl⟩ := profile hc
    exact valid.arena.numbered k n hn
  · intro x y k hx hy
    exact placed.paired.distinct hx hy
  · exact placed.positions
  · intro e he
    rw [length]
    have lt := valid.result_lt he
    exact ⟨fun a ha => lt_trans (valid.arguments e he a ha) lt, lt⟩
  · refine ⟨zero, placed.declared, ⟨n₀.profile, ?_, plain⟩, ?_⟩
    · exact List.getElem?_map.trans (congrArg (Option.map Node.profile) hn₀)
    · intro e he
      exact ne_of_gt (valid.results e he).1
  · intro k c hc ne
    obtain ⟨n, hn, rfl⟩ := profile hc
    obtain ⟨x, hx⟩ := placed.paired.exists_tensor (List.getElem?_eq_some_iff.mp hn).1
    exact ⟨x, hx, placed.kinds x k n hx hn ne⟩
  · intro x k c hx hc ne free
    obtain ⟨n, hn, rfl⟩ := profile hc
    exact (placed.kinds x k n hx hn ne).constant_iff free
  · intro i j e e' he he' le uses
    -- Results ascend, and arguments come before the result.
    have lt := valid.arguments e (List.mem_of_getElem? he) _ uses
    rcases Nat.lt_or_eq_of_le le with before | rfl
    · obtain ⟨hi, rfl⟩ := List.getElem?_eq_some_iff.mp he
      obtain ⟨hj, rfl⟩ := List.getElem?_eq_some_iff.mp he'
      exact lt_asymm lt (List.pairwise_iff_getElem.mp valid.ascending i j hi hj before)
    · cases he.symm.trans he'
      exact lt_irrefl _ lt

end Recording

/-! ### A history -/

/-- The recorder follows the build that was ended last. -/
structure Recorder.Follows (last : Option (Recording α)) (recorder : Recorder α) : Prop where
  precedes : Precedes last recorder.previous
  placed : ∀ r, recorder.current = some r → r.Placed last

/-- What a call makes of a recorder, and the build that it ends successfully, if it ends one. -/
inductive Recorder.Step (recorder : Recorder α) : Option (Recording α) → Recorder α → Prop where
  /-- Neither the build that is going on nor the one before it is touched. -/
  | aside {after : Recorder α} (current : after.current = recorder.current)
      (previous : after.previous = recorder.previous) : Step recorder none after
  | begin (input : Operand α) (idle : recorder.current = none) :
      Step recorder none { recorder with current := some (.start recorder.builds input) }
  | record {r r' : Recording α} {term : Term α (Operand α)} {result : Operand α}
      {id : ExpressionId} (current : recorder.current = some r)
      (recorded : r.record recorder.previous term result = .ok (r', id)) :
      Step recorder none { recorder with current := some r' }
  /-- A build whose output is unknown is given up. -/
  | giveUp {r : Recording α} (current : recorder.current = some r) :
      Step recorder none { recorder with current := none }
  | finish {r : Recording α} (current : recorder.current = some r) :
      Step recorder (some r)
        { recorder with
          builds := recorder.builds + 1
          current := none
          previous := some r.summarize }

/-- To change nothing is a step aside. -/
theorem Recorder.Step.refl (recorder : Recorder α) : recorder.Step none recorder := .aside rfl rfl

/-- A build that is ended was going on. -/
theorem Recorder.Step.current_of_ended {recorder after : Recorder α} {r : Recording α}
    (step : recorder.Step (some r) after) : recorder.current = some r := by
  cases step with
  | finish current => exact current

/-- A raw recording is a step. -/
theorem Recorder.record_step (recorder : Recorder α) (term : Term α (Operand α))
    (result : Operand α) : recorder.Step none (recorder.record term result).state := by
  rcases recorder.record_cases term result with ⟨e, eq⟩ | ⟨r, r', id, current, recorded, eq⟩
  · rw [eq]
    exact .refl recorder
  · rw [eq]
    exact .record current recorded

/-- A step leads from a recorder that follows the build that was ended last to one that follows the
build that the step ended, or else the one from before. -/
theorem Recorder.Follows.step {last ended : Option (Recording α)} {held : List (Tensor α)}
    {recorder after : Recorder α} (follows : recorder.Follows last)
    (valid : ∀ r, recorder.current = some r → r.Valid held) (step : recorder.Step ended after) :
    after.Follows (ended.or last) := by
  cases step with
  | aside current previous =>
      constructor
      · rw [previous]
        exact follows.precedes
      · rw [current]
        exact follows.placed
  | begin input idle =>
      refine ⟨follows.precedes, ?_⟩
      rintro _ ⟨⟩
      exact .start last _ _
  | record current recorded =>
      refine ⟨follows.precedes, ?_⟩
      rintro _ ⟨⟩
      exact (follows.placed _ current).record follows.precedes (valid _ current) recorded
  | giveUp current =>
      refine ⟨follows.precedes, ?_⟩
      rintro _ ⟨⟩
  | finish current =>
      refine ⟨⟨rfl, ?_⟩, ?_⟩
      · rintro _ ⟨⟩
        exact (follows.placed _ current).gives
      · rintro _ ⟨⟩

namespace Session

variable [Zero α] [Add α] [Sub α] [Mul α] [Div α] [BEq α]

omit [Zero α] [Add α] [Sub α] [Mul α] [Div α] [BEq α] in
/-- The build that a call ends successfully, if it ends one. -/
def ends (s : Session α) : Call α → Option (Recording α)
  | .finish output =>
      match (s.recorder.finish output).result with
      | .ok _ => s.recorder.current
      | .error _ => none
  | _ => none

/-- The build that was ended last among these calls. -/
def lastEnded (s : Session α) : List (Call α) → Option (Recording α)
  | [] => none
  | c :: calls => ((s.perform c).lastEnded calls).or (s.ends c)

variable {last : Option (Recording α)}

omit [Zero α] [Add α] [Sub α] [Mul α] [Div α] [BEq α] in
theorem keep_recorder (s : Session α)
    (outcome : Outcome ReplayError (Recorder α) (Operand α)) :
    (s.keep outcome).recorder = outcome.state := by
  unfold keep
  split <;> rfl

/-- A computation is a step. -/
theorem compute_step (s : Session α) (term : Term α TensorId) :
    s.recorder.Step none (s.perform (.compute term)).recorder := by
  simp only [perform]
  split
  · rename_i u traversed
    rw [keep_recorder]
    rcases s.recorder.compute_cases u s.tensors.length with same | ⟨value, -, eq, -⟩
    · rw [same]
      exact .refl _
    · rw [eq]
      exact s.recorder.record_step u _
  · exact .refl _

/-- Every call is a step. -/
theorem perform_step (s : Session α) (c : Call α) :
    s.recorder.Step (s.ends c) (s.perform c).recorder := by
  cases c with
  | hold t => exact .refl _
  | overwrite id t =>
      simp only [perform]
      split
      · split <;> exact .refl _
      · exact .refl _
  | register ids => exact .aside rfl rfl
  | begin input =>
      simp only [perform]
      split
      · unfold Recorder.begin
        split
        · exact .refl _
        · rename_i idle
          exact .begin _ idle
      · exact .refl _
  | record term result =>
      simp only [perform]
      split
      · exact s.recorder.record_step _ _
      · exact .refl _
  | compute term => exact s.compute_step term
  | finish output =>
      cases current : s.recorder.current with
      | none =>
          simp only [perform, ends, Recorder.finish, current]
          exact .refl _
      | some r =>
          cases found : r.arena.find? output with
          | none =>
              simp only [perform, ends, Recorder.finish, current, found]
              exact .giveUp current
          | some node =>
              simp only [perform, ends, Recorder.finish, current, found]
              exact .finish current

theorem follows_run {s : Session α} (follows : s.recorder.Follows last) (valid : s.Valid)
    (calls : List (Call α)) :
    (s.run calls).recorder.Follows ((s.lastEnded calls).or last) := by
  induction calls generalizing s last with
  | nil => exact follows
  | cons c calls ih =>
      have after := ih (follows.step valid (s.perform_step c)) (valid.perform c)
      rw [← Option.or_assoc] at after
      exact after

/-- After every history the recorder follows the build that was ended last. -/
theorem reached_follows (name : String) (calls : List (Call α)) :
    ((start name).run calls).recorder.Follows ((start name).lastEnded calls) := by
  have first : (start name : Session α).recorder.Follows none := by
    refine ⟨⟨rfl, ?_⟩, ?_⟩
    · rintro _ ⟨⟩
    · rintro _ ⟨⟩
  have after := follows_run first (fun r h => by cases h) calls
  rwa [Option.or_none] at after

theorem reached_placed {s : Session α} (reached : s.Reached) {r : Recording α}
    (current : s.recorder.current = some r) : ∃ last, r.Placed last := by
  obtain ⟨name, calls, rfl⟩ := reached
  exact ⟨_, (reached_follows name calls).placed r current⟩

end Session

/-! ### Compiled procedures -/

/-- A procedure as the graph of the build that it was compiled from. -/
def Procedure.graph (p : Procedure α) (declared : TensorId) (nodeOf : TensorId → Option NodeId) :
    Graph α :=
  ⟨p.plan.nodes, p.forwardOrder, declared, p.input, nodeOf⟩

/-- The nodes that can be asked for are those of the build. -/
theorem Recorder.boundNodes_lookup {constants : List TensorId} {r : Recording α}
    {output x : TensorId} {node k : NodeId} (input : r.arena.find? r.input = some r.inputNode)
    (found : r.arena.find? output = some node)
    (h : (boundNodes constants r output node).lookup x = some k) : r.arena.find? x = some k := by
  obtain ⟨before, after, split, -⟩ := List.lookup_eq_some_iff.mp h
  have mem : (x, k) ∈ boundNodes constants r output node := by
    rw [split]
    exact List.mem_append_right _ List.mem_cons_self
  rcases List.mem_cons.mp mem with same | mem
  · cases same
    exact found
  rcases List.mem_cons.mp mem with same | mem
  · cases same
    exact input
  · obtain ⟨y, -, there⟩ := List.mem_filterMap.mp mem
    obtain ⟨k', bound, same⟩ := Option.map_eq_some_iff.mp there
    cases same
    exact bound

namespace Session

variable [Zero α] [Add α] [Sub α] [Mul α] [Div α] [Neg α] [BEq α]

/-- After every history the build that is going on is a graph as it should be, and so is each
procedure that it compiles to, in every state that replays lead to. The nodes that can be asked for
by tensor are those of the build. -/
theorem reached_built (name : String) (calls : List (Call α)) {r : Recording α}
    (live : ((start name).run calls).recorder.current = some r) :
    Graph.Built ((start name).lastEnded calls) r.graph ∧
      ∀ (output : TensorId) (p q : Procedure α),
        (((start name).run calls).recorder.finish output).result = .ok (some p) → p.Reaches q →
          Graph.Built ((start name).lastEnded calls) (q.graph r.input r.arena.find?) ∧
            ∀ x k, q.nodeOf x = .ok k → r.arena.find? x = some k := by
  have valid := reached_valid ⟨name, calls, rfl⟩ r live
  have placed := (reached_follows name calls).placed r live
  have built := placed.built valid
  refine ⟨built, fun output p q finished reaches => ?_⟩
  obtain ⟨r', node, previous, live', found, -, rfl⟩ := Recorder.finish_ok finished
  cases live.symm.trans live'
  have plan := Procedure.reaches_plan reaches
  have nodes : q.plan.nodes = r.arena.nodes.profiles := congrArg Plan.nodes plan
  have order : q.forwardOrder = r.expressions := congrArg Plan.forwardOrder plan
  have input : q.input = r.inputNode := congrArg Plan.input plan
  constructor
  · rw [Procedure.graph, nodes, order, input]
    exact built
  · intro x k asked
    have bound : q.bound = Recorder.boundNodes ((start name).run calls).recorder.constants r output
      node := congrArg Plan.bound plan
    unfold Procedure.nodeOf at asked
    split at asked
    · rename_i k' looked
      cases asked
      rw [bound] at looked
      exact Recorder.boundNodes_lookup (valid.input.1 ▸ placed.declared) found looked
    · cases asked

/-- Three builds of `s = s + x`: one that is ended, one that is given up since its output is
unknown, and one that goes on with `y = d + s`, where `d` is the result of the one given up. -/
def lineageCalls : List (Call Int) :=
  [.hold (.fill [1] 3), .hold (.fill [1] 0),
    .begin 0, .compute (.arithmetic .add 1 0), .finish 2,
    .begin 0, .compute (.arithmetic .add 2 0), .finish 9,
    .begin 0, .compute (.arithmetic .add 2 0), .compute (.arithmetic .add 3 4)]

/-- The nodes are the input, the carried state, its result, the constant `d` and the output. -/
theorem lineage_built :
    ∃ (r : Recording Int) (p : Procedure Int),
      ((start "sum").run lineageCalls).recorder.current = some r ∧
        (((start "sum").run lineageCalls).recorder.finish 5).result = .ok (some p) ∧
        r.graph.nodes.map (·.origin) =
          [.leaf 0, .carried 0, .result 0, .leaf 1, .result 1] ∧
        Graph.Built ((start "sum").lastEnded lineageCalls) r.graph ∧
        Graph.Built ((start "sum").lastEnded lineageCalls) (p.graph r.input r.arena.find?) := by
  have live : ((start "sum").run lineageCalls).recorder.current = some _ := rfl
  obtain ⟨built, compiled⟩ := reached_built "sum" lineageCalls live
  have finished : (((start "sum").run lineageCalls).recorder.finish 5).result = .ok (some _) := rfl
  exact ⟨_, _, live, finished, rfl, built, (compiled 5 _ _ finished ⟨[], rfl⟩).1⟩

end Session

end GradientReplay
