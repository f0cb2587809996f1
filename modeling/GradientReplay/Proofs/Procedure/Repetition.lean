import GradientReplay.Proofs.Procedure.Locality
import GradientReplay.Proofs.Procedure.Recurrence

/-!
Doing the replays at an index over.

To forget what an index holds and to replay forward and back there is idempotent, as long as no link
has to hand on what it remembers (`Procedure.redo_idempotent`). A link that finds something to read
hands that on, and a link that remembers nothing and finds nothing hands on zeros, each time. What a
link reads is at the index before or after, where replays at the index write nothing; so once a link
has noted its reading it notes the same one again. A link that remembers something and finds nothing
hands it on once only, and the second time may differ from the first.
-/

namespace GradientReplay

variable {α : Type}

/-! ### Links that need nothing of what they remember -/

namespace Link

/-- At an index the link finds a gradient to read, or remembers none. At the last index it does not
matter: the link reads nothing there. -/
def UnaidedBack (i : Index) (nodes : Nodes α) (l : Link α) : Prop :=
  ∀ j, i.next? = some j → (nodes.gradient? l.consumer j).isSome ∨ l.lastGradient = none

/-- Around an index the link finds something to read, or remembers nothing, in each direction. -/
structure Unaided (i : Index) (nodes : Nodes α) (l : Link α) : Prop where
  forward : (i.previous?.bind (nodes.value? l.producer)).isSome ∨ l.lastValue = none
  backward : l.UnaidedBack i nodes

section Forward

variable [Zero α]

/-- Such a link hands on the same once it remembers what it reads. -/
theorem supply_again {read last : Option (Tensor α)} (unaided : read.isSome ∨ last = none)
    (shape : Shape) : supply read read shape = supply read last shape := by
  rcases unaided with found | rfl
  · obtain ⟨v, rfl⟩ := Option.isSome_iff_exists.mp found
    rfl
  · cases read <;> rfl

/-- The links note what they read. -/
theorem carryAll_links (i : Index) (links : List (Link α)) (nodes : Nodes α) :
    (carryAll i links nodes).1 =
      links.map fun l => { l with lastValue := i.previous?.bind (nodes.value? l.producer) } := by
  induction links generalizing nodes with
  | nil => rfl
  | cons link links ih =>
      have rest := ih (link.carry i nodes).2
      simp only [carry, Nodes.previous_setValue] at rest
      exact congrArg (_ :: ·) rest

/-- Links that have noted what they read carry the same over and stay as they are, whatever they
remember for the way back. -/
theorem carryAll_again {i : Index} {links links' : List (Link α)} {nodes : Nodes α}
    (unaided : ∀ l ∈ links,
      (i.previous?.bind (nodes.value? l.producer)).isSome ∨ l.lastValue = none)
    (noted : links'.map withoutGradient = (carryAll i links nodes).1.map withoutGradient) :
    carryAll i links' nodes = (links', (carryAll i links nodes).2) := by
  induction links generalizing links' nodes with
  | nil =>
      rw [List.map_eq_nil_iff.mp noted]
      rfl
  | cons link links ih =>
      obtain ⟨link', links', rfl, here, others⟩ := List.map_eq_cons_iff.mp noted
      -- The first link is the one that was there with its reading noted; it finds the same again.
      have one : link'.carry i nodes = (link', (link.carry i nodes).2) := by
        obtain ⟨producer, consumer, lastValue, lastGradient⟩ := link'
        obtain ⟨rfl, rfl, rfl, -⟩ := Link.mk.inj here
        have same := supply_again (unaided link List.mem_cons_self)
          (shapeOf nodes link.producer)
        simp only [carry, same]
      have rest : carryAll i links' (link.carry i nodes).2 =
          (links', (carryAll i links (link.carry i nodes).2).2) := by
        -- The others read at the index before, where the first one stored nothing.
        apply ih _ others
        intro l hl
        simp only [Nodes.previous_setValue]
        exact unaided l (List.mem_cons_of_mem link hl)
      simp only [carryAll, one, rest]

end Forward

section Backward

variable [Zero α] [Add α] [Sub α] [Neg α]

theorem giveBack_again {link : Link α} {i : Index} {nodes : Nodes α}
    (unaided : link.UnaidedBack i nodes) :
    (link.giveBack i nodes).state.1.giveBack i nodes = link.giveBack i nodes := by
  unfold giveBack
  cases after : i.next? with
  | none => rfl
  | some j =>
      have same := supply_again (unaided j after) (shapeOf nodes link.consumer)
      simp only [Outcome.embed, same]

/-- Links that have noted what they read give the same back, up to the same failure. -/
theorem giveBackAll_again {i : Index} {links : List (Link α)} {nodes : Nodes α}
    (unaided : ∀ l ∈ links, l.UnaidedBack i nodes) :
    giveBackAll i (giveBackAll i links nodes).state.1 nodes = giveBackAll i links nodes := by
  induction links generalizing nodes with
  | nil => rfl
  | cons link links ih =>
      have here := giveBack_again (unaided link List.mem_cons_self)
      rw [giveBackAll_cons i link links]
      cases result : (link.giveBack i nodes).result with
      | error e => simp only [giveBackAll_cons, here, result]
      | ok b =>
          -- The others read at the index after, where the first one gave nothing.
          have unaided' : ∀ l ∈ links, l.UnaidedBack i (link.giveBack i nodes).state.2 := by
            intro l hl j after
            rw [giveBack_gradient?_of_ne _ _ _ (Index.next?_ne after)]
            exact unaided l (List.mem_cons_of_mem link hl) j after
          have rest := ih unaided'
          simp only [Outcome.embed_state, giveBackAll_cons, here, result, rest]

end Backward

end Link

/-! ### Replays that are done over -/

namespace Procedure

/-- No link hands on what it remembers when the procedure is replayed at an index. -/
def Unaided (p : Procedure α) (i : Index) : Prop := ∀ l ∈ p.links, l.Unaided i p.nodes

theorem resetIndex_resetIndex (p : Procedure α) (i : Index) :
    (p.resetIndex i).resetIndex i = p.resetIndex i := by
  simp [resetIndex, Node.resetIndex, Function.comp_def]

/-- To forget an index is to forget nothing at any other. -/
theorem resetIndex_of_ne (p : Procedure α) (n : NodeId) {i j : Index} (ne : j ≠ i) :
    (p.resetIndex i).nodes.value? n j = p.nodes.value? n j ∧
      (p.resetIndex i).nodes.gradient? n j = p.nodes.gradient? n j := by
  simp only [resetIndex, Nodes.value?, Nodes.gradient?, List.getElem?_map]
  cases p.nodes[n]? with
  | none => exact ⟨rfl, rfl⟩
  | some c => simp [Node.resetIndex, Node.value?, Node.gradient?, ne]

theorem Unaided.resetIndex {p : Procedure α} {i : Index} (unaided : p.Unaided i) :
    (p.resetIndex i).Unaided i := by
  intro l hl
  obtain ⟨forward, backward⟩ := unaided l hl
  constructor
  · cases before : i.previous? with
    | none =>
        rw [before] at forward
        exact forward
    | some j =>
        rw [before] at forward
        rw [Option.bind_some, (p.resetIndex_of_ne l.producer (Index.previous?_ne before)).1]
        exact forward
  · intro j after
    rw [(p.resetIndex_of_ne l.consumer (Index.next?_ne after)).2]
    exact backward j after

section Forward

variable [Zero α] [Add α] [Sub α] [Mul α] [Div α] [BEq α]

/-- A replay forward changes neither the gradients nor what the links remember of them. -/
theorem Unaided.forward {p : Procedure α} {i : Index} (unaided : p.Unaided i) (x : Tensor α) :
    ∀ l ∈ (p.forward i x).state.links, l.UnaidedBack i (p.forward i x).state.nodes := by
  intro l hl j after
  rw [Nodes.gradient?_of_unvalued (p.forward_unvalued i x)]
  rw [forward_state, Link.carryAll_links] at hl
  obtain ⟨l', hl', rfl⟩ := List.mem_map.mp hl
  exact (unaided l' hl').backward j after

/-- A replay forward by links that have noted what they read is the same one, whatever they remember
for the way back. -/
theorem forward_again {p : Procedure α} {i : Index} (unaided : p.Unaided i) (x : Tensor α)
    {links : List (Link α)} (noted : links.map Link.withoutGradient =
      (p.forward i x).state.links.map Link.withoutGradient) :
    forward { p with links } i x = (p.forward i x).embed fun q => { q with links } := by
  rw [forward_state] at noted
  have again := Link.carryAll_again (fun l hl => (unaided l hl).forward) noted
  have seeds : seeded { p with links } i x = p.seeded i x := by
    unfold seeded
    rw [again]
  have state := forward_state { p with links } i x
  have result := forward_result { p with links } i x
  rw [seeds] at state result
  rw [again] at state
  apply Outcome.ext
  · rw [state, Outcome.embed_state, forward_state]
  · rw [result, Outcome.embed_result, forward_result]

end Forward

section Replay

variable [Zero α] [Add α] [Sub α] [Mul α] [Div α] [Neg α] [BEq α]

/-- A replay back by links that have noted what they read is the same one. -/
theorem backward_again {p : Procedure α} {i : Index} {g : Tensor α}
    (unaided : ∀ l ∈ p.links, l.UnaidedBack i p.nodes) :
    backward { p with links := (p.backward i g).state.links } i g = p.backward i g := by
  have same : given { p with links := (p.given i g).state.1 } i g = p.given i g := by
    apply Link.giveBackAll_again
    intro l hl j after
    rw [Nodes.gradient?_setGradient_of_ne _ _ (.inr (Index.next?_ne after))]
    exact unaided l hl j after
  rw [backward_state, backward_eq, backward_eq, same]

/-- Forget what an index holds and replay forward there. -/
def renew (p : Procedure α) (i : Index) (x : Tensor α) :
    Outcome ReplayError (Procedure α) NodeId :=
  (p.resetIndex i).forward i x

/-- Forget what an index holds, replay forward there and, whether this succeeded or not, back. -/
def redo (p : Procedure α) (i : Index) (x g : Tensor α) :
    Outcome ReplayError (Procedure α) NodeId :=
  (p.renew i x).state.backward i g

/-- Once the index is forgotten again, only the links have changed. -/
theorem redo_resetIndex (p : Procedure α) (i : Index) (x g : Tensor α) :
    (p.redo i x g).state.resetIndex i =
      { p with links := (p.redo i x g).state.links, nodes := (p.resetIndex i).nodes } := by
  have nodes : ((p.redo i x g).state.resetIndex i).nodes = (p.resetIndex i).nodes := by
    calc ((p.redo i x g).state.resetIndex i).nodes
        = ((p.renew i x).state.resetIndex i).nodes :=
          (p.renew i x).state.backward_resetIndex_nodes i g
      _ = ((p.resetIndex i).resetIndex i).nodes := (p.resetIndex i).forward_resetIndex_nodes i x
      _ = (p.resetIndex i).nodes := by rw [resetIndex_resetIndex]
  have state : (p.redo i x g).state =
      { p with links := (p.redo i x g).state.links, nodes := (p.redo i x g).state.nodes } := by
    rw [redo, backward_state, renew, forward_state]
    rfl
  rw [← nodes]
  exact congrArg (·.resetIndex i) state

/-- To forget an index and replay forward and back there is idempotent, if no link hands on what it
remembers: done over, both replays answer as before and leave the nodes as before, whether they
succeed or fail, and the second time nothing changes any more. -/
theorem redo_idempotent {q : Procedure α} {i : Index} (unaided : q.Unaided i) (x g : Tensor α) :
    let again := (q.redo i x g).state
    (again.renew i x).result = (q.renew i x).result ∧
      (again.renew i x).state.nodes = (q.renew i x).state.nodes ∧
      again.redo i x g = q.redo i x g := by
  intro again
  -- After the first round the links have noted the readings of the replay forward, and of the replay
  -- back as far as it got; the second round starts from the same nodes.
  have noted : again.links.map Link.withoutGradient =
      (q.renew i x).state.links.map Link.withoutGradient :=
    congrArg Procedure.links ((q.renew i x).state.backward_withoutGradients i g)
  have renewed : again.renew i x =
      (q.renew i x).embed fun q => { q with links := again.links } := by
    rw [renew, redo_resetIndex]
    exact forward_again unaided.resetIndex x noted
  refine ⟨?_, ?_, ?_⟩
  · rw [renewed, Outcome.embed_result]
  · rw [renewed, Outcome.embed_state]
  · rw [redo, renewed, Outcome.embed_state]
    exact backward_again (unaided.resetIndex.forward x)

end Replay

/-- The sums of `pairProcedure` after three steps forward and two back. -/
def pairReplayed : Procedure Int :=
  [.forward 0 (.fill [2] 1), .forward 1 (.fill [2] 2), .forward 2 (.fill [2] 3),
    .backward 2 (.fill [2] 5), .backward 1 (.fill [2] 6)].foldl replay pairProcedure

/-- The links remember readings in both directions, but around the index 1 they find something to
read. There the step can be done over with another input, also with one that does not fit the carried
state, so that the replay forward fails. -/
theorem pair_redone :
    Session.Compiled pairProcedure ∧ pairProcedure.Reaches pairReplayed ∧
      (∀ l ∈ pairReplayed.links, l.lastValue ≠ none ∧ l.lastGradient ≠ none) ∧
      pairReplayed.Unaided 1 ∧
      ((pairReplayed.renew 1 (.fill [2] 7)).result = .ok 4 ∧
        let again := (pairReplayed.redo 1 (.fill [2] 7) (.fill [2] 6)).state
        again.nodes.value? 2 1 = some (.fill [2] 8) ∧
          again.redo 1 (.fill [2] 7) (.fill [2] 6) =
            pairReplayed.redo 1 (.fill [2] 7) (.fill [2] 6)) ∧
      let again := (pairReplayed.redo 1 (.fill [3] 7) (.fill [3] 6)).state
      (∀ out, (again.renew 1 (.fill [3] 7)).result ≠ .ok out) ∧
        again.nodes.gradient? 1 1 = some (.fill [1] 48) ∧
        again.redo 1 (.fill [3] 7) (.fill [3] 6) =
          pairReplayed.redo 1 (.fill [3] 7) (.fill [3] 6) := by
  have unaided : pairReplayed.Unaided 1 := by
    intro l hl
    rcases hl with _ | ⟨_, _ | ⟨_, ⟨⟩⟩⟩
    · exact ⟨.inl rfl, fun j after => by cases after; exact .inl rfl⟩
    · exact ⟨.inl rfl, fun j after => by cases after; exact .inl rfl⟩
  obtain ⟨-, -, fits⟩ := redo_idempotent unaided (.fill [2] 7) (.fill [2] 6)
  obtain ⟨failed, -, unfit⟩ := redo_idempotent unaided (.fill [3] 7) (.fill [3] 6)
  refine ⟨pair_compiled, ⟨_, rfl⟩, ?_, unaided, ⟨rfl, rfl, fits⟩, fun out ok => ?_, rfl, unfit⟩
  · intro l hl
    rcases hl with _ | ⟨_, _ | ⟨_, ⟨⟩⟩⟩
    · exact ⟨nofun, nofun⟩
    · exact ⟨nofun, nofun⟩
  · rw [failed] at ok
    cases ok

/-- Around the index 7 there is nothing to read: what the links remember is handed on the first time,
and zeros the second time. -/
example :
    let once := (pairReplayed.redo 7 (.fill [2] 7) (.fill [2] 6)).state
    once.nodes.value? 2 7 = some (.fill [2] 10) ∧
      (once.redo 7 (.fill [2] 7) (.fill [2] 6)).state.nodes.value? 2 7 = some (.fill [2] 7) :=
  ⟨rfl, rfl⟩

end Procedure

end GradientReplay
