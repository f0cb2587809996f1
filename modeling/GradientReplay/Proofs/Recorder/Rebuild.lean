import GradientReplay.Proofs.Recorder.Round

/-!
Building a routine again and again.

The first round sees nothing of a round before, so the second one records what the first one did; and
a round that records more is followed by one that sees more, so each round records what the one
before it recorded (`Routine.Repeats.subset`). A round that records the same calls as the one before
it is followed by rounds that see the same, so all of them record the same and end with procedures
of one outline (`Routine.stabilises`).
-/

namespace GradientReplay

variable {α : Type} {m n : Nat}

namespace Routine

variable [Zero α] [Add α] [Sub α] [Mul α] [Div α] [BEq α] {q : Routine α m n}
  {first round : Round α n} {r r' : Recording α} {L L' : List Nat} {N b c : Nat}

/-! ### Every round -/

/-- What holds of a round that rounds before it led to. -/
structure Stage (q : Routine α m n) (first round : Round α n) : Prop where
  reached : round.session.Reached
  idle : round.session.recorder.current = none
  constants : round.session.recorder.constants = first.session.recorder.constants
  since : first.session.tensors.length ≤ round.session.tensors.length

theorem Stage.after (stage : q.Stage first round) (built : q.Built round L r) :
    q.Stage first (q.after round) where
  reached := Session.reached_run stage.reached _
  idle := by rw [built.after_recorder]
  constants := by rw [built.after_recorder, stage.constants]
  since := by
    rw [built.after_length]
    exact le_trans stage.since (Nat.le_add_right _ _)

theorem Stage.later (stage : q.Stage first round) (built : q.Built round L r) :
    q.Later first (q.after round) round.session.tensors.length where
  since := stage.since
  upTo := by rw [built.after_length]
  states := fun _ => rfl

/-- The routine is built `N` times after some history, and all calls succeed. -/
structure Repeats (q : Routine α m n) (first : Round α n) (N : Nat) : Prop where
  reached : first.session.Reached
  ready : q.Ready first
  succeeds : ∀ b < N, (q.rounds first b).session.Succeeds (q.steps (q.rounds first b))

namespace Repeats

variable (h : q.Repeats first N)

include h

theorem stage (le : b ≤ N) : q.Stage first (q.rounds first b) := by
  induction b with
  | zero => exact ⟨h.reached, h.ready.idle, rfl, le_rfl⟩
  | succ b ih =>
      have before := ih (Nat.le_of_succ_le le)
      obtain ⟨L, r, built⟩ := exists_built before.reached before.idle (h.succeeds b le)
      exact before.after built

theorem built (lt : b < N) : ∃ L r, q.Built (q.rounds first b) L r :=
  have stage := h.stage (Nat.le_of_lt lt)
  exists_built stage.reached stage.idle (h.succeeds b lt)

theorem later (lt : b < N) :
    q.Later first (q.rounds first (b + 1)) (q.rounds first b).session.tensors.length := by
  obtain ⟨L, r, built⟩ := h.built lt
  exact (h.stage (Nat.le_of_lt lt)).later built

theorem sees (lt : b < N) (built : q.Built (q.rounds first b) L r) :
    q.Sees (q.rounds first (b + 1)) L :=
  built.sees h.ready (h.later lt)

/-- Names of one tensor are names of one tensor in the next round. -/
theorem same (lt : b < N) (x y : Source m n)
    (same : q.tensorOf (q.rounds first b) x = q.tensorOf (q.rounds first b) y) :
    q.tensorOf (q.rounds first (b + 1)) x = q.tensorOf (q.rounds first (b + 1)) y := by
  rw [(h.later lt).tensorOf_eq_iff h.ready]
  cases b with
  | zero => exact h.ready.place_eq same
  | succ b => exact ((h.later (Nat.lt_of_succ_lt lt)).tensorOf_eq_iff h.ready).mp same

/-- The registered names are those of the first round. -/
theorem registered (le : b ≤ N) (x : Source m n) :
    q.tensorOf (q.rounds first b) x ∈ (q.rounds first b).session.recorder.constants ↔
      q.tensorOf first x ∈ first.session.recorder.constants := by
  rw [(h.stage le).constants]
  cases b with
  | zero => exact Iff.rfl
  | succ b => exact (h.later le).registered_iff h.ready x

/-! ### Each round records what the one before it recorded -/

/-- A round that sees less than the next one records less. -/
theorem subset_of_sees (lt : b + 1 < N) (built : q.Built (q.rounds first b) L r)
    (built' : q.Built (q.rounds first (b + 1)) L' r') {K K' : List Nat}
    (sees : q.Sees (q.rounds first b) K) (sees' : q.Sees (q.rounds first (b + 1)) K')
    (sub : K ⊆ K') : L ⊆ L' := by
  obtain ⟨x, input, building⟩ := built.building
  obtain ⟨x', input', building'⟩ := built'.building
  have same := h.same (Nat.lt_of_succ_lt lt)
  have registered := h.registered (Nat.le_of_lt (Nat.lt_of_succ_lt lt))
  have registered' := h.registered (Nat.le_of_lt lt)
  refine (building.subset building' (Arena.Paired.empty.add rfl _) (Arena.Paired.empty.add rfl _)
    same ?_ ?_ ?_).1
  · intro y bound
    rw [Recording.binds_start, input] at bound
    rw [Recording.binds_start, input']
    exact same y .input bound
  · intro y mem
    exact (registered' y).mpr ((registered y).mp mem)
  · intro y seen
    rw [sees']
    rw [sees] at seen
    exact carried_mono sub seen

theorem subset (lt : b + 1 < N) (built : q.Built (q.rounds first b) L r)
    (built' : q.Built (q.rounds first (b + 1)) L' r') : L ⊆ L' := by
  have lt' := Nat.lt_of_succ_lt lt
  have sees' := h.sees lt' built
  -- What a round sees is what the round before it recorded, so the induction is on the round.
  induction b generalizing L L' r r' with
  | zero =>
      have sees := h.ready.sees h.reached
      exact h.subset_of_sees lt built built' sees sees' (List.nil_subset _)
  | succ b ih =>
      have lt₀ := Nat.lt_of_succ_lt lt'
      obtain ⟨L₀, r₀, built₀⟩ := h.built lt₀
      have sees := h.sees lt₀ built₀
      exact h.subset_of_sees lt built built' sees sees' (ih lt' built₀ built lt₀ sees)

/-! ### Rounds that record the same calls -/

/-- Two rounds after rounds that recorded the calls `L` record the same calls, and their builds
match. -/
theorem matches_of_built (ltb : b + 1 < N) (ltc : c + 1 < N) {Lb Lc : List Nat}
    {rb rc rb' rc' : Recording α} (builtb : q.Built (q.rounds first b) L rb)
    (builtc : q.Built (q.rounds first c) L rc)
    (builtb' : q.Built (q.rounds first (b + 1)) Lb rb')
    (builtc' : q.Built (q.rounds first (c + 1)) Lc rc') :
    Lc = Lb ∧ rb'.Matches (q.tensorOf (q.rounds first (b + 1)))
      (q.tensorOf (q.rounds first (c + 1))) rc' := by
  obtain ⟨x, input, building⟩ := builtb'.building
  obtain ⟨x', input', building'⟩ := builtc'.building
  have ltb' := Nat.lt_of_succ_lt ltb
  have ltc' := Nat.lt_of_succ_lt ltc
  have same := (h.later ltb').sameTensors (h.later ltc') h.ready
  refine building.same_calls building' (.start same (x := .input) input input') same ?_ ?_
  · intro y
    rw [h.sees ltc' builtc y, h.sees ltb' builtb y]
  · intro y
    have registered := h.registered (Nat.le_of_lt ltb) y
    have registered' := h.registered (Nat.le_of_lt ltc) y
    exact registered'.trans registered.symm

/-- Once a round has recorded the same calls as the one before it, so do all that follow. -/
theorem stable (le : b ≤ c) (lt : c < N) (built : q.Built (q.rounds first b) L r)
    (built' : q.Built (q.rounds first (b + 1)) L r') : ∃ r'', q.Built (q.rounds first c) L r'' := by
  induction c, le using Nat.le_induction with
  | base => exact ⟨r, built⟩
  | succ c le ih =>
      obtain ⟨rc, builtc⟩ := ih (Nat.lt_of_succ_lt lt)
      obtain ⟨Lc, rc', builtc'⟩ := h.built lt
      have ltb : b + 1 < N := lt_of_le_of_lt (Nat.succ_le_succ le) lt
      obtain ⟨rfl, -⟩ := h.matches_of_built ltb lt built builtc built' builtc'
      exact ⟨rc', builtc'⟩

/-- From then on, every round ends with a procedure of one outline. -/
theorem outline (lt : b + 1 < N) (built : q.Built (q.rounds first b) L r)
    (built' : q.Built (q.rounds first (b + 1)) L r') :
    ∃ outline, ∀ c, b < c → c < N →
      ∃ p, q.Compiles (q.rounds first c) p ∧ p.outline = outline := by
  have previous {b : Nat} {r : Recording α} (built : q.Built (q.rounds first b) L r) :
      (q.rounds first (b + 1)).session.recorder.previous = some r.summarize := by
    rw [rounds, built.after_recorder]
  obtain ⟨node, p, found, -, eq⟩ := built'.compiles (previous built)
  refine ⟨p.outline, fun c after ltc => ?_⟩
  obtain ⟨c, rfl⟩ : ∃ c', c = c' + 1 := Nat.exists_eq_succ_of_ne_zero (Nat.ne_zero_of_lt after)
  obtain ⟨rc, builtc⟩ :=
    h.stable (Nat.le_of_lt_succ after) (Nat.lt_of_succ_lt ltc) built built'
  obtain ⟨Lc, rc', builtc'⟩ := h.built ltc
  obtain ⟨rfl, matching⟩ := h.matches_of_built lt ltc built builtc built' builtc'
  obtain ⟨node', p', found', compiled, eq'⟩ := builtc'.compiles (previous builtc)
  have arities : rc.summarize.arities = r.summarize.arities := by
    rw [builtc.summary.1, built.summary.1]
  refine ⟨p', compiled, ?_⟩
  rw [eq, eq']
  exact matching.outline found found' arities _ _ _ _

end Repeats

/-- Rounds that record the same calls list the same ones. -/
theorem Built.calls_eq {round' : Round α n} {L' : List Nat} {r' : Recording α}
    (built : q.Built round L r) (built' : q.Built round' L' r')
    (same : ∀ i : Fin q.calls.length, i.val ∈ L' ↔ i.val ∈ L) : L' = L := by
  refine built'.ascending.1.eq_of_mem_iff built.ascending.1 fun i => ?_
  constructor
  · intro mem
    exact (same ⟨i, built'.ascending.2 i mem⟩).mp mem
  · intro mem
    exact (same ⟨i, built.ascending.2 i mem⟩).mpr mem

/-- A routine that is built again and again, with all calls succeeding, records in each round what
it recorded in the one before. From the first round on that records the same calls as the one before
it, all procedures have the same expressions, kinds and origins of nodes, order back and links. -/
theorem stabilises (h : q.Repeats first N) :
    (∀ b, b + 1 < N → ∀ i, q.Records (q.rounds first b) i → q.Records (q.rounds first (b + 1)) i) ∧
    ∀ b, b + 1 < N →
      (∀ i, q.Records (q.rounds first (b + 1)) i ↔ q.Records (q.rounds first b) i) →
      ∃ outline, ∀ c, b < c → c < N →
        ∃ p, q.Compiles (q.rounds first c) p ∧ p.outline = outline := by
  have records {b : Nat} (lt : b < N) {L : List Nat} {r : Recording α}
      (built : q.Built (q.rounds first b) L r) (i : Fin q.calls.length) :
      q.Records (q.rounds first b) i ↔ i.val ∈ L :=
    built.records_iff (h.stage (Nat.le_of_lt lt)).reached i
  constructor
  · intro b lt i recorded
    have lt' := Nat.lt_of_succ_lt lt
    obtain ⟨L, r, built⟩ := h.built lt'
    obtain ⟨L', r', built'⟩ := h.built lt
    have sub := h.subset lt built built'
    exact (records lt built' i).mpr (sub ((records lt' built i).mp recorded))
  · intro b lt same
    have lt' := Nat.lt_of_succ_lt lt
    obtain ⟨L, r, built⟩ := h.built lt'
    obtain ⟨L', r', built'⟩ := h.built lt
    have equal : L' = L := built.calls_eq built' fun i => by
      rw [← records lt built', ← records lt' built]
      exact same i
    subst equal
    exact h.outline lt built built'

/-- `a = s + s` and `y = a + x`, after which the state variable `s` is set to `y`. -/
def doubling : Routine Int 0 1 where
  input := 0
  fixed := Fin.elim0
  calls := [.arithmetic .add (.state 0) (.state 0), .arithmetic .add (.answer 0) .input]
  next := fun _ => (1 : Fin 2)
  output := (1 : Fin 2)

def doublingRound : Round Int 1 :=
  ⟨(Session.start "doubling").run [.hold (.fill [1] 3), .hold (.fill [1] 1)], fun _ => 1⟩

/-- The first round records only the second call, since nothing is known of the state; the second
round records both, and so do the others. -/
theorem doubling_stabilises :
    ¬ doubling.Records doublingRound ⟨0, by decide⟩ ∧
      doubling.Records (doubling.rounds doublingRound 1) ⟨0, by decide⟩ ∧
      ∃ outline, ∀ c, 1 < c → c < 4 →
        ∃ p, doubling.Compiles (doubling.rounds doublingRound c) p ∧ p.outline = outline := by
  have ready : doubling.Ready doublingRound := by
    constructor
    · rfl
    · intro x given
      cases x with
      | input => decide
      | state k => exact Nat.one_lt_two
      | fixed j => exact j.elim0
      | answer => cases given
    · intro x given
      rfl
    · intro k x same given
      cases x with
      | input => cases same
      | fixed j => exact j.elim0
      | state l => rw [Subsingleton.elim l k]
      | answer => cases given
    · decide
    · decide
  have succeeds : ∀ b < 4, (doubling.rounds doublingRound b).session.Succeeds
      (doubling.steps (doubling.rounds doublingRound b)) := by
    intro b lt
    match b, lt with
    | 0, _ | 1, _ | 2, _ | 3, _ => exact ⟨rfl, rfl, rfl, rfl, trivial⟩
  obtain ⟨-, stable⟩ := stabilises ⟨⟨"doubling", _, rfl⟩, ready, succeeds⟩
  refine ⟨by decide, by decide, stable 1 (by decide) (by decide)⟩

end Routine

end GradientReplay
