import Mathlib.Algebra.Order.BigOperators.Group.Finset
import Mathlib.Data.Fintype.Basic
import Mathlib.Data.Int.Notation
import Opus.Library.Run

/-!
# Rounds of a communicator group

The members of a communicator group start a collective together: a member votes, and starts when
all members have voted for the round. The member that finds the round open asks the scheduler for
the topology; when it is granted, the member becomes the leader and takes a unit of the inflight
counter, which blocks reconfigurations. The unit is given back when all members have finished.

## Main definitions

* `CommGroup`, `GroupState`: a group, and the counters the workloads keep for it
* `GroupState.vote`, `GroupState.checkVote`, `GroupState.finish`, `GroupState.checkFinish`
* `Workloads`, `workloadStep`: all groups with the inflight counter, one attempt, completion or send
  at a time

## Main results

* `GroupState.Sound`: the joint invariant of the counters of a group
* `GroupState.Sound.issue`, `GroupState.Sound.complete`: what an attempt and a completion do
* `rounds_sound`: what holds in every run
-/

namespace Opus.Simulation

open Transition

/-! ## Groups -/

/-- `CommunicatorGroup`: the ranks of a group. -/
structure CommGroup (R : Type) where
  involvedNPUs : List R
  nodup : involvedNPUs.Nodup

/-- The counters of a group. The last two fields record what has happened: the collectives each
rank has started, and the units of the inflight counter taken and not given back. -/
structure GroupState (R : Type) where
  voteCount : R → ℕ
  finishCount : R → ℕ
  voteRounds : ℕ
  finishRounds : ℕ
  leader : Option R
  started : R → ℕ
  held : ℤ

/-- How an attempt to issue a collective ends. -/
inductive Attempt where
  /-- the node stays in the queue -/
  | blocked
  /-- the collective starts, in a round that has a leader -/
  | follows
  /-- the collective starts, and the rank becomes the leader -/
  | leads
  deriving DecidableEq, Repr

namespace GroupState

variable {R : Type} [DecidableEq R]

def initial (R : Type) : GroupState R where
  voteCount := fun _ => 0
  finishCount := fun _ => 0
  voteRounds := 0
  finishRounds := 0
  leader := none
  started := fun _ => 0
  held := 0

/-- `Workload::vote`: a rank that has voted for its next collective does not vote again. -/
def vote (ρ : GroupState R) (r : R) : GroupState R :=
  if ρ.finishCount r < ρ.voteCount r then ρ
  else { ρ with voteCount := Function.update ρ.voteCount r (ρ.voteCount r + 1) }

/-- `Workload::check_vote`. -/
def checkVote (C : CommGroup R) (ρ : GroupState R) (r : R) : Bool :=
  if ρ.finishRounds + 1 < ρ.voteCount r then false
  else C.involvedNPUs.length ≤ C.involvedNPUs.countP fun m => ρ.finishRounds < ρ.voteCount m

/-- `Workload::finish`. -/
def finish (ρ : GroupState R) (r : R) : GroupState R :=
  { ρ with finishCount := Function.update ρ.finishCount r (ρ.finishCount r + 1) }

/-- `Workload::check_finish`. -/
def checkFinish (C : CommGroup R) (ρ : GroupState R) : Bool :=
  C.involvedNPUs.length ≤ C.involvedNPUs.countP fun m => ρ.finishRounds < ρ.finishCount m

def start (ρ : GroupState R) (r : R) : GroupState R :=
  { ρ with started := Function.update ρ.started r (ρ.started r + 1) }

/-- The reconfiguration logic of `Workload::issue_coll_comm`. The scheduler's answer is
`reconfigured`; it is asked only in a round without a leader. -/
def issueCollComm (C : CommGroup R) (ρ : GroupState R) (r : R) (reconfigured : Bool) :
    Attempt × GroupState R :=
  let ρ := ρ.vote r
  if ρ.checkVote C r then
    if ρ.voteRounds = ρ.finishRounds then
      if reconfigured then
        (.leads, ({ ρ with
          leader := some r, voteRounds := ρ.voteRounds + 1, held := ρ.held + 1 }).start r)
      else (.blocked, ρ)
    else (.follows, ρ.start r)
  else (.blocked, ρ)

/-- The end of a collective in `Workload::call`, and whether the leader's unit is given back. -/
def collectiveFinished (C : CommGroup R) (ρ : GroupState R) (r : R) : Bool × GroupState R :=
  let ρ := ρ.finish r
  if ρ.checkFinish C then
    (true, { ρ with leader := none, finishRounds := ρ.finishRounds + 1, held := ρ.held - 1 })
  else (false, ρ)

end GroupState

/-! ## All groups -/

/-- The groups with their counters, the inflight counter of the topology manager, and the sends
that are under way. -/
structure Workloads (G R : Type) where
  group : G → GroupState R
  inflightColl : ℤ
  sends : ℕ

/-- An attempt to issue a collective with the scheduler's answer, the end of a collective, an
issued send and the end of a send. -/
inductive WorkloadAct (G R : Type) where
  | issue (g : G) (r : R) (reconfigured : Bool)
  | complete (g : G) (r : R)
  | send
  | sent

section

variable {G R : Type} [DecidableEq G] [DecidableEq R]

def Workloads.initial (G R : Type) : Workloads G R where
  group := fun _ => .initial R
  inflightColl := 0
  sends := 0

/-- One step. A rank issues collectives on its groups, one at a time on each, and completes what it
has started; sends take a unit of the inflight counter when topology ids are decimal. -/
def workloadStep (C : G → CommGroup R) (decimal : Bool) (s : Workloads G R) :
    WorkloadAct G R → Option (Workloads G R)
  | .issue g r reconfigured =>
    if r ∈ (C g).involvedNPUs ∧ (s.group g).started r = (s.group g).finishCount r then
      let a := (s.group g).issueCollComm (C g) r reconfigured
      some { s with
        group := Function.update s.group g a.2
        inflightColl := if a.1 = .leads then s.inflightColl + 1 else s.inflightColl }
    else none
  | .complete g r =>
    if r ∈ (C g).involvedNPUs ∧ (s.group g).started r = (s.group g).finishCount r + 1 then
      let a := (s.group g).collectiveFinished (C g) r
      some { s with
        group := Function.update s.group g a.2
        inflightColl := if a.1 then s.inflightColl - 1 else s.inflightColl }
    else none
  | .send =>
    some { s with
      sends := s.sends + 1
      inflightColl := if decimal then s.inflightColl + 1 else s.inflightColl }
  | .sent =>
    if 0 < s.sends then
      some { s with
        sends := s.sends - 1
        inflightColl := if decimal then s.inflightColl - 1 else s.inflightColl }
    else none

end

/-! ## The invariant of a group -/

namespace GroupState

variable {R : Type}

/-- A member in the rounds of its group: it has finished the rounds of the group or one more, it has
voted for at most the next one, and it runs a collective only in the open round. -/
structure MemberSound (ρ : GroupState R) (m : R) : Prop where
  finishRounds_le : ρ.finishRounds ≤ ρ.finishCount m
  finishCount_le : ρ.finishCount m ≤ ρ.voteRounds
  finishCount_le_vote : ρ.finishCount m ≤ ρ.voteCount m
  vote_le : ρ.voteCount m ≤ ρ.finishCount m + 1
  voted : ρ.finishRounds < ρ.voteRounds → ρ.finishRounds < ρ.voteCount m
  started_eq : ρ.started m = ρ.finishCount m ∨
    (ρ.started m = ρ.finishCount m + 1 ∧ ρ.finishCount m = ρ.finishRounds ∧
      ρ.finishRounds < ρ.voteRounds)

/-- **The joint invariant of the counters of a group**. -/
structure Sound (C : CommGroup R) (ρ : GroupState R) : Prop where
  member : ∀ m ∈ C.involvedNPUs, ρ.MemberSound m
  rounds : ρ.voteRounds = ρ.finishRounds ∨ ρ.voteRounds = ρ.finishRounds + 1
  held_eq : ρ.held = ρ.voteRounds - ρ.finishRounds
  leader_eq : (∃ r ∈ C.involvedNPUs, ρ.leader = some r) ∧ ρ.voteRounds = ρ.finishRounds + 1 ∨
    ρ.leader = none ∧ ρ.voteRounds = ρ.finishRounds

variable {C : CommGroup R} {ρ : GroupState R} {r : R}

theorem sound_initial (C : CommGroup R) : (GroupState.initial R).Sound C where
  member _ _ := ⟨le_rfl, le_rfl, le_rfl, Nat.zero_le _, fun h => h, .inl rfl⟩
  rounds := .inl rfl
  held_eq := rfl
  leader_eq := .inr ⟨rfl, rfl⟩

/-- All members are counted. -/
theorem length_le_countP_iff {l : List R} {p : R → Prop} [DecidablePred p] :
    l.length ≤ l.countP (fun m => p m) ↔ ∀ m ∈ l, p m := by
  constructor
  · intro h
    have he := List.countP_eq_length.mp (le_antisymm List.countP_le_length h)
    exact fun m hm => of_decide_eq_true (he m hm)
  · intro h
    exact (List.countP_eq_length.mpr fun m hm => decide_eq_true (h m hm)).ge

theorem checkVote_eq_true_iff :
    ρ.checkVote C r = true ↔
      ρ.voteCount r ≤ ρ.finishRounds + 1 ∧ ∀ m ∈ C.involvedNPUs, ρ.finishRounds < ρ.voteCount m := by
  unfold checkVote
  split
  · next h => exact ⟨fun hf => absurd hf Bool.false_ne_true, fun hv => absurd hv.1 (by omega)⟩
  · next h =>
    rw [decide_eq_true_iff, length_le_countP_iff]
    exact ⟨fun hv => ⟨by omega, hv⟩, fun hv => hv.2⟩

theorem checkFinish_eq_true_iff :
    ρ.checkFinish C = true ↔ ∀ m ∈ C.involvedNPUs, ρ.finishRounds < ρ.finishCount m := by
  rw [checkFinish, decide_eq_true_iff, length_le_countP_iff]

/-- What the invariant says about two members: no member has started a collective that another one
has not voted for, or whose predecessor another one has not finished. -/
theorem Sound.started_le (h : ρ.Sound C) {m j : R} (hm : m ∈ C.involvedNPUs)
    (hj : j ∈ C.involvedNPUs) :
    ρ.started m ≤ ρ.voteCount j ∧ ρ.started m ≤ ρ.finishCount j + 1 := by
  obtain ⟨-, hmv, -, -, -, hs⟩ := h.member m hm
  obtain ⟨hjf, -, hjv, -, hvoted, -⟩ := h.member j hj
  rcases h.rounds with hr | hr
  · omega
  · have hv := hvoted (by omega)
    omega

/-- The round opens: all members have voted for it. -/
theorem Sound.lead (h : ρ.Sound C) (hr : r ∈ C.involvedNPUs) (hclosed : ρ.voteRounds = ρ.finishRounds)
    (hall : ∀ m ∈ C.involvedNPUs, ρ.finishRounds < ρ.voteCount m) :
    ({ ρ with leader := some r, voteRounds := ρ.voteRounds + 1, held := ρ.held + 1 } :
      GroupState R).Sound C := by
  refine ⟨fun m hm => ?_, .inr (by simp only [hclosed]), ?_, .inl ⟨⟨r, hr, rfl⟩, ?_⟩⟩
  · have hm' := h.member m hm
    refine ⟨hm'.finishRounds_le, Nat.le_succ_of_le hm'.finishCount_le, hm'.finishCount_le_vote,
      hm'.vote_le, fun _ => hall m hm, ?_⟩
    rcases hm'.started_eq with hs | ⟨_, _, hlt⟩
    · exact .inl hs
    · exact absurd hlt (by omega)
  · have hheld := h.held_eq
    push_cast
    omega
  · simp only [hclosed]

/-- The round closes: all members have finished it. -/
theorem Sound.close (h : ρ.Sound C) (hr : r ∈ C.involvedNPUs)
    (hall : ∀ m ∈ C.involvedNPUs, ρ.finishRounds < ρ.finishCount m) :
    ({ ρ with leader := none, finishRounds := ρ.finishRounds + 1, held := ρ.held - 1 } :
      GroupState R).Sound C := by
  have hlt := (hall r hr).trans_le (h.member r hr).finishCount_le
  have hopen := h.rounds.resolve_left hlt.ne'
  refine ⟨fun m hm => ?_, .inl hopen, ?_, .inr ⟨rfl, hopen⟩⟩
  · obtain ⟨h₁, h₂, h₃, h₄, h₅, h₆⟩ := h.member m hm
    refine ⟨hall m hm, h₂, h₃, h₄, fun hlt' => absurd hlt' (by simp [hopen]), ?_⟩
    rcases h₆ with hs | ⟨_, heq, _⟩
    · exact .inl hs
    · exact absurd (hall m hm) (by omega)
  · have hheld := h.held_eq
    push_cast
    omega

variable [DecidableEq R]

/-- What an attempt can do: the vote alone, or the vote and a start, as the leader of a round that
opens or in a round that has been opened. -/
theorem issueCollComm_cases (C : CommGroup R) (ρ : GroupState R) (r : R) (reconfigured : Bool) :
    ρ.issueCollComm C r reconfigured = (.blocked, ρ.vote r) ∨
    ((ρ.vote r).checkVote C r = true ∧
      ((ρ.vote r).voteRounds = (ρ.vote r).finishRounds ∧
        ρ.issueCollComm C r reconfigured = (.leads, ({ ρ.vote r with
          leader := some r, voteRounds := (ρ.vote r).voteRounds + 1,
          held := (ρ.vote r).held + 1 }).start r) ∨
      (ρ.vote r).voteRounds ≠ (ρ.vote r).finishRounds ∧
        ρ.issueCollComm C r reconfigured = (.follows, (ρ.vote r).start r))) := by
  unfold issueCollComm
  simp only []
  split_ifs with hv hr hs
  · exact .inr ⟨hv, .inl ⟨hr, rfl⟩⟩
  · exact .inl rfl
  · exact .inr ⟨hv, .inr ⟨hr, rfl⟩⟩
  · exact .inl rfl

/-! ## Votes -/

theorem vote_voteCount_self (h : ρ.MemberSound r) :
    (ρ.vote r).voteCount r = ρ.finishCount r + 1 := by
  have hle := h.vote_le
  have hge := h.finishCount_le_vote
  unfold vote
  split
  · omega
  · show Function.update ρ.voteCount r (ρ.voteCount r + 1) r = ρ.finishCount r + 1
    rw [Function.update_self]
    omega

theorem vote_voteCount_of_ne {m : R} (hm : m ≠ r) : (ρ.vote r).voteCount m = ρ.voteCount m := by
  unfold vote
  split
  · rfl
  · exact Function.update_of_ne hm ..

/-- A vote changes the vote count only. -/
theorem vote_eq (ρ : GroupState R) (r : R) : ∃ v, ρ.vote r = { ρ with voteCount := v } := by
  unfold vote
  split
  · exact ⟨ρ.voteCount, rfl⟩
  · exact ⟨_, rfl⟩

theorem Sound.vote (h : ρ.Sound C) (hr : r ∈ C.involvedNPUs) : (ρ.vote r).Sound C := by
  have hself := vote_voteCount_self (h.member r hr)
  obtain ⟨v, hv⟩ := ρ.vote_eq r
  have hne : ∀ m, m ≠ r → v m = ρ.voteCount m := by
    intro m hm
    rw [← vote_voteCount_of_ne hm, hv]
  rw [hv] at hself ⊢
  refine ⟨fun m hm => ?_, h.rounds, h.held_eq, h.leader_eq⟩
  have hm' := h.member m hm
  by_cases hmr : m = r
  · subst hmr
    refine ⟨hm'.finishRounds_le, hm'.finishCount_le, ?_, hself.le, fun _ => ?_, hm'.started_eq⟩
    · exact (Nat.le_succ _).trans hself.ge
    · exact (Nat.lt_succ_of_le hm'.finishRounds_le).trans_le hself.ge
  · refine ⟨hm'.finishRounds_le, hm'.finishCount_le, ?_, ?_, ?_, hm'.started_eq⟩
    · exact hm'.finishCount_le_vote.trans (hne m hmr).ge
    · exact (hne m hmr).le.trans hm'.vote_le
    · exact fun hlt => (hm'.voted hlt).trans_le (hne m hmr).ge

/-! ## Starts -/

/-- **A rank starts a collective**, in a round all members have voted for and whose predecessor all
members have finished. The round is open when the rank starts, or it opens with it. -/
theorem Sound.start (h : ρ.Sound C) (hr : r ∈ C.involvedNPUs)
    (hidle : ρ.started r = ρ.finishCount r) (hvote : ρ.voteCount r = ρ.finishCount r + 1)
    (hle : ρ.voteCount r ≤ ρ.finishRounds + 1) (hopen : ρ.finishRounds < ρ.voteRounds) :
    (ρ.start r).Sound C := by
  refine ⟨fun m hm => ?_, h.rounds, h.held_eq, h.leader_eq⟩
  have hm' := h.member m hm
  refine ⟨hm'.finishRounds_le, hm'.finishCount_le, hm'.finishCount_le_vote, hm'.vote_le,
    hm'.voted, ?_⟩
  by_cases hmr : m = r
  · subst hmr
    have hle' := hm'.finishRounds_le
    refine .inr ⟨?_, ?_, hopen⟩
    · show Function.update ρ.started m (ρ.started m + 1) m = ρ.finishCount m + 1
      rw [Function.update_self, hidle]
    · show ρ.finishCount m = ρ.finishRounds
      omega
  · have hs : (ρ.start r).started m = ρ.started m := Function.update_of_ne hmr ..
    rw [hs]
    exact hm'.started_eq

theorem Sound.issueCollComm (h : ρ.Sound C) (hr : r ∈ C.involvedNPUs)
    (hidle : ρ.started r = ρ.finishCount r) (reconfigured : Bool) :
    (ρ.issueCollComm C r reconfigured).2.Sound C ∧
      (ρ.issueCollComm C r reconfigured).2.held =
        if (ρ.issueCollComm C r reconfigured).1 = .leads then ρ.held + 1 else ρ.held := by
  have hv := h.vote hr
  have hself := vote_voteCount_self (h.member r hr)
  have hcases := issueCollComm_cases C ρ r reconfigured
  obtain ⟨v, hve⟩ := ρ.vote_eq r
  rw [hve] at hv hself hcases
  rcases hcases with he | ⟨hc, ⟨hrounds, he⟩ | ⟨hrounds, he⟩⟩ <;> rw [he]
  · exact ⟨hv, rfl⟩
  · obtain ⟨hle, hall⟩ := checkVote_eq_true_iff.mp hc
    exact ⟨(hv.lead hr hrounds hall).start hr hidle hself hle (Nat.lt_succ_of_le hrounds.ge), rfl⟩
  · obtain ⟨hle, -⟩ := checkVote_eq_true_iff.mp hc
    have hopen := hv.rounds.resolve_left hrounds
    exact ⟨hv.start hr hidle hself hle (Nat.lt_of_succ_le hopen.ge), rfl⟩

/-! ## Completions -/

/-- A member finishes its collective. -/
theorem Sound.finish (h : ρ.Sound C) (hrun : ρ.started r = ρ.finishCount r + 1)
    (hr : r ∈ C.involvedNPUs) : (ρ.finish r).Sound C := by
  refine ⟨fun m hm => ?_, h.rounds, h.held_eq, h.leader_eq⟩
  have hm' := h.member m hm
  by_cases hmr : m = r
  · subst hmr
    have hf : (ρ.finish m).finishCount m = ρ.finishCount m + 1 := Function.update_self ..
    obtain ⟨hs, hround, hopen⟩ := hm'.started_eq.resolve_left (by omega)
    have hvoted := hm'.voted hopen
    refine ⟨?_, ?_, ?_, ?_, fun _ => hvoted, .inl ?_⟩
    · exact hf ▸ Nat.le_succ_of_le hm'.finishRounds_le
    · exact hf ▸ (show ρ.finishCount m + 1 ≤ ρ.voteRounds by omega)
    · exact hf ▸ (show ρ.finishCount m + 1 ≤ ρ.voteCount m by omega)
    · exact hf ▸ Nat.le_succ_of_le hm'.vote_le
    · exact hf ▸ hrun
  · have hf : (ρ.finish r).finishCount m = ρ.finishCount m := Function.update_of_ne hmr ..
    obtain ⟨h₁, h₂, h₃, h₄, h₅, h₆⟩ := hm'
    rw [← hf] at h₁ h₂ h₃ h₄ h₆
    exact ⟨h₁, h₂, h₃, h₄, h₅, h₆⟩

theorem Sound.collectiveFinished (h : ρ.Sound C) (hr : r ∈ C.involvedNPUs)
    (hrun : ρ.started r = ρ.finishCount r + 1) :
    (ρ.collectiveFinished C r).2.Sound C ∧
      (ρ.collectiveFinished C r).2.held =
        if (ρ.collectiveFinished C r).1 then ρ.held - 1 else ρ.held := by
  have hf := h.finish hrun hr
  unfold GroupState.collectiveFinished
  simp only []
  split
  · next hc => exact ⟨hf.close hr (checkFinish_eq_true_iff.mp hc), rfl⟩
  · exact ⟨hf, rfl⟩

end GroupState

/-! ## Runs -/

section

variable {G R : Type} [Fintype G]

/-- The groups are sound, and the inflight counter is what the groups and the sends hold. -/
structure Workloads.Sound (C : G → CommGroup R) (decimal : Bool) (s : Workloads G R) : Prop where
  group : ∀ g, (s.group g).Sound (C g)
  inflightColl_eq : s.inflightColl = ∑ g, (s.group g).held + if decimal then (s.sends : ℤ) else 0

theorem Workloads.sound_initial (C : G → CommGroup R) (decimal : Bool) :
    (Workloads.initial G R).Sound C decimal where
  group g := GroupState.sound_initial (C g)
  inflightColl_eq := by simp [Workloads.initial, GroupState.initial]

variable [DecidableEq G]

/-- A step of one group moves its units and no others. -/
theorem sum_held_update (f : G → GroupState R) (g : G) (ρ : GroupState R) :
    ∑ h, (Function.update f g ρ h).held = ∑ h, (f h).held + (ρ.held - (f g).held) := by
  rw [← Finset.add_sum_erase _ _ (Finset.mem_univ g),
    ← Finset.add_sum_erase _ (fun h => (f h).held) (Finset.mem_univ g), Function.update_self]
  have hne : ∑ h ∈ Finset.univ.erase g, (Function.update f g ρ h).held =
      ∑ h ∈ Finset.univ.erase g, (f h).held := by
    refine Finset.sum_congr rfl fun h hh => ?_
    rw [Function.update_of_ne (Finset.ne_of_mem_erase hh)]
  rw [hne]
  omega

variable {C : G → CommGroup R} {decimal : Bool} {s t : Workloads G R}

/-- A step of one group. -/
theorem Workloads.Sound.update (h : s.Sound C decimal) {g : G} {ρ : GroupState R} {k : ℤ}
    (hρ : ρ.Sound (C g)) (hk : k - s.inflightColl = ρ.held - (s.group g).held) :
    ({ s with group := Function.update s.group g ρ, inflightColl := k } :
      Workloads G R).Sound C decimal := by
  refine ⟨fun g' => ?_, ?_⟩
  · by_cases hg : g' = g
    · subst hg
      simpa using hρ
    · simpa [Function.update_of_ne hg] using h.group g'
  · have hsum := sum_held_update s.group g ρ
    have hin := h.inflightColl_eq
    show k = ∑ h, (Function.update s.group g ρ h).held + if decimal then (s.sends : ℤ) else 0
    rw [hsum]
    omega

variable [DecidableEq R]

/-- **Every attempt, completion and send** keeps the counters sound. -/
theorem workloads_sound_step {a : WorkloadAct G R} (h : s.Sound C decimal)
    (hs : workloadStep C decimal s a = some t) : t.Sound C decimal := by
  cases a with
  | issue g r reconfigured =>
    simp only [workloadStep] at hs
    split at hs
    · next hg =>
      cases hs
      obtain ⟨hsound, hheld⟩ := (h.group g).issueCollComm hg.1 hg.2 reconfigured
      refine h.update hsound ?_
      rw [hheld]
      split <;> omega
    · cases hs
  | complete g r =>
    simp only [workloadStep] at hs
    split at hs
    · next hg =>
      cases hs
      obtain ⟨hsound, hheld⟩ := (h.group g).collectiveFinished hg.1 hg.2
      refine h.update hsound ?_
      rw [hheld]
      split <;> omega
    · cases hs
  | send =>
    cases hs
    refine ⟨h.group, ?_⟩
    have hin := h.inflightColl_eq
    cases decimal <;> simp_all
    omega
  | sent =>
    simp only [workloadStep] at hs
    split at hs
    · next hpos =>
      cases hs
      refine ⟨h.group, ?_⟩
      have hin := h.inflightColl_eq
      cases decimal <;> simp_all
      omega
    · cases hs

/-- **Rounds of communicator groups are sound**, in every reachable state: a round is open or not; a
member has started its `k`-th collective of a group only when every member has voted for round `k`
and finished round `k - 1`; in an open round a member is recorded as the leader and the group holds
one unit of the inflight counter, otherwise there is no leader and no unit; and the counter, which
is what the groups and the sends hold, is not negative. -/
theorem rounds_sound (C : G → CommGroup R) (decimal : Bool) {s : Workloads G R}
    (h : Reaches (workloadStep C decimal) (Workloads.initial G R) s) :
    (∀ g, (s.group g).finishRounds ≤ (s.group g).voteRounds ∧
      (s.group g).voteRounds ≤ (s.group g).finishRounds + 1 ∧
      (∀ m ∈ (C g).involvedNPUs, ∀ j ∈ (C g).involvedNPUs, ∀ k, 1 ≤ k → k ≤ (s.group g).started m →
        k ≤ (s.group g).voteCount j ∧ k - 1 ≤ (s.group g).finishCount j) ∧
      ((s.group g).voteRounds = (s.group g).finishRounds + 1 →
        (∃ r ∈ (C g).involvedNPUs, (s.group g).leader = some r) ∧ (s.group g).held = 1) ∧
      ((s.group g).voteRounds = (s.group g).finishRounds →
        (s.group g).leader = none ∧ (s.group g).held = 0)) ∧
    s.inflightColl = ∑ g, (s.group g).held + (if decimal then (s.sends : ℤ) else 0) ∧
    0 ≤ s.inflightColl := by
  have hs : s.Sound C decimal :=
    h.invariant (fun _ _ _ => workloads_sound_step) (Workloads.sound_initial C decimal)
  refine ⟨fun g => ?_, hs.inflightColl_eq, ?_⟩
  · have hg := hs.group g
    have hheld := hg.held_eq
    refine ⟨?_, ?_, fun m hm j hj k hk hkm => ?_, fun hr => ?_, fun hr => ?_⟩
    · rcases hg.rounds with hr | hr <;> omega
    · rcases hg.rounds with hr | hr <;> omega
    · have hle := hg.started_le hm hj
      omega
    · refine ⟨?_, by omega⟩
      rcases hg.leader_eq with ⟨hl, -⟩ | ⟨-, hr'⟩
      · exact hl
      · omega
    · refine ⟨?_, by omega⟩
      rcases hg.leader_eq with ⟨-, hr'⟩ | ⟨hl, -⟩
      · omega
      · exact hl
  · have hnonneg : 0 ≤ ∑ g, (s.group g).held := by
      refine Finset.sum_nonneg fun g _ => ?_
      have hheld := (hs.group g).held_eq
      rcases (hs.group g).rounds with hr | hr <;> omega
    rw [hs.inflightColl_eq]
    split <;> omega

end

/-- Two ranks in one group. -/
def pairGroup : Unit → CommGroup Bool := fun _ => ⟨[false, true], by decide⟩

/-- One rank votes early and is blocked, the other one leads after a failed reconfiguration; the
first rank finishes early and votes for the next round. -/
def pairRounds : List (WorkloadAct Unit Bool) :=
  [.issue () false true, .issue () true false, .issue () true true, .issue () false true, .send,
    .complete () false, .issue () false true]

theorem rounds_sound_pairRounds :
    ∃ s, run (workloadStep pairGroup true) (Workloads.initial Unit Bool) pairRounds = some s ∧
      (s.group ()).voteRounds = (s.group ()).finishRounds + 1 ∧ (s.group ()).voteCount false = 2 ∧
      (∃ r ∈ (pairGroup ()).involvedNPUs, (s.group ()).leader = some r) ∧ s.inflightColl = 2 ∧
      0 ≤ s.inflightColl := by
  have hrun : (run (workloadStep pairGroup true) (Workloads.initial Unit Bool) pairRounds).map
      (fun s => ((s.group ()).voteRounds, (s.group ()).finishRounds, (s.group ()).voteCount false,
        s.inflightColl)) = some (1, 0, 2, 2) := by
    decide
  obtain ⟨s, hs, he⟩ := Option.map_eq_some_iff.mp hrun
  simp only [Prod.mk.injEq] at he
  obtain ⟨hv, hf, hc, hi⟩ := he
  obtain ⟨hg, -, hnonneg⟩ := rounds_sound pairGroup true ⟨pairRounds, hs⟩
  have hopen : (s.group ()).voteRounds = (s.group ()).finishRounds + 1 := by
    rw [hv, hf]
  exact ⟨s, hs, hopen, hc, ((hg ()).2.2.2.1 hopen).1, hi, hnonneg⟩

end Opus.Simulation
