import Mathlib.Data.List.Infix
import Mathlib.Logic.Function.Basic
import Opus.Library.Run
import Opus.Schedule.Keyed
import Opus.Shim.KeyedProcess
import Opus.Shim.Legacy

/-!
# The requests of a keyed replay

With `OPUS_SCHEDULE_PATH` set no stage file is read and `pre_coll` returns before it attaches the
callback of a stage, but `post_coll` still attaches its own. The callback finds no stage to end. In
baseline mode it does nothing then; in provision mode it sends a request for the next transfer of a
pipeline backend, beside the requests of the schedule and without their lock.

## Main definitions

* `Shim.keyed`: a process that replays a keyed schedule
* `KeyedReplay`, `replayStep`: the issuing thread, the queue threads and the callbacks
* `triggered`: the requests of the rows that a sequence of collectives triggers
* `OnlyScheduled`: only these are sent, in their order, and one at a time

## Main results

* `onlyScheduled_of_baseline`: in baseline mode only scheduled requests are sent
* `onlyScheduled_of_provision`: so in provision mode, as long as no transfer is launched
* `onlyScheduled_iff`: the first transfer that is launched in provision mode adds a request
-/

namespace Opus

open Transition

/-! ## The threads and the callbacks -/

/-- A process with a keyed schedule: it does not read a stage file. -/
def Shim.keyed (sh : Shim) (provision : Bool) : Shim :=
  { sh with mode := if provision then .provision else .baseline, commStages := [] }

/-- A process that replays a keyed schedule: what the callbacks share, the counters and the position
of the issuing thread, the queues of the backends, the holder of `scheduled_request_mutex`, and the
callbacks of every backend. `sent` records the requests. -/
structure KeyedReplay where
  shared : Process
  main : ℕ → Counters
  entered : ℕ
  pc : IssuePc
  preQueue : ℕ → List (ℕ × ℕ)
  request : Option Sender
  posted : ℕ → ℕ
  postWaiting : ℕ → Bool
  thrown : Bool
  sent : List (ℕ × ℕ)

/-- The process before its first collective. -/
def KeyedReplay.initial : KeyedReplay where
  shared := .initial
  main := noCounters
  entered := 0
  pc := .outside
  preQueue := fun _ => []
  request := none
  posted := fun _ => 0
  postWaiting := fun _ => false
  thrown := false
  sent := []

/-- The steps of a process. -/
inductive ReplayAction where
  /-- the issuing thread runs `pre_coll` of the next collective, up to the acknowledgement -/
  | enter
  /-- the issuing thread launches the collective and runs `post_coll` -/
  | launch
  /-- the queue thread of a backend takes a task and sends its request -/
  | pop (backend : ℕ)
  /-- the acknowledgement of the scheduled request arrives -/
  | ack
  /-- the callback after a collective of a backend runs -/
  | post (backend : ℕ)
  /-- the acknowledgement of the request of a callback arrives -/
  | postAck (backend : ℕ)
  deriving DecidableEq, Repr

/-- What a process replays: its schedule, the backends that have a communicator id and its
collectives. -/
structure Replay where
  sh : Shim
  provision : Bool
  initialized : ℕ → Bool
  schedule : List ScheduleEntry
  colls : List Coll

namespace Replay

variable (R : Replay)

/-- The row that a collective triggers. -/
def lookup (ks : ℕ → Counters) (c : Coll) : Option (ℕ × ℕ) :=
  if schedulable R.sh c then
    scheduledTransition R.schedule c.iteration c.backendId (c.count R.sh (ks c.backendId))
  else none

/-- The backend of the target has a communicator id. Otherwise `send_scheduled_transition` throws. -/
def known (target : ℕ × ℕ) : Bool :=
  decide (target.1 % PP_BACKEND_INTERVAL < hexIdMapSize) &&
    R.initialized (target.1 % PP_BACKEND_INTERVAL)

/-- The counters of the issuing thread after some collectives. -/
def mainAfter (ks : ℕ → Counters) (cs : List Coll) : ℕ → Counters := cs.foldl (advanceMain R.sh) ks

/-- The requests of the rows that the collectives trigger, in their order. -/
def triggeredFrom : (ℕ → Counters) → List Coll → List (ℕ × ℕ)
  | _, [] => []
  | ks, c :: cs => ((R.lookup ks c).filter R.known).toList ++ triggeredFrom (advanceMain R.sh ks c) cs

/-- The requests that the first `n` collectives trigger. -/
def triggered (n : ℕ) : List (ℕ × ℕ) := R.triggeredFrom noCounters (R.colls.take n)

/-- The collectives that `post_coll` has attached a callback to, those of one backend. -/
def attached (s : KeyedReplay) (backend : ℕ) : List Coll :=
  (R.colls.take (if s.pc = .outside then s.entered else s.entered - 1)).filter fun c =>
    schedulable R.sh c && c.backendId == backend

end Replay

/-- The request a callback sends. -/
def Emitted.target? : Emitted → Option (ℕ × ℕ)
  | .request req => some (req.backend, req.counter)
  | _ => none

/-- One step of a process. -/
def replayStep (R : Replay) (s : KeyedReplay) (a : ReplayAction) : Option KeyedReplay :=
  if s.thrown then none else
  match a with
  | .enter =>
    if s.pc = .outside ∧ (R.provision = true → s.shared.topoReady = true) then
      R.colls[s.entered]?.bind fun c =>
        let s' := { s with main := advanceMain R.sh s.main c, entered := s.entered + 1 }
        match R.lookup s.main c with
        | none => some { s' with pc := .launching }
        | some target =>
          if R.provision then
            some { s' with
              shared := { s.shared with topoReady := false }
              preQueue := Function.update s.preQueue c.backendId
                (s.preQueue c.backendId ++ [target])
              pc := .launching }
          else if s.request = none then
            if R.known target then
              some { s' with
                request := some .issuing, pc := .waiting, sent := s.sent ++ [target] }
            else some { s' with pc := .waiting, thrown := true }
          else none
    else none
  | .launch => if s.pc = .launching then some { s with pc := .outside } else none
  | .pop b =>
    match s.request, s.preQueue b with
    | none, target :: targets =>
      let preQueue := Function.update s.preQueue b targets
      if R.known target then
        some { s with
          preQueue := preQueue, request := some (.queue b), sent := s.sent ++ [target] }
      else some { s with preQueue := preQueue, thrown := true }
    | _, _ => none
  | .ack =>
    match s.request with
    | some .issuing => some { s with request := none, pc := .launching }
    | some (.queue _) =>
      some { s with request := none, shared := { s.shared with topoReady := true } }
    | none => none
  | .post b =>
    if s.postWaiting b then none
    else
      (R.attached s b)[s.posted b]?.map fun c =>
        let r := postCollCallbackHelper (R.sh.keyed R.provision) s.shared c
        { s with
          shared := r.1
          posted := Function.update s.posted b (s.posted b + 1)
          postWaiting := Function.update s.postWaiting b r.2.target?.isSome
          sent := s.sent ++ r.2.target?.toList }
  | .postAck b =>
    if s.postWaiting b then
      some { s with postWaiting := Function.update s.postWaiting b false }
    else none

/-- Who waits for an acknowledgement: a thread that sends a scheduled request, or the callback of a
backend. -/
inductive Waiter where
  | scheduled (sender : Sender)
  | callback (backend : ℕ)
  deriving DecidableEq, Repr

/-- The request of the waiter has not been acknowledged. -/
def KeyedReplay.Waits (s : KeyedReplay) : Waiter → Prop
  | .scheduled sender => s.request = some sender
  | .callback b => s.postWaiting b = true

/-- Only requests of triggered rows have been sent, in the order of the triggers and all of them
unless a task is pending; and one request is waiting at most. -/
structure OnlyScheduled (R : Replay) (s : KeyedReplay) : Prop where
  ordered : s.sent <+: R.triggered s.entered
  complete : s.thrown = false → (∀ b, s.preQueue b = []) → s.sent = R.triggered s.entered
  single : ∀ w w', s.Waits w → s.Waits w' → w = w'

/-- In every interleaving, only scheduled requests are sent. -/
def Replay.Exact (R : Replay) : Prop :=
  ∀ s, Reaches (replayStep R) .initial s → OnlyScheduled R s

/-- The collective triggers a row whose target has no communicator id. -/
def Replay.ThrowsAt (R : Replay) (i : ℕ) : Prop :=
  ∃ c target, R.colls[i]? = some c ∧
    R.lookup (R.mainAfter noCounters (R.colls.take i)) c = some target ∧ R.known target = false

/-- The collective is a transfer whose callback runs. -/
def Replay.TransferAt (R : Replay) (i : ℕ) : Prop :=
  ∃ c, R.colls[i]? = some c ∧ schedulable R.sh c = true ∧ R.sh.isPpBackend c.backendId = true

variable {R : Replay} {s s' : KeyedReplay}

/-! ## Triggered requests -/

theorem Replay.triggeredFrom_append (ks : ℕ → Counters) (cs ds : List Coll) :
    R.triggeredFrom ks (cs ++ ds) =
      R.triggeredFrom ks cs ++ R.triggeredFrom (R.mainAfter ks cs) ds := by
  induction cs generalizing ks with
  | nil => rfl
  | cons c cs ih =>
    rw [List.cons_append, Replay.triggeredFrom, Replay.triggeredFrom, ih, List.append_assoc]
    rfl

theorem Replay.take_succ {n : ℕ} {c : Coll} (hc : R.colls[n]? = some c) :
    R.colls.take (n + 1) = R.colls.take n ++ [c] := by
  rw [List.take_add_one, hc]
  rfl

/-- The counters of the issuing thread before the `n`-th collective. -/
def Replay.mainAt (R : Replay) (n : ℕ) : ℕ → Counters := R.mainAfter noCounters (R.colls.take n)

theorem Replay.mainAt_succ {n : ℕ} {c : Coll} (hc : R.colls[n]? = some c) :
    R.mainAt (n + 1) = advanceMain R.sh (R.mainAt n) c := by
  rw [Replay.mainAt, Replay.take_succ hc, Replay.mainAfter, List.foldl_append]
  rfl

theorem Replay.triggered_succ {n : ℕ} {c : Coll} (hc : R.colls[n]? = some c) :
    R.triggered (n + 1) =
      R.triggered n ++ ((R.lookup (R.mainAt n) c).filter R.known).toList := by
  rw [Replay.triggered, Replay.take_succ hc, Replay.triggeredFrom_append]
  simp [Replay.triggeredFrom, Replay.triggered, Replay.mainAt]

/-! ## What a step can do -/

/-- The steps of a process, one constructor for each outcome. -/
inductive ReplayStep (R : Replay) (s : KeyedReplay) : KeyedReplay → Prop where
  | pass (c : Coll) (hpc : s.pc = .outside)
      (hready : R.provision = true → s.shared.topoReady = true)
      (hc : R.colls[s.entered]? = some c) (hrow : R.lookup s.main c = none) :
      ReplayStep R s { s with
        main := advanceMain R.sh s.main c, entered := s.entered + 1, pc := .launching }
  | enqueue (c : Coll) (target : ℕ × ℕ) (hmode : R.provision = true) (hpc : s.pc = .outside)
      (hready : s.shared.topoReady = true) (hc : R.colls[s.entered]? = some c)
      (hrow : R.lookup s.main c = some target) :
      ReplayStep R s { s with
        main := advanceMain R.sh s.main c, entered := s.entered + 1
        shared := { s.shared with topoReady := false }
        preQueue := Function.update s.preQueue c.backendId (s.preQueue c.backendId ++ [target])
        pc := .launching }
  | send (c : Coll) (target : ℕ × ℕ) (hmode : R.provision = false) (hpc : s.pc = .outside)
      (hc : R.colls[s.entered]? = some c) (hrow : R.lookup s.main c = some target)
      (hreq : s.request = none) (hknown : R.known target = true) :
      ReplayStep R s { s with
        main := advanceMain R.sh s.main c, entered := s.entered + 1
        request := some .issuing, pc := .waiting, sent := s.sent ++ [target] }
  | sendThrows (c : Coll) (target : ℕ × ℕ) (hmode : R.provision = false) (hpc : s.pc = .outside)
      (hc : R.colls[s.entered]? = some c) (hrow : R.lookup s.main c = some target)
      (hknown : R.known target = false) :
      ReplayStep R s { s with
        main := advanceMain R.sh s.main c, entered := s.entered + 1, pc := .waiting, thrown := true }
  | launch (hpc : s.pc = .launching) : ReplayStep R s { s with pc := .outside }
  | pop (b : ℕ) (target : ℕ × ℕ) (targets : List (ℕ × ℕ)) (hreq : s.request = none)
      (hqueue : s.preQueue b = target :: targets) (hknown : R.known target = true) :
      ReplayStep R s { s with
        preQueue := Function.update s.preQueue b targets
        request := some (.queue b), sent := s.sent ++ [target] }
  | popThrows (b : ℕ) (target : ℕ × ℕ) (targets : List (ℕ × ℕ)) (hreq : s.request = none)
      (hqueue : s.preQueue b = target :: targets) (hknown : R.known target = false) :
      ReplayStep R s { s with preQueue := Function.update s.preQueue b targets, thrown := true }
  | ackIssuing (hreq : s.request = some .issuing) :
      ReplayStep R s { s with request := none, pc := .launching }
  | ackQueue (b : ℕ) (hreq : s.request = some (.queue b)) :
      ReplayStep R s { s with request := none, shared := { s.shared with topoReady := true } }
  | post (b : ℕ) (c : Coll) (hwait : s.postWaiting b = false)
      (hc : (R.attached s b)[s.posted b]? = some c) :
      ReplayStep R s { s with
        shared := (postCollCallbackHelper (R.sh.keyed R.provision) s.shared c).1
        posted := Function.update s.posted b (s.posted b + 1)
        postWaiting := Function.update s.postWaiting b
          (postCollCallbackHelper (R.sh.keyed R.provision) s.shared c).2.target?.isSome
        sent := s.sent ++
          (postCollCallbackHelper (R.sh.keyed R.provision) s.shared c).2.target?.toList }
  | postAck (b : ℕ) (hwait : s.postWaiting b = true) :
      ReplayStep R s { s with postWaiting := Function.update s.postWaiting b false }

theorem replayStep_cases {a : ReplayAction} (h : replayStep R s a = some s') :
    s.thrown = false ∧ ReplayStep R s s' := by
  unfold replayStep at h
  split at h
  · cases h
  · rename_i hthrown
    refine ⟨by simpa using hthrown, ?_⟩
    cases a with
    | enter =>
      simp only [Option.ite_none_right_eq_some, Option.bind_eq_some_iff] at h
      obtain ⟨⟨hpc, hready⟩, c, hc, h⟩ := h
      cases hrow : R.lookup s.main c with
      | none =>
        rw [hrow] at h
        cases h
        exact .pass c hpc hready hc hrow
      | some target =>
        rw [hrow] at h
        cases hmode : R.provision with
        | true =>
          simp only [hmode, if_true] at h
          cases h
          exact .enqueue c target hmode hpc (hready hmode) hc hrow
        | false =>
          simp only [hmode, Bool.false_eq_true, if_false, Option.ite_none_right_eq_some] at h
          obtain ⟨hreq, h⟩ := h
          split at h
          · rename_i hknown
            cases h
            exact .send c target hmode hpc hc hrow hreq hknown
          · rename_i hknown
            cases h
            exact .sendThrows c target hmode hpc hc hrow (by simpa using hknown)
    | launch =>
      simp only [Option.ite_none_right_eq_some] at h
      obtain ⟨hpc, h⟩ := h
      cases h
      exact .launch hpc
    | pop b =>
      simp only at h
      split at h
      · rename_i target targets hreq hqueue
        split at h
        · rename_i hknown
          cases h
          exact .pop b target targets hreq hqueue hknown
        · rename_i hknown
          cases h
          exact .popThrows b target targets hreq hqueue (by simpa using hknown)
      · cases h
    | ack =>
      simp only at h
      split at h
      · rename_i hreq
        cases h
        exact .ackIssuing hreq
      · rename_i b hreq
        cases h
        exact .ackQueue b hreq
      · cases h
    | post b =>
      simp only at h
      split at h
      · cases h
      · rename_i hwait
        obtain ⟨c, hc, rfl⟩ := Option.map_eq_some_iff.mp h
        exact .post b c (by simpa using hwait) hc
    | postAck b =>
      simp only [Option.ite_none_right_eq_some] at h
      obtain ⟨hwait, h⟩ := h
      cases h
      exact .postAck b hwait

/-- Without a stage file, a callback leaves `topo_ready` alone. -/
theorem topoReady_postCollCallbackHelper (sh : Shim) (provision : Bool) (p : Process) (c : Coll) :
    (postCollCallbackHelper (sh.keyed provision) p c).1.topoReady = p.topoReady := by
  simp [postCollCallbackHelper, isCommChangeAfter, Shim.keyed]

/-- Without a stage file, a callback sends nothing unless it is that of a transfer in provision
mode. -/
theorem postCollCallbackHelper_nothing (sh : Shim) {provision : Bool} {c : Coll}
    (h : sh.isPpBackend c.backendId = true → provision = false) (p : Process) :
    (postCollCallbackHelper (sh.keyed provision) p c).2 = .nothing := by
  have hnot : ¬ ((sh.keyed provision).isPpBackend c.backendId = true ∧
      (sh.keyed provision).mode = .provision) := by
    rintro ⟨hpp, hmode⟩
    rw [Shim.keyed, h hpp] at hmode
    cases hmode
  simp [postCollCallbackHelper, isCommChangeAfter, Shim.keyed]
  simpa [Shim.keyed, Shim.isPpBackend] using hnot

/-- Without a stage file, the callback of a transfer requests the next transfer in provision mode. -/
theorem postCollCallbackHelper_request {sh : Shim} {c : Coll}
    (hpp : sh.isPpBackend c.backendId = true) (p : Process) :
    (postCollCallbackHelper (sh.keyed true) p c).2 =
      .request (topowrite (sh.keyed true) c.backendId
        (c.count (sh.keyed true) (p.post c.backendId) + 1)) := by
  have hkeyed : (sh.keyed true).isPpBackend c.backendId = true := hpp
  simp only [postCollCallbackHelper, isCommChangeAfter, hkeyed]
  rfl

theorem Waits.eq_of_quiet (hquiet : ∀ b, s.postWaiting b = false) {w w' : Waiter}
    (hw : s.Waits w) (hw' : s.Waits w') : w = w' := by
  cases w with
  | scheduled sender =>
    cases w' with
    | scheduled sender' => exact congrArg _ (Option.some.inj (hw.symm.trans hw'))
    | callback b => exact absurd hw' (by simp [KeyedReplay.Waits, hquiet])
  | callback b => exact absurd hw (by simp [KeyedReplay.Waits, hquiet])

/-! ## Baseline mode -/

/-- In baseline mode nothing is queued, no callback waits and the scheduled requests have been
sent. -/
structure BaselineReplay (R : Replay) (s : KeyedReplay) : Prop where
  main : s.main = R.mainAt s.entered
  quiet : ∀ b, s.postWaiting b = false
  queue : ∀ b, s.preQueue b = []
  sent : s.sent = R.triggered s.entered

theorem baselineReplay_step (hmode : R.provision = false) (s : KeyedReplay) (a : ReplayAction)
    (s' : KeyedReplay) (hs : BaselineReplay R s) (h : replayStep R s a = some s') :
    BaselineReplay R s' := by
  obtain ⟨-, hstep⟩ := replayStep_cases h
  cases hstep with
  | pass c hpc hready hc hrow =>
    rw [hs.main] at hrow
    refine ⟨?_, hs.quiet, hs.queue, ?_⟩
    · rw [R.mainAt_succ hc, ← hs.main]
    · simp [R.triggered_succ hc, hrow, hs.sent]
  | enqueue c target hmode' => simp [hmode] at hmode'
  | send c target hmode' hpc hc hrow hreq hknown =>
    rw [hs.main] at hrow
    refine ⟨?_, hs.quiet, hs.queue, ?_⟩
    · rw [R.mainAt_succ hc, ← hs.main]
    · simp [R.triggered_succ hc, hrow, hs.sent, Option.filter_some, hknown]
  | sendThrows c target hmode' hpc hc hrow hknown =>
    rw [hs.main] at hrow
    refine ⟨?_, hs.quiet, hs.queue, ?_⟩
    · rw [R.mainAt_succ hc, ← hs.main]
    · simp [R.triggered_succ hc, hrow, hs.sent, Option.filter_some, hknown]
  | launch hpc => exact ⟨hs.main, hs.quiet, hs.queue, hs.sent⟩
  | pop b target targets hreq hqueue => simp [hs.queue] at hqueue
  | popThrows b target targets hreq hqueue => simp [hs.queue] at hqueue
  | ackIssuing hreq => exact ⟨hs.main, hs.quiet, hs.queue, hs.sent⟩
  | ackQueue b hreq => exact ⟨hs.main, hs.quiet, hs.queue, hs.sent⟩
  | post b c hwait hc =>
    have hnothing := postCollCallbackHelper_nothing R.sh (c := c) (fun _ => hmode) s.shared
    refine ⟨hs.main, ?_, hs.queue, ?_⟩
    · intro b'
      by_cases hb : b' = b
      · simp [hb, hnothing, Emitted.target?]
      · simp [hb, hs.quiet]
    · simpa [hnothing, Emitted.target?] using hs.sent
  | postAck b hwait => simp [hs.quiet] at hwait

/-- **In baseline mode only scheduled requests are sent.** -/
theorem onlyScheduled_of_baseline (hmode : R.provision = false) : R.Exact := by
  intro s hreach
  have hs : BaselineReplay R s :=
    hreach.invariant (baselineReplay_step hmode) ⟨rfl, fun _ => rfl, fun _ => rfl, rfl⟩
  exact ⟨by rw [hs.sent], fun _ _ => hs.sent, fun _ _ => Waits.eq_of_quiet hs.quiet⟩

/-! ## Provision mode -/

/-- How far the latest triggered request has got in provision mode. -/
inductive ProvisionStage (R : Replay) (s : KeyedReplay) : Prop where
  /-- it has been acknowledged -/
  | ready (hready : s.shared.topoReady = true) (hqueue : ∀ b, s.preQueue b = [])
      (hreq : s.request = none) (hsent : s.sent = R.triggered s.entered)
      (hlive : ∀ j < s.entered, ¬ R.ThrowsAt j)
  /-- it is queued -/
  | queued (b : ℕ) (target : ℕ × ℕ) (hready : s.shared.topoReady = false)
      (hqueue : s.preQueue = Function.update (fun _ => []) b [target]) (hreq : s.request = none)
      (hsent : s.sent ++ [target].filter R.known = R.triggered s.entered)
      (hlive : R.known target = true → ∀ j < s.entered, ¬ R.ThrowsAt j)
  /-- it has been sent -/
  | sending (b : ℕ) (hready : s.shared.topoReady = false) (hqueue : ∀ b, s.preQueue b = [])
      (hreq : s.request = some (.queue b)) (hsent : s.sent = R.triggered s.entered)
      (hlive : ∀ j < s.entered, ¬ R.ThrowsAt j)
  /-- it has no communicator, and the process is gone -/
  | gone (hthrown : s.thrown = true) (hsent : s.sent = R.triggered s.entered)

/-- In provision mode no callback waits, and one request is under way at most. -/
structure ProvisionReplay (R : Replay) (s : KeyedReplay) : Prop where
  main : s.main = R.mainAt s.entered
  quiet : ∀ b, s.postWaiting b = false
  live : ∀ j, j + 1 < s.entered → ¬ R.ThrowsAt j
  stage : ProvisionStage R s

theorem ProvisionStage.ready_of (hs : ProvisionStage R s) (hready : s.shared.topoReady = true)
    (hthrown : s.thrown = false) :
    (∀ b, s.preQueue b = []) ∧ s.request = none ∧ s.sent = R.triggered s.entered ∧
      ∀ j < s.entered, ¬ R.ThrowsAt j := by
  cases hs with
  | ready _ hqueue hreq hsent hlive => exact ⟨hqueue, hreq, hsent, hlive⟩
  | queued b target hready' => simp [hready] at hready'
  | sending b hready' => simp [hready] at hready'
  | gone hthrown' => simp [hthrown] at hthrown'

theorem ProvisionStage.queued_of (hs : ProvisionStage R s) {b : ℕ} {target : ℕ × ℕ}
    {targets : List (ℕ × ℕ)} (hqueue : s.preQueue b = target :: targets)
    (hthrown : s.thrown = false) :
    s.shared.topoReady = false ∧ (∀ b', Function.update s.preQueue b targets b' = []) ∧
      s.sent ++ [target].filter R.known = R.triggered s.entered ∧
      (R.known target = true → ∀ j < s.entered, ¬ R.ThrowsAt j) := by
  cases hs with
  | ready _ hqueue' => simp [hqueue'] at hqueue
  | queued b' target' hready hqueue' hreq hsent hlive =>
    by_cases hb : b = b'
    · subst hb
      rw [hqueue', Function.update_self] at hqueue
      obtain ⟨rfl, rfl⟩ := List.cons.inj hqueue
      refine ⟨hready, fun b' => ?_, hsent, hlive⟩
      by_cases hb' : b' = b
      · simp [hb']
      · simp [hb', hqueue']
    · simp [hqueue', hb] at hqueue
  | sending b' _ hqueue' => simp [hqueue'] at hqueue
  | gone hthrown' => simp [hthrown] at hthrown'

/-- A step that concerns neither the requests nor the lookups. -/
theorem ProvisionStage.congr (hs : ProvisionStage R s)
    (hready : s'.shared.topoReady = s.shared.topoReady) (hqueue : s'.preQueue = s.preQueue)
    (hreq : s'.request = s.request) (hsent : s'.sent = s.sent) (hentered : s'.entered = s.entered)
    (hthrown : s'.thrown = s.thrown) : ProvisionStage R s' := by
  cases hs with
  | ready h₁ h₂ h₃ h₄ h₅ =>
    exact .ready (by rw [hready, h₁]) (by rwa [hqueue]) (by rw [hreq, h₃])
      (by rw [hsent, hentered, h₄]) (by rwa [hentered])
  | queued b target h₁ h₂ h₃ h₄ h₅ =>
    exact .queued b target (by rw [hready, h₁]) (by rw [hqueue, h₂]) (by rw [hreq, h₃])
      (by rw [hsent, hentered, h₄]) (by rwa [hentered])
  | sending b h₁ h₂ h₃ h₄ h₅ =>
    exact .sending b (by rw [hready, h₁]) (by rwa [hqueue]) (by rw [hreq, h₃])
      (by rw [hsent, hentered, h₄]) (by rwa [hentered])
  | gone h₁ h₂ => exact .gone (by rw [hthrown, h₁]) (by rw [hsent, hentered, h₂])

/-- The collectives launched in provision mode come before any exception. -/
theorem ProvisionReplay.transferAt_of_attached (hs : ProvisionReplay R s) {b i : ℕ} {c : Coll}
    (hc : (R.attached s b)[i]? = some c) (hpp : R.sh.isPpBackend c.backendId = true) :
    ∃ j, R.TransferAt j ∧ ∀ k < j, ¬ R.ThrowsAt k := by
  have hmem := List.mem_of_getElem? hc
  rw [Replay.attached, List.mem_filter, Bool.and_eq_true] at hmem
  obtain ⟨hmem, hsched, -⟩ := hmem
  obtain ⟨j, hj, hget⟩ := List.mem_take_iff_getElem.mp hmem
  refine ⟨j, ⟨c, ?_, hsched, hpp⟩, fun k hk => hs.live k ?_⟩
  · rw [← hget, List.getElem?_eq_getElem]
  · have hle : j < s.entered := by
      split at hj
      · omega
      · omega
    omega

theorem provisionReplay_step (hmode : R.provision = true)
    (hcond : ∀ i, R.TransferAt i → ∃ j < i, R.ThrowsAt j) (s : KeyedReplay) (a : ReplayAction)
    (s' : KeyedReplay) (hs : ProvisionReplay R s) (h : replayStep R s a = some s') :
    ProvisionReplay R s' := by
  obtain ⟨hthrown, hstep⟩ := replayStep_cases h
  cases hstep with
  | pass c hpc hready hc hrow =>
    obtain ⟨hqueue, hreq, hsent, hlive⟩ := hs.stage.ready_of (hready hmode) hthrown
    rw [hs.main] at hrow
    have hlive' : ∀ j < s.entered + 1, ¬ R.ThrowsAt j := by
      intro j hj
      rcases Nat.lt_succ_iff_lt_or_eq.mp hj with hj | rfl
      · exact hlive j hj
      · rintro ⟨c', target, hc', hrow', -⟩
        rw [Option.some.inj (hc.symm.trans hc')] at hrow
        exact absurd (hrow.symm.trans hrow') (by simp)
    refine ⟨?_, hs.quiet, fun j hj => hlive j (Nat.lt_of_succ_lt_succ hj), ?_⟩
    · rw [R.mainAt_succ hc, ← hs.main]
    · exact .ready (hready hmode) hqueue hreq (by simp [R.triggered_succ hc, hrow, hsent]) hlive'
  | enqueue c target hmode' hpc hready hc hrow =>
    obtain ⟨hqueue, hreq, hsent, hlive⟩ := hs.stage.ready_of hready hthrown
    rw [hs.main] at hrow
    refine ⟨?_, hs.quiet, fun j hj => hlive j (Nat.lt_of_succ_lt_succ hj), ?_⟩
    · rw [R.mainAt_succ hc, ← hs.main]
    · refine .queued c.backendId target rfl ?_ hreq ?_ ?_
      · funext b
        by_cases hb : b = c.backendId
        · simp [hb, hqueue]
        · simp [hb, hqueue]
      · rw [R.triggered_succ hc, hrow, hsent, Option.filter_some, List.filter_cons]
        split <;> rfl
      · intro hknown j hj
        rcases Nat.lt_succ_iff_lt_or_eq.mp hj with hj | rfl
        · exact hlive j hj
        · rintro ⟨c', target', hc', hrow', hknown'⟩
          rw [Option.some.inj (hc.symm.trans hc')] at hrow
          rw [Option.some.inj (hrow.symm.trans hrow'), hknown'] at hknown
          cases hknown
  | send c target hmode' => simp [hmode] at hmode'
  | sendThrows c target hmode' => simp [hmode] at hmode'
  | launch hpc =>
    exact ⟨hs.main, hs.quiet, hs.live, hs.stage.congr rfl rfl rfl rfl rfl rfl⟩
  | pop b target targets hreq hqueue hknown =>
    refine ⟨hs.main, hs.quiet, hs.live, ?_⟩
    obtain ⟨hready, hempty, hsent, hlive⟩ := hs.stage.queued_of hqueue hthrown
    refine .sending b hready hempty rfl ?_ (hlive hknown)
    rw [← hsent, List.filter_cons_of_pos hknown]
    rfl
  | popThrows b target targets hreq hqueue hknown =>
    refine ⟨hs.main, hs.quiet, hs.live, ?_⟩
    obtain ⟨-, -, hsent, -⟩ := hs.stage.queued_of hqueue hthrown
    refine .gone rfl ?_
    rw [← hsent, List.filter_cons_of_neg (by simp [hknown])]
    simp
  | ackIssuing hreq =>
    refine ⟨hs.main, hs.quiet, hs.live, ?_⟩
    cases hs.stage with
    | ready _ _ hreq' => simp [hreq] at hreq'
    | queued b target _ _ hreq' => simp [hreq] at hreq'
    | sending b _ _ hreq' => simp [hreq] at hreq'
    | gone hthrown' => simp [hthrown] at hthrown'
  | ackQueue b hreq =>
    refine ⟨hs.main, hs.quiet, hs.live, ?_⟩
    cases hs.stage with
    | ready _ _ hreq' => simp [hreq] at hreq'
    | queued b target _ _ hreq' => simp [hreq] at hreq'
    | sending b _ hqueue _ hsent hlive => exact .ready rfl hqueue rfl hsent hlive
    | gone hthrown' => simp [hthrown] at hthrown'
  | post b c hwait hc =>
    -- a transfer would have been launched although its process was gone
    have hnotpp : R.sh.isPpBackend c.backendId = true → R.provision = false := by
      intro hpp
      obtain ⟨i, htransfer, hlive⟩ := hs.transferAt_of_attached hc hpp
      obtain ⟨j, hj, hthrows⟩ := hcond i htransfer
      exact absurd hthrows (hlive j hj)
    have hnothing := postCollCallbackHelper_nothing R.sh hnotpp s.shared
    have hready := topoReady_postCollCallbackHelper R.sh R.provision s.shared c
    refine ⟨hs.main, ?_, hs.live, hs.stage.congr hready rfl rfl ?_ rfl rfl⟩
    · intro b'
      by_cases hb : b' = b
      · simp [hb, hnothing, Emitted.target?]
      · simp [hb, hs.quiet]
    · simp [hnothing, Emitted.target?]
  | postAck b hwait => simp [hs.quiet] at hwait

/-- **In provision mode only scheduled requests are sent**, as long as no transfer is launched. -/
theorem onlyScheduled_of_provision (hmode : R.provision = true)
    (hcond : ∀ i, R.TransferAt i → ∃ j < i, R.ThrowsAt j) : R.Exact := by
  intro s hreach
  have hs : ProvisionReplay R s := by
    apply hreach.invariant (provisionReplay_step hmode hcond)
    exact ⟨rfl, fun _ => rfl, fun _ h => absurd h (Nat.not_lt_zero _),
      .ready rfl (fun _ => rfl) rfl rfl fun _ h => absurd h (Nat.not_lt_zero _)⟩
  refine ⟨?_, fun hthrown hempty => ?_, fun _ _ => Waits.eq_of_quiet hs.quiet⟩
  · cases hs.stage with
    | ready _ _ _ hsent => rw [hsent]
    | queued b target _ _ _ hsent =>
      rw [← hsent]
      exact List.prefix_append _ _
    | sending b _ _ _ hsent => rw [hsent]
    | gone _ hsent => rw [hsent]
  · cases hs.stage with
    | ready _ _ _ hsent => exact hsent
    | queued b target _ hqueue =>
      have hb := hempty b
      simp [hqueue] at hb
    | sending b _ _ _ hsent => exact hsent
    | gone _ hsent => exact hsent

/-! ## The first transfer -/

/-- The process between two collectives: all requests have been acknowledged, and no callback has
run. -/
def KeyedReplay.idleAt (R : Replay) (n : ℕ) : KeyedReplay :=
  { KeyedReplay.initial with main := R.mainAt n, entered := n, sent := R.triggered n }

theorem known_of_not_throwsAt {i : ℕ} {c : Coll} {target : ℕ × ℕ} (hlive : ¬ R.ThrowsAt i)
    (hc : R.colls[i]? = some c) (hrow : R.lookup (R.mainAt i) c = some target) :
    R.known target = true := by
  by_contra hknown
  exact hlive ⟨c, target, hc, hrow, by simpa using hknown⟩

theorem reaches_idleAt (hmode : R.provision = true) {n : ℕ} (hn : n ≤ R.colls.length)
    (hlive : ∀ j < n, ¬ R.ThrowsAt j) : Reaches (replayStep R) .initial (.idleAt R n) := by
  induction n with
  | zero => exact Reaches.refl _
  | succ n ih =>
    have hprev := ih (Nat.le_of_succ_le hn) fun j hj => hlive j (Nat.lt_succ_of_lt hj)
    have hc : R.colls[n]? = some R.colls[n] := List.getElem?_eq_getElem hn
    refine hprev.trans ?_
    cases hrow : R.lookup (R.mainAt n) R.colls[n] with
    | none =>
      refine ⟨[.enter, .launch], ?_⟩
      simp [run_cons, replayStep, KeyedReplay.idleAt, KeyedReplay.initial, Process.initial, hc, hrow,
        R.mainAt_succ hc, R.triggered_succ hc]
    | some target =>
      have hknown := known_of_not_throwsAt (hlive n (Nat.lt_succ_self n)) hc hrow
      refine ⟨[.enter, .launch, .pop R.colls[n].backendId, .ack], ?_⟩
      simp [run_cons, replayStep, KeyedReplay.idleAt, KeyedReplay.initial, Process.initial, hc, hrow,
        R.mainAt_succ hc, R.triggered_succ hc, hmode, hknown, Option.filter_some]

/-- A collective can be launched before any callback runs, with all requests sent that can be. -/
theorem exists_launched (hmode : R.provision = true) {i : ℕ} {c : Coll}
    (hc : R.colls[i]? = some c) (hlive : ∀ j < i, ¬ R.ThrowsAt j) :
    ∃ s, Reaches (replayStep R) .initial s ∧ s.thrown = false ∧ s.pc = .outside ∧
      s.entered = i + 1 ∧ s.sent = R.triggered (i + 1) ∧ (∀ b, s.posted b = 0) ∧
      ∀ b, s.postWaiting b = false := by
  have hlt : i < R.colls.length := (List.getElem?_eq_some_iff.mp hc).1
  by_cases hthrows : R.ThrowsAt i
  · -- the task stays in its queue
    obtain ⟨c', target, hc', hrow, hknown⟩ := hthrows
    obtain rfl : c = c' := Option.some.inj (hc.symm.trans hc')
    have hidle := reaches_idleAt hmode (Nat.le_of_lt hlt) hlive
    let s : KeyedReplay :=
      { KeyedReplay.idleAt R i with
        shared := { Process.initial with topoReady := false }
        main := advanceMain R.sh (R.mainAt i) c
        entered := i + 1
        preQueue := Function.update (fun _ => []) c.backendId [target] }
    refine ⟨s, hidle.trans ⟨[.enter, .launch], ?_⟩, rfl, rfl, rfl, ?_, fun _ => rfl, fun _ => rfl⟩
    · have hrow' : R.lookup (R.mainAt i) c = some target := hrow
      simp [run_cons, replayStep, KeyedReplay.idleAt, KeyedReplay.initial, Process.initial, hc,
        hrow', hmode, s]
    · have hrow' : R.lookup (R.mainAt i) c = some target := hrow
      simp [R.triggered_succ hc, hrow', Option.filter_some, hknown, s, KeyedReplay.idleAt]
  · have hlive' : ∀ j < i + 1, ¬ R.ThrowsAt j := by
      intro j hj
      rcases Nat.lt_succ_iff_lt_or_eq.mp hj with hj | rfl
      · exact hlive j hj
      · exact hthrows
    exact ⟨.idleAt R (i + 1), reaches_idleAt hmode hlt hlive', rfl, rfl, rfl, rfl, fun _ => rfl,
      fun _ => rfl⟩

/-- The callback of the first transfer sends a request that no row triggers. -/
theorem not_exact_of_transferAt (hmode : R.provision = true) {i : ℕ} (htransfer : R.TransferAt i)
    (hfirst : ∀ j < i, ¬ R.TransferAt j) (hlive : ∀ j < i, ¬ R.ThrowsAt j) : ¬ R.Exact := by
  intro hexact
  obtain ⟨c, hc, hsched, hpp⟩ := htransfer
  obtain ⟨s, hreach, hthrown, hpc, hentered, hsent, hposted, hwait⟩ := exists_launched hmode hc hlive
  -- no other collective of the backend has a callback before it
  have hattached : (R.attached s c.backendId)[s.posted c.backendId]? = some c := by
    have hnone : (R.colls.take i).filter (fun c' => schedulable R.sh c' &&
        c'.backendId == c.backendId) = [] := by
      rw [List.filter_eq_nil_iff]
      intro c' hc'
      obtain ⟨j, hj, hget⟩ := List.mem_take_iff_getElem.mp hc'
      rw [Bool.and_eq_true, beq_iff_eq]
      rintro ⟨hsched', hb⟩
      have hjlt : j < R.colls.length := Nat.lt_of_lt_of_le hj (Nat.min_le_right _ _)
      refine hfirst j (Nat.lt_of_lt_of_le hj (Nat.min_le_left _ _)) ⟨c', ?_, hsched', hb ▸ hpp⟩
      rw [← hget]
      exact List.getElem?_eq_getElem hjlt
    rw [Replay.attached, if_pos hpc, hentered, R.take_succ hc, List.filter_append, hnone, hposted,
      List.filter_cons_of_pos (by simp [hsched])]
    rfl
  have hstep := hexact _ (hreach.tail (a := .post c.backendId) (by
    simp only [replayStep, hthrown, hwait, hattached, Option.map_some]
    rfl))
  have hone : (postCollCallbackHelper (R.sh.keyed R.provision) s.shared c).2.target?.toList.length =
      1 := by
    rw [hmode, postCollCallbackHelper_request hpp]
    rfl
  have hle := hstep.ordered.length_le
  rw [List.length_append, hone, hsent, hentered] at hle
  exact Nat.not_succ_le_self _ hle

/-- **Only scheduled requests are sent** exactly in baseline mode, or when every transfer comes after
a row that ends the process. -/
theorem onlyScheduled_iff (R : Replay) :
    R.Exact ↔ R.provision = false ∨ ∀ i, R.TransferAt i → ∃ j < i, R.ThrowsAt j := by
  constructor
  · intro hexact
    by_contra hnot
    simp only [not_or, not_forall, not_exists, not_and] at hnot
    obtain ⟨hmode, i, htransfer, hlive⟩ := hnot
    classical
    have hex : ∃ i, R.TransferAt i := ⟨i, htransfer⟩
    have hle : Nat.find hex ≤ i := Nat.find_min' hex htransfer
    exact not_exact_of_transferAt (by simpa using hmode) (Nat.find_spec hex)
      (fun j hj => Nat.find_min hex hj) (fun j hj => hlive j (Nat.lt_of_lt_of_le hj hle)) hexact
  · rintro (hmode | hcond)
    · exact onlyScheduled_of_baseline hmode
    · cases hmode : R.provision with
      | false => exact onlyScheduled_of_baseline hmode
      | true => exact onlyScheduled_of_provision hmode hcond

/-- A transfer in provision mode, with an empty schedule. -/
def transferReplay : Replay where
  sh := pipelineShim 0
  provision := true
  initialized := fun _ => true
  schedule := []
  colls := [⟨1, 1, .send 1⟩]

/-- The callback of the transfer sends the request `(11, 1000001)`, which is not in the schedule. -/
theorem not_exact_transferReplay : ¬ transferReplay.Exact := by
  intro hexact
  have hreach : Reaches (replayStep transferReplay) .initial _ :=
    ⟨[.enter, .launch, .post 1], rfl⟩
  have hsent : [(11, 1000001)] <+: transferReplay.triggered 1 := (hexact _ hreach).ordered
  exact absurd hsent (by decide)

end Opus
