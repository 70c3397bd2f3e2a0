import Mathlib.Data.Finset.Card
import Mathlib.Data.List.Infix
import Opus.Controller.Request
import Opus.Library.Run

/-!
# Complete rendezvous

Every rank of a job sends a list of requests, one after the other. Waiting for an acknowledgement
only delays the next request, so a rank may send its next request at any time here. When every
request is sent by exactly as many ranks as the controller waits for, no count is left behind: once
nothing can happen any more, every request has led to one reconfiguration.

## Main definitions

* `RendezvousSystem`, `rendezvousStep`: the ranks, their lines and the threads of the controller
* `WellMatched`: every request is sent by as many ranks as complete its group
* `GroupStage`, `AtStage`: how far the group of a request has got
* `Rendezvous`: the invariant
* `countAfter`: the count that requests leave which are handled one after the other

## Main results

* `rendezvous_step`: what every step preserves
* `terminal_complete`: when no step is possible any more, all counts are erased and every request
  has been reconfigured once
* `exists_terminal`, `exists_terminal_last`: the ranks can take turns, in any order
-/

namespace Opus

open Transition

/-! ## The system -/

/-- The controller, the requests the ranks have still to send, the lines in flight and the requests
whose topology has been sent to a rail worker. -/
structure RendezvousSystem where
  ctl : Controller
  unsent : ℕ → List ConfigReq
  toCtl : ℕ → List ConfigReq
  reconfigured : List ConfigReq

/-- The system before the first request, with the requests every rank is going to send. -/
def RendezvousSystem.initial (program : ℕ → List ConfigReq) (initialTopology : TopoId) :
    RendezvousSystem where
  ctl := .initial initialTopology
  unsent := program
  toCtl := fun _ => []
  reconfigured := []

/-- The steps of the system. -/
inductive RendezvousAction where
  /-- a rank sends its next request -/
  | send (r : ℕ)
  /-- the thread of a connection reads a line -/
  | accept (r : ℕ)
  /-- the thread of a connection takes its next step -/
  | advance (r : ℕ)
  /-- the thread of a connection reads the reply of the rail worker -/
  | reply (r : ℕ) (success : Bool)
  deriving DecidableEq, Repr

namespace RendezvousSystem

/-- The reconfigurations after a step of a thread: `reconfig` sends the topology id. -/
def reconfig (s : RendezvousSystem) (r : ℕ) : List ConfigReq :=
  match s.ctl.handler r with
  | .loaded req _ => req :: s.reconfigured
  | _ => s.reconfigured

/-- The requests of a rank that have not been counted. -/
def lines (s : RendezvousSystem) (r : ℕ) : List ConfigReq :=
  (s.ctl.handler r).line ++ s.toCtl r ++ s.unsent r

end RendezvousSystem

/-- One step of the system. -/
def rendezvousStep (reg : Registry) (s : RendezvousSystem) :
    RendezvousAction → Option RendezvousSystem
  | .send r =>
    match s.unsent r with
    | [] => none
    | req :: reqs =>
      some { s with
        unsent := Function.update s.unsent r reqs
        toCtl := Function.update s.toCtl r (s.toCtl r ++ [req]) }
  | .accept r =>
    match s.toCtl r with
    | [] => none
    | req :: reqs =>
      (s.ctl.accept r req).map fun ctl =>
        { s with ctl := ctl, toCtl := Function.update s.toCtl r reqs }
  | .advance r =>
    (s.ctl.advance reg r).map fun ctl => { s with ctl := ctl, reconfigured := s.reconfig r }
  | .reply r success => (s.ctl.reply reg r success).map fun ctl => { s with ctl := ctl }

/-! ## Groups -/

/-- Every request is sent by exactly as many ranks as complete its group, and its topology exists.
A communicator and a counter determine the request. -/
structure WellMatched (reg : Registry) (program : ℕ → List ConfigReq)
    (requesters : ConfigReq → Finset ℕ) : Prop where
  mem_iff : ∀ r q, r ∈ requesters q ↔ q ∈ program r
  nodup : ∀ r, (program r).Nodup
  key : ∀ r q, q ∈ program r → ∀ r' q', q' ∈ program r' →
    q.hexId = q'.hexId → q.counter = q'.counter → q = q'
  clients : ∀ r q, q ∈ program r → reg.clients q.hexId ≠ []
  arrive : ∀ r q, q ∈ program r → ∀ cnt,
    allArrive q.backend cnt (reg.clients q.hexId).length = true ↔ (requesters q).card ≤ cnt
  topo : ∀ r q, q ∈ program r → ∀ topoId message,
    determineRuntimeTopo topoId q.backend q.counter ≠ .error message

/-- How far the group of a request has got. -/
inductive GroupStage where
  /-- requests are still to be counted -/
  | collecting
  /-- a thread has counted the last request -/
  | complete (conn : ℕ)
  /-- a thread has erased the entry -/
  | working (conn : ℕ)
  /-- the topology has been sent to the rail worker -/
  | reconfigured
  deriving DecidableEq

/-- What a thread does for the group of a request: nothing, it has counted the last request
(`false`), or it has erased the entry (`true`). -/
def Handler.group? (size : ℕ) (q : ConfigReq) : Handler → Option Bool
  | .counted req cnt => if req = q ∧ size ≤ cnt then some false else none
  | .erased req | .determined req | .loaded req _ => if req = q then some true else none
  | _ => none

section Stages

variable (requesters : ConfigReq → Finset ℕ)

/-- The ranks whose request has not been counted. -/
def uncounted (q : ConfigReq) (s : RendezvousSystem) : Finset ℕ :=
  {r ∈ requesters q | q ∈ s.lines r}

/-- What a thread does for the group of a request. -/
def groupAt (q : ConfigReq) (s : RendezvousSystem) (conn : ℕ) : Option Bool :=
  (s.ctl.handler conn).group? (requesters q).card q

/-- The group of the request has got this far. -/
def AtStage (q : ConfigReq) (s : RendezvousSystem) : GroupStage → Prop
  | .collecting =>
    (uncounted requesters q s).Nonempty ∧
      s.ctl.readyCount q.hexId q.counter + (uncounted requesters q s).card =
        (requesters q).card ∧
      s.reconfigured.count q = 0 ∧ ∀ conn, groupAt requesters q s conn = none
  | .complete conn =>
    uncounted requesters q s = ∅ ∧ s.reconfigured.count q = 0 ∧
      groupAt requesters q s conn = some false ∧
      ∀ conn' ≠ conn, groupAt requesters q s conn' = none
  | .working conn =>
    uncounted requesters q s = ∅ ∧ s.ctl.readyCount q.hexId q.counter = 0 ∧
      s.reconfigured.count q = 0 ∧ groupAt requesters q s conn = some true ∧
      ∀ conn' ≠ conn, groupAt requesters q s conn' = none
  | .reconfigured =>
    uncounted requesters q s = ∅ ∧ s.ctl.readyCount q.hexId q.counter = 0 ∧
      s.reconfigured.count q = 1 ∧ ∀ conn, groupAt requesters q s conn = none

end Stages

variable {reg : Registry} {program : ℕ → List ConfigReq} {requesters : ConfigReq → Finset ℕ}
  {s s' : RendezvousSystem} {q : ConfigReq} {stage : GroupStage}

/-- A step that does not concern the group of the request. -/
theorem AtStage.congr (hs : AtStage requesters q s stage)
    (hlines : ∀ r, q ∈ s'.lines r ↔ q ∈ s.lines r)
    (hready : s'.ctl.readyCount q.hexId q.counter = s.ctl.readyCount q.hexId q.counter)
    (hcount : s'.reconfigured.count q = s.reconfigured.count q)
    (hgroup : ∀ conn, groupAt requesters q s' conn = groupAt requesters q s conn) :
    AtStage requesters q s' stage := by
  have huncounted : uncounted requesters q s' = uncounted requesters q s := by
    unfold uncounted
    exact Finset.filter_congr fun r _ => hlines r
  cases stage <;> simpa only [AtStage, huncounted, hready, hcount, hgroup] using hs

/-- The stage of a group for which a thread has counted the last request. -/
theorem AtStage.of_complete (hs : AtStage requesters q s stage) {conn : ℕ}
    (hgroup : groupAt requesters q s conn = some false) : stage = .complete conn := by
  cases stage with
  | collecting => simp [hs.2.2.2 conn] at hgroup
  | complete conn' =>
    by_contra hne
    have hconn : conn ≠ conn' := fun heq => hne (by rw [heq])
    simp [hs.2.2.2 conn hconn] at hgroup
  | working conn' =>
    by_cases hconn : conn = conn'
    · simp [hconn, hs.2.2.2.1] at hgroup
    · simp [hs.2.2.2.2 conn hconn] at hgroup
  | reconfigured => simp [hs.2.2.2 conn] at hgroup

/-- The stage of a group whose entry a thread has erased. -/
theorem AtStage.of_working (hs : AtStage requesters q s stage) {conn : ℕ}
    (hgroup : groupAt requesters q s conn = some true) : stage = .working conn := by
  cases stage with
  | collecting => simp [hs.2.2.2 conn] at hgroup
  | complete conn' =>
    by_cases hconn : conn = conn'
    · simp [hconn, hs.2.2.1] at hgroup
    · simp [hs.2.2.2 conn hconn] at hgroup
  | working conn' =>
    by_contra hne
    have hconn : conn ≠ conn' := fun heq => hne (by rw [heq])
    simp [hs.2.2.2.2 conn hconn] at hgroup
  | reconfigured => simp [hs.2.2.2 conn] at hgroup

/-- The stage of a group one of whose requests has not been counted. -/
theorem AtStage.of_uncounted (hs : AtStage requesters q s stage) {r : ℕ}
    (hr : r ∈ uncounted requesters q s) : stage = .collecting := by
  cases stage with
  | collecting => rfl
  | complete conn => simp [hs.1] at hr
  | working conn => simp [hs.1] at hr
  | reconfigured => simp [hs.1] at hr

/-! ## The invariant -/

/-- The lines of every rank are what remains of its requests, the threads work on requests of
their ranks, and every group has got to some stage. -/
structure Rendezvous (program : ℕ → List ConfigReq) (requesters : ConfigReq → Finset ℕ)
    (s : RendezvousSystem) : Prop where
  lines : ∀ r, s.lines r <:+ program r
  known : ∀ r q, (s.ctl.handler r).req? = some q → q ∈ program r
  alive : ∀ r message, s.ctl.handler r ≠ .thrown message
  stage : ∀ q, (requesters q).Nonempty → ∃ stage, AtStage requesters q s stage
  unknown : ∀ h c, (∀ r, ∀ q ∈ program r, ¬ (q.hexId = h ∧ q.counter = c)) →
    s.ctl.readyCount h c = 0
  logged : ∀ q ∈ s.reconfigured, (requesters q).Nonempty

theorem rendezvous_initial (hw : WellMatched reg program requesters) (t0 : TopoId) :
    Rendezvous program requesters (.initial program t0) where
  lines := fun r => by simp [RendezvousSystem.lines, RendezvousSystem.initial, Controller.initial,
    Handler.line]
  known := fun _ _ h => by cases h
  alive := fun _ _ h => by cases h
  stage := by
    intro q hq
    have hall : uncounted requesters q (.initial program t0) = requesters q := by
      unfold uncounted
      refine Finset.filter_true_of_mem fun r hr => ?_
      exact (hw.mem_iff r q).mp hr
    refine ⟨.collecting, ?_, ?_, rfl, fun _ => rfl⟩
    · rw [hall]
      exact hq
    · rw [hall]
      exact Nat.zero_add _
  unknown := fun _ _ _ => rfl
  logged := fun _ h => by cases h

theorem Handler.req?_of_mem_line {pc : Handler} (hq : q ∈ pc.line) : pc.req? = some q := by
  cases pc <;> simp_all [Handler.line, Handler.req?]

theorem Handler.group?_eq_none {pc : Handler} {size : ℕ} (hq : pc.req? ≠ some q) :
    pc.group? size q = none := by
  cases pc <;> simp_all [Handler.group?, Handler.req?]

/-- A thread takes a step for the request it is handling. -/
theorem Rendezvous.thread (hs : Rendezvous program requesters s) {conn : ℕ} {q₀ : ConfigReq}
    {pc : Handler} (hreq : (s.ctl.handler conn).req? = some q₀)
    (hhandler : s'.ctl.handler = Function.update s.ctl.handler conn pc)
    (htoCtl : s'.toCtl = s.toCtl) (hunsent : s'.unsent = s.unsent)
    (hline : pc.line = (s.ctl.handler conn).line ∨ pc.line = [])
    (hpc : ∀ q, pc.req? = some q → q = q₀) (halive : ∀ message, pc ≠ .thrown message)
    (hready : ∀ h c, ¬ (q₀.hexId = h ∧ q₀.counter = c) →
      s'.ctl.readyCount h c = s.ctl.readyCount h c)
    (hkey : ∀ q, (requesters q).Nonempty → q.hexId = q₀.hexId → q.counter = q₀.counter → q = q₀)
    (hlog : s'.reconfigured = s.reconfigured ∨ s'.reconfigured = q₀ :: s.reconfigured)
    (hne : (requesters q₀).Nonempty) (hstage : ∃ stage, AtStage requesters q₀ s' stage) :
    Rendezvous program requesters s' := by
  have hself : s'.ctl.handler conn = pc := by rw [hhandler, Function.update_self]
  have hother : ∀ r ≠ conn, s'.ctl.handler r = s.ctl.handler r := fun r hr => by
    rw [hhandler, Function.update_of_ne hr]
  have hlines : ∀ r, s'.lines r = s.lines r ∨ r = conn ∧ s.lines r = (s.ctl.handler r).line ++
      s'.lines r := by
    intro r
    unfold RendezvousSystem.lines
    by_cases hr : r = conn
    · subst hr
      rw [hself, htoCtl, hunsent]
      rcases hline with hline | hline
      · exact .inl (by rw [hline])
      · exact .inr ⟨rfl, by simp [hline]⟩
    · exact .inl (by rw [hother r hr, htoCtl, hunsent])
  refine ⟨fun r => ?_, fun r q hq => ?_, fun r message => ?_, fun q hq => ?_,
    fun h c hunknown => ?_, fun q hq => ?_⟩
  · rcases hlines r with heq | ⟨-, heq⟩
    · rw [heq]
      exact hs.lines r
    · exact (List.suffix_append _ _).trans (heq ▸ hs.lines r)
  · by_cases hr : r = conn
    · subst hr
      rw [hself] at hq
      rw [hpc q hq]
      exact hs.known r q₀ hreq
    · rw [hother r hr] at hq
      exact hs.known r q hq
  · by_cases hr : r = conn
    · rw [hr, hself]
      exact halive message
    · rw [hother r hr]
      exact hs.alive r message
  · by_cases hq₀ : q = q₀
    · rw [hq₀]
      exact hstage
    · obtain ⟨stage, hst⟩ := hs.stage q hq
      refine ⟨stage, hst.congr (fun r => ?_) ?_ ?_ fun r => ?_⟩
      · rcases hlines r with heq | ⟨rfl, heq⟩
        · rw [heq]
        · -- the counted line is not the request
          have hnot : q ∉ (s.ctl.handler r).line := fun hmem =>
            hq₀ (Option.some.inj ((Handler.req?_of_mem_line hmem).symm.trans hreq))
          rw [heq, List.mem_append]
          exact ⟨.inr, fun hmem => hmem.resolve_left hnot⟩
      · exact hready _ _ fun hk => hq₀ (hkey q hq hk.1.symm hk.2.symm)
      · rcases hlog with hlog | hlog
        · rw [hlog]
        · rw [hlog, List.count_cons_of_ne (Ne.symm hq₀)]
      · unfold groupAt
        by_cases hr : r = conn
        · subst hr
          rw [hself, Handler.group?_eq_none fun hq' => hq₀ (hpc q hq'),
            Handler.group?_eq_none fun hq' => hq₀ (Option.some.inj (hq'.symm.trans hreq))]
        · rw [hother r hr]
  · have hrequest := hs.known conn q₀ hreq
    rw [hready h c (hunknown conn q₀ hrequest)]
    exact hs.unknown h c hunknown
  · rcases hlog with hlog | hlog
    · exact hs.logged q (hlog ▸ hq)
    · rw [hlog, List.mem_cons] at hq
      rcases hq with rfl | hq
      · exact hne
      · exact hs.logged q hq

/-- A step that only moves lines. -/
theorem Rendezvous.of_lines (hs : Rendezvous program requesters s) (hctl : s'.ctl = s.ctl)
    (hlog : s'.reconfigured = s.reconfigured) (hlines : ∀ r, s'.lines r = s.lines r) :
    Rendezvous program requesters s' := by
  refine ⟨fun r => ?_, fun r q hq => ?_, fun r message => ?_, fun q hq => ?_,
    fun h c hunknown => ?_, fun q hq => ?_⟩
  · rw [hlines]
    exact hs.lines r
  · exact hs.known r q (hctl ▸ hq)
  · rw [hctl]
    exact hs.alive r message
  · obtain ⟨stage, hst⟩ := hs.stage q hq
    refine ⟨stage, hst.congr (fun r => by rw [hlines]) (by rw [hctl]) (by rw [hlog]) fun r => ?_⟩
    rw [groupAt, hctl, groupAt]
  · rw [hctl]
    exact hs.unknown h c hunknown
  · exact hs.logged q (hlog ▸ hq)

/-- A thread reads a line. -/
theorem Rendezvous.accept (hs : Rendezvous program requesters s) {r : ℕ} {req : ConfigReq}
    {reqs : List ConfigReq} (hpc : s.ctl.handler r = .idle) (hto : s.toCtl r = req :: reqs)
    (hreq : req ∈ program r) :
    Rendezvous program requesters { s with
      ctl := s.ctl.at r (.received req)
      toCtl := Function.update s.toCtl r reqs } := by
  have hother : ∀ r' ≠ r, (s.ctl.at r (.received req)).handler r' = s.ctl.handler r' :=
    fun r' hr => Controller.at_handler_of_ne _ _ _ hr
  have hlines : ∀ r', ({ s with
      ctl := s.ctl.at r (.received req)
      toCtl := Function.update s.toCtl r reqs } : RendezvousSystem).lines r' = s.lines r' := by
    intro r'
    by_cases hr : r' = r
    · subst hr
      simp [RendezvousSystem.lines, hpc, hto, Handler.line]
    · simp [RendezvousSystem.lines, hother r' hr, hr]
  refine ⟨fun r' => ?_, fun r' q hq => ?_, fun r' message => ?_, fun q hq => ?_, hs.unknown,
    hs.logged⟩
  · rw [hlines]
    exact hs.lines r'
  · by_cases hr : r' = r
    · subst hr
      rw [Controller.at_handler_self] at hq
      cases hq
      exact hreq
    · rw [hother r' hr] at hq
      exact hs.known r' q hq
  · by_cases hr : r' = r
    · simp [hr]
    · rw [hother r' hr]
      exact hs.alive r' message
  · obtain ⟨stage, hst⟩ := hs.stage q hq
    refine ⟨stage, hst.congr (fun r' => by rw [hlines]) rfl rfl fun r' => ?_⟩
    by_cases hr : r' = r
    · subst hr
      rw [groupAt, Controller.at_handler_self, groupAt, hpc]
      rfl
    · rw [groupAt, hother r' hr, groupAt]

/-- A step of a thread that leaves the group of its request where it is. -/
theorem Rendezvous.thread_quiet (hw : WellMatched reg program requesters)
    (hs : Rendezvous program requesters s) {conn : ℕ} {q₀ : ConfigReq} {pc : Handler}
    (hreq : (s.ctl.handler conn).req? = some q₀)
    (hhandler : s'.ctl.handler = Function.update s.ctl.handler conn pc)
    (htoCtl : s'.toCtl = s.toCtl) (hunsent : s'.unsent = s.unsent)
    (hline : pc.line = (s.ctl.handler conn).line)
    (hpc : ∀ q, pc.req? = some q → q = q₀) (halive : ∀ message, pc ≠ .thrown message)
    (hready : s'.ctl.readyCount = s.ctl.readyCount)
    (hlog : s'.reconfigured = s.reconfigured)
    (hgroup : pc.group? (requesters q₀).card q₀ =
      (s.ctl.handler conn).group? (requesters q₀).card q₀) :
    Rendezvous program requesters s' := by
  have hrequest := hs.known conn q₀ hreq
  have hne : (requesters q₀).Nonempty := ⟨conn, (hw.mem_iff conn q₀).mpr hrequest⟩
  refine hs.thread hreq hhandler htoCtl hunsent (.inl hline) hpc halive
    (fun h c _ => by rw [hready]) (fun q hq hh hc => ?_) (.inl hlog) hne ?_
  · obtain ⟨r, hr⟩ := hq
    exact hw.key r q ((hw.mem_iff r q).mp hr) conn q₀ hrequest hh hc
  · obtain ⟨stage, hst⟩ := hs.stage q₀ hne
    refine ⟨stage, hst.congr (fun r => ?_) (by rw [hready]) (by rw [hlog]) fun r => ?_⟩
    · unfold RendezvousSystem.lines
      by_cases hr : r = conn
      · rw [hr, hhandler, Function.update_self, hline, htoCtl, hunsent]
      · rw [hhandler, Function.update_of_ne hr, htoCtl, hunsent]
    · unfold groupAt
      by_cases hr : r = conn
      · rw [hr, hhandler, Function.update_self, hgroup]
      · rw [hhandler, Function.update_of_ne hr]

/-! ## Steps -/

/-- Two ranks request the same thing under one communicator and counter. -/
theorem WellMatched.eq_of_key (hw : WellMatched reg program requesters) {r : ℕ} {q₀ : ConfigReq}
    (hq₀ : q₀ ∈ program r) (q : ConfigReq) (hq : (requesters q).Nonempty)
    (hh : q.hexId = q₀.hexId) (hc : q.counter = q₀.counter) : q = q₀ := by
  obtain ⟨r', hr'⟩ := hq
  exact hw.key r' q ((hw.mem_iff r' q).mp hr') r q₀ hq₀ hh hc

/-- A thread counts a request. -/
theorem Rendezvous.count (hw : WellMatched reg program requesters)
    (hs : Rendezvous program requesters s) {conn : ℕ} {req : ConfigReq}
    (hpc : s.ctl.handler conn = .received req) :
    Rendezvous program requesters { s with
      ctl := (s.ctl.withReady req (s.ctl.readyCount req.hexId req.counter + 1)).at conn
        (.counted req (s.ctl.readyCount req.hexId req.counter + 1)) } := by
  have hrequest : req ∈ program conn := hs.known conn req (by rw [hpc]; rfl)
  have hmem : conn ∈ requesters req := (hw.mem_iff conn req).mpr hrequest
  have hcons : s.lines conn = req :: (s.toCtl conn ++ s.unsent conn) := by
    simp [RendezvousSystem.lines, hpc, Handler.line]
  set s' : RendezvousSystem := { s with
    ctl := (s.ctl.withReady req (s.ctl.readyCount req.hexId req.counter + 1)).at conn
      (.counted req (s.ctl.readyCount req.hexId req.counter + 1)) } with hs'
  have hother : ∀ r ≠ conn, s'.ctl.handler r = s.ctl.handler r := fun r hr =>
    Controller.at_handler_of_ne _ _ _ hr
  have hself : s'.ctl.handler conn =
      .counted req (s.ctl.readyCount req.hexId req.counter + 1) := Controller.at_handler_self ..
  -- the request of the connection is counted, those of the other ranks stay as they are
  have huncounted : uncounted requesters req s' = (uncounted requesters req s).erase conn := by
    ext r
    by_cases hr : r = conn
    · subst hr
      have hnodup : (s.lines r).Nodup := (hs.lines r).sublist.nodup (hw.nodup r)
      rw [hcons, List.nodup_cons] at hnodup
      have hlines : s'.lines r = s.toCtl r ++ s.unsent r := by
        simp [RendezvousSystem.lines, Handler.line, hs']
      simp [uncounted, hlines, hnodup.1]
    · have hlines : s'.lines r = s.lines r := by
        rw [RendezvousSystem.lines, hother r hr, RendezvousSystem.lines]
      simp [uncounted, hlines, hr]
  have hconn : conn ∈ uncounted requesters req s := by
    simp [uncounted, hmem, hcons]
  have hready : s'.ctl.readyCount req.hexId req.counter =
      s.ctl.readyCount req.hexId req.counter + 1 := Controller.withReady_readyCount_self ..
  refine hs.thread (by rw [hpc]; rfl) rfl rfl rfl (.inr rfl)
    (fun q hq => (Option.some.inj hq).symm) (by simp) ?_ (hw.eq_of_key hrequest) (.inl rfl)
    ⟨conn, hmem⟩ ?_
  · intro h c hne
    exact Controller.withReady_readyCount_of_ne _ _ _ fun heq => hne ⟨by simp_all, by simp_all⟩
  · obtain ⟨stage, hst⟩ := hs.stage req ⟨conn, hmem⟩
    obtain rfl := hst.of_uncounted hconn
    obtain ⟨-, hsum, hlog, hgroup⟩ := hst
    have hcard := Finset.card_erase_add_one hconn
    have hnone : ∀ r ≠ conn, groupAt requesters req s' r = none := fun r hr => by
      rw [groupAt, hother r hr]
      exact hgroup r
    by_cases hlast : (uncounted requesters req s').Nonempty
    · have hpos := hlast.card_pos
      rw [huncounted] at hpos
      refine ⟨.collecting, hlast, ?_, hlog, fun r => ?_⟩
      · rw [hready, huncounted]
        omega
      · by_cases hr : r = conn
        · rw [hr, groupAt, hself, Handler.group?, if_neg]
          omega
        · exact hnone r hr
    · rw [Finset.not_nonempty_iff_eq_empty] at hlast
      have hzero : ((uncounted requesters req s).erase conn).card = 0 := by
        rw [← huncounted, hlast, Finset.card_empty]
      refine ⟨.complete conn, hlast, hlog, ?_, hnone⟩
      rw [groupAt, hself, Handler.group?, if_pos ⟨rfl, by omega⟩]

/-- A thread erases the entry of a complete group. -/
theorem Rendezvous.erase (hw : WellMatched reg program requesters)
    (hs : Rendezvous program requesters s) {conn cnt : ℕ} {req : ConfigReq}
    (hpc : s.ctl.handler conn = .counted req cnt)
    (hall : allArrive req.backend cnt (reg.clients req.hexId).length = true) :
    Rendezvous program requesters
      { s with ctl := (s.ctl.withReady req 0).at conn (.erased req) } := by
  have hrequest : req ∈ program conn := hs.known conn req (by rw [hpc]; rfl)
  have hmem : conn ∈ requesters req := (hw.mem_iff conn req).mpr hrequest
  have hle : (requesters req).card ≤ cnt := (hw.arrive conn req hrequest cnt).mp hall
  refine hs.thread (by rw [hpc]; rfl) rfl rfl rfl (.inr rfl)
    (fun q hq => (Option.some.inj hq).symm) (by simp) ?_ (hw.eq_of_key hrequest) (.inl rfl)
    ⟨conn, hmem⟩ ?_
  · intro h c hne
    exact Controller.withReady_readyCount_of_ne _ _ _ fun heq => hne ⟨by simp_all, by simp_all⟩
  · obtain ⟨stage, hst⟩ := hs.stage req ⟨conn, hmem⟩
    obtain rfl := hst.of_complete (by
      rw [groupAt, hpc, Handler.group?, if_pos ⟨rfl, hle⟩])
    obtain ⟨hempty, hlog, -, hnone⟩ := hst
    refine ⟨.working conn, ?_, Controller.withReady_readyCount_self .., hlog, ?_, fun r hr => ?_⟩
    · rw [← hempty]
      unfold uncounted RendezvousSystem.lines
      refine Finset.filter_congr fun r _ => ?_
      by_cases hr : r = conn
      · simp [hr, hpc, Handler.line]
      · rw [Controller.at_handler_of_ne _ _ _ hr]
        rfl
    · rw [groupAt, Controller.at_handler_self, Handler.group?, if_pos rfl]
    · rw [groupAt, Controller.at_handler_of_ne _ _ _ hr]
      exact hnone r hr

/-- A thread sends the topology of a complete group to the rail worker. -/
theorem Rendezvous.send (hw : WellMatched reg program requesters)
    (hs : Rendezvous program requesters s) {conn : ℕ} {req : ConfigReq} {topoId : TopoId}
    (hpc : s.ctl.handler conn = .loaded req topoId) :
    Rendezvous program requesters { s with
      ctl := s.ctl.at conn (.sent req topoId)
      reconfigured := req :: s.reconfigured } := by
  have hrequest : req ∈ program conn := hs.known conn req (by rw [hpc]; rfl)
  have hmem : conn ∈ requesters req := (hw.mem_iff conn req).mpr hrequest
  refine hs.thread (by rw [hpc]; rfl) rfl rfl rfl (.inr rfl)
    (fun q hq => (Option.some.inj hq).symm) (by simp) (fun _ _ _ => rfl) (hw.eq_of_key hrequest)
    (.inr rfl) ⟨conn, hmem⟩ ?_
  obtain ⟨stage, hst⟩ := hs.stage req ⟨conn, hmem⟩
  obtain rfl := hst.of_working (by
    rw [groupAt, hpc, Handler.group?, if_pos rfl])
  obtain ⟨hempty, hready, hlog, -, hnone⟩ := hst
  refine ⟨.reconfigured, ?_, hready, ?_, fun r => ?_⟩
  · rw [← hempty]
    unfold uncounted RendezvousSystem.lines
    refine Finset.filter_congr fun r _ => ?_
    by_cases hr : r = conn
    · simp [hr, hpc, Handler.line]
    · rw [Controller.at_handler_of_ne _ _ _ hr]
  · rw [List.count_cons_self, hlog]
  · by_cases hr : r = conn
    · rw [hr, groupAt, Controller.at_handler_self]
      rfl
    · rw [groupAt, Controller.at_handler_of_ne _ _ _ hr]
      exact hnone r hr

/-- A step of a thread. -/
theorem Rendezvous.advance (hw : WellMatched reg program requesters)
    (hs : Rendezvous program requesters s) {conn : ℕ} {ctl : Controller}
    (hctl : s.ctl.advance reg conn = some ctl) :
    Rendezvous program requesters { s with ctl := ctl, reconfigured := s.reconfig conn } := by
  have hsame : (∀ req topoId, s.ctl.handler conn ≠ .loaded req topoId) →
      s.reconfig conn = s.reconfigured := by
    intro hne
    unfold RendezvousSystem.reconfig
    split
    · rename_i hpc
      exact absurd hpc (hne _ _)
    · rfl
  cases Controller.advance_cases hctl with
  | unknown req hpc hclients =>
    -- every request has clients, so the thread does not throw here
    have hrequest : req ∈ program conn := hs.known conn req (by rw [hpc]; rfl)
    exact absurd hclients (hw.clients conn req hrequest)
  | count req hpc hclients =>
    rw [hsame (by simp [hpc])]
    exact hs.count hw hpc
  | erase req cnt hpc hall =>
    rw [hsame (by simp [hpc])]
    exact hs.erase hw hpc hall
  | incomplete req cnt hpc hall =>
    rw [hsame (by simp [hpc])]
    have hrequest : req ∈ program conn := hs.known conn req (by rw [hpc]; rfl)
    have hlt : ¬ (requesters req).card ≤ cnt := fun hle => by
      rw [(hw.arrive conn req hrequest cnt).mpr hle] at hall
      cases hall
    refine hs.thread_quiet hw (by rw [hpc]; rfl) rfl rfl rfl (by rw [hpc]; rfl)
      (fun q hq => by cases hq) (by simp) rfl rfl ?_
    rw [hpc, Handler.group?, if_neg fun h => hlt h.2]
    rfl
  | throw req message hpc hdet =>
    have hrequest : req ∈ program conn := hs.known conn req (by rw [hpc]; rfl)
    exact absurd hdet (hw.topo conn req hrequest _ message)
  | determine req topoId hpc hdet =>
    rw [hsame (by simp [hpc])]
    exact hs.thread_quiet hw (by rw [hpc]; rfl) rfl rfl rfl (by rw [hpc]; rfl)
      (fun q hq => (Option.some.inj hq).symm) (by simp) rfl rfl (by rw [hpc]; rfl)
  | load req hpc =>
    rw [hsame (by simp [hpc])]
    exact hs.thread_quiet hw (by rw [hpc]; rfl) rfl rfl rfl (by rw [hpc]; rfl)
      (fun q hq => (Option.some.inj hq).symm) (by simp) rfl rfl (by rw [hpc]; rfl)
  | send req topoId hpc =>
    have hlog : s.reconfig conn = req :: s.reconfigured := by
      rw [RendezvousSystem.reconfig, hpc]
    rw [hlog]
    exact hs.send hw hpc
  | ack req client clients hpc =>
    rw [hsame (by simp [hpc])]
    exact hs.thread_quiet hw (by rw [hpc]; rfl) rfl rfl rfl (by rw [hpc]; rfl)
      (fun q hq => (Option.some.inj hq).symm) (by simp) rfl rfl (by rw [hpc]; rfl)
  | finish req hpc =>
    rw [hsame (by simp [hpc])]
    exact hs.thread_quiet hw (by rw [hpc]; rfl) rfl rfl rfl (by rw [hpc]; rfl)
      (fun q hq => by cases hq) (by simp) rfl rfl (by rw [hpc]; rfl)

/-- **Every step keeps the groups at some stage.** -/
theorem rendezvous_step (hw : WellMatched reg program requesters) (s : RendezvousSystem)
    (a : RendezvousAction) (s' : RendezvousSystem) (hs : Rendezvous program requesters s)
    (hstep : rendezvousStep reg s a = some s') : Rendezvous program requesters s' := by
  cases a with
  | send r =>
    simp only [rendezvousStep] at hstep
    split at hstep
    · cases hstep
    · rename_i req reqs hunsent
      cases hstep
      exact hs.of_lines rfl rfl fun r' => by
        by_cases hr : r' = r
        · subst hr
          simp [RendezvousSystem.lines, hunsent]
        · simp [RendezvousSystem.lines, hr]
  | accept r =>
    simp only [rendezvousStep] at hstep
    split at hstep
    · cases hstep
    · rename_i req reqs hto
      obtain ⟨ctl, hctl, rfl⟩ := Option.map_eq_some_iff.mp hstep
      obtain ⟨hpc, rfl⟩ := Controller.accept_cases hctl
      have hmem : req ∈ s.lines r := by simp [RendezvousSystem.lines, hto]
      exact hs.accept hpc hto ((hs.lines r).subset hmem)
  | advance r =>
    obtain ⟨ctl, hctl, rfl⟩ := Option.map_eq_some_iff.mp hstep
    exact hs.advance hw hctl
  | reply r success =>
    obtain ⟨ctl, hctl, rfl⟩ := Option.map_eq_some_iff.mp hstep
    obtain ⟨req, topoId, hpc, rfl⟩ := Controller.reply_cases hctl
    cases success with
    | false =>
      exact hs.thread_quiet hw (by rw [hpc]; rfl) rfl rfl rfl (by rw [hpc]; rfl)
        (fun q hq => by cases hq) (by simp) rfl rfl (by rw [hpc]; rfl)
    | true =>
      exact hs.thread_quiet hw (by rw [hpc]; rfl) rfl rfl rfl (by rw [hpc]; rfl)
        (fun q hq => (Option.some.inj hq).symm) (by simp) rfl rfl (by rw [hpc]; rfl)

/-! ## The end of a run -/

/-- No step is possible any more. -/
def Terminal (reg : Registry) (s : RendezvousSystem) : Prop :=
  ∀ a, rendezvousStep reg s a = none

/-- A thread that has not thrown can take a step, unless it is idle. -/
theorem Terminal.idle (ht : Terminal reg s) {conn : ℕ}
    (halive : ∀ message, s.ctl.handler conn ≠ .thrown message) :
    s.ctl.handler conn = .idle := by
  have hadvance : s.ctl.advance reg conn = none := by
    simpa [rendezvousStep] using ht (.advance conn)
  have hreply : s.ctl.reply reg conn true = none := by
    simpa [rendezvousStep] using ht (.reply conn true)
  cases hpc : s.ctl.handler conn with
  | idle => rfl
  | received req =>
    simp only [Controller.advance, hpc] at hadvance
    split at hadvance <;> cases hadvance
  | counted req cnt =>
    simp only [Controller.advance, hpc] at hadvance
    split at hadvance <;> cases hadvance
  | erased req =>
    simp only [Controller.advance, hpc] at hadvance
    split at hadvance <;> cases hadvance
  | determined req => simp [Controller.advance, hpc] at hadvance
  | loaded req topoId => simp [Controller.advance, hpc] at hadvance
  | sent req topoId => simp [Controller.reply, hpc] at hreply
  | acking req clients => cases clients <;> simp [Controller.advance, hpc] at hadvance
  | thrown message => exact absurd hpc (halive message)

/-- At the end every line has been handled. -/
theorem Terminal.lines (ht : Terminal reg s) {r : ℕ} (hidle : s.ctl.handler r = .idle) :
    s.lines r = [] := by
  have hunsent : s.unsent r = [] := by
    have hsend := ht (.send r)
    cases hu : s.unsent r with
    | nil => rfl
    | cons req reqs => simp [rendezvousStep, hu] at hsend
  have hto : s.toCtl r = [] := by
    have haccept := ht (.accept r)
    cases hto : s.toCtl r with
    | nil => rfl
    | cons req reqs => simp [rendezvousStep, hto, Controller.accept, hidle] at haccept
  simp [RendezvousSystem.lines, hidle, Handler.line, hunsent, hto]

/-- When every line has been handled, the run has come to its end. -/
theorem terminal_of_handled (h : ∀ r, s.ctl.handler r = .idle ∧ s.lines r = []) :
    Terminal reg s := by
  intro a
  have hempty : ∀ r, s.toCtl r = [] ∧ s.unsent r = [] := by
    intro r
    have hlines := (h r).2
    rw [RendezvousSystem.lines, List.append_eq_nil_iff, List.append_eq_nil_iff] at hlines
    exact ⟨hlines.1.2, hlines.2⟩
  cases a with
  | send r => simp [rendezvousStep, hempty r]
  | accept r => simp [rendezvousStep, hempty r]
  | advance r => simp [rendezvousStep, Controller.advance, h r]
  | reply r success => simp [rendezvousStep, Controller.reply, h r]

/-- It is enough to look at the ranks with requests: the others have never had a line. -/
theorem Rendezvous.terminal (hs : Rendezvous program requesters s)
    (h : ∀ r, program r ≠ [] → s.ctl.handler r = .idle ∧ s.lines r = []) : Terminal reg s := by
  apply terminal_of_handled
  intro r
  by_cases hprogram : program r = []
  · refine ⟨?_, List.suffix_nil.mp (hprogram ▸ hs.lines r)⟩
    have hnone : ∀ q, (s.ctl.handler r).req? ≠ some q := by
      intro q hq
      have hmem := hs.known r q hq
      rw [hprogram] at hmem
      cases hmem
    cases hpc : s.ctl.handler r with
    | idle => rfl
    | thrown message => exact absurd hpc (hs.alive r message)
    | _ => exact absurd rfl (hpc ▸ hnone _)
  · exact h r hprogram

/-- **Every rendezvous is complete at the end of a run**: all counts are erased, and every request
has led to exactly one reconfiguration. -/
theorem terminal_complete (hw : WellMatched reg program requesters) {t0 : TopoId}
    (hreach : Reaches (rendezvousStep reg) (.initial program t0) s) (ht : Terminal reg s) :
    (∀ h c, s.ctl.readyCount h c = 0) ∧
      ∀ q, s.reconfigured.count q = if (requesters q).Nonempty then 1 else 0 := by
  have hs : Rendezvous program requesters s :=
    hreach.invariant (rendezvous_step hw) (rendezvous_initial hw t0)
  have hidle : ∀ r, s.ctl.handler r = .idle := fun r => ht.idle (hs.alive r)
  have hdone : ∀ q, (requesters q).Nonempty → AtStage requesters q s .reconfigured := by
    intro q hq
    obtain ⟨stage, hst⟩ := hs.stage q hq
    cases stage with
    -- a group that still collects has an uncounted line, but no line is left
    | collecting =>
      obtain ⟨r, hr⟩ := hst.1
      simp [uncounted, ht.lines (hidle r)] at hr
    | complete conn =>
      have hgroup := hst.2.2.1
      simp [groupAt, hidle, Handler.group?] at hgroup
    | working conn =>
      have hgroup := hst.2.2.2.1
      simp [groupAt, hidle, Handler.group?] at hgroup
    | reconfigured => exact hst
  refine ⟨fun h c => ?_, fun q => ?_⟩
  · by_cases hq : ∃ r, ∃ q ∈ program r, q.hexId = h ∧ q.counter = c
    · obtain ⟨r, q, hmem, rfl, rfl⟩ := hq
      exact (hdone q ⟨r, (hw.mem_iff r q).mpr hmem⟩).2.1
    · refine hs.unknown h c fun r q hmem hk => hq ⟨r, q, hmem, hk⟩
  · by_cases hq : (requesters q).Nonempty
    · rw [if_pos hq]
      exact (hdone q hq).2.2.1
    · rw [if_neg hq, List.count_eq_zero]
      exact fun hmem => hq (hs.logged q hmem)

/-! ## Ranks that take turns -/

/-- No line is in flight and no thread has work. -/
def RendezvousSystem.Quiet (s : RendezvousSystem) : Prop :=
  ∀ r, s.ctl.handler r = .idle ∧ s.toCtl r = []

/-- The count of a counter after one more request for it. -/
def countNext (size cnt : ℕ) (q : ConfigReq) : ℕ :=
  if allArrive q.backend (cnt + 1) size then 0 else cnt + 1

/-- The count that a sequence of requests leaves at a counter, when one is handled after the
other. -/
def countAfter (reg : Registry) (h : HexId) (c : ℕ) (qs : List ConfigReq) : ℕ :=
  (qs.filter fun q => q.hexId = h ∧ q.counter = c).foldl (countNext (reg.clients h).length) 0

/-- A step of a thread leaves the lines alone. -/
theorem exists_advance (reg : Registry) (s : RendezvousSystem) (r : ℕ) (ctl : Controller)
    (h : s.ctl.advance reg r = some ctl) :
    ∃ s', Reaches (rendezvousStep reg) s s' ∧ s'.ctl = ctl ∧ s'.toCtl = s.toCtl ∧
      s'.unsent = s.unsent :=
  ⟨{ s with ctl := ctl, reconfigured := s.reconfig r },
    (Reaches.refl s).tail (a := .advance r) (by rw [rendezvousStep, h, Option.map_some]),
    rfl, rfl, rfl⟩

/-- A thread acknowledges its remaining clients. -/
theorem exists_acked (reg : Registry) (s : RendezvousSystem) {r : ℕ} (clients : List ℕ)
    (hpc : s.ctl.handler r = .acking q clients) :
    ∃ s', Reaches (rendezvousStep reg) s s' ∧ s'.ctl = s.ctl.at r .idle ∧ s'.toCtl = s.toCtl ∧
      s'.unsent = s.unsent := by
  induction clients generalizing s with
  | nil => exact exists_advance reg s r _ (by simp [Controller.advance, hpc])
  | cons client clients ih =>
    obtain ⟨s₁, hreach₁, hctl₁, hto₁, hunsent₁⟩ := exists_advance reg s r
      (s.ctl.at r (.acking q clients)) (by simp [Controller.advance, hpc])
    obtain ⟨s₂, hreach₂, hctl₂, hto₂, hunsent₂⟩ := ih s₁ (by simp [hctl₁])
    refine ⟨s₂, hreach₁.trans hreach₂, ?_, hto₂.trans hto₁, hunsent₂.trans hunsent₁⟩
    rw [hctl₂, hctl₁]
    simp [Controller.at]

/-- A thread reconfigures for the request that completes a group, and acknowledges it. -/
theorem exists_reconfigured (reg : Registry) (s : RendezvousSystem) {r : ℕ}
    (hpc : s.ctl.handler r = .erased q)
    (htopo : ∀ topoId message, determineRuntimeTopo topoId q.backend q.counter ≠ .error message) :
    ∃ s', Reaches (rendezvousStep reg) s s' ∧
      s'.ctl.handler = Function.update s.ctl.handler r .idle ∧
      s'.ctl.readyCount = s.ctl.readyCount ∧ s'.toCtl = s.toCtl ∧ s'.unsent = s.unsent := by
  -- the topology has no error branch for this request
  obtain ⟨topoId, hok⟩ : ∃ topoId,
      determineRuntimeTopo (s.ctl.topoIds (reg.rail q.hexId)) q.backend q.counter = .ok topoId := by
    cases h : determineRuntimeTopo (s.ctl.topoIds (reg.rail q.hexId)) q.backend q.counter with
    | error message => exact absurd h (htopo _ message)
    | ok topoId => exact ⟨topoId, rfl⟩
  set topoIds := Function.update s.ctl.topoIds (reg.rail q.hexId) topoId
  obtain ⟨s₁, hreach₁, hctl₁, hto₁, hunsent₁⟩ := exists_advance reg s r
    ({ s.ctl with topoIds := topoIds }.at r (.determined q))
    (by simp [Controller.advance, hpc, hok, topoIds])
  obtain ⟨s₂, hreach₂, hctl₂, hto₂, hunsent₂⟩ := exists_advance reg s₁ r
    (s₁.ctl.at r (.loaded q (s₁.ctl.topoIds (reg.rail q.hexId))))
    (by simp [Controller.advance, hctl₁])
  obtain ⟨s₃, hreach₃, hctl₃, hto₃, hunsent₃⟩ := exists_advance reg s₂ r
    (s₂.ctl.at r (.sent q (s₁.ctl.topoIds (reg.rail q.hexId))))
    (by simp [Controller.advance, hctl₂])
  -- the rail worker replies with success
  have hreply : rendezvousStep reg s₃ (.reply r true) =
      some { s₃ with ctl := s₃.ctl.at r (.acking q (reg.clients q.hexId)) } := by
    simp [rendezvousStep, Controller.reply, hctl₃]
  obtain ⟨s₄, hreach₄, hctl₄, hto₄, hunsent₄⟩ := exists_acked reg
    ({ s₃ with ctl := s₃.ctl.at r (.acking q (reg.clients q.hexId)) })
    (reg.clients q.hexId) (Controller.at_handler_self ..)
  refine ⟨s₄, ((hreach₁.trans (hreach₂.trans hreach₃)).tail hreply).trans hreach₄, ?_, ?_,
    hto₄.trans (hto₃.trans (hto₂.trans hto₁)),
    hunsent₄.trans (hunsent₃.trans (hunsent₂.trans hunsent₁))⟩
  · simp [hctl₄, hctl₃, hctl₂, hctl₁, Controller.at]
  · simp [hctl₄, hctl₃, hctl₂, hctl₁]

/-- A rank sends its next request, and the controller handles it. -/
theorem RendezvousSystem.Quiet.exists_handled (hs : s.Quiet) (reg : Registry) {r : ℕ}
    {qs : List ConfigReq} (hunsent : s.unsent r = q :: qs) (hclients : reg.clients q.hexId ≠ [])
    (htopo : ∀ topoId message, determineRuntimeTopo topoId q.backend q.counter ≠ .error message) :
    ∃ s', Reaches (rendezvousStep reg) s s' ∧ s'.Quiet ∧
      s'.unsent = Function.update s.unsent r qs ∧
      s'.ctl.readyCount = (s.ctl.withReady q (countNext (reg.clients q.hexId).length
        (s.ctl.readyCount q.hexId q.counter) q)).readyCount := by
  -- send, accept and count: the same for both branches of `allArrive`
  set cnt := s.ctl.readyCount q.hexId q.counter with hcnt
  have hsend : rendezvousStep reg s (.send r) = some { s with
      unsent := Function.update s.unsent r qs
      toCtl := Function.update s.toCtl r [q] } := by
    simp [rendezvousStep, hunsent, (hs r).2]
  have haccept : rendezvousStep reg { s with
      unsent := Function.update s.unsent r qs
      toCtl := Function.update s.toCtl r [q] } (.accept r) = some { s with
        ctl := s.ctl.at r (.received q)
        unsent := Function.update s.unsent r qs } := by
    have hto : Function.update s.toCtl r [] = s.toCtl := by
      rw [← (hs r).2, Function.update_eq_self]
    simp [rendezvousStep, Controller.accept, (hs r).1, hto]
  obtain ⟨s₁, hreach₁, hctl₁, hto₁, hunsent₁⟩ := exists_advance reg { s with
      ctl := s.ctl.at r (.received q)
      unsent := Function.update s.unsent r qs } r
    (((s.ctl.at r (.received q)).withReady q (cnt + 1)).at r (.counted q (cnt + 1)))
    (by simp [Controller.advance, hclients, hcnt])
  have hreach := (((Reaches.refl s).tail hsend).tail haccept).trans hreach₁
  have hquiet : ∀ s' : RendezvousSystem, s'.toCtl = s₁.toCtl →
      s'.ctl.handler = Function.update s₁.ctl.handler r .idle → s'.Quiet := by
    intro s' hto hhandler r'
    rw [hto, hto₁, hhandler, hctl₁]
    by_cases hr : r' = r
    · simp [hr, hs r]
    · simp [hr, Controller.at, hs r']
  -- the request completes its group, or the thread goes back to its socket
  by_cases harrive : allArrive q.backend (cnt + 1) (reg.clients q.hexId).length = true
  · obtain ⟨s₂, hreach₂, hctl₂, hto₂, hunsent₂⟩ := exists_advance reg s₁ r
      ((s₁.ctl.withReady q 0).at r (.erased q))
      (by simp [Controller.advance, hctl₁, harrive])
    obtain ⟨s₃, hreach₃, hhandler₃, hready₃, hto₃, hunsent₃⟩ :=
      exists_reconfigured reg s₂ (r := r) (by simp [hctl₂]) htopo
    refine ⟨s₃, hreach.trans (hreach₂.trans hreach₃), hquiet s₃ (hto₃.trans hto₂) ?_,
      hunsent₃.trans (hunsent₂.trans hunsent₁), ?_⟩
    · rw [hhandler₃, hctl₂]
      simp [Controller.at]
    · rw [hready₃, hctl₂, hctl₁, countNext, if_pos harrive]
      simp [Controller.withReady]
  · obtain ⟨s₂, hreach₂, hctl₂, hto₂, hunsent₂⟩ := exists_advance reg s₁ r
      (s₁.ctl.at r .idle) (by simp [Controller.advance, hctl₁, harrive])
    refine ⟨s₂, hreach.trans hreach₂, hquiet s₂ hto₂ ?_, hunsent₂.trans hunsent₁, ?_⟩
    · rw [hctl₂]
      rfl
    · rw [hctl₂, hctl₁, countNext, if_neg harrive]
      rfl

/-- A rank sends all its requests, and the controller handles one after the other. -/
theorem RendezvousSystem.Quiet.exists_turn (hs : s.Quiet) (reg : Registry) {r : ℕ}
    (qs : List ConfigReq) (hunsent : s.unsent r = qs) (hclients : ∀ q ∈ qs, reg.clients q.hexId ≠ [])
    (htopo : ∀ q ∈ qs, ∀ topoId message,
      determineRuntimeTopo topoId q.backend q.counter ≠ .error message) :
    ∃ s', Reaches (rendezvousStep reg) s s' ∧ s'.Quiet ∧
      s'.unsent = Function.update s.unsent r [] ∧
      ∀ h c, s'.ctl.readyCount h c =
        (qs.filter fun q => q.hexId = h ∧ q.counter = c).foldl
          (countNext (reg.clients h).length) (s.ctl.readyCount h c) := by
  induction qs generalizing s with
  | nil =>
    refine ⟨s, Reaches.refl s, hs, ?_, fun h c => rfl⟩
    rw [← hunsent, Function.update_eq_self]
  | cons q qs ih =>
    obtain ⟨s₁, hreach₁, hquiet₁, hunsent₁, hready₁⟩ := hs.exists_handled reg hunsent
      (hclients q List.mem_cons_self) (htopo q List.mem_cons_self)
    obtain ⟨s₂, hreach₂, hquiet₂, hunsent₂, hready₂⟩ := ih hquiet₁
      (by rw [hunsent₁, Function.update_self])
      (fun q' hq' => hclients q' (List.mem_cons_of_mem q hq'))
      fun q' hq' => htopo q' (List.mem_cons_of_mem q hq')
    refine ⟨s₂, hreach₁.trans hreach₂, hquiet₂, ?_, fun h c => ?_⟩
    · rw [hunsent₂, hunsent₁, Function.update_idem]
    · rw [hready₂, hready₁]
      by_cases hkey : q.hexId = h ∧ q.counter = c
      · obtain ⟨rfl, rfl⟩ := hkey
        rw [Controller.withReady_readyCount_self, List.filter_cons_of_pos (by simp),
          List.foldl_cons]
      · rw [Controller.withReady_readyCount_of_ne _ _ _ fun heq => hkey (by
            obtain ⟨rfl, rfl⟩ := Prod.mk.inj heq
            exact ⟨rfl, rfl⟩), List.filter_cons_of_neg (by simpa using hkey)]

/-- **Ranks that take turns** come to an end, with the counts that their requests leave one after
the other. -/
theorem exists_terminal (order : List ℕ) (hnodup : order.Nodup)
    (hall : ∀ r, program r ≠ [] → r ∈ order)
    (hclients : ∀ r, ∀ q ∈ program r, reg.clients q.hexId ≠ [])
    (htopo : ∀ r, ∀ q ∈ program r, ∀ topoId message,
      determineRuntimeTopo topoId q.backend q.counter ≠ .error message) (t0 : TopoId) :
    ∃ s, Reaches (rendezvousStep reg) (.initial program t0) s ∧ Terminal reg s ∧
      ∀ h c, s.ctl.readyCount h c = countAfter reg h c (order.flatMap program) := by
  obtain ⟨s, hreach, hquiet, hunsent, hready⟩ : ∃ s,
      Reaches (rendezvousStep reg) (.initial program t0) s ∧ s.Quiet ∧
        (∀ r, s.unsent r = if r ∈ order then [] else program r) ∧
        ∀ h c, s.ctl.readyCount h c = countAfter reg h c (order.flatMap program) := by
    -- the induction is over the turns that are over
    clear hall
    induction order using List.reverseRecOn with
    | nil =>
      exact ⟨_, Reaches.refl _, fun _ => ⟨rfl, rfl⟩, fun _ => rfl, fun _ _ => rfl⟩
    | append_singleton order r ih =>
      rw [List.nodup_append] at hnodup
      have hr : r ∉ order := fun hr => hnodup.2.2 r hr r (by simp) rfl
      obtain ⟨s, hreach, hquiet, hunsent, hready⟩ := ih hnodup.1
      obtain ⟨s', hreach', hquiet', hunsent', hready'⟩ := hquiet.exists_turn reg
        (program r) (by rw [hunsent, if_neg hr]) (hclients r) (htopo r)
      refine ⟨s', hreach.trans hreach', hquiet', fun r' => ?_, fun h c => ?_⟩
      · rw [hunsent']
        by_cases hrr : r' = r
        · simp [hrr]
        · simp [hrr, hunsent]
      · rw [hready', hready, countAfter, countAfter, List.flatMap_append, List.filter_append,
          List.foldl_append, List.flatMap_singleton]
  refine ⟨s, hreach, terminal_of_handled fun r => ⟨(hquiet r).1, ?_⟩, hready⟩
  have hdone : s.unsent r = [] := by
    rw [hunsent]
    by_cases hr : r ∈ order
    · rw [if_pos hr]
    · rw [if_neg hr]
      by_contra hne
      exact hr (hall r hne)
  simp [RendezvousSystem.lines, hquiet r, Handler.line, hdone]

/-- Any rank can take the last turn. -/
theorem exists_terminal_last (reg : Registry) {program : ℕ → List ConfigReq} {ranks : ℕ}
    (hidle : ∀ r, ranks ≤ r → program r = [])
    (hclients : ∀ r, ∀ q ∈ program r, reg.clients q.hexId ≠ [])
    (htopo : ∀ r, ∀ q ∈ program r, ∀ topoId message,
      determineRuntimeTopo topoId q.backend q.counter ≠ .error message) (t0 : TopoId) (r : ℕ) :
    ∃ s, Reaches (rendezvousStep reg) (.initial program t0) s ∧ Terminal reg s ∧
      ∀ h c, s.ctl.readyCount h c =
        countAfter reg h c (((List.range ranks).erase r).flatMap program ++ program r) := by
  have hnodup : ((List.range ranks).erase r ++ [r]).Nodup := by
    rw [List.nodup_append]
    refine ⟨List.nodup_range.erase r, List.nodup_singleton r, fun r' hr' r'' hr'' heq => ?_⟩
    rw [heq, List.mem_singleton.mp hr''] at hr'
    exact List.nodup_range.not_mem_erase hr'
  -- the rank may lie outside the range; then it has no requests
  have hall : ∀ r', program r' ≠ [] → r' ∈ (List.range ranks).erase r ++ [r] := by
    intro r' hne
    by_cases hrr : r' = r
    · simp [hrr]
    · refine List.mem_append_left _ ((List.mem_erase_of_ne hrr).mpr (List.mem_range.mpr ?_))
      by_contra hge
      exact hne (hidle r' (not_lt.mp hge))
  have hterminal := exists_terminal _ hnodup hall hclients htopo t0
  simpa only [List.flatMap_append, List.flatMap_singleton] using hterminal

end Opus
