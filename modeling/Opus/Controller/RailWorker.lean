import Mathlib.Data.Int.Notation
import Mathlib.Logic.Function.Basic
import Opus.Controller.Request
import Opus.Library.Run

/-!
# The controller and the rail workers

The thread that completes a group updates the topology id of the rail, reads it back and sends it
to the worker of the rail over a connection of its own. The worker handles every connection in a
thread of its own: it compares the id with the last topology, flips the bits that differ and
stores the id. The lock of the worker protects the comparison and the store, but not what lies
between them, and nothing orders the connections of one rail.

Two requests of one rail that overlap can therefore be stored in the opposite order of their
topologies. They are harmless as long as the topology of the rail does not change while an id of
the rail is on its way.

## Main definitions

* `RailSystem`, `railStep`: the threads of the controller and of the workers
* `Agree`: the worker of a rail has stored the topology of the controller
* `Serialised`: the topology of a rail changes only when no id of the rail is on its way

## Main results

* `consistent_step`: what a serialised step preserves
* `agree_of_serialised`: in every run of serialised steps, the controller and the worker agree
  whenever no request of the rail is in flight
-/

namespace Opus

open Transition

/-! ## Workers -/

/-- Where the worker thread is that serves the connection opened by a thread of the controller. -/
inductive Worker where
  | idle
  /-- the id has been read -/
  | received (rail : ℕ) (configId : TopoId)
  /-- the id differs from the last topology, which has been remembered -/
  | checked (rail : ℕ) (configId : TopoId) (localPastTopo : ℤ)
  /-- the differing bits have been flipped -/
  | flipped (rail : ℕ) (configId : TopoId)
  /-- the reply has been sent -/
  | replied (rail : ℕ) (configId : TopoId) (success : Bool)
  deriving DecidableEq, Repr

/-- The controller with the workers of all rails. -/
structure RailSystem where
  ctl : Controller
  pastTopo : ℕ → ℤ
  topologyStates : ℕ → TopoId
  worker : ℕ → Worker

/-- The system after the initial configuration of all rails. -/
def RailSystem.initial (initialTopology : TopoId) : RailSystem where
  ctl := .initial initialTopology
  pastTopo := fun _ => initialTopology.toInt
  topologyStates := fun _ => initialTopology
  worker := fun _ => .idle

/-- The bits of the topology, after those that differ from `localPastTopo` have been set to those
of `configId`. -/
def flipBits (state configId : TopoId) (localPastTopo : ℤ) : TopoId :=
  let past := if localPastTopo ≥ 0 then BitVec.ofInt 32 localPastTopo else 0
  let changed := past ^^^ configId
  (state &&& ~~~changed) ||| (configId &&& changed)

/-- The next step of the worker thread of `conn` in `handle_client_request`. -/
def RailSystem.work (s : RailSystem) (conn : ℕ) : Option RailSystem :=
  match s.worker conn with
  | .received rail configId =>
    if configId.toInt < 0 then
      some { s with worker := Function.update s.worker conn (.replied rail configId false) }
    else if configId.toInt = s.pastTopo rail then
      some { s with worker := Function.update s.worker conn (.replied rail configId true) }
    else
      some { s with
        worker := Function.update s.worker conn (.checked rail configId (s.pastTopo rail)) }
  | .checked rail configId localPastTopo =>
    some { s with
      topologyStates := Function.update s.topologyStates rail
        (flipBits (s.topologyStates rail) configId localPastTopo)
      worker := Function.update s.worker conn (.flipped rail configId) }
  | .flipped rail configId =>
    some { s with
      pastTopo := Function.update s.pastTopo rail configId.toInt
      worker := Function.update s.worker conn (.replied rail configId true) }
  | _ => none

/-- The steps of the system. -/
inductive RailAction where
  /-- a request arrives on a connection -/
  | request (conn : ℕ) (req : ConfigReq)
  /-- a thread of the controller takes its next step -/
  | advance (conn : ℕ)
  /-- a worker thread takes its next step -/
  | work (conn : ℕ)
  /-- a thread of the controller reads the reply of the worker -/
  | reply (conn : ℕ)
  deriving DecidableEq, Repr

/-- The worker thread that a step of the controller starts: sending an id opens a connection. -/
def startWorker (reg : Registry) (s : RailSystem) (conn : ℕ) : ℕ → Worker :=
  match s.ctl.handler conn with
  | .loaded req topoId =>
    Function.update s.worker conn (.received (reg.rail req.hexId) topoId)
  | _ => s.worker

/-- One step of the system. -/
def railStep (reg : Registry) (s : RailSystem) : RailAction → Option RailSystem
  | .request conn req => (s.ctl.accept conn req).map fun ctl => { s with ctl := ctl }
  | .advance conn =>
    (s.ctl.advance reg conn).map fun ctl =>
      { s with ctl := ctl, worker := startWorker reg s conn }
  | .work conn => s.work conn
  | .reply conn =>
    match s.worker conn with
    | .replied _ _ success =>
      (s.ctl.reply reg conn success).map fun ctl =>
        { s with ctl := ctl, worker := Function.update s.worker conn .idle }
    | _ => none

/-! ## Agreement -/

/-- No request of the rail is in flight. -/
def Quiescent (reg : Registry) (s : RailSystem) (rail : ℕ) : Prop :=
  ∀ conn req, (s.ctl.handler conn).req? = some req → reg.rail req.hexId ≠ rail

/-- The worker of the rail has stored the topology of the controller. -/
def Agree (s : RailSystem) (rail : ℕ) : Prop := s.pastTopo rail = (s.ctl.topoIds rail).toInt

instance (s : RailSystem) (rail : ℕ) : Decidable (Agree s rail) :=
  inferInstanceAs (Decidable (_ = _))

/-- The id that a thread has read and whose reply is still to come. -/
def Handler.carried? (reg : Registry) (rail : ℕ) : Handler → Option TopoId
  | .loaded req topoId => if reg.rail req.hexId = rail then some topoId else none
  | .sent req topoId => if reg.rail req.hexId = rail then some topoId else none
  | _ => none

/-- A thread has read the id, and the worker has not confirmed it: the id is on its way. -/
def Pending (reg : Registry) (s : RailSystem) (rail conn : ℕ) (topoId : TopoId) : Prop :=
  (s.ctl.handler conn).carried? reg rail = some topoId ∧
    ∀ rail' configId, s.worker conn ≠ .replied rail' configId true

/-- The worker thread has answered with something else than `SUCCESS`. -/
def Worker.failed : Worker → Bool
  | .replied _ _ success => !success
  | _ => false

/-- The reply that the step reads, if any, is a success. -/
def Succeeds (s : RailSystem) : RailAction → Prop
  | .reply conn => (s.worker conn).failed = false
  | _ => True

instance (s : RailSystem) (a : RailAction) : Decidable (Succeeds s a) :=
  match a with
  | .reply conn => inferInstanceAs (Decidable ((s.worker conn).failed = false))
  | .request _ _ | .advance _ | .work _ => inferInstanceAs (Decidable True)

/-- The step changes the topology of a rail only when no id of the rail is on its way. -/
def Serialised (reg : Registry) (s : RailSystem) : RailAction → Prop
  | .advance conn => ∀ req topoId, s.ctl.handler conn = .erased req →
      determineRuntimeTopo (s.ctl.topoIds (reg.rail req.hexId)) req.backend req.counter =
        .ok topoId →
      topoId ≠ s.ctl.topoIds (reg.rail req.hexId) →
        ∀ conn' id, ¬ Pending reg s (reg.rail req.hexId) conn' id
  | _ => True

/-! ## The invariant -/

/-- The rail and the id a worker thread is serving. -/
def Worker.job? : Worker → Option (ℕ × TopoId)
  | .idle => none
  | .received rail configId => some (rail, configId)
  | .checked rail configId _ => some (rail, configId)
  | .flipped rail configId => some (rail, configId)
  | .replied rail configId _ => some (rail, configId)

/-- The rail and the id for which a thread waits on a worker. -/
def Handler.job? (reg : Registry) : Handler → Option (ℕ × TopoId)
  | .sent req topoId => some (reg.rail req.hexId, topoId)
  | _ => none

/-- The thread is going to deliver the current topology of the rail. -/
def Delivering (reg : Registry) (s : RailSystem) (rail conn : ℕ) : Prop :=
  (∃ req, s.ctl.handler conn = .determined req ∧ reg.rail req.hexId = rail) ∨
    ∃ topoId, Pending reg s rail conn topoId

/-- Every id on its way is the topology of its rail, and a rail whose worker has not stored its
topology has a thread that delivers it. -/
structure Consistent (reg : Registry) (s : RailSystem) : Prop where
  current : ∀ conn rail topoId, Pending reg s rail conn topoId → topoId = s.ctl.topoIds rail
  job : ∀ conn, (s.worker conn).job? = (s.ctl.handler conn).job? reg
  settled : ∀ rail, Agree s rail ∨ ∃ conn, Delivering reg s rail conn

variable {reg : Registry} {s s' : RailSystem}

theorem carried?_of_job? {pc : Handler} {rail : ℕ} {topoId : TopoId}
    (h : pc.job? reg = some (rail, topoId)) : pc.carried? reg rail = some topoId := by
  cases pc <;> simp_all [Handler.job?, Handler.carried?]

/-- A thread carries an id of the rail it waits for, and of no other. -/
theorem rail_eq_of_job? {pc : Handler} {rail rail' : ℕ} {topoId configId : TopoId}
    (h : pc.job? reg = some (rail', configId)) (hcar : pc.carried? reg rail = some topoId) :
    rail = rail' := by
  cases pc with
  | sent req id =>
    by_contra hne
    have hrail : reg.rail req.hexId = rail' := by
      simp only [Handler.job?, Option.some.injEq, Prod.mk.injEq] at h
      exact h.1
    simp [Handler.carried?, hrail, Ne.symm hne] at hcar
  | _ => cases h

theorem Worker.idle_of_job? {w : Worker} (h : w.job? = none) : w = .idle := by
  cases w <;> first | rfl | cases h

/-- A worker thread that has not confirmed its id serves the topology of its rail. -/
theorem Consistent.job_eq (hc : Consistent reg s) {conn rail : ℕ} {configId : TopoId}
    (h : (s.worker conn).job? = some (rail, configId))
    (hw : ∀ rail' id, s.worker conn ≠ .replied rail' id true) :
    configId = s.ctl.topoIds rail :=
  hc.current conn rail configId ⟨carried?_of_job? ((hc.job conn).symm.trans h), hw⟩

/-- The thread holds no topology id. -/
def Handler.Neutral : Handler → Prop
  | .determined _ => False
  | .loaded _ _ => False
  | .sent _ _ => False
  | _ => True

theorem Handler.Neutral.carried? {pc : Handler} (h : pc.Neutral) (reg : Registry) (rail : ℕ) :
    pc.carried? reg rail = none := by
  cases pc <;> first | rfl | exact h.elim

theorem Handler.Neutral.job? {pc : Handler} (h : pc.Neutral) (reg : Registry) :
    pc.job? reg = none := by
  cases pc <;> first | rfl | exact h.elim

theorem not_pending_of_neutral {conn : ℕ} (h : (s.ctl.handler conn).Neutral) (rail : ℕ)
    (topoId : TopoId) : ¬ Pending reg s rail conn topoId := by
  rintro ⟨hcar, -⟩
  rw [h.carried? reg rail] at hcar
  cases hcar

theorem not_delivering_of_neutral {conn : ℕ} (h : (s.ctl.handler conn).Neutral) (rail : ℕ) :
    ¬ Delivering reg s rail conn := by
  rintro (⟨req, hpc, -⟩ | ⟨topoId, hp⟩)
  · rw [hpc] at h
    exact h
  · exact not_pending_of_neutral h rail topoId hp

section Frame

variable {conn' : ℕ} (hhandler : s'.ctl.handler conn' = s.ctl.handler conn')
  (hworker : s'.worker conn' = s.worker conn')

include hhandler hworker

/-- Whether an id is on its way depends on its own two threads. -/
theorem pending_congr (rail : ℕ) (topoId : TopoId) :
    Pending reg s' rail conn' topoId ↔ Pending reg s rail conn' topoId := by
  rw [Pending, Pending, hhandler, hworker]

theorem delivering_congr (rail : ℕ) :
    Delivering reg s' rail conn' ↔ Delivering reg s rail conn' := by
  simp only [Delivering, pending_congr hhandler hworker, hhandler]

end Frame

/-- What a step of the threads of one connection has to show, when the others and the topologies
stay as they are. -/
theorem Consistent.of_local (hc : Consistent reg s) (conn : ℕ)
    (htopo : s'.ctl.topoIds = s.ctl.topoIds)
    (hpast : ∀ rail, s'.pastTopo rail = s.pastTopo rail ∨
      s'.pastTopo rail = (s.ctl.topoIds rail).toInt)
    (hhandler : ∀ conn' ≠ conn, s'.ctl.handler conn' = s.ctl.handler conn')
    (hworker : ∀ conn' ≠ conn, s'.worker conn' = s.worker conn')
    (hcurrent : ∀ rail topoId, Pending reg s' rail conn topoId → topoId = s.ctl.topoIds rail)
    (hjob : (s'.worker conn).job? = (s'.ctl.handler conn).job? reg)
    (hsettled : ∀ rail, Delivering reg s rail conn →
      Agree s' rail ∨ Delivering reg s' rail conn) :
    Consistent reg s' where
  current := by
    intro conn' rail topoId h
    rw [htopo]
    by_cases hconn : conn' = conn
    · subst hconn
      exact hcurrent rail topoId h
    · rw [pending_congr (hhandler conn' hconn) (hworker conn' hconn)] at h
      exact hc.current conn' rail topoId h
  job := by
    intro conn'
    by_cases hconn : conn' = conn
    · subst hconn
      exact hjob
    · rw [hworker conn' hconn, hhandler conn' hconn]
      exact hc.job conn'
  settled := by
    intro rail
    rcases hc.settled rail with h | ⟨conn', h⟩
    · refine .inl ?_
      rw [Agree, htopo]
      exact (hpast rail).elim (fun h' => h'.trans h) id
    · by_cases hconn : conn' = conn
      · subst hconn
        exact (hsettled rail h).imp id fun h => ⟨conn', h⟩
      · refine .inr ⟨conn', ?_⟩
        rw [delivering_congr (hhandler conn' hconn) (hworker conn' hconn)]
        exact h

/-- A thread that holds no topology id before and after a step delivers nothing. -/
theorem Consistent.neutral (hc : Consistent reg s) {conn : ℕ} {ctl : Controller} {pc : Handler}
    (htopo : ctl.topoIds = s.ctl.topoIds)
    (hhandler : ctl.handler = Function.update s.ctl.handler conn pc)
    (hbefore : (s.ctl.handler conn).Neutral) (hafter : pc.Neutral) :
    Consistent reg { s with ctl := ctl } := by
  have hpc : ctl.handler conn = pc := by rw [hhandler, Function.update_self]
  refine hc.of_local conn htopo (fun _ => .inl rfl) ?_ (fun _ _ => rfl) ?_ ?_ ?_
  · intro conn' hconn
    simp only [hhandler, Function.update_of_ne hconn]
  · intro rail topoId h
    exact absurd h (not_pending_of_neutral (by rw [hpc]; exact hafter) rail topoId)
  · rw [hpc, hafter.job? reg, hc.job, hbefore.job? reg]
  · intro rail h
    exact absurd h (not_delivering_of_neutral hbefore rail)

/-! ## Steps of the workers -/

/-- A step of a worker thread. -/
theorem Consistent.setWorker (hc : Consistent reg s) {conn : ℕ} {w : Worker}
    {pastTopo : ℕ → ℤ} {topologyStates : ℕ → TopoId}
    (hbefore : ∀ rail configId, s.worker conn ≠ .replied rail configId true)
    (hjob : w.job? = (s.worker conn).job?)
    (hpast : ∀ rail, pastTopo rail = s.pastTopo rail ∨
      pastTopo rail = (s.ctl.topoIds rail).toInt)
    (hdone : ∀ rail configId, w = .replied rail configId true →
      pastTopo rail = (s.ctl.topoIds rail).toInt) :
    Consistent reg { s with
      pastTopo := pastTopo
      topologyStates := topologyStates
      worker := Function.update s.worker conn w } := by
  refine hc.of_local conn rfl hpast (fun _ _ => rfl)
    (fun conn' hconn => Function.update_of_ne hconn _ _) ?_ ?_ ?_
  · intro rail topoId h
    exact hc.current conn rail topoId ⟨h.1, hbefore⟩
  · simpa only [Function.update_self, hjob] using hc.job conn
  · rintro rail (h | ⟨topoId, hcar, -⟩)
    · exact .inr (.inl h)
    · by_cases hw : ∃ rail' configId, w = .replied rail' configId true
      · obtain ⟨rail', configId, rfl⟩ := hw
        have hpc : (s.ctl.handler conn).job? reg = some (rail', configId) :=
          (hc.job conn).symm.trans hjob.symm
        rw [rail_eq_of_job? hpc hcar]
        exact .inl (hdone rail' configId rfl)
      · refine .inr (.inr ⟨topoId, hcar, fun rail' configId h => hw ⟨rail', configId, ?_⟩⟩)
        simpa only [Function.update_self] using h

theorem consistent_work (hc : Consistent reg s) {conn : ℕ} (h : s.work conn = some s') :
    Consistent reg s' := by
  unfold RailSystem.work at h
  split at h
  · rename_i rail configId hw
    have heq : configId = s.ctl.topoIds rail := hc.job_eq (by rw [hw]; rfl) (by simp [hw])
    split at h
    · cases h
      exact hc.setWorker (by simp [hw]) (by rw [hw]; rfl) (fun _ => .inl rfl)
        (fun _ _ h => by cases h)
    · split at h
      · rename_i hpast
        cases h
        refine hc.setWorker (by simp [hw]) (by rw [hw]; rfl) (fun _ => .inl rfl) (fun _ _ h => ?_)
        cases h
        rw [← hpast, heq]
      · cases h
        exact hc.setWorker (by simp [hw]) (by rw [hw]; rfl) (fun _ => .inl rfl)
          (fun _ _ h => by cases h)
  · rename_i rail configId past hw
    cases h
    exact hc.setWorker (by simp [hw]) (by rw [hw]; rfl) (fun _ => .inl rfl)
      (fun _ _ h => by cases h)
  · rename_i rail configId hw
    have heq : configId = s.ctl.topoIds rail := hc.job_eq (by rw [hw]; rfl) (by simp [hw])
    cases h
    refine hc.setWorker (by simp [hw]) (by rw [hw]; rfl) (fun rail' => ?_) (fun _ _ h => ?_)
    · by_cases hrail : rail' = rail
      · subst hrail
        exact .inr (by rw [Function.update_self, heq])
      · exact .inl (Function.update_of_ne hrail _ _)
    · cases h
      rw [Function.update_self, heq]
  · cases h

/-! ## Steps of the controller -/

/-- Updating the topology of a rail, when that changes nothing or no id of the rail is on its
way. -/
theorem consistent_determine (hc : Consistent reg s) {conn : ℕ} {req : ConfigReq} {topoId : TopoId}
    (hpc : s.ctl.handler conn = .erased req)
    (hser : topoId ≠ s.ctl.topoIds (reg.rail req.hexId) →
      ∀ conn' id, ¬ Pending reg s (reg.rail req.hexId) conn' id) :
    Consistent reg { s with
      ctl := { s.ctl with
        topoIds := Function.update s.ctl.topoIds (reg.rail req.hexId) topoId }.at conn
          (.determined req) } := by
  have hneutral : (s.ctl.handler conn).Neutral := by
    rw [hpc]
    trivial
  refine ⟨?_, ?_, ?_⟩
  · intro conn' rail id h
    have hconn : conn' ≠ conn := by
      rintro rfl
      have hcar := h.1
      simp [Handler.carried?] at hcar
    have hp : Pending reg s rail conn' id := by
      refine (pending_congr ?_ ?_ rail id).mp h
      · exact Controller.at_handler_of_ne _ _ _ hconn
      · rfl
    simp only [Controller.at_topoIds]
    by_cases hrail : rail = reg.rail req.hexId
    · subst hrail
      -- an id of the rail is on its way, so the topology stays
      have htopo : topoId = s.ctl.topoIds (reg.rail req.hexId) :=
        by_contra fun htopo => hser htopo conn' id hp
      rw [Function.update_self, htopo]
      exact hc.current conn' _ id hp
    · rw [Function.update_of_ne hrail]
      exact hc.current conn' rail id hp
  · intro conn'
    by_cases hconn : conn' = conn
    · subst hconn
      simp only [Controller.at_handler_self, hc.job, hneutral.job? reg]
      rfl
    · rw [Controller.at_handler_of_ne _ _ _ hconn]
      exact hc.job conn'
  · intro rail
    by_cases hrail : rail = reg.rail req.hexId
    · exact .inr ⟨conn, .inl ⟨req, Controller.at_handler_self .., hrail.symm⟩⟩
    · rcases hc.settled rail with h | ⟨conn', h⟩
      · refine .inl ?_
        simp only [Agree, Controller.at_topoIds, Function.update_of_ne hrail]
        exact h
      · have hconn : conn' ≠ conn := by
          rintro rfl
          exact not_delivering_of_neutral hneutral rail h
        refine .inr ⟨conn', (delivering_congr ?_ ?_ rail).mpr h⟩
        · exact Controller.at_handler_of_ne _ _ _ hconn
        · rfl

/-- Reading the topology of a rail. -/
theorem consistent_load (hc : Consistent reg s) {conn : ℕ} {req : ConfigReq}
    (hpc : s.ctl.handler conn = .determined req) :
    Consistent reg { s with
      ctl := s.ctl.at conn (.loaded req (s.ctl.topoIds (reg.rail req.hexId))) } := by
  have hidle : s.worker conn = .idle := Worker.idle_of_job? (by rw [hc.job, hpc]; rfl)
  refine hc.of_local conn rfl (fun _ => .inl rfl)
    (fun conn' hconn => Controller.at_handler_of_ne _ _ _ hconn) (fun _ _ => rfl) ?_ ?_ ?_
  · rintro rail topoId ⟨hcar, -⟩
    simp only [Controller.at_handler_self, Handler.carried?] at hcar
    split at hcar
    · rename_i hrail
      cases hcar
      rw [hrail]
    · cases hcar
  · simp only [Controller.at_handler_self, hidle]
    rfl
  · rintro rail (⟨req', h, hrail⟩ | ⟨topoId, hcar, -⟩)
    · cases hpc.symm.trans h
      exact .inr (.inr ⟨_, by simp [Handler.carried?, hrail]; rfl, by simp [hidle]⟩)
    · simp [hpc, Handler.carried?] at hcar

/-- Sending an id starts a worker thread. -/
theorem consistent_send (hc : Consistent reg s) {conn : ℕ} {req : ConfigReq} {topoId : TopoId}
    (hpc : s.ctl.handler conn = .loaded req topoId) :
    Consistent reg { s with
      ctl := s.ctl.at conn (.sent req topoId)
      worker := Function.update s.worker conn (.received (reg.rail req.hexId) topoId) } := by
  have hidle : s.worker conn = .idle := Worker.idle_of_job? (by rw [hc.job, hpc]; rfl)
  have hcar : ∀ rail, ((s.ctl.at conn (.sent req topoId)).handler conn).carried? reg rail =
      (s.ctl.handler conn).carried? reg rail := by
    intro rail
    rw [Controller.at_handler_self, hpc]
    rfl
  refine hc.of_local conn rfl (fun _ => .inl rfl)
    (fun conn' hconn => Controller.at_handler_of_ne _ _ _ hconn)
    (fun conn' hconn => Function.update_of_ne hconn _ _) ?_ ?_ ?_
  · rintro rail id ⟨h, -⟩
    exact hc.current conn rail id ⟨(hcar rail).symm.trans h, by simp [hidle]⟩
  · simp only [Controller.at_handler_self, Function.update_self]
    rfl
  · rintro rail (⟨req', h, -⟩ | ⟨id, h, -⟩)
    · cases hpc.symm.trans h
    · exact .inr (.inr ⟨id, (hcar rail).trans h, by simp⟩)

/-- A successful reply ends the delivery of an id that has been stored. -/
theorem consistent_reply (hc : Consistent reg s) {conn rail : ℕ} {configId topoId : TopoId}
    {req : ConfigReq} {pc : Handler} (hw : s.worker conn = .replied rail configId true)
    (hpc : s.ctl.handler conn = .sent req topoId) (hafter : pc.Neutral) :
    Consistent reg { s with
      ctl := s.ctl.at conn pc
      worker := Function.update s.worker conn .idle } := by
  have hself : (s.ctl.at conn pc).handler conn = pc := Controller.at_handler_self ..
  refine hc.of_local conn rfl (fun _ => .inl rfl)
    (fun conn' hconn => Controller.at_handler_of_ne _ _ _ hconn)
    (fun conn' hconn => Function.update_of_ne hconn _ _) ?_ ?_ ?_
  · intro rail' id h
    exact absurd h (not_pending_of_neutral (by rw [hself]; exact hafter) rail' id)
  · simp only [hself, hafter.job? reg, Function.update_self]
    rfl
  · rintro rail' (⟨req', h, -⟩ | ⟨id, -, h⟩)
    · cases hpc.symm.trans h
    · exact absurd hw (h rail configId)

/-! ## Runs -/

theorem consistent_advance (hc : Consistent reg s) {conn : ℕ} {ctl : Controller}
    (hser : Serialised reg s (.advance conn)) (h : s.ctl.advance reg conn = some ctl) :
    Consistent reg { s with ctl := ctl, worker := startWorker reg s conn } := by
  have hstart : ∀ pc, s.ctl.handler conn = pc → (∀ req topoId, pc ≠ .loaded req topoId) →
      startWorker reg s conn = s.worker := by
    rintro pc rfl hpc
    unfold startWorker
    split
    · rename_i h
      exact absurd h (hpc _ _)
    · rfl
  cases Controller.advance_cases h with
  | unknown req hpc =>
    rw [hstart _ hpc (by simp)]
    exact hc.neutral rfl rfl (by rw [hpc]; trivial) trivial
  | count req hpc =>
    rw [hstart _ hpc (by simp)]
    exact hc.neutral rfl rfl (by rw [hpc]; trivial) trivial
  | erase req cnt hpc =>
    rw [hstart _ hpc (by simp)]
    exact hc.neutral rfl rfl (by rw [hpc]; trivial) trivial
  | incomplete req cnt hpc =>
    rw [hstart _ hpc (by simp)]
    exact hc.neutral rfl rfl (by rw [hpc]; trivial) trivial
  | throw req message hpc =>
    rw [hstart _ hpc (by simp)]
    exact hc.neutral rfl rfl (by rw [hpc]; trivial) trivial
  | determine req topoId hpc hdet =>
    rw [hstart _ hpc (by simp)]
    exact consistent_determine hc hpc (hser req topoId hpc hdet)
  | load req hpc =>
    rw [hstart _ hpc (by simp)]
    exact consistent_load hc hpc
  | send req topoId hpc =>
    have hw : startWorker reg s conn =
        Function.update s.worker conn (.received (reg.rail req.hexId) topoId) := by
      rw [startWorker, hpc]
    rw [hw]
    exact consistent_send hc hpc
  | ack req client clients hpc =>
    rw [hstart _ hpc (by simp)]
    exact hc.neutral rfl rfl (by rw [hpc]; trivial) trivial
  | finish req hpc =>
    rw [hstart _ hpc (by simp)]
    exact hc.neutral rfl rfl (by rw [hpc]; trivial) trivial

/-- **A serialised step keeps the system consistent.** -/
theorem consistent_step (s : RailSystem) (a : RailAction) (s' : RailSystem)
    (hc : Consistent reg s) (hP : Succeeds s a ∧ Serialised reg s a)
    (h : railStep reg s a = some s') : Consistent reg s' := by
  obtain ⟨hsucc, hser⟩ := hP
  cases a with
  | request conn req =>
    obtain ⟨ctl, hctl, rfl⟩ := Option.map_eq_some_iff.mp h
    obtain ⟨hpc, rfl⟩ := Controller.accept_cases hctl
    exact hc.neutral rfl rfl (by rw [hpc]; trivial) trivial
  | advance conn =>
    obtain ⟨ctl, hctl, rfl⟩ := Option.map_eq_some_iff.mp h
    exact consistent_advance hc hser hctl
  | work conn => exact consistent_work hc h
  | reply conn =>
    simp only [railStep] at h
    split at h
    · rename_i rail configId success hw
      obtain ⟨ctl, hctl, rfl⟩ := Option.map_eq_some_iff.mp h
      obtain ⟨req, topoId, hpc, rfl⟩ := Controller.reply_cases hctl
      cases success with
      | false => exact by simp [Succeeds, hw, Worker.failed] at hsucc
      | true => exact consistent_reply hc hw hpc trivial
    · cases h

theorem consistent_initial (t0 : TopoId) : Consistent reg (.initial t0) where
  current := fun _ _ _ h => by cases h.1
  job := fun _ => rfl
  settled := fun _ => .inl rfl

/-- A rail without requests in flight has no thread that delivers its topology. -/
theorem Consistent.agree (hc : Consistent reg s) {rail : ℕ} (hq : Quiescent reg s rail) :
    Agree s rail := by
  refine (hc.settled rail).resolve_right ?_
  rintro ⟨conn, ⟨req, hpc, hrail⟩ | ⟨id, hcar, -⟩⟩
  · exact hq conn req (by rw [hpc]; rfl) hrail
  · cases hpc : s.ctl.handler conn with
    | loaded req topoId =>
      refine hq conn req (by rw [hpc]; rfl) ?_
      by_contra hrail
      simp [hpc, Handler.carried?, hrail] at hcar
    | sent req topoId =>
      refine hq conn req (by rw [hpc]; rfl) ?_
      by_contra hrail
      simp [hpc, Handler.carried?, hrail] at hcar
    | _ => simp [hpc, Handler.carried?] at hcar

/-- **The controller and the rail workers agree at quiescence** in every run whose replies are
successes and in which the topology of a rail changes only while no id of the rail is on its
way. -/
theorem agree_of_serialised (reg : Registry) (t0 : TopoId) (as : List RailAction)
    (t : RailSystem) (hrun : run (railStep reg) (.initial t0) as = some t)
    (hP : Along (railStep reg) (fun s a => Succeeds s a ∧ Serialised reg s a) (.initial t0) as)
    (rail : ℕ) (hq : Quiescent reg t rail) : Agree t rail :=
  Consistent.agree (run_invariant_along consistent_step hrun hP (consistent_initial t0)) hq

/-! ## Two communicators of one rail -/

/-- Two data communicators of one rail, with two members each. -/
def twoStages : Registry where
  clients
    | 7 => [0, 1]
    | 8 => [2, 3]
    | _ => []
  rail := fun _ => 0

/-- The requests of stage 0, up to the sending of the topology id. -/
def stageZeroSends : List RailAction :=
  [.request 0 ⟨7, 2, 0⟩, .request 1 ⟨7, 2, 0⟩, .advance 0, .advance 0, .advance 1, .advance 1,
    .advance 1, .advance 1, .advance 1]

/-- The requests of stage 1, up to the sending of the topology id. -/
def stageOneSends : List RailAction :=
  [.request 2 ⟨8, 2, 1000000⟩, .request 3 ⟨8, 2, 1000000⟩, .advance 2, .advance 2, .advance 3,
    .advance 3, .advance 3, .advance 3, .advance 3]

/-- The worker thread of `conn` stores the id. -/
def stores (conn : ℕ) : List RailAction := [.work conn, .work conn, .work conn]

/-- The thread of `conn` reads the reply and acknowledges two clients. -/
def finishes (conn : ℕ) : List RailAction :=
  [.reply conn, .advance conn, .advance conn, .advance conn]

theorem agree_of_serialised_twoStages :
    ∃ t, run (railStep twoStages) (.initial 3)
        (stageZeroSends ++ stores 1 ++ finishes 1 ++ stageOneSends ++ stores 3 ++ finishes 3) =
          some t ∧ Agree t 0 := by
  refine ⟨_, rfl, agree_of_serialised twoStages 3
    (stageZeroSends ++ stores 1 ++ finishes 1 ++ stageOneSends ++ stores 3 ++ finishes 3) _ rfl
    ?_ 0 ?_⟩
  · simp only [stageZeroSends, stores, finishes, stageOneSends, List.cons_append, List.nil_append]
    repeat
      refine Along.cons ⟨?_, ?_⟩ rfl ?_
      · first
          | exact trivial
          | exact rfl
      · first
          | exact trivial
          | (intro _ _ hpc
             cases hpc
             done)
          | (rintro _ _ - - - (_ | _ | _ | _ | conn) _ ⟨h, -⟩ <;> cases h)
    trivial
  · rintro (_ | _ | _ | _ | conn) h hpc <;> cases hpc

/-- **The id of stage 0 overtakes that of stage 1**: the topology 2 is sent first and stored last,
over the topology 0. -/
theorem not_agree_overtaken :
    ∃ t, run (railStep twoStages) (.initial 3)
        (stageZeroSends ++ stageOneSends ++ stores 3 ++ stores 1 ++ finishes 1 ++ finishes 3) =
          some t ∧
      Along (railStep twoStages) Succeeds (.initial 3)
        (stageZeroSends ++ stageOneSends ++ stores 3 ++ stores 1 ++ finishes 1 ++ finishes 3) ∧
      Quiescent twoStages t 0 ∧ ¬ Agree t 0 := by
  refine ⟨_, rfl, ?_, ?_, ?_⟩
  · decide
  · rintro (_ | _ | _ | _ | conn) h hpc <;> cases hpc
  · decide

end Opus
