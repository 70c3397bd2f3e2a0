import Mathlib.Data.List.Nodup
import Mathlib.Data.List.Perm.Basic
import Opus.Controller.Request
import Opus.Library.Run
import Opus.Shim.Callback

/-!
# Acknowledgements

A shim that calls `topowrite` sends a request over the connection of its process and reads the
lines of the controller until one of them is the acknowledgement of its communicator. An
acknowledgement names the communicator only, and the controller sends it to every member.

## Main definitions

* `Fabric`: the shims of a job and what the controller has registered for them
* `AckSystem`, `ackStep`: the shims, the lines in flight and the controller
* `AckSound`: a shim returns from `topowrite` only after its own request has been completed

## Main results

* `Fabric.Forms.eq_of_counter`: the counter of a request determines the request
* `Fabric.Forms.allArrive_iff`: a group is complete with the requests of all members, unless two
  of more than two members suffice
-/

namespace Opus

open Transition

/-! ## The shims of a job -/

/-- The shims of a job, one for each connection of the controller. A communicator has the same
backend and kind on all its members, and their ranks count from 0. -/
structure Fabric where
  reg : Registry
  shim : ℕ → Shim
  backendId : HexId → ℕ
  isPp : HexId → Bool
  hexId_eq : ∀ h, ∀ r ∈ reg.clients h, (shim r).hexId (backendId h) = h
  isPp_eq : ∀ h, ∀ r ∈ reg.clients h, (shim r).isPpBackend (backendId h) = isPp h
  backendId_lt : ∀ h, backendId h < hexIdMapSize
  rank_perm : ∀ h, ((reg.clients h).map fun r => (shim r).rank (backendId h)).Perm
    (List.range (reg.clients h).length)

namespace Fabric

variable (f : Fabric)

/-- The number of members of a communicator. -/
def size (h : HexId) : ℕ := (f.reg.clients h).length

/-- The rank of a member within its communicator. -/
def rank (r : ℕ) (h : HexId) : ℕ := (f.shim r).rank (f.backendId h)

/-- The operation is a transfer with a neighbouring stage. -/
def neighbours (r : ℕ) (h : HexId) : Op → Bool
  | .send peer | .recv peer =>
    decide (peer < f.size h) &&
      (decide (peer = f.rank r h + 1) || decide (f.rank r h = peer + 1))
  | .allreduce | .collective => false

/-- What a member runs: transfers with a neighbour on a pipeline communicator, anything on another
one. -/
def runs (r : ℕ) (h : HexId) (op : Op) : Bool :=
  decide (r ∈ f.reg.clients h) && (!f.isPp h || f.neighbours r h op)

/-- The request of a member for its next operation. -/
def request (r : ℕ) (h : HexId) (op : Op) (k : Counters) : ConfigReq :=
  topowrite (f.shim r) (f.backendId h) (Coll.count (f.shim r) ⟨0, f.backendId h, op⟩ k)

theorem clients_nodup (h : HexId) : (f.reg.clients h).Nodup :=
  List.Nodup.of_map _ ((f.rank_perm h).nodup_iff.mpr List.nodup_range)

theorem exists_rank {h : HexId} {i : ℕ} (hi : i < f.size h) :
    ∃ r ∈ f.reg.clients h, f.rank r h = i :=
  List.mem_map.mp ((f.rank_perm h).mem_iff.mpr (List.mem_range.mpr hi))

/-- Only the first backend carries pipeline transfers. -/
theorem backendId_of_isPp {f : Fabric} {h : HexId} {r : ℕ} (hr : r ∈ f.reg.clients h)
    (hpp : f.isPp h = true) : f.backendId h = 1 := by
  have hbackend : (f.shim r).isPpBackend (f.backendId h) = true := (f.isPp_eq h r hr).trans hpp
  simp only [Shim.isPpBackend, Bool.and_eq_true, beq_iff_eq] at hbackend
  exact hbackend.2

theorem topowrite_of_isPp {f : Fabric} {h : HexId} {r cnt : ℕ} (hr : r ∈ f.reg.clients h)
    (hpp : f.isPp h = true) :
    topowrite (f.shim r) (f.backendId h) cnt =
      ⟨h, 1 + PP_BACKEND_INTERVAL * (cnt / PP_INTERVAL), cnt⟩ := by
  have hbackend : (f.shim r).isPpBackend (f.backendId h) = true := (f.isPp_eq h r hr).trans hpp
  rw [topowrite, if_pos hbackend, f.hexId_eq h r hr, backendId_of_isPp hr hpp]

theorem topowrite_of_not_isPp {f : Fabric} {h : HexId} {r cnt : ℕ} (hr : r ∈ f.reg.clients h)
    (hpp : f.isPp h = false) :
    topowrite (f.shim r) (f.backendId h) cnt =
      ⟨h, f.backendId h, cnt + (f.shim r).ppStage * PP_INTERVAL⟩ := by
  have hbackend : ¬ (f.shim r).isPpBackend (f.backendId h) = true := by
    rw [f.isPp_eq h r hr, hpp]
    exact Bool.false_ne_true
  rw [topowrite, if_neg hbackend, f.hexId_eq h r hr]

/-- The shape of a request for a communicator: its counter determines the rest. -/
structure Forms (h : HexId) (q : ConfigReq) : Prop where
  hexId : q.hexId = h
  backend : q.backend = f.backendId h +
    if f.isPp h then PP_BACKEND_INTERVAL * (q.counter / PP_INTERVAL) else 0
  size : f.isPp h = true → 2 ≤ f.size h

variable {f}

theorem Forms.eq_of_counter {h : HexId} {q q' : ConfigReq} (hq : f.Forms h q)
    (hq' : f.Forms h q') (hc : q.counter = q'.counter) : q = q' := by
  obtain ⟨hexId, backend, counter⟩ := q
  obtain ⟨hexId', backend', counter'⟩ := q'
  obtain rfl : counter = counter' := hc
  obtain rfl : hexId = hexId' := hq.hexId.trans hq'.hexId.symm
  obtain rfl : backend = backend' := hq.backend.trans hq'.backend.symm
  rfl

theorem mem_of_runs {r : ℕ} {h : HexId} {op : Op} (hr : f.runs r h op = true) :
    r ∈ f.reg.clients h := by
  simp only [runs, Bool.and_eq_true, decide_eq_true_eq] at hr
  exact hr.1

theorem rank_lt {r : ℕ} {h : HexId} (hr : r ∈ f.reg.clients h) : f.rank r h < f.size h :=
  List.mem_range.mp ((f.rank_perm h).mem_iff.mp (List.mem_map_of_mem hr))

/-- What a transfer with a neighbouring stage is. -/
theorem neighbours_cases {r : ℕ} {h : HexId} {op : Op} (hn : f.neighbours r h op = true) :
    ∃ peer < f.size h, (op = .send peer ∨ op = .recv peer) ∧
      (peer = f.rank r h + 1 ∨ f.rank r h = peer + 1) := by
  cases op with
  | allreduce => cases hn
  | collective => cases hn
  | send peer =>
    simp only [neighbours, Bool.and_eq_true, Bool.or_eq_true, decide_eq_true_eq] at hn
    exact ⟨peer, hn.1, .inl rfl, hn.2⟩
  | recv peer =>
    simp only [neighbours, Bool.and_eq_true, Bool.or_eq_true, decide_eq_true_eq] at hn
    exact ⟨peer, hn.1, .inr rfl, hn.2⟩

/-- A pipeline communicator on which a transfer runs has a neighbour. -/
theorem two_le_size {r : ℕ} {h : HexId} {op : Op} (hr : f.runs r h op = true)
    (hpp : f.isPp h = true) : 2 ≤ f.size h := by
  have hrank := rank_lt (mem_of_runs hr)
  have hn : f.neighbours r h op = true := by simpa [runs, hpp, mem_of_runs hr] using hr
  obtain ⟨peer, hpeer, -, hadj⟩ := neighbours_cases hn
  omega

theorem forms_request {r : ℕ} {h : HexId} {op : Op} (hr : f.runs r h op = true) (k : Counters) :
    f.Forms h (f.request r h op k) := by
  have hmem := mem_of_runs hr
  refine ⟨?_, ?_, two_le_size hr⟩
  · simp only [request, topowrite]
    split <;> exact f.hexId_eq h r hmem
  · simp only [request, topowrite, f.isPp_eq h r hmem]
    split <;> rfl

/-- A group is complete with the requests of all members, unless two of them suffice. -/
theorem Forms.allArrive_iff {h : HexId} {q : ConfigReq} (hq : f.Forms h q)
    (hsize : f.isPp h = true → f.size h ≤ 2) (cnt : ℕ) :
    allArrive q.backend cnt (f.size h) = true ↔ f.size h ≤ cnt := by
  have hlt := f.backendId_lt h
  have hback := hq.backend
  have hsz := hq.size
  simp only [hexIdMapSize] at hlt
  unfold allArrive
  by_cases hpp : f.isPp h = true
  · have := hsize hpp
    have := hsz hpp
    split
    · simp only [decide_eq_true_eq]
      omega
    · simp only [decide_eq_true_eq]
  · have hle : ¬ q.backend > PP_BACKEND_INTERVAL := by
      rw [hback, if_neg hpp, PP_BACKEND_INTERVAL]
      omega
    simp [hle]

end Fabric

/-! ## The system -/

/-- A call of `topowrite` that has not returned: its request, and how often that request had been
completed when it was sent. -/
structure Wait where
  req : ConfigReq
  issuedAt : ℕ
  deriving DecidableEq, Repr

/-- The controller, the shims of all ranks and the lines between them. `completed` records the
requests whose group was complete and whose reconfiguration succeeded. -/
structure AckSystem where
  ctl : Controller
  counters : ℕ → HexId → Counters
  waiting : ℕ → HexId → Option Wait
  toCtl : ℕ → List ConfigReq
  fromCtl : ℕ → List HexId
  completed : List ConfigReq

/-- The system before the first request. -/
def AckSystem.initial (initialTopology : TopoId) : AckSystem where
  ctl := .initial initialTopology
  counters := fun _ _ => ⟨0, 0, 0⟩
  waiting := fun _ _ => none
  toCtl := fun _ => []
  fromCtl := fun _ => []
  completed := []

/-- The steps of the system. -/
inductive AckAction where
  /-- a shim calls `topowrite` for an operation -/
  | topowrite (r : ℕ) (h : HexId) (op : Op)
  /-- a shim runs an operation that needs no request -/
  | pass (r : ℕ) (h : HexId) (op : Op)
  /-- the thread of a connection reads a line -/
  | accept (r : ℕ)
  /-- the thread of a connection takes its next step -/
  | advance (r : ℕ)
  /-- the thread of a connection reads the reply of the rail worker -/
  | reply (r : ℕ) (success : Bool)
  /-- a shim that waits for a communicator receives the next `n` lines -/
  | recv (r : ℕ) (h : HexId) (n : ℕ)
  deriving DecidableEq, Repr

namespace AckSystem

/-- The same system with another call of `topowrite`. -/
def withWaiting (s : AckSystem) (r : ℕ) (h : HexId) (w : Option Wait) : AckSystem :=
  { s with waiting := Function.update s.waiting r (Function.update (s.waiting r) h w) }

/-- The counters after an operation. -/
def countersAfter (f : Fabric) (s : AckSystem) (r : ℕ) (h : HexId) (op : Op) :
    ℕ → HexId → Counters :=
  Function.update s.counters r (Function.update (s.counters r) h
    ((s.counters r h).advance (op.direction (f.rank r h))))

/-- The lines to the shims after a step of a thread: an acknowledgement goes to the next client. -/
def acknowledge (s : AckSystem) (r : ℕ) : ℕ → List HexId :=
  match s.ctl.handler r with
  | .acking req (client :: _) =>
    Function.update s.fromCtl client (s.fromCtl client ++ [req.hexId])
  | _ => s.fromCtl

/-- The completed requests after a reply. -/
def complete (s : AckSystem) (r : ℕ) (success : Bool) : List ConfigReq :=
  match s.ctl.handler r with
  | .sent req _ => if success then req :: s.completed else s.completed
  | _ => s.completed

end AckSystem

/-- One step of the system. -/
def ackStep (f : Fabric) (s : AckSystem) : AckAction → Option AckSystem
  | .topowrite r h op =>
    if f.runs r h op = true ∧ s.waiting r h = none then
      let req := f.request r h op (s.counters r h)
      some { s.withWaiting r h (some ⟨req, s.completed.count req⟩) with
        counters := s.countersAfter f r h op
        toCtl := Function.update s.toCtl r (s.toCtl r ++ [req]) }
    else none
  | .pass r h op =>
    if f.runs r h op = true ∧ f.isPp h = false ∧ s.waiting r h = none then
      some { s with counters := s.countersAfter f r h op }
    else none
  | .accept r =>
    match s.toCtl r with
    | [] => none
    | req :: reqs =>
      (s.ctl.accept r req).map fun ctl =>
        { s with ctl := ctl, toCtl := Function.update s.toCtl r reqs }
  | .advance r =>
    (s.ctl.advance f.reg r).map fun ctl => { s with ctl := ctl, fromCtl := s.acknowledge r }
  | .reply r success =>
    (s.ctl.reply f.reg r success).map fun ctl =>
      { s with ctl := ctl, completed := s.complete r success }
  | .recv r h n =>
    match s.waiting r h with
    | none => none
    | some _ =>
      -- the lines behind the matching one are dropped with the buffer
      let s' := { s with fromCtl := Function.update s.fromCtl r ((s.fromCtl r).drop n) }
      some (if h ∈ (s.fromCtl r).take n then s'.withWaiting r h none else s')

/-- **A shim returns from `topowrite` only after its own request has been completed.** -/
def AckSound (f : Fabric) : Prop :=
  ∀ t0 s, Reaches (ackStep f) (.initial t0) s → ∀ r h n w, s.waiting r h = some w →
    h ∈ (s.fromCtl r).take n → w.issuedAt < s.completed.count w.req

end Opus
