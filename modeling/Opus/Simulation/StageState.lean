import Mathlib.Data.List.MinMax
import Mathlib.Data.List.Sort
import Mathlib.Data.Nat.Digits.Defs
import Mathlib.Data.Nat.Log
import Opus.Simulation.Network

/-!
# The stage state of the scheduler

The scheduler keeps one number for each pipeline stage, and asks the topology manager for the
topology whose id these numbers encode: as bits in the legacy mode, as decimal digits otherwise. In
the decimal mode requests are batched, and the stages are written when the topology manager has
accepted; the legacy mode writes them before it asks. A node with an explicit topology id writes its
decimal digits, in both modes.

## Main definitions

* `Stages`: the mode, the pipeline stages and the topologies of the circuit schedules
* `topoIdFromStageState`: the id the stages encode
* `TopoRequest`, `selectRequests`: the batch of requests of the decimal mode
* `SchedulerState.preReconfig`, `SchedulerState.postReconfig`, `SchedulerState.issueReconfig`: the
  three paths that write the stages
* `SchedulerState.Coherent`: the stages encode the installed topology, and no rejected request has
  changed them
* `KeepsStages`: the condition on a call, from the state before it

## Main results

* `coherent_step_iff`: a call keeps the stages coherent exactly when the condition holds
* `coherent_iff_keepsStages`: for runs
-/

namespace Opus.Simulation

open Transition

/-! ## Topology ids -/

/-- The configuration of `main`: the mode, the npus of each pipeline stage, the topology ids of the
circuit schedules, and the provisioning of each rank (groups with the indexes at which they
start). -/
structure Stages where
  decimal : Bool
  numNpuPerPP : ℕ
  schedules : List ℕ
  two_le : decimal = false → 2 ≤ schedules.length
  provision : ℕ → List (ℤ × List ℤ)

namespace Stages

/-- The number of pipeline stages: the number of digits of the largest topology id in the decimal
mode, the logarithm of the number of topologies otherwise. -/
def ppStages (E : Stages) : ℕ :=
  if E.decimal then Nat.log 10 (E.schedules.foldr max 0) + 1 else Nat.log 2 E.schedules.length

/-- The base of topology ids. -/
def base (E : Stages) : ℕ := if E.decimal then 10 else 2

/-- The topology `main` installs: all stages use the data-parallel topology. -/
def initialTopoId (E : Stages) : ℕ :=
  if E.decimal then (fun k => k * 10 + 1)^[E.ppStages] 0 else 0

theorem ppStages_pos (E : Stages) : 0 < E.ppStages := by
  unfold ppStages
  split
  · exact Nat.succ_pos _
  · next h => exact Nat.log_pos Nat.one_lt_two (E.two_le (by simpa using h))

/-- In the decimal mode every topology of the schedules has at most one digit for each stage. -/
theorem lt_of_mem_schedules {E : Stages} (hd : E.decimal = true) {k : ℕ} (hk : k ∈ E.schedules) :
    k < 10 ^ E.ppStages := by
  rw [ppStages, if_pos hd]
  exact (List.le_max_of_le hk le_rfl).trans_lt (Nat.lt_pow_succ_log_self (by omega) _)

end Stages

/-- `topo_id_from_stage_state`, in base ten or two: the first stage has the highest place. -/
def topoIdFromStageState (b : ℕ) (stages : List ℕ) : ℕ := Nat.ofDigits b stages.reverse

/-- The loop of `issue_reconfig` over the stages: the last stage gets the last decimal digit. -/
def writeDigits : ℕ → ℕ → List ℕ
  | 0, _ => []
  | w + 1, value => writeDigits w (value / 10) ++ [value % 10]

theorem length_writeDigits (w value : ℕ) : (writeDigits w value).length = w := by
  induction w generalizing value with
  | zero => rfl
  | succ w ih => rw [writeDigits, List.length_append, ih, List.length_singleton]

theorem topoId_writeDigits_succ (b w value : ℕ) :
    topoIdFromStageState b (writeDigits (w + 1) value) =
      value % 10 + b * topoIdFromStageState b (writeDigits w (value / 10)) := by
  rw [topoIdFromStageState, writeDigits, List.reverse_append, List.reverse_singleton,
    List.singleton_append, Nat.ofDigits_cons, topoIdFromStageState]

/-- Decimal digits encode the id they were taken from, up to the number of stages. -/
theorem topoId_writeDigits_ten (w value : ℕ) :
    topoIdFromStageState 10 (writeDigits w value) = value % 10 ^ w := by
  induction w generalizing value with
  | zero => rw [pow_zero, Nat.mod_one]; rfl
  | succ w ih => rw [topoId_writeDigits_succ, ih, Nat.pow_succ', Nat.mod_mul]

/-- Read as bits, decimal digits encode at most the id they were taken from. -/
theorem topoId_writeDigits_two_le (w value : ℕ) :
    topoIdFromStageState 2 (writeDigits w value) ≤ value := by
  induction w generalizing value with
  | zero => exact Nat.zero_le _
  | succ w ih =>
    have h := ih (value / 10)
    rw [topoId_writeDigits_succ]
    omega

/-- They encode it only when it has one digit. -/
theorem topoId_writeDigits_two_iff {w : ℕ} (hw : 0 < w) (value : ℕ) :
    topoIdFromStageState 2 (writeDigits w value) = value ↔ value < 10 := by
  obtain ⟨w, rfl⟩ := Nat.exists_eq_succ_of_ne_zero hw.ne'
  have h := topoId_writeDigits_two_le w (value / 10)
  rw [topoId_writeDigits_succ]
  constructor <;> intro hv <;> omega

/-! ## Requests -/

/-- `PendingTopoRequest`: a stage asks for a dimension; a request for the pipeline also names the
stage it sends to. -/
structure TopoRequest where
  stage : ℕ
  dim : ℕ
  dstStage : ℤ
  deriving DecidableEq, Repr

/-- The stage a pipeline request sends to, when it is one of the stages. -/
def TopoRequest.dst? (r : TopoRequest) (n : ℕ) : Option ℕ :=
  if r.dim = 0 ∧ 0 ≤ r.dstStage ∧ r.dstStage < n then some r.dstStage.toNat else none

def addPendingRequest (pending : List TopoRequest) (r : TopoRequest) : List TopoRequest :=
  if r ∈ pending then pending else pending ++ [r]

def dimPriority (dim : ℕ) : ℕ := if dim = 3 then 0 else if dim = 0 then 1 else 2 + dim

/-- `request_less`, with equality. -/
def requestLe (a b : TopoRequest) : Prop :=
  a.stage < b.stage ∨ a.stage = b.stage ∧ (dimPriority a.dim < dimPriority b.dim ∨
    dimPriority a.dim = dimPriority b.dim ∧ a.dstStage ≤ b.dstStage)

instance : DecidableRel requestLe := fun _ _ => inferInstanceAs (Decidable (_ ∨ _))

def requestSatisfied (r : TopoRequest) (stages : List ℕ) : Bool :=
  if stages.length ≤ r.stage then true
  else if stages[r.stage]? ≠ some r.dim then false
  else
    match r.dst? stages.length with
    | some d => stages[d]? = some 0
    | none => true

def applyRequest (stages : List ℕ) (r : TopoRequest) : List ℕ :=
  match r.dst? stages.length with
  | some d => (stages.set r.stage r.dim).set d 0
  | none => stages.set r.stage r.dim

/-- `request_stages`, those among the `n` stages that can be marked as touched. -/
def TopoRequest.stages (r : TopoRequest) (n : ℕ) : List ℤ :=
  (if r.dim = 0 ∧ 0 ≤ r.dstStage ∧ r.dstStage ≠ r.stage then [(r.stage : ℤ), r.dstStage]
    else [(r.stage : ℤ)]).filter fun i => 0 ≤ i ∧ i < n

/-- The loop that selects the requests of a batch: the stages it leads to, the stages it has touched
and the selected requests. -/
def selectRequests (stages : List ℕ) (pending : List TopoRequest) :
    List ℕ × List ℤ × List TopoRequest :=
  pending.foldl (fun acc r =>
    if requestSatisfied r acc.1 ∨ ∃ i ∈ r.stages stages.length, i ∈ acc.2.1 then acc
    else (applyRequest acc.1 r, r.stages stages.length ++ acc.2.1, acc.2.2 ++ [r])) (stages, [], [])

/-! ## The topology manager -/

/-- What a request to the topology manager depends on, besides the topology ids: the last field says
which topologies have the matrices that are installed. -/
structure Gate where
  reconfiguring : Bool
  inflight : Bool
  sameMatrices : ℕ → Bool

/-- `sim_reconfig`, the answer of `TopologyManager::reconfigure`; ids are decimal exactly with OPUS
routing. -/
def simReconfig (decimal : Bool) (gate : Gate) (curTopoId topoId : ℕ) (skipInflight : Bool) :
    Bool :=
  if topoId = curTopoId then !(decimal && gate.reconfiguring && !skipInflight)
  else if decimal && !gate.reconfiguring && gate.sameMatrices topoId then true
  else !((gate.reconfiguring || gate.inflight) && !skipInflight)

/-- **The answer is that of the network**, and the topology id changes exactly when the request is
accepted. -/
theorem reconfigure_eq_simReconfig {n : ℕ} (algo : RoutingAlgorithm) (T : Timing) (s : Net n)
    (bw : LinkId n → Bandwidth) (lat : LinkId n → Latency) (r : Latency) {curTopoId topoId : ℕ}
    (hcur : s.curTopoId = curTopoId) (skipInflight : Bool) :
    (s.reconfigure algo T bw lat r topoId skipInflight).1 =
        simReconfig (algo = .opus) ⟨s.reconfiguring, 0 < s.inflightColl, fun _ =>
          (∀ i j, bw (i, j) = s.bandwidths (i, j)) ∧ ∀ i j, lat (i, j) = s.latencies (i, j)⟩
          curTopoId topoId skipInflight ∧
      (s.reconfigure algo T bw lat r topoId skipInflight).2.curTopoId =
        if (s.reconfigure algo T bw lat r topoId skipInflight).1 then (topoId : ℤ) else curTopoId := by
  have hne : s.curTopoId ≠ -1 := by omega
  have hcast : (topoId : ℤ) = s.curTopoId ↔ topoId = curTopoId := by rw [hcur, Nat.cast_inj]
  by_cases he : topoId = curTopoId
  · rw [Net.reconfigure, if_pos (hcast.mpr he), simReconfig, if_pos he]
    refine ⟨?_, ?_⟩
    · cases algo <;> cases s.reconfiguring <;> cases skipInflight <;> rfl
    · rw [he, hcur, ite_self]
  · rw [Net.reconfigure, if_neg (mt hcast.mp he), simReconfig, if_neg he]
    split
    · next hal =>
      obtain ⟨ho, -, hr, hsame⟩ := hal
      simp [ho, hr, hsame]
    · next hal =>
      have hal' : ¬ ((decide (algo = .opus) && !s.reconfiguring && decide ((∀ i j,
          bw (i, j) = s.bandwidths (i, j)) ∧ ∀ i j, lat (i, j) = s.latencies (i, j))) = true) := by
        simp only [Bool.and_eq_true, Bool.not_eq_true', decide_eq_true_eq]
        exact fun h => hal ⟨h.1.1, hne, h.1.2, h.2⟩
      rw [if_neg hal']
      split
      · next hg =>
        refine ⟨?_, by simpa using hcur⟩
        obtain ⟨hg, rfl⟩ := hg
        rcases hg with hr | hi
        · simp [hr]
        · simp [hi]
      · next hg =>
        refine ⟨?_, by rw [if_pos rfl, Net.curTopoId_drainNetwork]⟩
        cases skipInflight <;> simp_all

/-! ## The scheduler -/

/-- The stages, the batch of requests with the time at which it is ready, the provisioning index of
each rank, and the installed topology. The last field records, for every request the topology
manager has rejected, the stages before and after it. -/
structure SchedulerState where
  stageDpOrPp : List ℕ
  pending : List TopoRequest
  readyTime : ℕ
  curCommIdx : ℕ → ℤ
  curTopoId : ℕ
  rejections : List (List ℕ × List ℕ)

/-- The stages a legacy request asks for: a data-parallel collective clears the bit of its stage, a
transfer sets the bits of the stages of both ends. -/
def legacyStages (E : Stages) (rank : ℕ) (cur prev : ℤ) (stages : List ℕ) : List ℕ :=
  if prev = -1 then stages.set (rank / E.numNpuPerPP) 0
  else
    let dst := cur.tdiv E.numNpuPerPP
    if 0 ≤ dst ∧ dst < E.ppStages then (stages.set (rank / E.numNpuPerPP) 1).set dst.toNat 1
    else stages.set (rank / E.numNpuPerPP) 1

/-- The batching window of topology requests, in ns. -/
def topoRequestDebounceNs : ℕ := 10000000

namespace SchedulerState

/-- The scheduler when `main` has installed the first topology. -/
def initial (E : Stages) : SchedulerState where
  stageDpOrPp := List.replicate E.ppStages (if E.decimal then 1 else 0)
  pending := []
  readyTime := 0
  curCommIdx := fun _ => -1
  curTopoId := E.initialTopoId
  rejections := []

/-- The legacy branch of `Scheduler::pre_reconfig` and `Scheduler::reconfigure`: the stages are
written before the topology manager is asked. An unknown topology ends the program. -/
def legacyReconfig (E : Stages) (gate : Gate) (s : SchedulerState) (rank : ℕ) (cur prev : ℤ)
    (skipInflight : Bool) : Option (Bool × SchedulerState) :=
  let stages := legacyStages E rank cur prev s.stageDpOrPp
  let topoId := topoIdFromStageState 2 stages
  if topoId ∈ E.schedules then
    if simReconfig false gate s.curTopoId topoId skipInflight then
      some (true, { s with stageDpOrPp := stages, curTopoId := topoId })
    else
      some (false, { s with
        stageDpOrPp := stages, rejections := s.rejections ++ [(s.stageDpOrPp, stages)] })
  else none

/-- The request of a rank in the decimal mode. -/
def request (E : Stages) (rank : ℕ) (cur prev : ℤ) : TopoRequest :=
  let dim := if prev < 0 then 1 else prev.toNat
  ⟨rank / E.numNpuPerPP, dim, if dim = 0 then cur.tdiv E.numNpuPerPP else -1⟩

/-- The decimal branch of `Scheduler::pre_reconfig`, from the batch on: the topology manager is asked
for the topology of the selected requests, and the stages are written when it accepts. -/
def batchReconfig (E : Stages) (gate : Gate) (s : SchedulerState) (now : ℕ) (r : TopoRequest)
    (skipInflight : Bool) : Option (Bool × SchedulerState) :=
  let selected := selectRequests s.stageDpOrPp s.pending
  if selected.2.2 = [] then some (requestSatisfied r s.stageDpOrPp, s)
  else
    let topoId := topoIdFromStageState 10 selected.1
    if topoId ∈ E.schedules then
      if simReconfig true gate s.curTopoId topoId skipInflight then
        let pending := s.pending.filter fun q => !requestSatisfied q selected.1
        some (requestSatisfied r selected.1, { s with
          stageDpOrPp := selected.1, curTopoId := topoId, pending := pending,
          readyTime := if pending = [] then 0 else now + topoRequestDebounceNs })
      else
        some (false, { s with
          rejections := s.rejections ++ [(s.stageDpOrPp, s.stageDpOrPp)] })
    else none

/-- The decimal branch of `Scheduler::pre_reconfig`. -/
def decimalReconfig (E : Stages) (gate : Gate) (s : SchedulerState) (now : ℕ) (r : TopoRequest)
    (skipInflight : Bool) : Option (Bool × SchedulerState) :=
  let pending := ((addPendingRequest s.pending r).insertionSort requestLe).filter
    fun q => !requestSatisfied q s.stageDpOrPp
  if pending = [] then
    some (requestSatisfied r s.stageDpOrPp, { s with pending := [], readyTime := 0 })
  else if requestSatisfied r s.stageDpOrPp then
    some (true, { s with pending := pending.erase r })
  else
    let ready :=
      if s.readyTime = 0 ∨ s.readyTime + topoRequestDebounceNs < now then
        now + topoRequestDebounceNs
      else s.readyTime
    let s := { s with pending := pending, readyTime := ready }
    if now < ready then some (false, s) else s.batchReconfig E gate now r skipInflight

/-- `Scheduler::pre_reconfig`; `prev` is the dimension that is asked for, and `cur` the destination
of a transfer. -/
def preReconfig (E : Stages) (gate : Gate) (s : SchedulerState) (now rank : ℕ) (cur prev : ℤ)
    (skipInflight : Bool) : Option (Bool × SchedulerState) :=
  if E.decimal then s.decimalReconfig E gate now (request E rank cur prev) skipInflight
  else s.legacyReconfig E gate rank cur prev skipInflight

/-- The group `post_reconfig` provisions for: the last one that starts at the index of the rank. -/
def provisioned (E : Stages) (s : SchedulerState) (rank : ℕ) (cur : ℤ) : ℤ :=
  (E.provision rank).foldl (fun t p => if s.curCommIdx rank ∈ p.2 then p.1 else t) cur

/-- `Scheduler::post_reconfig`; the answer of the request is not used. -/
def postReconfig (E : Stages) (gate : Gate) (s : SchedulerState) (now rank : ℕ) (cur : ℤ) :
    Option SchedulerState :=
  let target := s.provisioned E rank cur
  let s := { s with curCommIdx := Function.update s.curCommIdx rank (s.curCommIdx rank + 1) }
  if target = cur then some s
  else (s.preReconfig E gate now rank target (if target ≠ -1 then 1 else -1) false).map Prod.snd

/-- `Workload::issue_reconfig` for a node with a topology id. -/
def issueReconfig (E : Stages) (gate : Gate) (s : SchedulerState) (topoId : ℕ)
    (skipInflight : Bool) : Option (Bool × SchedulerState) :=
  if topoId ∈ E.schedules then
    if simReconfig E.decimal gate s.curTopoId topoId skipInflight then
      some (true, { s with
        stageDpOrPp := writeDigits s.stageDpOrPp.length topoId, curTopoId := topoId })
    else
      some (false, { s with rejections := s.rejections ++ [(s.stageDpOrPp, s.stageDpOrPp)] })
  else none

end SchedulerState

/-- A call into the scheduler, with the state of the topology manager it meets. -/
inductive SchedulerCall where
  | preReconfig (gate : Gate) (now rank : ℕ) (cur prev : ℤ) (skipInflight : Bool)
  | postReconfig (gate : Gate) (now rank : ℕ) (cur : ℤ)
  | issueReconfig (gate : Gate) (topoId : ℕ) (skipInflight : Bool)

/-- One call, by a rank of one of the stages. -/
def schedulerStep (E : Stages) (s : SchedulerState) : SchedulerCall → Option SchedulerState
  | .preReconfig gate now rank cur prev skipInflight =>
    if rank / E.numNpuPerPP < E.ppStages then
      (s.preReconfig E gate now rank cur prev skipInflight).map Prod.snd
    else none
  | .postReconfig gate now rank cur =>
    if rank / E.numNpuPerPP < E.ppStages then s.postReconfig E gate now rank cur else none
  | .issueReconfig gate topoId skipInflight =>
    (s.issueReconfig E gate topoId skipInflight).map Prod.snd

/-! ## Coherence -/

/-- The stages encode the installed topology, and no rejected request has changed the stages. -/
structure SchedulerState.Coherent (E : Stages) (s : SchedulerState) : Prop where
  topoId_eq : topoIdFromStageState E.base s.stageDpOrPp = s.curTopoId
  rejections : ∀ p ∈ s.rejections, p.1 = p.2

/-- A legacy request for another topology finds the topology manager neither reconfiguring nor with
collectives in flight, or does not ask for that. -/
def KeepsRequest (E : Stages) (s : SchedulerState) (gate : Gate) (rank : ℕ) (cur prev : ℤ)
    (skipInflight : Bool) : Prop :=
  E.decimal = false →
    topoIdFromStageState 2 (legacyStages E rank cur prev s.stageDpOrPp) = s.curTopoId ∨
      skipInflight = true ∨ (gate.reconfiguring = false ∧ gate.inflight = false)

/-- The condition on a call: in the legacy mode, a request for another topology is not made while the
topology manager is reconfiguring or has collectives in flight, and an explicit topology id has one
digit or is rejected. -/
def KeepsStages (E : Stages) (s : SchedulerState) : SchedulerCall → Prop
  | .preReconfig gate _ rank cur prev skipInflight =>
    KeepsRequest E s gate rank cur prev skipInflight
  | .postReconfig gate _ rank cur =>
    let target := s.provisioned E rank cur
    target ≠ cur → KeepsRequest E s gate rank target (if target ≠ -1 then 1 else -1) false
  | .issueReconfig gate topoId skipInflight =>
    E.decimal = false → topoId < 10 ∨
      (topoId ≠ s.curTopoId ∧ skipInflight = false ∧
        (gate.reconfiguring = true ∨ gate.inflight = true))

instance (E : Stages) (s : SchedulerState) (gate : Gate) (rank : ℕ) (cur prev : ℤ)
    (skipInflight : Bool) : Decidable (KeepsRequest E s gate rank cur prev skipInflight) :=
  inferInstanceAs (Decidable (_ → _))

instance (E : Stages) (s : SchedulerState) : ∀ a, Decidable (KeepsStages E s a)
  | .preReconfig .. => inferInstanceAs (Decidable (KeepsRequest ..))
  | .postReconfig .. => inferInstanceAs (Decidable (_ → KeepsRequest ..))
  | .issueReconfig .. => inferInstanceAs (Decidable (_ → _))

section

variable {E : Stages} {gate : Gate} {s t : SchedulerState} {now rank : ℕ} {cur prev : ℤ}
  {skipInflight : Bool}

theorem simReconfig_legacy {curTopoId topoId : ℕ} :
    simReconfig false gate curTopoId topoId skipInflight = true ↔
      topoId = curTopoId ∨ skipInflight = true ∨
        (gate.reconfiguring = false ∧ gate.inflight = false) := by
  unfold simReconfig
  split
  · next h => simp [h]
  · next h =>
    cases skipInflight <;> cases gate.reconfiguring <;> cases gate.inflight <;> simp [h]

/-! ## The stages keep their number -/

theorem length_legacyStages (E : Stages) (rank : ℕ) (cur prev : ℤ) (stages : List ℕ) :
    (legacyStages E rank cur prev stages).length = stages.length := by
  unfold legacyStages
  simp only []
  split_ifs <;> simp

theorem length_applyRequest (stages : List ℕ) (r : TopoRequest) :
    (applyRequest stages r).length = stages.length := by
  unfold applyRequest
  split <;> simp

theorem length_selectRequests (stages : List ℕ) (pending : List TopoRequest) :
    (selectRequests stages pending).1.length = stages.length := by
  unfold selectRequests
  apply List.foldlRecOn (motive := fun acc : List ℕ × List ℤ × List TopoRequest =>
    acc.1.length = stages.length) pending _ rfl
  intro acc h r _
  split
  · exact h
  · exact (length_applyRequest _ _).trans h

/-! ## The three paths -/

/-- A legacy request keeps the stages coherent exactly when it is not rejected. -/
theorem legacyReconfig_coherent (hd : E.decimal = false) (h : s.Coherent E) {b : Bool}
    (hs : s.legacyReconfig E gate rank cur prev skipInflight = some (b, t)) :
    t.stageDpOrPp.length = s.stageDpOrPp.length ∧
      (t.Coherent E ↔ KeepsRequest E s gate rank cur prev skipInflight) := by
  have hbase : E.base = 2 := by simp [Stages.base, hd]
  have hkeeps : KeepsRequest E s gate rank cur prev skipInflight ↔
      simReconfig false gate s.curTopoId
        (topoIdFromStageState 2 (legacyStages E rank cur prev s.stageDpOrPp)) skipInflight = true := by
    rw [simReconfig_legacy, KeepsRequest]
    exact ⟨fun hk => hk hd, fun hk _ => hk⟩
  rw [hkeeps]
  simp only [SchedulerState.legacyReconfig] at hs
  split at hs
  · split at hs
    · next hsim =>
      cases hs
      refine ⟨length_legacyStages .., iff_of_true ⟨?_, h.rejections⟩ hsim⟩
      rw [hbase]
    · next hsim =>
      cases hs
      refine ⟨length_legacyStages .., iff_of_false (fun hc => hsim ?_) hsim⟩
      -- had the stages not changed, the request would have been for the installed topology
      have heq := hc.rejections (s.stageDpOrPp, legacyStages E rank cur prev s.stageDpOrPp)
        (by simp)
      rw [simReconfig_legacy]
      left
      rw [← h.topoId_eq, hbase]
      exact congrArg _ heq.symm
  · cases hs

/-- A batch is coherent: the stages are written when the topology manager has accepted. -/
theorem batchReconfig_coherent (hd : E.decimal = true) (h : s.Coherent E) {r : TopoRequest} {b : Bool}
    (hs : s.batchReconfig E gate now r skipInflight = some (b, t)) :
    t.stageDpOrPp.length = s.stageDpOrPp.length ∧ t.Coherent E := by
  simp only [SchedulerState.batchReconfig] at hs
  split at hs
  · cases hs
    exact ⟨rfl, h⟩
  split at hs
  · split at hs
    · cases hs
      refine ⟨length_selectRequests .., ?_, h.rejections⟩
      simp [Stages.base, hd]
    · cases hs
      refine ⟨rfl, h.topoId_eq, fun p hp => ?_⟩
      rcases List.mem_append.mp hp with hp | hp
      · exact h.rejections p hp
      · rw [List.mem_singleton.mp hp]
  · cases hs

theorem decimalReconfig_coherent (hd : E.decimal = true) (h : s.Coherent E) {r : TopoRequest}
    {b : Bool} (hs : s.decimalReconfig E gate now r skipInflight = some (b, t)) :
    t.stageDpOrPp.length = s.stageDpOrPp.length ∧ t.Coherent E := by
  simp only [SchedulerState.decimalReconfig] at hs
  split at hs
  · cases hs
    exact ⟨rfl, h.topoId_eq, h.rejections⟩
  split at hs
  · cases hs
    exact ⟨rfl, h.topoId_eq, h.rejections⟩
  generalize hready : (if s.readyTime = 0 ∨ s.readyTime + topoRequestDebounceNs < now then
    now + topoRequestDebounceNs else s.readyTime) = ready at hs
  split at hs
  · cases hs
    exact ⟨rfl, h.topoId_eq, h.rejections⟩
  · exact batchReconfig_coherent (s := { s with pending := _, readyTime := ready }) hd
      ⟨h.topoId_eq, h.rejections⟩ hs

theorem preReconfig_coherent (h : s.Coherent E) {b : Bool}
    (hs : s.preReconfig E gate now rank cur prev skipInflight = some (b, t)) :
    t.stageDpOrPp.length = s.stageDpOrPp.length ∧
      (t.Coherent E ↔ KeepsRequest E s gate rank cur prev skipInflight) := by
  unfold SchedulerState.preReconfig at hs
  split at hs
  · next hd =>
    obtain ⟨hl, hc⟩ := decimalReconfig_coherent hd h hs
    exact ⟨hl, iff_of_true hc fun hd' => absurd (hd.symm.trans hd') (by simp)⟩
  · next hd => exact legacyReconfig_coherent (by simpa using hd) h hs

/-- The provisioning index of the rank does not matter for a request. -/
theorem postReconfig_coherent (h : s.Coherent E)
    (hs : s.postReconfig E gate now rank cur = some t) :
    t.stageDpOrPp.length = s.stageDpOrPp.length ∧
      (t.Coherent E ↔ KeepsStages E s (.postReconfig gate now rank cur)) := by
  simp only [SchedulerState.postReconfig] at hs
  split at hs
  · next ht =>
    cases hs
    exact ⟨rfl, iff_of_true ⟨h.topoId_eq, h.rejections⟩ fun hne => absurd ht hne⟩
  · next ht =>
    obtain ⟨⟨b, u⟩, hu, rfl⟩ := Option.map_eq_some_iff.mp hs
    obtain ⟨hl, hc⟩ := preReconfig_coherent
      (s := { s with curCommIdx := Function.update s.curCommIdx rank (s.curCommIdx rank + 1) })
      ⟨h.topoId_eq, h.rejections⟩ hu
    exact ⟨hl, hc.trans ⟨fun hk _ => hk, fun hk => hk ht⟩⟩

theorem issueReconfig_coherent (h : s.Coherent E) (hl : s.stageDpOrPp.length = E.ppStages)
    {topoId : ℕ} {b : Bool} (hs : s.issueReconfig E gate topoId skipInflight = some (b, t)) :
    t.stageDpOrPp.length = s.stageDpOrPp.length ∧
      (t.Coherent E ↔ KeepsStages E s (.issueReconfig gate topoId skipInflight)) := by
  unfold SchedulerState.issueReconfig at hs
  split at hs
  · next hmem =>
    split at hs
    · next hsim =>
      cases hs
      refine ⟨length_writeDigits _ _, ?_⟩
      have hcoh : ∀ {P : Prop}, (topoIdFromStageState E.base
          (writeDigits s.stageDpOrPp.length topoId) = topoId ↔ P) →
          (({ s with stageDpOrPp := writeDigits s.stageDpOrPp.length topoId, curTopoId := topoId } :
            SchedulerState).Coherent E ↔ P) :=
        fun hP => Iff.trans ⟨fun hc => hc.topoId_eq, fun he => ⟨he, h.rejections⟩⟩ hP
      apply hcoh
      cases hd : E.decimal with
      | true =>
        -- every topology of the schedules has a digit for each stage
        refine iff_of_true ?_ fun hd' => absurd (hd.symm.trans hd') (by simp)
        rw [Stages.base, if_pos hd, hl, topoId_writeDigits_ten]
        exact Nat.mod_eq_of_lt (Stages.lt_of_mem_schedules hd hmem)
      | false =>
        rw [Stages.base, if_neg (by simp [hd]),
          topoId_writeDigits_two_iff (hl ▸ E.ppStages_pos) topoId]
        rw [hd, simReconfig_legacy] at hsim
        refine ⟨fun hlt _ => .inl hlt, fun hk => (hk hd).resolve_right ?_⟩
        rintro ⟨hne, hskip, hgate⟩
        rcases hsim with he | hs | ⟨hr, hi⟩
        · exact hne he
        · simp [hskip] at hs
        · simp [hr, hi] at hgate
    · next hsim =>
      cases hs
      refine ⟨rfl, iff_of_true ⟨h.topoId_eq, fun p hp => ?_⟩ fun hd => .inr ?_⟩
      · rcases List.mem_append.mp hp with hp | hp
        · exact h.rejections p hp
        · rw [List.mem_singleton.mp hp]
      · rw [hd, simReconfig_legacy] at hsim
        simp only [not_or, not_and, Bool.not_eq_true, Bool.not_eq_false] at hsim
        refine ⟨hsim.1, hsim.2.1, ?_⟩
        cases hr : gate.reconfiguring with
        | true => exact .inl rfl
        | false => exact .inr (hsim.2.2 hr)
  · cases hs

/-- **One call**: from a coherent state, the stages are coherent after the call exactly when the
condition on the call holds. -/
theorem coherent_step_iff {a : SchedulerCall} (h : s.Coherent E)
    (hl : s.stageDpOrPp.length = E.ppStages) (hs : schedulerStep E s a = some t) :
    t.stageDpOrPp.length = E.ppStages ∧ (t.Coherent E ↔ KeepsStages E s a) := by
  cases a with
  | preReconfig gate now rank cur prev skipInflight =>
    simp only [schedulerStep] at hs
    split at hs
    · obtain ⟨⟨b, u⟩, hu, rfl⟩ := Option.map_eq_some_iff.mp hs
      obtain ⟨hl', hc⟩ := preReconfig_coherent h hu
      exact ⟨hl'.trans hl, hc⟩
    · cases hs
  | postReconfig gate now rank cur =>
    simp only [schedulerStep] at hs
    split at hs
    · obtain ⟨hl', hc⟩ := postReconfig_coherent h hs
      exact ⟨hl'.trans hl, hc⟩
    · cases hs
  | issueReconfig gate topoId skipInflight =>
    obtain ⟨⟨b, u⟩, hu, rfl⟩ := Option.map_eq_some_iff.mp hs
    obtain ⟨hl', hc⟩ := issueReconfig_coherent h hl hu
    exact ⟨hl'.trans hl, hc⟩

end

/-! ## Runs -/

theorem coherent_initial (E : Stages) :
    (SchedulerState.initial E).Coherent E ∧
      (SchedulerState.initial E).stageDpOrPp.length = E.ppStages := by
  refine ⟨⟨?_, fun p hp => absurd hp List.not_mem_nil⟩, List.length_replicate⟩
  have hten : ∀ w, topoIdFromStageState 10 (List.replicate w 1) = (fun k => k * 10 + 1)^[w] 0 := by
    intro w
    induction w with
    | zero => rfl
    | succ w ih =>
      rw [Function.iterate_succ_apply', ← ih, topoIdFromStageState, topoIdFromStageState,
        List.reverse_replicate, List.reverse_replicate, List.replicate_succ, Nat.ofDigits_cons]
      simp only [Nat.add_comm, Nat.mul_comm]
  have htwo : ∀ w, topoIdFromStageState 2 (List.replicate w 0) = 0 := by
    intro w
    rw [topoIdFromStageState, List.reverse_replicate, Nat.ofDigits_replicate_zero]
  cases hd : E.decimal with
  | true => simp [SchedulerState.initial, Stages.base, Stages.initialTopoId, hd, hten]
  | false => simp [SchedulerState.initial, Stages.base, Stages.initialTopoId, hd, htwo]

/-- **The stages always encode the installed topology exactly when every call meets the condition**:
for every configuration and every run, all states of the run are coherent if and only if no legacy
request for another topology is made while the topology manager is reconfiguring or has collectives
in flight, and no explicit id of several digits is accepted in the legacy mode. -/
theorem coherent_iff_keepsStages (E : Stages) {as : List SchedulerCall} {s : SchedulerState}
    (hrun : run (schedulerStep E) (SchedulerState.initial E) as = some s) :
    (∀ bs, bs <+: as → ∀ t, run (schedulerStep E) (SchedulerState.initial E) bs = some t →
      t.Coherent E) ↔ Along (schedulerStep E) (KeepsStages E) (SchedulerState.initial E) as :=
  forall_prefix_iff_along (fun _ _ _ h hl hs => (coherent_step_iff h hl hs)) hrun
    (coherent_initial E).1 (coherent_initial E).2

/-- Two stages of one npu each, with all bitmask topologies. -/
def legacyPair : Stages where
  decimal := false
  numNpuPerPP := 1
  schedules := [0, 1, 2, 3]
  two_le := by decide
  provision := fun _ => []

/-- The topology manager, without and with a collective in flight. -/
def idleGate : Gate := ⟨false, false, fun _ => false⟩

def busyGate : Gate := ⟨false, true, fun _ => false⟩

/-- A transfer from rank `0` to rank `1` and a collective of rank `1`, each when the topology manager
is idle, with an explicit topology between them. -/
def idleCalls : List SchedulerCall :=
  [.preReconfig idleGate 0 0 1 0 false, .issueReconfig idleGate 2 false,
    .preReconfig idleGate 0 1 5 (-1) false]

theorem coherent_idleCalls :
    ∃ s, run (schedulerStep legacyPair) (SchedulerState.initial legacyPair) idleCalls = some s ∧
      s.Coherent legacyPair := by
  have hsome : (run (schedulerStep legacyPair) (SchedulerState.initial legacyPair) idleCalls).isSome =
      true := by
    decide +kernel
  have hkeeps : Along (schedulerStep legacyPair) (KeepsStages legacyPair)
      (SchedulerState.initial legacyPair) idleCalls := by
    decide +kernel
  obtain ⟨s, hs⟩ := Option.isSome_iff_exists.mp hsome
  exact ⟨s, hs, (coherent_iff_keepsStages legacyPair hs).mpr hkeeps _ List.prefix_rfl s hs⟩

/-- Rank `0` asks for a transfer to rank `1` while a collective is in flight. -/
def busyCalls : List SchedulerCall := [.preReconfig busyGate 0 0 1 0 false]

/-- The request is rejected and the first topology stays installed, but both stages are marked for
the pipeline. -/
theorem not_coherent_busyCalls :
    ∃ s, run (schedulerStep legacyPair) (SchedulerState.initial legacyPair) busyCalls = some s ∧
      s.curTopoId = 0 ∧ s.rejections = [([0, 0], [1, 1])] ∧
      topoIdFromStageState 2 s.stageDpOrPp = 3 ∧ ¬ s.Coherent legacyPair := by
  have hrun : (run (schedulerStep legacyPair) (SchedulerState.initial legacyPair) busyCalls).map
      (fun s => (s.curTopoId, s.rejections, s.stageDpOrPp)) =
        some (0, [([0, 0], [1, 1])], [1, 1]) := by
    decide +kernel
  obtain ⟨s, hs, he⟩ := Option.map_eq_some_iff.mp hrun
  simp only [Prod.mk.injEq] at he
  obtain ⟨hcur, hrej, hst⟩ := he
  refine ⟨s, hs, hcur, hrej, ?_, fun hc => ?_⟩
  · rw [hst]
    decide
  · have heq := hc.rejections ([0, 0], [1, 1]) (by simp [hrej])
    simp at heq

end Opus.Simulation
