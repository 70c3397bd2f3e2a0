import Mathlib.Data.List.Dedup
import Opus.Simulation.Feeder
import Opus.Simulation.StageDigits
import Opus.Simulation.Vote

/-!
# The issue loop of the workloads

A rank tries to issue the nodes that were free when its loop started, one after the other. A node
is taken and occupies the hardware before it is issued; when it is refused it is given back. The
member that starts a collective as the leader of its group calls the loops of the other members
from its own, so loops of several ranks, and several loops of one rank, can be on the stack.

The machine makes one step of the innermost call at a time. The topology manager, the clock and the
order in which operations end are given with the actions.

## Main definitions

* `SimConfig`: the traces, groups and topologies
* `SimState`, `Frame`: the state, with the stack of calls
* `issue`, `issueReconfig`, `issueCollComm`, `issueSendComm`: the functions of `Workload`
* `simStep`: one step
-/

namespace Opus.Simulation

open TaskGraph

/-! ## Configuration -/

/-- The ranks with their traces, the communicator groups with the topologies they are mapped to, and
the modes of the system. `compTime` is the time of a computation under the roofline model. -/
structure SimConfig where
  stages : Stages
  npus : ℕ
  trace : ℕ → Trace
  group : ℕ → CommGroup ℕ
  commToTopo : ℕ → List ℕ
  replayOnly : Bool
  rooflineEnabled : Bool
  compTime : Node → ℕ

/-- `is_contiguous_comm_group`; the members of a group are distinct. -/
def isContiguousCommGroup (C : CommGroup ℕ) : Bool :=
  match C.involvedNPUs with
  | [] => false
  | npu :: npus => npus.foldl max npu + 1 = npus.foldl min npu + C.involvedNPUs.length

namespace SimConfig

variable (S : SimConfig)

/-- `is_topology_agnostic_tp_group`. -/
def isTopologyAgnosticTpGroup (g : ℕ) (explicitReconfig : Bool) : Bool :=
  if explicitReconfig ∨ (S.commToTopo g).length ≠ S.stages.schedules.length then false
  else !S.stages.decimal || isContiguousCommGroup (S.group g)

/-- A collective that neither votes nor asks the scheduler. -/
def skipsVote (node : Node) : Bool :=
  S.isTopologyAgnosticTpGroup node.group (node.reconfigTopoId.isSome || node.reconfigDim.isSome) ||
    node.skipSchedulerReconfig

def epTopoId : ℕ := if S.stages.decimal ∧ 3 ∈ S.stages.schedules then 3 else 0

/-- The dimension a collective asks for. -/
def collDim (r : ℕ) (node : Node) : ℤ :=
  match node.reconfigDim with
  | some dim => dim
  | none =>
    let hasDigit := hasStageDigit S.stages.ppStages (r / S.stages.numNpuPerPP)
      (S.commToTopo node.group)
    if S.epTopoId ≠ 0 ∧ hasDigit S.epTopoId ∧ ¬ hasDigit 1 then S.epTopoId else -1

/-- The dimension a send asks for. -/
def sendDim (r : ℕ) (node : Node) : ℤ :=
  match node.reconfigDim with
  | some dim => dim
  | none => if node.peer / S.stages.numNpuPerPP ≠ r / S.stages.numNpuPerPP then 0 else -1

/-- The node ends as soon as it is issued. -/
def skipsAtOnce (node : Node) : Bool :=
  !S.replayOnly &&
    (node.type = .invalid || node.type = .metadata ||
      (node.type = .comp && S.rooflineEnabled && !node.isCpuOp && node.tensorSize = 0))

end SimConfig

/-- The time of a replayed node in ns; its own is in µs. -/
def Node.replayTime (node : Node) : ℕ := if node.runtime ≠ 0 then node.runtime * 1000 else 1

/-! ## State -/

/-- A failed assertion or an exception. -/
inductive Fault where
  | takeNode
  | occupy
  | release
  | pushBackNode
  | finishNode
  deriving DecidableEq, Repr

/-- The resolver and the hardware of a rank, and the issued nodes whose end it waits for. The last
three fields count how often each node has been taken, pushed back and finished. -/
structure RankState where
  resolver : DependancyResolver
  hardware : HardwareResource
  awaiting : List ℕ
  taken : ℕ → ℕ
  pushedBack : ℕ → ℕ
  finished : ℕ → ℕ

namespace RankState

def initial (T : Trace) : RankState :=
  ⟨.ofTrace T, .idle, [], fun _ => 0, fun _ => 0, fun _ => 0⟩

/-- The set of free nodes over which the loop runs, in the order of their ids. -/
def dependancyFreeNodesSet (x : RankState) : List ℕ :=
  x.resolver.dependancyFreeNodes.dedup.insertionSort (· ≤ ·)

/-- The node is taken and occupies the hardware. -/
def take (x : RankState) (node : Node) : Except Fault RankState :=
  match x.resolver.takeNode node.id with
  | none => .error .takeNode
  | some resolver =>
    match x.hardware.occupy node with
    | none => .error .occupy
    | some hardware => .ok { x with
        resolver := resolver, hardware := hardware
        taken := Function.update x.taken node.id (x.taken node.id + 1) }

/-- The node is refused. -/
def giveBack (x : RankState) (node : Node) : Except Fault RankState :=
  match x.hardware.release node with
  | none => .error .release
  | some hardware =>
    match x.resolver.pushBackNode node.id with
    | none => .error .pushBackNode
    | some resolver => .ok { x with
        resolver := resolver, hardware := hardware
        pushedBack := Function.update x.pushedBack node.id (x.pushedBack node.id + 1) }

/-- The node ends without having been awaited: `Workload::skip_invalid`. -/
def skipInvalid (x : RankState) (node : Node) : Except Fault RankState :=
  match x.resolver.finishNode node.id with
  | none => .error .finishNode
  | some resolver =>
    match x.hardware.release node with
    | none => .error .release
    | some hardware => .ok { x with
        resolver := resolver, hardware := hardware
        finished := Function.update x.finished node.id (x.finished node.id + 1) }

/-- The awaited end of a node: the last part of `Workload::call`. -/
def complete (x : RankState) (node : Node) : Except Fault RankState :=
  match x.hardware.release node with
  | none => .error .release
  | some hardware =>
    match x.resolver.finishNode node.id with
    | none => .error .finishNode
    | some resolver => .ok { x with
        resolver := resolver, hardware := hardware, awaiting := x.awaiting.erase node.id
        finished := Function.update x.finished node.id (x.finished node.id + 1) }

def await (x : RankState) (n : ℕ) : RankState := { x with awaiting := n :: x.awaiting }

end RankState

/-- The calls on the stack: the issue loop of a rank with the rest of its nodes, the loop of a
leader over the other members with the wake-up after each of them, and the rest of `issue_coll_comm`. -/
inductive Frame where
  | loop (r : ℕ) (rest : List ℕ)
  | wake (npus : List ℕ)
  | wakeUp (npu : ℕ)
  | generate (r n : ℕ)
  deriving DecidableEq, Repr

/-- What a step schedules: a wake-up of a rank, or the end of a computation. -/
inductive Effect where
  | wakeUp (r delta : ℕ)
  | register (r n delta : ℕ)
  deriving DecidableEq, Repr

/-- The state of all ranks. `effects` is what the last step has scheduled, `runs` counts the issue
loops of each rank, and `refused` are the nodes that wait for another attempt. -/
structure SimState where
  rank : ℕ → RankState
  group : ℕ → GroupState ℕ
  scheduler : SchedulerState
  inflightColl : ℤ
  stack : List Frame
  effects : List Effect
  runs : ℕ → ℕ
  refused : ℕ → List ℕ
  fault : Option Fault

namespace SimState

def initial (S : SimConfig) (scheduler : SchedulerState) : SimState where
  rank r := .initial (S.trace r)
  group _ := .initial ℕ
  scheduler := scheduler
  inflightColl := 0
  stack := []
  effects := []
  runs _ := 0
  refused _ := []
  fault := none

def setRank (s : SimState) (r : ℕ) (x : RankState) : SimState :=
  { s with rank := Function.update s.rank r x }

def emit (s : SimState) (effects : List Effect) : SimState :=
  { s with effects := s.effects ++ effects }

/-- A step of a rank; a fault ends the run. -/
def onRank (s : SimState) (r : ℕ) (f : RankState → Except Fault RankState) : SimState :=
  match f (s.rank r) with
  | .error fault => { s with fault := some fault }
  | .ok x => s.setRank r x

/-- `Workload::issue_dep_free_nodes` is called. -/
def enter (s : SimState) (r : ℕ) : SimState :=
  { s with
    stack := .loop r (s.rank r).dependancyFreeNodesSet :: s.stack
    runs := Function.update s.runs r (s.runs r + 1) }

def markRefused (s : SimState) (r n : ℕ) : SimState :=
  { s with refused := Function.update s.refused r ((s.refused r).insert n) }

def clearRefused (s : SimState) (r n : ℕ) : SimState :=
  { s with refused := Function.update s.refused r ((s.refused r).filter (· ≠ n)) }

/-- The node has been issued and its end is awaited. -/
def await (s : SimState) (r n : ℕ) : SimState :=
  (s.clearRefused r n).setRank r ((s.rank r).await n)

/-- The node is given back. -/
def refuse (s : SimState) (r : ℕ) (node : Node) : SimState :=
  (s.markRefused r node.id).onRank r fun x => x.giveBack node

/-- The end of a computation is registered. -/
def register (s : SimState) (r : ℕ) (node : Node) (runtime : ℕ) : SimState :=
  (s.emit [.register r node.id runtime]).await r node.id

end SimState

/-- The time after which a refused node wakes its rank, in ns. -/
def retryDelay : ℕ := 100000

/-! ## Issuing a node -/

section Issue

variable (S : SimConfig) (gate : Gate) (now : ℕ)

/-- `Workload::issue_reconfig`: a computation with a dimension asks the scheduler, and a node with a
topology id the topology manager. A refused node wakes its rank later. -/
def issueReconfig (s : SimState) (r : ℕ) (node : Node) : Option (Bool × SimState) :=
  let answer :=
    match if node.type = .comp then node.reconfigDim else none with
    | some dim => s.scheduler.preReconfig S.stages gate now r (-1) dim node.reconfigSkipInflight
    | none =>
      match node.reconfigTopoId with
      | none => some (true, s.scheduler)
      | some topoId =>
        s.scheduler.issueReconfig S.stages gate topoId node.reconfigSkipInflight
  answer.map fun (canConfig, scheduler) =>
    if canConfig then (true, { s with scheduler := scheduler })
    else (false, (({ s with scheduler := scheduler }).markRefused r node.id).emit
      [.wakeUp r retryDelay])

/-- `Workload::issue_coll_comm`: the vote, and the question to the scheduler by the member that
finds the round open. When it is granted, this member is the leader and calls the other members. -/
def issueCollComm (s : SimState) (r : ℕ) (node : Node) : Option SimState :=
  let g := node.group
  if S.skipsVote node then some (s.await r node.id)
  else
    let others := (S.group g).involvedNPUs.filter (· ≠ r)
    let voted := (s.group g).vote r
    let asks := voted.checkVote (S.group g) r && voted.voteRounds = voted.finishRounds
    -- a node with an explicit topology has asked before
    let answer :=
      if asks && node.reconfigTopoId.isNone then
        s.scheduler.preReconfig S.stages gate now r g (S.collDim r node) false
      else some (true, s.scheduler)
    answer.map fun (granted, scheduler) =>
      let (attempt, group) := (s.group g).issueCollComm (S.group g) r granted
      let s := { s with scheduler := scheduler, group := Function.update s.group g group }
      -- a vote wakes the other members, in the decimal mode
      let s := s.emit (if S.stages.decimal then others.map fun npu => .wakeUp npu 0 else [])
      match attempt with
      | .blocked =>
        -- without all votes the rank waits for the others
        (s.emit (if asks && S.stages.decimal then [.wakeUp r retryDelay] else [])).refuse r node
      | .follows => s.await r node.id
      | .leads =>
        let s := ({ s with inflightColl := s.inflightColl + 1 }).clearRefused r node.id
        if S.stages.decimal then
          { s with stack := .wake others :: .generate r node.id :: s.stack }
        else s.await r node.id

/-- `Workload::issue_send_comm`. -/
def issueSendComm (s : SimState) (r : ℕ) (node : Node) : Option SimState :=
  let answer :=
    if node.skipSchedulerReconfig then some (true, s.scheduler)
    else s.scheduler.preReconfig S.stages gate now r node.peer (S.sendDim r node) false
  answer.map fun (granted, scheduler) =>
    let s := { s with scheduler := scheduler }
    if granted then
      ({ s with
        inflightColl := if S.stages.decimal then s.inflightColl + 1 else s.inflightColl }).await r
          node.id
    else (s.emit [.wakeUp r retryDelay]).refuse r node

/-- The node is taken, and is issued by its type. A communication on the cpu ends the program. -/
def issueTaken (s : SimState) (r : ℕ) (node : Node) : Option SimState :=
  if S.replayOnly then some (s.register r node node.replayTime)
  else
    match node.type with
    | .memLoad | .memStore => some (s.await r node.id)
    | .comp =>
      if S.rooflineEnabled && !node.isCpuOp then
        if node.tensorSize = 0 then some (s.onRank r fun x => x.skipInvalid node)
        else some (s.register r node (S.compTime node))
      else some (s.register r node node.replayTime)
    | .commColl => if node.isCpuOp then none else issueCollComm S gate now s r node
    | .commSend => if node.isCpuOp then none else issueSendComm S gate now s r node
    | .commRecv => if node.isCpuOp then none else some (s.await r node.id)
    | .invalid | .metadata => some (s.onRank r fun x => x.skipInvalid node)

/-- `Workload::issue`. -/
def issue (s : SimState) (r : ℕ) (node : Node) : Option SimState :=
  (issueReconfig S gate now s r node).bind fun (canConfig, s) =>
    if canConfig then
      let s := s.onRank r fun x => x.take node
      if s.fault.isSome then some s else issueTaken S gate now s r node
    else some s

/-! ## The end of a node -/

/-- `Scheduler::post_reconfig`, called at the end of a communication in the legacy mode only. -/
def provisionNext (s : SimState) (r : ℕ) (cur : ℤ) : Option SimState :=
  if S.stages.decimal then some s
  else
    (s.scheduler.postReconfig S.stages gate now r cur).map fun scheduler =>
      { s with scheduler := scheduler }

/-- The round of the group of a collective; when it is closed, its members are woken. -/
def finishRound (s : SimState) (r g : ℕ) : SimState :=
  let (closed, group) := (s.group g).collectiveFinished (S.group g) r
  let s := { s with group := Function.update s.group g group }
  if closed then
    ({ s with inflightColl := s.inflightColl - 1 }).emit
      (if S.stages.decimal then (S.group g).involvedNPUs.map fun npu => .wakeUp npu 0 else [])
  else s

/-- What the end of a communication changes outside its rank. -/
def finishComm (s : SimState) (r : ℕ) (node : Node) : Option SimState :=
  match node.type with
  | .commColl =>
    provisionNext S gate now (if S.skipsVote node then s else finishRound S s r node.group) r
      (if (S.commToTopo node.group).length = S.stages.schedules.length then -2 else -1)
  | .commSend =>
    provisionNext S gate now
      { s with inflightColl := if S.stages.decimal then s.inflightColl - 1 else s.inflightColl } r
      node.peer
  | .commRecv => provisionNext S gate now s r node.peer
  | _ => some s

/-- `Workload::call` for an awaited node; the loop of the rank is called at its end. -/
def callFinished (s : SimState) (r : ℕ) (node : Node) : Option SimState :=
  (if S.replayOnly then some s else finishComm S gate now s r node).map fun s =>
    let s := s.onRank r fun x => x.complete node
    if s.fault.isSome then s else s.enter r

end Issue

/-! ## Steps -/

/-- A call of the issue loop from outside, the end of an awaited node, and one step of the innermost
call. -/
inductive SimAct where
  | issueDepFreeNodes (r : ℕ)
  | finished (gate : Gate) (now r n : ℕ)
  | resume (gate : Gate) (now : ℕ)

/-- One step. Calls from outside find an empty stack. -/
def simStep (S : SimConfig) (s : SimState) (act : SimAct) : Option SimState :=
  if s.fault.isSome then none
  else
    let s := { s with effects := [] }
    match act, s.stack with
    | .issueDepFreeNodes r, [] => if r < S.npus then some (s.enter r) else none
    | .finished gate now r n, [] =>
      if n ∈ (s.rank r).awaiting then
        ((S.trace r).lookupNode n).bind fun node => callFinished S gate now s r node
      else none
    | .resume gate now, .loop r (n :: rest) :: stack =>
      let s := { s with stack := .loop r rest :: stack }
      ((S.trace r).lookupNode n).bind fun node =>
        if (s.rank r).hardware.isAvailable node then issue S gate now s r node else some s
    | .resume _ _, .loop _ [] :: stack => some { s with stack := stack }
    | .resume _ _, .wake (npu :: npus) :: stack =>
      some (({ s with stack := .wakeUp npu :: .wake npus :: stack }).enter npu)
    | .resume _ _, .wake [] :: stack => some { s with stack := stack }
    | .resume _ _, .wakeUp npu :: stack =>
      some (({ s with stack := stack }).emit [.wakeUp npu 0])
    | .resume _ _, .generate r n :: stack => some (({ s with stack := stack }).await r n)
    | _, _ => none

end Opus.Simulation
