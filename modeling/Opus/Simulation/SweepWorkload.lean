import Mathlib.Logic.Function.Basic
import Opus.Simulation.SweepTopology

/-!
# The workloads of the expert-parallel sweep

`generate_workload` writes one trace for each rank: the receives of the activations, the forward
layers of all microbatches, the receives of the gradients, and the backward layers in the opposite
order. Nodes are numbered in the order in which they are written, and depend on nodes written
before.

## Main definitions

* `SweepNode`, `SweepOp`: the nodes, with what they do
* `WorkloadShape`, `workloadShape`: sizes and times
* `Cursor`: the file of a rank, with the ids that the next node depends on
* `Generator.writeForwardLayer`, `Generator.writeBackwardLayer`, `Generator.rankTrace`,
  `generateWorkload`: the generator
-/

namespace Opus.Simulation

/-! ## Nodes -/

/-- The two kinds of transfers between stages: activations to the next, gradients to the
previous. -/
inductive Transfer where
  | activation
  | grad
  deriving DecidableEq, Repr

/-- The last part of a node's name. -/
inductive Part where
  | dpAgAttn | attnFwd | tpArFwd | routerFwd | epDispatchFwd | expertFwd | epCombineFwd
  | epCombineBwd | expertBwd | epDispatchBwd | topoSwitchToDp | routerBwd | attnBwd | tpArBwd
  | dpRsAttn | dpRsExpert | dpAgExpert
  | ppRecv (t : Transfer)
  | ppSend (t : Transfer)
  deriving DecidableEq, Repr

/-- A node's name: its microbatch, its layer when it has one, and the part. -/
structure NodeName where
  mb : ℕ
  layer : Option ℕ
  part : Part
  deriving DecidableEq, Repr

inductive CollType where
  | allReduce
  | allToAll
  | allGather
  | reduceScatter
  deriving DecidableEq, Repr

/-- What a node does. A computation has its time in µs and may switch to a topology; a collective
has its group, its size, a dimension and the key of its loads. -/
inductive SweepOp where
  | comp (us : ℕ) (reconfigTopoId : Option ℕ)
  | coll (type : CollType) (pg size : ℕ) (reconfigDim : Option ℕ) (all2allvLoadKey : Option ℕ)
  | send (src dst size tag : ℕ)
  | recv (src dst size tag : ℕ)
  deriving DecidableEq, Repr

structure SweepNode where
  id : ℕ
  name : NodeName
  op : SweepOp
  dataDeps : List ℕ
  deriving DecidableEq, Repr

/-! ## Sizes -/

/-- The operations on floating point numbers: the time of a number of operations, or nothing when
the throughput is zero; the expert of a choice at a position of the context; and a rounded quotient. -/
structure Floats where
  flopsToUs : ℕ → Option ℕ
  expertAt : ℕ → ℕ → ℕ
  roundDiv : ℕ → ℕ → ℕ

/-- The fields of `WorkloadShape` that the workload uses. -/
structure WorkloadShape where
  rps : ℕ
  gpn : ℕ
  pp : ℕ
  total : ℕ
  layersPerStage : ℕ
  microbatches : ℕ
  localSeq : ℕ
  seqLen : ℕ
  numExperts : ℕ
  topK : ℕ
  attnComputeUs : ℕ
  routerComputeUs : ℕ
  expertComputeUs : ℕ
  commSize : ℕ
  attnGradSize : ℕ
  expertGradSize : ℕ

section

variable (F : Floats) (cfg : SweepConfig) (epSize : ℕ)

def globalMicrobatchTokens : ℕ := cfg.globalBatchSize / cfg.microbatches * cfg.seqLen

def localSeq : ℕ := globalMicrobatchTokens cfg / cfg.ranksPerStage

def epExperts : ℕ := max 1 (cfg.numExperts / epSize)

def attnFlops : ℕ :=
  let seq := localSeq cfg
  let heads := cfg.numHeads / cfg.gpusPerNode
  2 * seq * cfg.dModel * (cfg.kvLoraRank + cfg.qkRopeDim) +
    2 * seq * cfg.kvLoraRank * heads * (cfg.vHeadDim + cfg.qkHeadDim + cfg.qkRopeDim) +
    2 * seq * cfg.dModel * (cfg.qLoraRank / cfg.gpusPerNode) +
    2 * seq * (cfg.qLoraRank / cfg.gpusPerNode) * (heads * cfg.qkHeadDim) +
    2 * seq * cfg.seqLen * heads * cfg.qkHeadDim +
    2 * seq * cfg.seqLen * heads * cfg.vHeadDim +
    2 * seq * (heads * cfg.vHeadDim) * (cfg.dModel / cfg.gpusPerNode)

def routerFlops : ℕ := 2 * localSeq cfg * cfg.dModel * epExperts cfg epSize

def tokensPostDispatch : ℕ :=
  globalMicrobatchTokens cfg * cfg.topK / cfg.numExperts * epExperts cfg epSize

def expertFlops : ℕ := 2 * 2 * tokensPostDispatch cfg epSize * cfg.dModel * cfg.expertDFF

def mlaParamsTotal : ℕ :=
  cfg.dModel * (cfg.kvLoraRank + cfg.qkRopeDim) +
    cfg.kvLoraRank * cfg.numHeads * (cfg.vHeadDim + cfg.qkHeadDim + cfg.qkRopeDim) +
    cfg.dModel * cfg.qLoraRank +
    cfg.qLoraRank * cfg.numHeads * (cfg.qkHeadDim + cfg.qkRopeDim) +
    cfg.numHeads * cfg.vHeadDim * cfg.dModel

/-- `WorkloadShape.__init__`; a division by zero raises. -/
def workloadShape : Option WorkloadShape :=
  if cfg.numExperts = 0 then none
  else do
    let attnComputeUs ← F.flopsToUs (attnFlops cfg)
    let routerComputeUs ← F.flopsToUs (routerFlops cfg epSize)
    let expertComputeUs ← F.flopsToUs (expertFlops cfg epSize)
    return {
      rps := cfg.ranksPerStage
      gpn := cfg.gpusPerNode
      pp := cfg.pp
      total := cfg.totalGpus
      layersPerStage := cfg.layersPerStage
      microbatches := cfg.microbatches
      localSeq := localSeq cfg
      seqLen := cfg.seqLen
      numExperts := cfg.numExperts
      topK := cfg.topK
      attnComputeUs := attnComputeUs
      routerComputeUs := routerComputeUs
      expertComputeUs := expertComputeUs
      commSize := localSeq cfg * cfg.dModel * cfg.dtypeBytes
      attnGradSize := mlaParamsTotal cfg / cfg.gpusPerNode * cfg.dtypeBytes
      expertGradSize := epExperts cfg epSize * 3 * cfg.dModel * cfg.expertDFF * cfg.dtypeBytes }

end

/-! ## All-to-all with uneven loads -/

section

variable (F : Floats) (cfg : SweepConfig) (shape : WorkloadShape)

/-- `topk_context_owner_counts`. -/
def topkContextOwnerCounts (src : ℕ) (members : List ℕ) : List ℕ :=
  let expertsPerMember := max 1 (shape.numExperts / members.length)
  let tokenBase := src % shape.rps * shape.localSeq
  (List.range shape.localSeq).foldl (fun counts token =>
    (List.range shape.topK).foldl (fun counts offset =>
      let expert := min (shape.numExperts - 1)
        (F.expertAt ((tokenBase + token) % shape.seqLen) offset)
      counts.modify (min (expert / expertsPerMember) (members.length - 1)) (· + 1)) counts)
    (List.replicate members.length 0)

/-- `ep_all2allv_size`. -/
def epAll2allvSize (src dst : ℕ) (members : List ℕ) : ℕ :=
  if src = dst then 0
  else if cfg.moeRouting = "topk_context" then
    let payload :=
      if cfg.all2allvPayloadScale = "top_k" then shape.commSize * shape.topK else shape.commSize
    let counts := topkContextOwnerCounts F shape src members
    let remoteTotal := counts.sum - counts.getD (members.idxOf src) 0
    if remoteTotal = 0 then payload / (members.length - 1)
    else F.roundDiv (counts.getD (members.idxOf dst) 0 * payload) remoteTotal
  else shape.commSize / members.length

def ceilDiv (numerator denominator : ℕ) : ℕ := (numerator + denominator - 1) / denominator

/-- `ep_all2allv_collective_size`. -/
def epAll2allvCollectiveSize (members : List ℕ) : ℕ :=
  if members.length ≤ 1 then 0
  else
    let size := fun src dst => epAll2allvSize F cfg shape src dst members
    let outgoing := members.map fun src => (members.map fun dst => size src dst).sum
    let incoming := members.map fun dst => (members.map fun src => size src dst).sum
    let target :=
      if cfg.all2allvCollectiveEnvelope = "average_remote" then
        ceilDiv outgoing.sum members.length
      else max (outgoing.foldl max 0) (incoming.foldl max 0)
    max members.length (ceilDiv target (members.length - 1) * members.length)

end

/-! ## Writing a trace -/

/-- The nodes written to a file, the id of the next one, and the ids that it will depend on. -/
structure Cursor where
  nodes : List SweepNode
  nextId : ℕ
  deps : List ℕ

namespace Cursor

/-- The file after the metadata. -/
def start : Cursor := ⟨[], 1, []⟩

/-- `encode_message`, beside the chain of dependencies. -/
def put (c : Cursor) (name : NodeName) (op : SweepOp) (deps : List ℕ) : Cursor :=
  { c with nodes := c.nodes ++ [⟨c.nextId, name, op, deps⟩], nextId := c.nextId + 1 }

/-- `encode_message` in the chain: the next node depends on this one. -/
def write (c : Cursor) (name : NodeName) (op : SweepOp) : Cursor :=
  { c.put name op c.deps with deps := [c.nextId] }

def withDeps (c : Cursor) (deps : List ℕ) : Cursor := { c with deps := deps }

end Cursor

/-- The groups of a rank. -/
structure RankGroups where
  dpGroup : ℕ
  tpGroup : ℕ
  epGroup : ℕ

/-- What the functions nested in `generate_workload` share: the shape, the bases of the groups, the
topology of the switch before data-parallel collectives, and of an all-to-all its dimension, its
size and the key of its loads. -/
structure Generator where
  shape : WorkloadShape
  epSize : ℕ
  tpGroupBase : ℕ
  dpGroupBase : ℕ
  reconfigForDp : Option ℕ
  epDim : Option ℕ
  epCommSize : ℕ → ℕ
  all2allvLoadKey : ℕ → Option ℕ

def fwdTagBase : ℕ := 1000000

def bwdTagBase : ℕ := 2000000

def Transfer.tagBase : Transfer → ℕ
  | .activation => fwdTagBase
  | .grad => bwdTagBase

namespace Generator

variable (G : Generator)

/-- `ep_all_to_all`. -/
def epAllToAll (g : RankGroups) (name : NodeName) (c : Cursor) : Cursor :=
  if G.epSize = 1 then c.write name (.comp 0 none)
  else
    c.write name (.coll .allToAll g.epGroup (G.epCommSize g.epGroup) G.epDim
      (G.all2allvLoadKey g.epGroup))

/-- `write_forward_layer`. -/
def writeForwardLayer (g : RankGroups) (mb : ℕ) (c : Cursor) (layer : ℕ) : Cursor :=
  let c := c.write ⟨mb, layer, .dpAgAttn⟩
    (.coll .allGather g.dpGroup G.shape.attnGradSize none none)
  let c := c.write ⟨mb, layer, .attnFwd⟩ (.comp G.shape.attnComputeUs none)
  let c := c.write ⟨mb, layer, .tpArFwd⟩ (.coll .allReduce g.tpGroup G.shape.commSize none none)
  let c := c.write ⟨mb, layer, .routerFwd⟩ (.comp G.shape.routerComputeUs none)
  let c := G.epAllToAll g ⟨mb, layer, .epDispatchFwd⟩ c
  let c := c.write ⟨mb, layer, .expertFwd⟩ (.comp G.shape.expertComputeUs none)
  G.epAllToAll g ⟨mb, layer, .epCombineFwd⟩ c

/-- `write_backward_layer`: the switch of the topology is beside the chain. -/
def writeBackwardLayer (g : RankGroups) (mb : ℕ) (c : Cursor) (layer : ℕ) : Cursor :=
  let c := G.epAllToAll g ⟨mb, layer, .epCombineBwd⟩ c
  let c := c.write ⟨mb, layer, .expertBwd⟩ (.comp (2 * G.shape.expertComputeUs) none)
  let c := G.epAllToAll g ⟨mb, layer, .epDispatchBwd⟩ c
  let dpReady := c.nextId
  let c := c.put ⟨mb, layer, .topoSwitchToDp⟩ (.comp 0 G.reconfigForDp) c.deps
  let c := c.write ⟨mb, layer, .routerBwd⟩ (.comp G.shape.routerComputeUs none)
  let c := c.write ⟨mb, layer, .attnBwd⟩ (.comp (2 * G.shape.attnComputeUs) none)
  let c := c.write ⟨mb, layer, .tpArBwd⟩ (.coll .allReduce g.tpGroup G.shape.commSize none none)
  let c := (c.withDeps (dpReady :: c.deps)).write ⟨mb, layer, .dpRsAttn⟩
    (.coll .reduceScatter g.dpGroup G.shape.attnGradSize none none)
  let c := c.write ⟨mb, layer, .dpRsExpert⟩
    (.coll .reduceScatter g.dpGroup G.shape.expertGradSize none none)
  c.write ⟨mb, layer, .dpAgExpert⟩ (.coll .allGather g.dpGroup G.shape.expertGradSize none none)

/-- `write_forward_stack`. -/
def writeForwardStack (g : RankGroups) (mb : ℕ) (localLayers : List ℕ) (c : Cursor) : Cursor :=
  localLayers.foldl (G.writeForwardLayer g mb) c

/-- `write_backward_stack`. -/
def writeBackwardStack (g : RankGroups) (mb : ℕ) (localLayers : List ℕ) (c : Cursor) : Cursor :=
  localLayers.reverse.foldl (G.writeBackwardLayer g mb) c

/-- The tag of a transfer. -/
def tag (t : Transfer) (mb src : ℕ) : ℕ := t.tagBase + mb * G.shape.total + src

/-- The two loops that write receives, with the ids of the receives of the microbatches. -/
def writeRecvs (t : Transfer) (src rank : ℕ) (c : Cursor) : Cursor × (ℕ → ℕ) :=
  (List.range G.shape.microbatches).foldl (fun s mb =>
    (s.1.put ⟨mb, none, .ppRecv t⟩ (.recv src rank G.shape.commSize (G.tag t mb src)) [],
      Function.update s.2 mb s.1.nextId)) (c, fun _ => 0)

/-- One pass of the forward loop, with the ids that end each microbatch. -/
def writeForwardPass (g : RankGroups) (rank stage : ℕ) (localLayers : List ℕ)
    (activationRecv : ℕ → ℕ) (s : Cursor × (ℕ → List ℕ)) (mb : ℕ) : Cursor × (ℕ → List ℕ) :=
  let c := if 0 < stage then s.1.withDeps (activationRecv mb :: s.1.deps) else s.1
  let c := G.writeForwardStack g mb localLayers c
  let c :=
    if stage + 1 < G.shape.pp then
      c.write ⟨mb, none, .ppSend .activation⟩
        (.send rank (rank + G.shape.rps) G.shape.commSize (G.tag .activation mb rank))
    else c
  (c, Function.update s.2 mb c.deps)

/-- One pass of the backward loop. -/
def writeBackwardPass (g : RankGroups) (rank stage : ℕ) (localLayers : List ℕ)
    (fwdDone : ℕ → List ℕ) (gradRecv : ℕ → ℕ) (c : Cursor) (mb : ℕ) : Cursor :=
  let c := c.withDeps (fwdDone mb ++ c.deps)
  let c := if stage + 1 < G.shape.pp then c.withDeps (gradRecv mb :: c.deps) else c
  let c := G.writeBackwardStack g mb localLayers c
  if 0 < stage then
    c.write ⟨mb, none, .ppSend .grad⟩
      (.send rank (rank - G.shape.rps) G.shape.commSize (G.tag .grad mb rank))
  else c

/-- The receives of a stage that has the neighbour they come from. -/
def recvPhase (t : Transfer) (rank stage : ℕ) (c : Cursor) : Cursor × (ℕ → ℕ) :=
  match t with
  | .activation =>
    if 0 < stage then G.writeRecvs .activation (rank - G.shape.rps) rank c else (c, fun _ => 0)
  | .grad =>
    if stage + 1 < G.shape.pp then G.writeRecvs .grad (rank + G.shape.rps) rank c
    else (c, fun _ => 0)

/-- The forward loop. -/
def forwardPhase (g : RankGroups) (rank stage : ℕ) (localLayers : List ℕ)
    (recvs : Cursor × (ℕ → ℕ)) : Cursor × (ℕ → List ℕ) :=
  (List.range G.shape.microbatches).foldl (G.writeForwardPass g rank stage localLayers recvs.2)
    (recvs.1, fun _ => [])

/-- The backward loop. -/
def backwardPhase (g : RankGroups) (rank stage : ℕ) (localLayers : List ℕ)
    (fwdDone : ℕ → List ℕ) (recvs : Cursor × (ℕ → ℕ)) : Cursor :=
  (List.range G.shape.microbatches).reverse.foldl
    (G.writeBackwardPass g rank stage localLayers fwdDone recvs.2) (recvs.1.withDeps [])

def rankGroups (epGroup rank : ℕ) : RankGroups :=
  ⟨G.dpGroupBase + rank / G.shape.rps * G.shape.gpn + rank % G.shape.gpn,
    G.tpGroupBase + rank / G.shape.gpn, epGroup⟩

/-- The loop body of `generate_workload`: the trace of a rank. -/
def rankTrace (epGroup rank : ℕ) : List SweepNode :=
  let stage := rank / G.shape.rps
  let g := G.rankGroups epGroup rank
  let localLayers := List.range' (stage * G.shape.layersPerStage) G.shape.layersPerStage
  let activations := G.recvPhase .activation rank stage .start
  let fwd := G.forwardPhase g rank stage localLayers activations
  let grads := G.recvPhase .grad rank stage fwd.1
  (G.backwardPhase g rank stage localLayers fwd.2 grads).nodes

end Generator

/-! ## The workload -/

section

variable (F : Floats) (cfg : SweepConfig) (epSize : ℕ) (variant : Variant)

/-- `rank_to_ep_group`: the last group of experts with the rank. -/
def rankToEpGroup (rank : ℕ) : Option ℕ :=
  (generateCommGroups cfg epSize).foldl (fun found group =>
    if tpGroupBase cfg epSize ≤ group.1 then found
    else if rank ∈ group.2 then some group.1 else found) none

/-- The variables that `generate_workload` sets before its loop. -/
def generator (shape : WorkloadShape) : Generator where
  shape := shape
  epSize := epSize
  tpGroupBase := tpGroupBase cfg epSize
  dpGroupBase := dpGroupBase cfg epSize
  reconfigForDp := if variant.isOpus then some (topoId (List.replicate cfg.pp 1)) else none
  epDim := if variant.isOpus && cfg.epTopoEnabled epSize then some 3 else none
  epCommSize pg :=
    if cfg.epCommPattern = "all_to_all" then shape.commSize
    else
      epAll2allvCollectiveSize F cfg shape (((generateCommGroups cfg epSize).lookup pg).getD [])
  all2allvLoadKey pg := if cfg.epCommPattern = "all_to_all" then none else some pg

/-- `generate_workload`: the traces of all ranks, or nothing when it raises. -/
def generateWorkload : Option (List (List SweepNode)) :=
  (workloadShape F cfg epSize).bind fun shape =>
    (List.range cfg.totalGpus).mapM fun rank =>
      (rankToEpGroup cfg epSize rank).map fun epGroup =>
        (generator F cfg epSize variant shape).rankTrace epGroup rank

end

end Opus.Simulation
