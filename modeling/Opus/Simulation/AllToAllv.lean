import Mathlib.Algebra.Order.Floor.Ring
import Mathlib.Algebra.Order.Floor.Semiring
import Mathlib.Data.List.FinRange
import Mathlib.Data.List.Rotate
import Mathlib.Data.Rat.Floor
import Mathlib.Tactic.Linarith
import Mathlib.Tactic.Positivity
import Opus.Library.Loop

/-!
# All-to-all collectives with given loads

A collective is cut into streams of one chunk each, the last one counted in full. A stream visits
the dimensions of the topology one after the other, and in a dimension with the direct algorithm each
pair of nodes exchanges its share of the load of the pair, rounded up. Sizes are exact numbers here.

## Main definitions

* `AllToAllv.pairMsgSize`, `AllToAllv.ready`: the messages of a chunk
* `determineChunkSize`: the size of a chunk, and the size of the collective made large enough
* `generateCollectivePhase`, `generateAllToAll`: the streams of a collective
* `ConservesBytes`: all chunks together carry the load of a pair, up to one byte for each

## Main results

* `generateAllToAll_eq`: the streams of a collective, in closed form
* `generateAllToAll_conserves`: the chunks carry at least the load of a pair, and exceed it by less
  than the rounding of each chunk and the rest of the last chunk
* `not_conservesBytes_twoNodes`: the rest of the last chunk counts
-/

namespace Opus.Simulation

/-! ## Messages -/

inductive ComType where
  | reduceScatter
  | allGather
  | allReduce
  | allToAll
  deriving DecidableEq, Repr

/-- The load of each ordered pair of nodes. -/
abbrev AllToAllVLoadMap := List ((ℤ × ℤ) × ℕ)

/-- The algorithm of a node for a chunk in one dimension. -/
structure AllToAllv where
  comType : ComType
  id : ℤ
  msgSize : ℕ
  loads : Option AllToAllVLoadMap
  totalSize : ℕ
  chunkSize : ℕ
  deriving DecidableEq, Repr

namespace AllToAllv

/-- `AllToAllv::pair_msg_size`. -/
def pairMsgSize (a : AllToAllv) (src dst : ℤ) : ℕ :=
  match a.loads with
  | none => a.msgSize
  | some loads =>
    if a.comType ≠ .allToAll then a.msgSize
    else
      match loads.lookup (src, dst) with
      | none => a.msgSize
      | some pairTotal =>
        if pairTotal = 0 then 1
        else if a.totalSize = 0 ∨ a.chunkSize = 0 then pairTotal
        else max 1 ⌈(pairTotal : ℚ) * a.chunkSize / a.totalSize⌉₊

/-- `AllToAllv::ready`, for a queue of packets with their source and destination: the destination and
size of the message that is sent, and the source and size of the one that is awaited. -/
def ready (a : AllToAllv) (packets : List (ℤ × ℤ)) (streamCount freePackets : ℕ) :
    Option ((ℤ × ℕ) × (ℤ × ℕ)) :=
  match packets with
  | [] => none
  | (src, dst) :: _ =>
    if streamCount = 0 ∨ freePackets = 0 then none
    else some ((dst, a.pairMsgSize a.id dst), (src, a.pairMsgSize src a.id))

end AllToAllv

/-! ## Phases -/

/-- The algorithms for a dimension; `direct` stands for both variants, and so on. -/
inductive CollectiveImpl where
  | ring
  | direct
  | doubleBinaryTree
  | halvingDoubling
  deriving DecidableEq, Repr

/-- A dimension of a logical topology, as a collective uses it. -/
structure CollectiveDim where
  nodes : ℕ
  involved : Bool
  impl : CollectiveImpl
  deriving DecidableEq, Repr

/-- A phase of a stream: the index of its dimension, the sizes before and after it, and its
algorithm when it depends on the loads. -/
structure CollectivePhase where
  dim : ℕ
  initialDataSize : ℕ
  finalDataSize : ℕ
  algorithm : Option AllToAllv
  deriving DecidableEq, Repr

/-- The size after a phase of the ring or the direct algorithm. -/
def ringFinalDataSize (type : ComType) (nodes dataSize : ℕ) : ℕ :=
  match type with
  | .allReduce => dataSize
  | .allGather => dataSize * nodes
  | .reduceScatter => dataSize / nodes
  | .allToAll => dataSize

/-- The size of a message of the ring or the direct algorithm. -/
def ringMsgSize (type : ComType) (nodes dataSize : ℕ) : ℕ :=
  match type with
  | .allGather => dataSize
  | _ => dataSize / nodes

/-- `Sys::generate_collective_phase`; the program ends when the algorithm does not support the
collective. -/
def generateCollectivePhase (type : ComType) (id : ℤ) (dim : ℕ) (d : CollectiveDim)
    (dataSize : ℕ) (loads : Option AllToAllVLoadMap) (totalSize chunkSize : ℕ) :
    Option CollectivePhase :=
  match d.impl with
  | .ring => some ⟨dim, dataSize, ringFinalDataSize type d.nodes dataSize, none⟩
  | .direct =>
    some ⟨dim, dataSize, ringFinalDataSize type d.nodes dataSize,
      if type = .allToAll ∧ loads.isSome then
        some ⟨type, id, ringMsgSize type d.nodes dataSize, loads, totalSize, chunkSize⟩
      else none⟩
  | .doubleBinaryTree => some ⟨dim, dataSize, dataSize, none⟩
  | .halvingDoubling =>
    if type = .allToAll then none
    else some ⟨dim, dataSize, ringFinalDataSize type d.nodes dataSize, none⟩

/-! ## Streams -/

/-- What a node knows of the system and of the topology of a collective. -/
structure CollectiveConfig where
  preferredDatasetSplits : ℕ
  totalNodes : ℕ
  roundRobin : Bool
  dims : List CollectiveDim
  deriving DecidableEq, Repr

/-- `Sys::determine_chunk_size`: the size of a chunk, and of the collective. -/
def determineChunkSize (c : CollectiveConfig) (size : ℕ) (type : ComType) : ℕ × ℕ :=
  let chunkSize := size / c.preferredDatasetSplits
  if type ≠ .allGather ∧ chunkSize < c.totalNodes then
    (c.totalNodes, c.preferredDatasetSplits * c.totalNodes)
  else (chunkSize, size)

/-- A phase takes place in an involved dimension with several nodes. -/
def CollectiveDim.Active (d : CollectiveDim) : Prop :=
  ¬ (d.nodes = 1 ∨ d.involved = false)

instance (d : CollectiveDim) : Decidable d.Active :=
  inferInstanceAs (Decidable (¬ _))

/-- The variables of the loop of `Sys::generate_collective`: the size that is left, the dimension the
next stream starts with, and the streams so far. -/
structure CollectiveLoop where
  size : ℕ
  count : ℕ
  roundRobinDim : ℕ
  streams : List (List CollectivePhase)
  active : Bool
  exited : Bool
  deriving DecidableEq, Repr

/-- What the loop returns: the streams, and how many of them the data set waits for. -/
structure DataSet where
  streams : List (List CollectivePhase)
  totalStreams : ℕ
  active : Bool
  roundRobinDim : ℕ
  deriving DecidableEq, Repr

section Generate

variable (c : CollectiveConfig) (id : ℤ) (loads : Option AllToAllVLoadMap)

/-- The dimensions in the order in which a stream visits them. -/
def dimMapper (roundRobinDim : ℕ) : List (Fin c.dims.length) :=
  if c.roundRobin then (List.finRange c.dims.length).rotate roundRobinDim
  else List.finRange c.dims.length

/-- One pass of the loop over the dimensions, on the phases so far and the size after them. -/
def addPhase (totalSize : ℕ) (acc : List CollectivePhase × ℕ) (dim : Fin c.dims.length) :
    Option (List CollectivePhase × ℕ) :=
  if (c.dims.get dim).Active then
    (generateCollectivePhase .allToAll id dim (c.dims.get dim) acc.2 loads totalSize acc.2).map
      fun phase => (acc.1 ++ [phase], phase.finalDataSize)
  else some acc

/-- One pass of the loop over the streams. It ends without a phase for the stream. -/
def CollectiveLoop.step (totalSize chunkSize : ℕ) (s : CollectiveLoop) : Option CollectiveLoop :=
  if s.size = 0 ∨ s.active = false ∨ s.exited = true then none
  else
    let roundRobinDim :=
      if c.roundRobin then
        if s.roundRobinDim + 1 = c.dims.length then 0 else s.roundRobinDim + 1
      else s.roundRobinDim
    -- the last stream has a whole chunk, too
    let size := if s.size < chunkSize then 0 else s.size - chunkSize
    match (dimMapper c s.roundRobinDim).foldlM (addPhase c id loads totalSize) ([], chunkSize) with
    | none => some { s with exited := true }
    | some ([], _) => some ⟨size, s.count + 1, roundRobinDim, s.streams, false, false⟩
    | some (phases, _) =>
      some ⟨size, s.count + 1, roundRobinDim, s.streams ++ [phases], s.active, false⟩

/-- `Sys::generate_all_to_all`: `Sys::generate_collective` for an all-to-all collective, within
`fuel` passes of its loop. -/
def generateAllToAll (roundRobinDim fuel size : ℕ) : Option DataSet :=
  let (chunkSize, size) := determineChunkSize c size .allToAll
  match Loop.loop (CollectiveLoop.step c id loads size chunkSize) fuel
      ⟨size, 0, roundRobinDim, [], true, false⟩ with
  | none => none
  | some s =>
    if s.exited then none
    else some ⟨s.streams, if s.active then s.count else ⌈(size : ℚ) / chunkSize⌉₊, s.active,
      s.roundRobinDim⟩

end Generate

/-- The sizes that the phases of a stream in a dimension use for a pair. -/
def pairSizes (dim : ℕ) (src dst : ℤ) (stream : List CollectivePhase) : List ℕ :=
  (stream.filter fun phase => phase.dim = dim).filterMap fun phase =>
    phase.algorithm.map fun a => a.pairMsgSize src dst

/-- The size that all streams use for a pair. -/
def DataSet.pairTotal (d : DataSet) (dim : ℕ) (src dst : ℤ) : ℕ :=
  (d.streams.map fun stream => (pairSizes dim src dst stream).sum).sum

/-! ## The streams in closed form -/

section Streams

variable {c : CollectiveConfig} {id : ℤ} {loads : Option AllToAllVLoadMap} {totalSize chunkSize : ℕ}

/-- No phase ends the program. -/
def CollectiveConfig.Supported (c : CollectiveConfig) : Prop :=
  ∀ d ∈ c.dims, d.Active → d.impl ≠ .halvingDoubling

/-- The phase of a chunk in a dimension. -/
def phaseAt (c : CollectiveConfig) (id : ℤ) (loads : Option AllToAllVLoadMap)
    (totalSize chunkSize : ℕ) (dim : Fin c.dims.length) : CollectivePhase :=
  ⟨dim, chunkSize, chunkSize,
    if (c.dims.get dim).impl = .direct ∧ loads.isSome then
      some ⟨.allToAll, id, chunkSize / (c.dims.get dim).nodes, loads, totalSize, chunkSize⟩
    else none⟩

/-- The stream of a chunk that starts with the dimension `roundRobinDim`. -/
def streamAt (c : CollectiveConfig) (id : ℤ) (loads : Option AllToAllVLoadMap)
    (totalSize chunkSize roundRobinDim : ℕ) : List CollectivePhase :=
  ((dimMapper c roundRobinDim).filter fun dim => (c.dims.get dim).Active).map
    (phaseAt c id loads totalSize chunkSize)

/-- Every phase of an all-to-all collective keeps the size. -/
theorem addPhase_of_active (hc : c.Supported) {dim : Fin c.dims.length}
    (hdim : (c.dims.get dim).Active) (phases : List CollectivePhase) :
    addPhase c id loads totalSize (phases, chunkSize) dim =
      some (phases ++ [phaseAt c id loads totalSize chunkSize dim], chunkSize) := by
  rw [addPhase, if_pos hdim, generateCollectivePhase, phaseAt]
  cases himpl : (c.dims.get dim).impl with
  | ring => rfl
  | direct => simp [ringFinalDataSize, ringMsgSize]
  | doubleBinaryTree => rfl
  | halvingDoubling => exact absurd himpl (hc _ (List.get_mem c.dims dim) hdim)

theorem foldlM_addPhase (hc : c.Supported) (dims : List (Fin c.dims.length))
    (phases : List CollectivePhase) :
    dims.foldlM (addPhase c id loads totalSize) (phases, chunkSize) =
      some (phases ++ (dims.filter fun dim => (c.dims.get dim).Active).map
        (phaseAt c id loads totalSize chunkSize), chunkSize) := by
  induction dims generalizing phases with
  | nil => simp
  | cons dim dims ih =>
    rw [List.foldlM_cons]
    by_cases hdim : (c.dims.get dim).Active
    · rw [addPhase_of_active hc hdim, Option.bind_eq_bind, Option.bind_some, ih,
        List.filter_cons_of_pos (by simpa using hdim), List.map_cons, List.append_assoc]
      rfl
    · rw [addPhase, if_neg hdim, Option.bind_eq_bind, Option.bind_some, ih,
        List.filter_cons_of_neg (by simpa using hdim)]

theorem mem_dimMapper (roundRobinDim : ℕ) (dim : Fin c.dims.length) :
    dim ∈ dimMapper c roundRobinDim := by
  unfold dimMapper
  split <;> simp

theorem nodup_dimMapper (c : CollectiveConfig) (roundRobinDim : ℕ) :
    (dimMapper c roundRobinDim).Nodup := by
  unfold dimMapper
  split
  · exact List.nodup_rotate.mpr (List.nodup_finRange _)
  · exact List.nodup_finRange _

theorem streamAt_ne_nil {dim : Fin c.dims.length} (hdim : (c.dims.get dim).Active)
    (roundRobinDim : ℕ) : streamAt c id loads totalSize chunkSize roundRobinDim ≠ [] := by
  apply List.ne_nil_of_mem (a := phaseAt c id loads totalSize chunkSize dim)
  apply List.mem_map_of_mem
  exact List.mem_filter.mpr ⟨mem_dimMapper roundRobinDim dim, by simpa using hdim⟩

/-- The state of the loop after whole chunks. -/
structure StreamsOf (c : CollectiveConfig) (id : ℤ) (loads : Option AllToAllVLoadMap)
    (totalSize chunkSize : ℕ) (s : CollectiveLoop) : Prop where
  active : s.active = true
  exited : s.exited = false
  length_streams : s.streams.length = s.count
  le : totalSize ≤ s.size + s.count * chunkSize
  eq : 0 < s.size → s.size + s.count * chunkSize = totalSize
  lt : s.count * chunkSize < totalSize + chunkSize
  streams : ∀ stream ∈ s.streams, ∃ r, stream = streamAt c id loads totalSize chunkSize r

/-- One pass adds the stream of one chunk. -/
theorem StreamsOf.step (hc : c.Supported) {dim : Fin c.dims.length}
    (hdim : (c.dims.get dim).Active) (hchunk : 0 < chunkSize) {s t : CollectiveLoop}
    (h : StreamsOf c id loads totalSize chunkSize s)
    (hst : s.step c id loads totalSize chunkSize = some t) :
    StreamsOf c id loads totalSize chunkSize t ∧ t.size < s.size := by
  have hphases : (dimMapper c s.roundRobinDim).foldlM (addPhase c id loads totalSize)
      ([], chunkSize) =
        some (streamAt c id loads totalSize chunkSize s.roundRobinDim, chunkSize) :=
    foldlM_addPhase hc _ []
  have hne : streamAt c id loads totalSize chunkSize s.roundRobinDim ≠ [] :=
    streamAt_ne_nil hdim s.roundRobinDim
  obtain ⟨phase, phases, hstream⟩ := List.exists_cons_of_ne_nil hne
  rw [CollectiveLoop.step] at hst
  split at hst
  · cases hst
  · next hgo =>
    have hpos : 0 < s.size := Nat.pos_of_ne_zero fun h0 => hgo (.inl h0)
    have heq := h.eq hpos
    rw [hphases, hstream] at hst
    dsimp only at hst
    cases hst
    have hmul : (s.count + 1) * chunkSize = s.count * chunkSize + chunkSize := Nat.succ_mul _ _
    refine ⟨⟨h.active, rfl, ?_, ?_, ?_, ?_, ?_⟩, ?_⟩
    · rw [List.length_append, h.length_streams, List.length_singleton]
    · dsimp only
      rw [hmul]
      split <;> omega
    · dsimp only
      rw [hmul]
      split <;> omega
    · dsimp only
      omega
    · intro stream hmem
      rcases List.mem_append.mp hmem with hmem | hmem
      · exact h.streams stream hmem
      · rw [List.mem_singleton.mp hmem, ← hstream]
        exact ⟨s.roundRobinDim, rfl⟩
    · dsimp only
      split <;> omega

theorem CollectiveLoop.step_eq_none {s : CollectiveLoop} :
    s.step c id loads totalSize chunkSize = none ↔
      s.size = 0 ∨ s.active = false ∨ s.exited = true := by
  refine ⟨fun h => ?_, fun h => by rw [CollectiveLoop.step, if_pos h]⟩
  by_contra hgo
  rw [CollectiveLoop.step, if_neg hgo] at h
  rcases hphases : (dimMapper c s.roundRobinDim).foldlM (addPhase c id loads totalSize)
    ([], chunkSize) with _ | ⟨_ | ⟨phase, phases⟩, final⟩ <;> simp [hphases] at h

/-- With a chunk of at least one byte the loop ends. -/
theorem streamsOf_loop (hc : c.Supported) {dim : Fin c.dims.length}
    (hdim : (c.dims.get dim).Active) (hchunk : 0 < chunkSize) (roundRobinDim : ℕ) :
    ∃ s : CollectiveLoop, StreamsOf c id loads totalSize chunkSize s ∧ s.size = 0 ∧
      ∀ fuel, totalSize ≤ fuel → Loop.loop (CollectiveLoop.step c id loads totalSize chunkSize) fuel
        ⟨totalSize, 0, roundRobinDim, [], true, false⟩ = some s := by
  have hinit : StreamsOf c id loads totalSize chunkSize
      ⟨totalSize, 0, roundRobinDim, [], true, false⟩ := by
    refine ⟨rfl, rfl, rfl, ?_, ?_, ?_, ?_⟩
    · exact Nat.le_add_right _ _
    · intro _
      rw [Nat.zero_mul, Nat.add_zero]
    · rw [Nat.zero_mul]
      omega
    · intro stream hmem
      cases hmem
  obtain ⟨s, hs, hinv, hend⟩ := Loop.loop_of_measure
    (StreamsOf c id loads totalSize chunkSize) CollectiveLoop.size
    (fun s t hI hst => hI.step hc hdim hchunk hst) hinit (le_refl totalSize)
  refine ⟨s, hinv, ?_, fun fuel hfuel => Loop.loop_mono hfuel hs⟩
  -- the loop does not end for another reason
  rcases CollectiveLoop.step_eq_none.mp hend with hzero | hactive | hexited
  · exact hzero
  · exact absurd (hinv.active.symm.trans hactive) (by decide)
  · exact absurd (hinv.exited.symm.trans hexited) (by decide)

end Streams

/-! ## The size of a chunk -/

section Chunk

variable {c : CollectiveConfig} {size : ℕ}

theorem determineChunkSize_pos (hsplits : 1 ≤ c.preferredDatasetSplits) (hnodes : 1 ≤ c.totalNodes)
    (hsize : 1 ≤ size) :
    0 < (determineChunkSize c size .allToAll).1 ∧ 0 < (determineChunkSize c size .allToAll).2 := by
  simp only [determineChunkSize]
  split
  · exact ⟨hnodes, Nat.mul_pos hsplits hnodes⟩
  · next h =>
    rw [not_and, not_lt] at h
    exact ⟨hnodes.trans (h (by decide)), hsize⟩

/-- A collective that is made larger, or divides into the chunks, has no rest. -/
theorem determineChunkSize_dvd
    (h : c.preferredDatasetSplits ∣ size ∨ size / c.preferredDatasetSplits < c.totalNodes) :
    (determineChunkSize c size .allToAll).1 ∣ (determineChunkSize c size .allToAll).2 := by
  simp only [determineChunkSize]
  split
  · exact Dvd.intro_left _ rfl
  · next hlt =>
    rw [not_and] at hlt
    rcases h with ⟨k, rfl⟩ | hsmall
    · rcases Nat.eq_zero_or_pos c.preferredDatasetSplits with hzero | hpos
      · simp [hzero]
      · rw [Nat.mul_div_cancel_left k hpos]
        exact Dvd.intro_left _ rfl
    · exact absurd hsmall (hlt (by decide))

end Chunk

/-! ## The sizes for a pair -/

section Pairs

variable {c : CollectiveConfig} {id : ℤ} {loads : AllToAllVLoadMap} {totalSize chunkSize : ℕ}

/-- A stream visits a dimension once. -/
theorem filter_streamAt {o : Option AllToAllVLoadMap} {dim : Fin c.dims.length}
    (hdim : (c.dims.get dim).Active) (r : ℕ) :
    (streamAt c id o totalSize chunkSize r).filter (fun phase : CollectivePhase => phase.dim = dim) =
      [phaseAt c id o totalSize chunkSize dim] := by
  have hcount : (dimMapper c r).count dim = 1 :=
    List.count_eq_one_of_mem (nodup_dimMapper c r) (mem_dimMapper r dim)
  have hfilter : ((dimMapper c r).filter fun d => (c.dims.get d).Active).filter (fun d => d = dim) =
      [dim] := by
    rw [List.filter_filter]
    have hcongr : (dimMapper c r).filter
        (fun d => decide (d = dim) && decide (c.dims.get d).Active) =
        (dimMapper c r).filter (fun d => d = dim) := by
      apply List.filter_congr
      intro d _
      by_cases hd : d = dim
      · subst hd
        simpa using hdim
      · simp [hd]
    rw [hcongr, List.filter_eq, hcount]
    rfl
  rw [streamAt, List.filter_map]
  have hcomp : ((fun phase : CollectivePhase => decide (phase.dim = dim)) ∘
      phaseAt c id o totalSize chunkSize) = fun d => decide (d = dim) := by
    ext d
    simp [phaseAt, Fin.ext_iff]
  rw [hcomp, hfilter]
  rfl

/-- The share of a chunk in a positive load. -/
theorem pairMsgSize_eq {k : ℕ} {src dst : ℤ} {load : ℕ}
    (hload : loads.lookup (src, dst) = some load) (hpos : 0 < load) (htotal : 0 < totalSize)
    (hchunk : 0 < chunkSize) :
    (⟨.allToAll, id, k, some loads, totalSize, chunkSize⟩ : AllToAllv).pairMsgSize src dst =
      ⌈(load : ℚ) * chunkSize / totalSize⌉₊ := by
  have hceil : 1 ≤ ⌈(load : ℚ) * chunkSize / totalSize⌉₊ := Nat.one_le_ceil_iff.mpr (by positivity)
  simp only [AllToAllv.pairMsgSize, hload]
  rw [if_neg (by simp), if_neg (by omega), if_neg (by omega), Nat.max_eq_right hceil]

theorem pairSizes_streamAt {dim : Fin c.dims.length} (hdim : (c.dims.get dim).Active)
    (hdirect : (c.dims.get dim).impl = .direct) {src dst : ℤ} {load : ℕ}
    (hload : loads.lookup (src, dst) = some load) (hpos : 0 < load) (htotal : 0 < totalSize)
    (hchunk : 0 < chunkSize) (r : ℕ) :
    pairSizes dim src dst (streamAt c id (some loads) totalSize chunkSize r) =
      [⌈(load : ℚ) * chunkSize / totalSize⌉₊] := by
  rw [pairSizes, filter_streamAt hdim, phaseAt, hdirect]
  simp only [Option.isSome_some, and_self, if_true, List.filterMap_cons, Option.map_some,
    List.filterMap_nil, List.cons.injEq, and_true]
  exact pairMsgSize_eq hload hpos htotal hchunk

/-- **The rounding**: `n` times the share of a chunk is at least the load when `n` chunks cover the
collective, and exceeds the load of these chunks by less than `n`. -/
theorem ceil_share_bounds {n load : ℕ} (htotal : 0 < totalSize) (hn : 0 < n)
    (hcover : totalSize ≤ n * chunkSize) :
    load ≤ n * ⌈(load : ℚ) * chunkSize / totalSize⌉₊ ∧
      (n * ⌈(load : ℚ) * chunkSize / totalSize⌉₊ : ℚ) <
        load * (n * chunkSize / totalSize) + n := by
  have ht : (0 : ℚ) < totalSize := by exact_mod_cast htotal
  have hn' : (0 : ℚ) < n := by exact_mod_cast hn
  have hshare : (n : ℚ) * (load * chunkSize / totalSize) = load * (n * chunkSize / totalSize) := by
    ring
  constructor
  · have hfactor : (1 : ℚ) ≤ n * chunkSize / totalSize := by
      rw [le_div_iff₀ ht, one_mul]
      exact_mod_cast hcover
    have hle : (load : ℚ) ≤ n * ⌈(load : ℚ) * chunkSize / totalSize⌉₊ := by
      calc (load : ℚ) ≤ load * (n * chunkSize / totalSize) :=
            le_mul_of_one_le_right (Nat.cast_nonneg load) hfactor
        _ = n * (load * chunkSize / totalSize) := hshare.symm
        _ ≤ n * ⌈(load : ℚ) * chunkSize / totalSize⌉₊ :=
            mul_le_mul_of_nonneg_left (Nat.le_ceil _) hn'.le
    exact_mod_cast hle
  · have hlt : (⌈(load : ℚ) * chunkSize / totalSize⌉₊ : ℚ) < load * chunkSize / totalSize + 1 :=
      Nat.ceil_lt_add_one (by positivity)
    calc (n * ⌈(load : ℚ) * chunkSize / totalSize⌉₊ : ℚ)
        < n * (load * chunkSize / totalSize + 1) := mul_lt_mul_of_pos_left hlt hn'
      _ = load * (n * chunkSize / totalSize) + n := by rw [mul_add, hshare, mul_one]

end Pairs

/-! ## The load of a pair -/

/-- The sizes of a pair in all streams carry its load, with less than one byte more for each stream. -/
def ConservesBytes (c : CollectiveConfig) (loads : AllToAllVLoadMap) (size dim : ℕ) :
    Prop :=
  ∀ (id : ℤ) (roundRobinDim : ℕ), ∃ d bound,
    (∀ fuel, bound ≤ fuel →
      generateAllToAll c id (some loads) roundRobinDim fuel size = some d) ∧
    ∀ src dst load, loads.lookup (src, dst) = some load → 0 < load →
      load ≤ d.pairTotal dim src dst ∧ d.pairTotal dim src dst < load + d.streams.length

section Collective

variable {c : CollectiveConfig} {id : ℤ} {loads : AllToAllVLoadMap} {size : ℕ}
  {dim : Fin c.dims.length}

/-- The result of a collective: streams of one chunk each that cover the size, the last one counted
in full. -/
structure ChunksOf (c : CollectiveConfig) (id : ℤ) (loads : Option AllToAllVLoadMap) (size : ℕ)
    (d : DataSet) : Prop where
  active : d.active = true
  totalStreams : d.totalStreams = d.streams.length
  le : (determineChunkSize c size .allToAll).2 ≤
    d.streams.length * (determineChunkSize c size .allToAll).1
  lt : d.streams.length * (determineChunkSize c size .allToAll).1 <
    (determineChunkSize c size .allToAll).2 + (determineChunkSize c size .allToAll).1
  streams : ∀ stream ∈ d.streams, ∃ r, stream =
    streamAt c id loads (determineChunkSize c size .allToAll).2
      (determineChunkSize c size .allToAll).1 r

/-- **The streams of a collective**: it ends when a dimension is active and its sizes are positive. -/
theorem generateAllToAll_eq (hsplits : 1 ≤ c.preferredDatasetSplits) (hnodes : 1 ≤ c.totalNodes)
    (hsize : 1 ≤ size) (hc : c.Supported) (hdim : (c.dims.get dim).Active)
    (loads : Option AllToAllVLoadMap) (id : ℤ) (roundRobinDim : ℕ) :
    ∃ d, ChunksOf c id loads size d ∧
      ∀ fuel, (determineChunkSize c size .allToAll).2 ≤ fuel →
        generateAllToAll c id loads roundRobinDim fuel size = some d := by
  obtain ⟨hchunk, -⟩ := determineChunkSize_pos hsplits hnodes hsize
  obtain ⟨s, hinv, hzero, hloop⟩ := @streamsOf_loop c id loads
    (determineChunkSize c size .allToAll).2 _ hc _ hdim hchunk roundRobinDim
  refine ⟨⟨s.streams, s.count, true, s.roundRobinDim⟩, ⟨rfl, hinv.length_streams.symm, ?_, ?_,
    hinv.streams⟩, fun fuel hfuel => ?_⟩
  · have hle := hinv.le
    rwa [hzero, Nat.zero_add, ← hinv.length_streams] at hle
  · have hlt := hinv.lt
    rwa [← hinv.length_streams] at hlt
  · simp only [generateAllToAll, hloop fuel hfuel, hinv.exited, hinv.active]
    rfl

theorem ChunksOf.length_le {id' : ℤ} {o o' : Option AllToAllVLoadMap} {d d' : DataSet}
    (h : ChunksOf c id o size d) (h' : ChunksOf c id' o' size d') :
    d.streams.length ≤ d'.streams.length := by
  have hlt := h.lt.trans_le (Nat.add_le_add_right h'.le _)
  rw [← Nat.succ_mul] at hlt
  exact Nat.le_of_lt_succ (Nat.lt_of_mul_lt_mul_right hlt)

/-- Two nodes cut a collective into the same number of chunks. -/
theorem ChunksOf.length_eq {id' : ℤ} {o o' : Option AllToAllVLoadMap} {d d' : DataSet}
    (h : ChunksOf c id o size d) (h' : ChunksOf c id' o' size d') :
    d.streams.length = d'.streams.length :=
  le_antisymm (h.length_le h') (h'.length_le h)

theorem ChunksOf.pairTotal_eq {d : DataSet} (h : ChunksOf c id (some loads) size d)
    (hdim : (c.dims.get dim).Active) (hdirect : (c.dims.get dim).impl = .direct)
    {src dst : ℤ} {load : ℕ} (hload : loads.lookup (src, dst) = some load) (hpos : 0 < load)
    (htotal : 0 < (determineChunkSize c size .allToAll).2)
    (hchunk : 0 < (determineChunkSize c size .allToAll).1) :
    d.pairTotal dim src dst = d.streams.length *
      ⌈(load : ℚ) * (determineChunkSize c size .allToAll).1 /
        (determineChunkSize c size .allToAll).2⌉₊ := by
  have hsum : ∀ x ∈ d.streams.map fun stream => (pairSizes dim src dst stream).sum,
      x = ⌈(load : ℚ) * (determineChunkSize c size .allToAll).1 /
        (determineChunkSize c size .allToAll).2⌉₊ := by
    intro x hx
    obtain ⟨stream, hstream, rfl⟩ := List.mem_map.mp hx
    obtain ⟨r, rfl⟩ := h.streams stream hstream
    rw [pairSizes_streamAt hdim hdirect hload hpos htotal hchunk, List.sum_singleton]
  rw [DataSet.pairTotal, List.sum_eq_card_nsmul _ _ hsum, List.length_map, nsmul_eq_mul, Nat.cast_id]

/-- A larger number of passes does not change the result. -/
theorem generateAllToAll_mono {o : Option AllToAllVLoadMap} {r fuel fuel' : ℕ} {d : DataSet}
    (hle : fuel ≤ fuel') (h : generateAllToAll c id o r fuel size = some d) :
    generateAllToAll c id o r fuel' size = some d := by
  simp only [generateAllToAll] at h ⊢
  cases hloop : Loop.loop (CollectiveLoop.step c id o (determineChunkSize c size .allToAll).2
      (determineChunkSize c size .allToAll).1) fuel
      ⟨(determineChunkSize c size .allToAll).2, 0, r, [], true, false⟩ with
  | none =>
    rw [hloop] at h
    cases h
  | some s =>
    rw [hloop] at h
    rw [Loop.loop_mono hle hloop]
    exact h

theorem chunksOf_of_generateAllToAll (hsplits : 1 ≤ c.preferredDatasetSplits)
    (hnodes : 1 ≤ c.totalNodes) (hsize : 1 ≤ size) (hc : c.Supported)
    (hdim : (c.dims.get dim).Active) {o : Option AllToAllVLoadMap} {r fuel : ℕ} {d : DataSet}
    (h : generateAllToAll c id o r fuel size = some d) : ChunksOf c id o size d := by
  obtain ⟨d', hd', hgen⟩ := generateAllToAll_eq hsplits hnodes hsize hc hdim o id r
  have hmax := hgen (max fuel (determineChunkSize c size .allToAll).2) (le_max_right _ _)
  rw [generateAllToAll_mono (le_max_left _ _) h] at hmax
  rw [Option.some.inj hmax]
  exact hd'

/-- In a dimension all chunks of a node have one algorithm. -/
theorem ChunksOf.algorithm_eq {o : Option AllToAllVLoadMap} {d : DataSet}
    (h : ChunksOf c id o size d) {stream : List CollectivePhase} (hstream : stream ∈ d.streams)
    {phase : CollectivePhase} (hphase : phase ∈ stream) (hdim : phase.dim = dim) {a : AllToAllv}
    (ha : phase.algorithm = some a) :
    a = ⟨.allToAll, id,
      (determineChunkSize c size .allToAll).1 / (c.dims.get dim).nodes, o,
      (determineChunkSize c size .allToAll).2, (determineChunkSize c size .allToAll).1⟩ := by
  obtain ⟨r, rfl⟩ := h.streams stream hstream
  obtain ⟨dim', -, rfl⟩ := List.mem_map.mp hphase
  obtain rfl : dim' = dim := Fin.ext hdim
  rw [phaseAt] at ha
  split at ha
  · exact (Option.some.inj ha).symm
  · cases ha

/-- **All chunks carry the load of a pair**: in an involved dimension of several nodes with the direct
algorithm, a collective ends, the sizes of a pair add up to at least its load, and exceed the load of
the whole chunks by less than one byte for each stream. The chunks are the collective when it has
been made larger or is divided by the number of splits. What a node sends is what the other awaits. -/
theorem generateAllToAll_conserves (hsplits : 1 ≤ c.preferredDatasetSplits)
    (hnodes : 1 ≤ c.totalNodes) (hsize : 1 ≤ size) (hc : c.Supported)
    (hdim : (c.dims.get dim).Active) (hdirect : (c.dims.get dim).impl = .direct)
    (loads : AllToAllVLoadMap) :
    (∀ id r, ∃ d bound,
      (∀ fuel, bound ≤ fuel → generateAllToAll c id (some loads) r fuel size = some d) ∧
      d.streams.length * (determineChunkSize c size .allToAll).1 <
        (determineChunkSize c size .allToAll).2 + (determineChunkSize c size .allToAll).1 ∧
      ∀ src dst load, loads.lookup (src, dst) = some load → 0 < load →
        load ≤ d.pairTotal dim src dst ∧
        (d.pairTotal dim src dst : ℚ) <
          load * (d.streams.length * (determineChunkSize c size .allToAll).1 /
            (determineChunkSize c size .allToAll).2) + d.streams.length ∧
        (c.preferredDatasetSplits ∣ size ∨ size / c.preferredDatasetSplits < c.totalNodes →
          d.pairTotal dim src dst < load + d.streams.length)) ∧
    ∀ src dst r r' fuel fuel' d d',
      generateAllToAll c src (some loads) r fuel size = some d →
      generateAllToAll c dst (some loads) r' fuel' size = some d' →
      d.streams.length = d'.streams.length ∧
      ∀ stream ∈ d.streams, ∀ stream' ∈ d'.streams, ∀ phase ∈ stream, ∀ phase' ∈ stream',
        phase.dim = dim → phase'.dim = dim → ∀ a a', phase.algorithm = some a →
        phase'.algorithm = some a' → ∀ before packets packets' after k k' f f' sent sent' recv recv',
          a.ready ((before, dst) :: packets) k f = some (sent, recv) →
          a'.ready ((src, after) :: packets') k' f' = some (sent', recv') → sent.2 = recv'.2 := by
  obtain ⟨hchunk, htotal⟩ := determineChunkSize_pos hsplits hnodes hsize
  refine ⟨fun id r => ?_, ?_⟩
  · obtain ⟨d, hd, hgen⟩ := generateAllToAll_eq hsplits hnodes hsize hc hdim (some loads) id r
    refine ⟨d, _, hgen, hd.lt, fun src dst load hload hpos => ?_⟩
    have hn : 0 < d.streams.length := by
      apply Nat.pos_of_ne_zero
      intro hzero
      have hle := hd.le
      rw [hzero, Nat.zero_mul] at hle
      omega
    have hpair := hd.pairTotal_eq hdim hdirect hload hpos htotal hchunk
    obtain ⟨hlower, hupper⟩ := @ceil_share_bounds _ _ _ load htotal hn hd.le
    have hupper' : (d.pairTotal dim src dst : ℚ) <
        load * (d.streams.length * (determineChunkSize c size .allToAll).1 /
          (determineChunkSize c size .allToAll).2) + d.streams.length := by
      rw [hpair]
      exact_mod_cast hupper
    refine ⟨by rw [hpair]; exact hlower, hupper', fun hexact => ?_⟩
    -- a multiple of the chunk between the size and the size with one more chunk is the size
    obtain ⟨k, hk⟩ := determineChunkSize_dvd hexact
    have hn' : d.streams.length * (determineChunkSize c size .allToAll).1 =
        (determineChunkSize c size .allToAll).2 := by
      have hlt := hd.lt
      have hle := hd.le
      rw [hk, Nat.mul_comm _ k] at hle hlt ⊢
      rw [← Nat.succ_mul] at hlt
      have hkn := Nat.le_of_mul_le_mul_right hle hchunk
      have hnk := Nat.lt_of_mul_lt_mul_right hlt
      rw [show d.streams.length = k by omega]
    have hone : (d.streams.length * (determineChunkSize c size .allToAll).1 /
        (determineChunkSize c size .allToAll).2 : ℚ) = 1 := by
      rw [div_eq_one_iff_eq (by exact_mod_cast htotal.ne')]
      exact_mod_cast hn'
    rw [hone, mul_one] at hupper'
    exact_mod_cast hupper'
  · intro src dst r r' fuel fuel' d d' hgen hgen'
    have hd := chunksOf_of_generateAllToAll hsplits hnodes hsize hc hdim hgen
    have hd' := chunksOf_of_generateAllToAll hsplits hnodes hsize hc hdim hgen'
    refine ⟨hd.length_eq hd', ?_⟩
    intro stream hstream stream' hstream' phase hphase phase' hphase' hp hp' a a' ha ha' before
      packets packets' after k k' f f' sent sent' recv recv' hready hready'
    rw [AllToAllv.ready] at hready hready'
    split at hready
    · cases hready
    · split at hready'
      · cases hready'
      · cases hready
        cases hready'
        rw [hd.algorithm_eq hstream hphase hp ha, hd'.algorithm_eq hstream' hphase' hp' ha']
        rfl

/-- Two nodes exchange five bytes in chunks of two. -/
def twoNodes : CollectiveConfig := ⟨2, 2, false, [⟨2, true, .direct⟩]⟩

theorem generateAllToAll_conserves_twoNodes :
    ∃ d bound, ∀ fuel, bound ≤ fuel →
      generateAllToAll twoNodes 0 (some [((0, 1), 3)]) 0 fuel 5 = some d := by
  obtain ⟨d, bound, hgen, -⟩ := (@generateAllToAll_conserves twoNodes 5 ⟨0, by decide⟩ (by decide)
    (by decide) (by decide) (by unfold CollectiveConfig.Supported; decide) (by decide) (by decide)
    [((0, 1), 3)]).1 0 0
  exact ⟨d, bound, hgen⟩

/-- Three chunks of two bytes carry the load `3` as six bytes. -/
theorem not_conservesBytes_twoNodes : ¬ ConservesBytes twoNodes [((0, 1), 3)] 5 0 := by
  intro h
  obtain ⟨d, bound, hgen, hbounds⟩ := h 0 0
  obtain ⟨d', hd'⟩ : ∃ d', generateAllToAll twoNodes 0 (some [((0, 1), 3)]) 0 5 5 = some d' ∧
      d'.pairTotal 0 0 1 = 6 ∧ d'.streams.length = 3 := by
    refine ⟨_, rfl, ?_, ?_⟩ <;> decide +kernel
  have heq := hgen (max bound 5) (le_max_left _ _)
  rw [generateAllToAll_mono (le_max_right _ _) hd'.1] at heq
  obtain rfl := Option.some.inj heq
  have hlt := (hbounds 0 1 3 (by decide) (by decide)).2
  rw [hd'.2.1, hd'.2.2] at hlt
  exact absurd hlt (by decide)

end Collective

end Opus.Simulation
