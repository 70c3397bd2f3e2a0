import Mathlib.Data.Finset.Prod
import Mathlib.Data.Fintype.Card
import Mathlib.Data.Int.Notation
import Mathlib.Data.NNRat.Floor
import Opus.Library.Run

/-!
# The reconfigurable network

The network of the simulator: devices with a link to every other device, a queue of chunks waiting
for each link, and an event queue. The topology manager changes the bandwidths of all links at once.
Before it does so it waits for the links to drain, by counting the links that are idle when the
change is requested and those that become free later.

## Main definitions

* `Chunk`, `Link`, `Net`: the state of `Chunk.cpp`, `Link.cpp`, `Device.cpp` and
  `TopologyManager.cpp`
* `Net.send`, `Net.linkBecomeFree`, `Net.reconfigureLink`: the operations of a device
* `Net.incrementCallback`, `Net.drainNetwork`, `Net.reconfigure`: the topology manager
* `netStep`: one event of the queue, or one call from the workload

## Main results

* `Net.linkBecomeFree_congr`: restarting a link with a waiting chunk does not reach the callback
* `Net.reconfigureLink_cases`: what a reconfiguration does to one link
* `netStep_cases`: what a step can do
-/

namespace Opus.Simulation

/-! ## Data -/

/-- Bandwidths in GB/s; the source has a floating point number. -/
abbrev Bandwidth := ℚ≥0

/-- Latencies in ns; the source has a floating point number. -/
abbrev Latency := ℚ≥0

inductive RoutingAlgorithm where
  | bfs
  | opus
  deriving DecidableEq, Repr

/-- The link from a device to a device. Every device also has a link to itself, which is never
reconfigured. -/
abbrev LinkId (n : ℕ) := Fin n × Fin n

/-- A chunk that has not arrived. The source keeps the remaining route as one list of at least two
devices. -/
structure Chunk (n : ℕ) where
  id : ℕ
  size : ℕ
  current : Fin n
  next : Fin n
  rest : List (Fin n)
  deriving DecidableEq, Repr

namespace Chunk

variable {n : ℕ}

def route (c : Chunk n) : List (Fin n) := c.current :: c.next :: c.rest

/-- The link the chunk takes next. -/
def hop (c : Chunk n) : LinkId n := (c.current, c.next)

/-- The last device of the route. -/
def dest (c : Chunk n) : Fin n := (c.next :: c.rest).getLast (List.cons_ne_nil _ _)

end Chunk

structure Link where
  bandwidth : Bandwidth
  latency : Latency
  busy : Bool
  deriving DecidableEq

/-- The delays of a chunk on a link. The source computes them in floating point. -/
structure Timing where
  serializationDelay : Link → ℕ → ℕ
  communicationDelay : Link → ℕ → ℕ

/-- The delays of the source in exact arithmetic. -/
def Timing.exact : Timing where
  serializationDelay l size := ⌊(size : ℚ≥0) / (l.bandwidth * 1073741824 / 1000000000)⌋₊
  communicationDelay l size :=
    ⌊l.latency + (size : ℚ≥0) / (l.bandwidth * 1073741824 / 1000000000)⌋₊

/-- The callbacks in the event queue. The callbacks of the workload are opaque: what they do to
the network are calls of their own. -/
inductive Event (n : ℕ) where
  | chunkArrivedNextDevice (c : Chunk n)
  | linkBecomeFree (a : LinkId n)
  | finishReconfiguration
  | workload
  deriving DecidableEq, Repr

/-- The devices, the topology manager and the event queue. The last three fields record what has
happened: the chunks sent into the network, the callbacks of delivered chunks with the device each
ran at, and, for every time a matrix was applied, the links that were busy then. -/
structure Net (n : ℕ) where
  currentTime : ℕ
  link : LinkId n → Link
  pendingChunks : LinkId n → List (Chunk n)
  events : List (ℕ × Event n)
  bandwidths : LinkId n → Bandwidth
  latencies : LinkId n → Latency
  reconfigTime : Latency
  reconfiguring : Bool
  draining : Bool
  numDrainedLinks : ℕ
  curTopoId : ℤ
  inflightColl : ℤ
  injected : List (Chunk n)
  delivered : List (ℕ × Fin n)
  applied : List (List (LinkId n))

/-- The links between different devices, in the order of the loops over them. -/
def links (n : ℕ) : List (LinkId n) :=
  (List.finRange n).flatMap fun i => ((List.finRange n).filter (· ≠ i)).map fun j => (i, j)

/-- `Link::reconfigure`: the link, and the time at which it can be used. -/
def Link.reconfigure (l : Link) (bw : Bandwidth) (lat reconfigTime : Latency) (now : ℕ) :
    Link × ℕ :=
  if reconfigTime = 0 then
    ({ l with bandwidth := bw, latency := lat }, now)
  else if bw = l.bandwidth ∧ lat = l.latency then
    (l, now)
  else
    ({ bandwidth := bw, latency := lat, busy := true }, now + ⌊reconfigTime⌋₊ + 1)

theorem mem_links {n : ℕ} {a : LinkId n} : a ∈ links n ↔ a.1 ≠ a.2 := by
  obtain ⟨i, j⟩ := a
  simp only [links, List.mem_flatMap, List.mem_map, List.mem_filter, List.mem_finRange,
    true_and, decide_eq_true_eq, Prod.mk.injEq]
  constructor
  · rintro ⟨_, _, hne, rfl, rfl⟩
    exact hne.symm
  · exact fun hne => ⟨i, j, hne.symm, rfl, rfl⟩

theorem nodup_links (n : ℕ) : (links n).Nodup := by
  rw [links, List.nodup_flatMap]
  refine ⟨fun i _ => ?_, ?_⟩
  · exact ((List.nodup_finRange n).filter _).map fun _ _ h => congrArg Prod.snd h
  · refine (List.nodup_finRange n).imp fun hij => ?_
    -- links of different devices differ in their first component
    show List.Disjoint _ _
    rw [List.disjoint_left]
    intro a ha hb
    simp only [List.mem_map] at ha hb
    obtain ⟨_, _, rfl⟩ := ha
    obtain ⟨_, _, h⟩ := hb
    exact hij (congrArg Prod.fst h).symm

theorem length_links (n : ℕ) : (links n).length = n * (n - 1) := by
  have h : (links n).toFinset = (Finset.univ : Finset (Fin n)).offDiag := by
    ext a
    simp [mem_links]
  rw [← List.toFinset_card_of_nodup (nodup_links n), h, Finset.offDiag_card, Finset.card_fin,
    Nat.mul_sub, Nat.mul_one]

namespace Net

variable {n : ℕ}

/-- The topology before the first reconfiguration. -/
def initial (n : ℕ) : Net n where
  currentTime := 0
  link := fun _ => { bandwidth := 0, latency := 0, busy := false }
  pendingChunks := fun _ => []
  events := []
  bandwidths := fun _ => 0
  latencies := fun _ => 0
  reconfigTime := 0
  reconfiguring := false
  draining := false
  numDrainedLinks := 0
  curTopoId := -1
  inflightColl := 0
  injected := []
  delivered := []
  applied := []

/-! ## Devices -/

def scheduleEvent (s : Net n) (time : ℕ) (e : Event n) : Net n :=
  { s with events := s.events ++ [(time, e)] }

def setLink (s : Net n) (a : LinkId n) (l : Link) : Net n :=
  { s with link := Function.update s.link a l }

def setPending (s : Net n) (a : LinkId n) (cs : List (Chunk n)) : Net n :=
  { s with pendingChunks := Function.update s.pendingChunks a cs }

/-- `Link::send`, and the event its caller schedules for the link. -/
def transmit (T : Timing) (s : Net n) (a : LinkId n) (c : Chunk n) : Net n :=
  let l := s.link a
  ((s.setLink a { l with busy := true }).scheduleEvent
      (s.currentTime + T.communicationDelay l c.size) (.chunkArrivedNextDevice c)).scheduleEvent
    (s.currentTime + T.serializationDelay l c.size + ⌊2 * l.latency⌋₊) (.linkBecomeFree a)

/-- A chunk for this link has to wait. -/
def Waits (s : Net n) (a : LinkId n) : Prop := (s.link a).busy ∨ (s.link a).bandwidth = 0

instance (s : Net n) (a : LinkId n) : Decidable (s.Waits a) := inferInstanceAs (Decidable (_ ∨ _))

/-- `Device::send`. -/
def send (T : Timing) (s : Net n) (c : Chunk n) : Net n :=
  if s.Waits c.hop then
    s.setPending c.hop (s.pendingChunks c.hop ++ [c])
  else
    s.transmit T c.hop c

/-- `Device::link_become_free`; the device calls the topology manager through a stored callback. -/
def linkBecomeFree (T : Timing) (incrementCallback : Net n → Net n) (s : Net n) (a : LinkId n) :
    Net n :=
  let s := s.setLink a { s.link a with busy := false }
  match s.pendingChunks a with
  | [] => incrementCallback s
  | c :: cs =>
    if (s.link a).bandwidth = 0 then
      incrementCallback s
    else
      (s.setPending a cs).transmit T a c

/-- The body of the loop of `Device::reconfigure`. The direct call of `link_become_free` has a
waiting chunk to send, so its callback is not reached. -/
def reconfigureLink (T : Timing) (s : Net n) (a : LinkId n) : Net n :=
  let r := (s.link a).reconfigure (s.bandwidths a) (s.latencies a) s.reconfigTime s.currentTime
  let s := s.setLink a r.1
  if r.2 = s.currentTime then
    if s.pendingChunks a ≠ [] ∧ (s.link a).bandwidth ≠ 0 then s.linkBecomeFree T id a else s
  else
    s.scheduleEvent r.2 (.linkBecomeFree a)

section

variable (T : Timing) (s : Net n) (a : LinkId n)

@[simp] theorem link_setLink (l : Link) : (s.setLink a l).link a = l :=
  Function.update_self ..

theorem link_setLink_of_ne {a b : LinkId n} (h : b ≠ a) (l : Link) :
    (s.setLink a l).link b = s.link b :=
  Function.update_of_ne h ..

@[simp] theorem link_scheduleEvent (t : ℕ) (e : Event n) : (s.scheduleEvent t e).link = s.link :=
  rfl

@[simp] theorem link_setPending (cs : List (Chunk n)) : (s.setPending a cs).link = s.link := rfl

@[simp] theorem link_transmit (c : Chunk n) :
    (s.transmit T a c).link = (s.setLink a { s.link a with busy := true }).link := rfl

/-- A waiting chunk is sent when its link can carry it. -/
theorem linkBecomeFree_of_cons (f : Net n → Net n) {c : Chunk n} {cs : List (Chunk n)}
    (hp : s.pendingChunks a = c :: cs) (hb : (s.link a).bandwidth ≠ 0) :
    s.linkBecomeFree T f a =
      ((s.setLink a { s.link a with busy := false }).setPending a cs).transmit T a c := by
  have hp' : (s.setLink a { s.link a with busy := false }).pendingChunks a = c :: cs := hp
  simp only [linkBecomeFree, hp', link_setLink, hb, if_false]

/-- Otherwise the device reports the link to the topology manager. -/
theorem linkBecomeFree_of_idle (f : Net n → Net n)
    (h : s.pendingChunks a = [] ∨ (s.link a).bandwidth = 0) :
    s.linkBecomeFree T f a = f (s.setLink a { s.link a with busy := false }) := by
  have hp' : (s.setLink a { s.link a with busy := false }).pendingChunks a = s.pendingChunks a :=
    rfl
  simp only [linkBecomeFree, hp', link_setLink]
  split
  · rfl
  · next c cs hc =>
    rw [if_pos (h.resolve_left (by simp [hc]))]

/-- **Restarting a link with a waiting chunk does not reach the callback**, so that the direct call
in `Device::reconfigure` has the effect of the scheduled one. -/
theorem linkBecomeFree_congr (f g : Net n → Net n) (hp : s.pendingChunks a ≠ [])
    (hb : (s.link a).bandwidth ≠ 0) : s.linkBecomeFree T f a = s.linkBecomeFree T g a := by
  obtain ⟨c, cs, hc⟩ := List.exists_cons_of_ne_nil hp
  rw [linkBecomeFree_of_cons T s a f hc hb, linkBecomeFree_of_cons T s a g hc hb]

end

/-- The link after a reconfiguration, when it is not taken out of service. -/
def relink (s : Net n) (a : LinkId n) : Net n :=
  s.setLink a { s.link a with bandwidth := s.bandwidths a, latency := s.latencies a }

/-- **What a reconfiguration does to one link**: it is taken out of service until an event, or it
gets its new rate at once and starts to send, or it gets the rate and has nothing to send. -/
theorem reconfigureLink_cases (T : Timing) (s : Net n) (a : LinkId n) :
    (∃ t, s.reconfigureLink T a = (s.setLink a ⟨s.bandwidths a, s.latencies a, true⟩).scheduleEvent
      t (.linkBecomeFree a)) ∨
    (∃ c cs, s.pendingChunks a = c :: cs ∧ s.bandwidths a ≠ 0 ∧ s.reconfigureLink T a =
      (((s.relink a).setLink a { (s.relink a).link a with busy := false }).setPending a cs).transmit
        T a c) ∨
    ((s.pendingChunks a = [] ∨ s.bandwidths a = 0) ∧ s.reconfigureLink T a = s.relink a) := by
  by_cases hr : s.reconfigTime = 0 ∨
      (s.bandwidths a = (s.link a).bandwidth ∧ s.latencies a = (s.link a).latency)
  · -- the new rate counts at once
    have he : (s.link a).reconfigure (s.bandwidths a) (s.latencies a) s.reconfigTime s.currentTime =
        ({ s.link a with bandwidth := s.bandwidths a, latency := s.latencies a },
          s.currentTime) := by
      by_cases h0 : s.reconfigTime = 0
      · simp [Link.reconfigure, h0]
      · have h := hr.resolve_left h0
        simp only [Link.reconfigure, h0, if_false, h, and_self, if_true]
    have hnow : s.currentTime = (s.relink a).currentTime := rfl
    simp only [reconfigureLink, he]
    rw [← relink, if_pos hnow]
    by_cases hc : (s.relink a).pendingChunks a ≠ [] ∧ ((s.relink a).link a).bandwidth ≠ 0
    · obtain ⟨c, cs, hp⟩ := List.exists_cons_of_ne_nil hc.1
      rw [if_pos hc, linkBecomeFree_of_cons T _ a id hp hc.2]
      refine .inr (.inl ⟨c, cs, hp, ?_, rfl⟩)
      simpa [relink] using hc.2
    · rw [if_neg hc]
      refine .inr (.inr ⟨?_, rfl⟩)
      have hb : ((s.relink a).link a).bandwidth = s.bandwidths a := by simp [relink]
      rw [hb, not_and_or, not_not, not_not] at hc
      exact hc
  · rw [not_or] at hr
    refine .inl ⟨s.currentTime + ⌊s.reconfigTime⌋₊ + 1, ?_⟩
    simp only [reconfigureLink, Link.reconfigure, hr, if_false]
    exact if_neg (show s.currentTime + ⌊s.reconfigTime⌋₊ + 1 ≠ s.currentTime by omega)

/-! ## The topology manager -/

def finishReconfiguration (s : Net n) : Net n :=
  { s with reconfiguring := false, draining := false, numDrainedLinks := 0 }

/-- The links that are busy. -/
def busyLinks (s : Net n) : List (LinkId n) := (links n).filter fun a => (s.link a).busy

/-- The second half of `increment_callback`: the matrix is applied to all devices. -/
def applyTopology (algo : RoutingAlgorithm) (T : Timing) (s : Net n) : Net n :=
  let s := { s with numDrainedLinks := 0, applied := s.applied ++ [s.busyLinks] }
  match algo with
  | .bfs => (links n).foldl (reconfigureLink T) { s with reconfiguring := false }
  | .opus =>
    let s := (links n).foldl (reconfigureLink T) { s with draining := false }
    if s.reconfigTime = 0 then s.finishReconfiguration
    else s.scheduleEvent (s.currentTime + ⌊s.reconfigTime⌋₊ + 2) .finishReconfiguration

/-- Links that become free are counted. -/
def Counting (algo : RoutingAlgorithm) (s : Net n) : Prop :=
  s.reconfiguring = true ∧ (algo = .opus → s.draining = true)

instance (algo : RoutingAlgorithm) (s : Net n) : Decidable (s.Counting algo) :=
  inferInstanceAs (Decidable (_ ∧ _))

def incrementCallback (algo : RoutingAlgorithm) (T : Timing) (s : Net n) : Net n :=
  if ¬ s.Counting algo then
    { s with numDrainedLinks := 0 }
  else if s.numDrainedLinks + 1 < n * (n - 1) then
    { s with numDrainedLinks := s.numDrainedLinks + 1 }
  else
    s.applyTopology algo T

/-- One round of the loop of `drain_network`. -/
def drainLink (algo : RoutingAlgorithm) (T : Timing) (s : Net n) (a : LinkId n) : Net n :=
  if (s.link a).busy then s else s.incrementCallback algo T

def drainNetwork (algo : RoutingAlgorithm) (T : Timing) (s : Net n) : Net n :=
  (links n).foldl (drainLink algo T) { s with numDrainedLinks := 0 }

/-! Draining and applying a matrix do not touch the topology id. -/

theorem curTopoId_reconfigureLink (T : Timing) (s : Net n) (a : LinkId n) :
    (s.reconfigureLink T a).curTopoId = s.curTopoId := by
  rcases reconfigureLink_cases T s a with ⟨t, he⟩ | ⟨c, cs, -, -, he⟩ | ⟨-, he⟩ <;> rw [he] <;> rfl

theorem curTopoId_foldl_reconfigureLink (T : Timing) (as : List (LinkId n)) (s : Net n) :
    (as.foldl (reconfigureLink T) s).curTopoId = s.curTopoId := by
  induction as generalizing s with
  | nil => rfl
  | cons a as ih => exact (ih _).trans (curTopoId_reconfigureLink T s a)

theorem curTopoId_incrementCallback (algo : RoutingAlgorithm) (T : Timing) (s : Net n) :
    (s.incrementCallback algo T).curTopoId = s.curTopoId := by
  unfold incrementCallback
  split_ifs
  · rfl
  · cases algo with
    | bfs => exact curTopoId_foldl_reconfigureLink T _ _
    | opus =>
      simp only [applyTopology]
      split <;> exact curTopoId_foldl_reconfigureLink T _ _
  · rfl

theorem curTopoId_drainNetwork (algo : RoutingAlgorithm) (T : Timing) (s : Net n) :
    (s.drainNetwork algo T).curTopoId = s.curTopoId := by
  unfold drainNetwork
  generalize links n = as
  have hfold : ∀ s : Net n, (as.foldl (drainLink algo T) s).curTopoId = s.curTopoId := by
    induction as with
    | nil => exact fun _ => rfl
    | cons a as ih =>
      intro s
      refine (ih _).trans ?_
      unfold drainLink
      split
      · rfl
      · exact curTopoId_incrementCallback algo T s
  exact hfold _

/-- `TopologyManager::reconfigure`: whether the request is accepted, and the network after it. The
assertion that no change is under way is compiled out of the release build, so a forced request
(`skipInflight`) goes on. The routes are not part of the network state: a chunk comes with its
own. -/
def reconfigure (algo : RoutingAlgorithm) (T : Timing) (s : Net n) (bw : LinkId n → Bandwidth)
    (lat : LinkId n → Latency) (reconfigTime : Latency) (topoId : ℤ) (skipInflight : Bool) :
    Bool × Net n :=
  if topoId = s.curTopoId then
    (decide ¬ (algo = .opus ∧ s.reconfiguring ∧ skipInflight = false), s)
  else if algo = .opus ∧ s.curTopoId ≠ -1 ∧ s.reconfiguring = false ∧
      (∀ i j, bw (i, j) = s.bandwidths (i, j)) ∧ ∀ i j, lat (i, j) = s.latencies (i, j) then
    (true, { s with curTopoId := topoId, reconfigTime := reconfigTime })
  else if (s.reconfiguring ∨ 0 < s.inflightColl) ∧ skipInflight = false then
    (false, s)
  else
    (true, ({ s with
      bandwidths := bw, latencies := lat, reconfigTime := reconfigTime, reconfiguring := true,
      draining := decide (algo = RoutingAlgorithm.opus), curTopoId := topoId }).drainNetwork algo T)

/-- What a request can do: nothing to the links, or start a drain. -/
theorem reconfigure_cases (algo : RoutingAlgorithm) (T : Timing) (s : Net n)
    (bw : LinkId n → Bandwidth) (lat : LinkId n → Latency) (r : Latency) (id : ℤ) (skip : Bool) :
    (s.reconfigure algo T bw lat r id skip).2 = s ∨
    (s.reconfigure algo T bw lat r id skip).2 = { s with curTopoId := id, reconfigTime := r } ∨
    (s.reconfigure algo T bw lat r id skip).2 = ({ s with
      bandwidths := bw, latencies := lat, reconfigTime := r, reconfiguring := true,
      draining := decide (algo = RoutingAlgorithm.opus), curTopoId := id }).drainNetwork algo T := by
  unfold reconfigure
  split_ifs
  · exact .inl rfl
  · exact .inr (.inl rfl)
  · exact .inl rfl
  · exact .inr (.inr rfl)

/-! ## Events and calls -/

/-- `Chunk::chunk_arrived_next_device`. -/
def chunkArrived (T : Timing) (s : Net n) (c : Chunk n) : Net n :=
  match c.rest with
  | [] => { s with delivered := s.delivered ++ [(c.id, c.next)] }
  | d :: rest => s.send T { c with current := c.next, next := d, rest := rest }

def invokeEvent (algo : RoutingAlgorithm) (T : Timing) (s : Net n) : Event n → Net n
  | .chunkArrivedNextDevice c => s.chunkArrived T c
  | .linkBecomeFree a => s.linkBecomeFree T (incrementCallback algo T) a
  | .finishReconfiguration => s.finishReconfiguration
  | .workload => s

/-- A new chunk is sent from its source. -/
def inject (T : Timing) (s : Net n) (size : ℕ) (src next : Fin n) (rest : List (Fin n)) : Net n :=
  let c : Chunk n := ⟨s.injected.length, size, src, next, rest⟩
  ({ s with injected := s.injected ++ [c] }).send T c

end Net

/-- One event of the queue, or one call from the workload. -/
inductive NetAct (n : ℕ) where
  /-- the event at this position of the queue, one of the earliest -/
  | proceed (k : ℕ)
  | inject (size : ℕ) (src next : Fin n) (rest : List (Fin n))
  | reconfigure (bw : LinkId n → Bandwidth) (lat : LinkId n → Latency) (reconfigTime : Latency)
      (topoId : ℤ) (skipInflight : Bool)
  | setReconfigLatency (lat : Latency)
  /-- the inflight counter is incremented and decremented by the workload -/
  | setInflight (inflight : ℤ)
  | schedule (time : ℕ)

variable {n : ℕ}

/-- One step. Events at the same time are taken in any order, and the calls of the workload come
at any time between the events. -/
def netStep (algo : RoutingAlgorithm) (T : Timing) (s : Net n) : NetAct n → Option (Net n)
  | .proceed k =>
    match s.events[k]? with
    | none => none
    | some (t, e) =>
      if ∀ p ∈ s.events, t ≤ p.1 then
        some (({ s with currentTime := t, events := s.events.eraseIdx k }).invokeEvent algo T e)
      else none
  | .inject size src next rest => if 0 < size then some (s.inject T size src next rest) else none
  | .reconfigure bw lat reconfigTime topoId skipInflight =>
    some (s.reconfigure algo T bw lat reconfigTime topoId skipInflight).2
  | .setReconfigLatency lat => some { s with reconfigTime := lat }
  | .setInflight k => some { s with inflightColl := k }
  | .schedule t => if s.currentTime ≤ t then some (s.scheduleEvent t .workload) else none

/-- The network at the time of an event, without the event. -/
def Net.takeEvent (s : Net n) (k t : ℕ) : Net n :=
  { s with currentTime := t, events := s.events.eraseIdx k }

/-- The event that is taken counts once. -/
theorem Net.countP_takeEvent {s : Net n} {k time : ℕ} {e : Event n}
    (hk : s.events[k]? = some (time, e)) (p : ℕ × Event n → Bool) :
    s.events.countP p =
      (s.takeEvent k time).events.countP p + if p (time, e) = true then 1 else 0 := by
  obtain ⟨hlt, he⟩ := List.getElem?_eq_some_iff.mp hk
  have hp := List.getElem_cons_eraseIdx_perm hlt
  rw [he] at hp
  rw [← hp.countP_eq, List.countP_cons]
  rfl

/-- What a step can do. -/
theorem netStep_cases {algo : RoutingAlgorithm} {T : Timing} {s t : Net n} {a : NetAct n}
    (h : netStep algo T s a = some t) :
    (∃ k time e, a = .proceed k ∧ s.events[k]? = some (time, e) ∧
      t = (s.takeEvent k time).invokeEvent algo T e) ∨
    (∃ size src next rest, a = .inject size src next rest ∧ t = s.inject T size src next rest) ∨
    (∃ bw lat r id skip, a = .reconfigure bw lat r id skip ∧
      t = (s.reconfigure algo T bw lat r id skip).2) ∨
    (∃ lat, t = { s with reconfigTime := lat }) ∨
    (∃ k, t = { s with inflightColl := k }) ∨
    ∃ time, t = s.scheduleEvent time .workload := by
  cases a with
  | proceed k =>
    simp only [netStep] at h
    split at h
    · cases h
    · next time e hk =>
      split at h
      · cases h
        exact .inl ⟨k, time, e, rfl, hk, rfl⟩
      · cases h
  | inject size src next rest =>
    simp only [netStep] at h
    split at h
    · cases h
      exact .inr (.inl ⟨size, src, next, rest, rfl, rfl⟩)
    · cases h
  | reconfigure bw lat r id skip =>
    cases h
    exact .inr (.inr (.inl ⟨bw, lat, r, id, skip, rfl, rfl⟩))
  | setReconfigLatency lat =>
    cases h
    exact .inr (.inr (.inr (.inl ⟨lat, rfl⟩)))
  | setInflight k =>
    cases h
    exact .inr (.inr (.inr (.inr (.inl ⟨k, rfl⟩))))
  | schedule time =>
    simp only [netStep] at h
    split at h
    · cases h
      exact .inr (.inr (.inr (.inr (.inr ⟨time, rfl⟩))))
    · cases h

end Opus.Simulation
