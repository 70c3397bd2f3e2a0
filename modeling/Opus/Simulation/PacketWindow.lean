import Opus.Library.Lockstep
import Opus.Simulation.AllToAllv
import Opus.Simulation.Collective

/-!
# Algorithms that exchange packets with a window

The ring algorithm, the direct algorithm and halving-doubling share their queue of packets. A node
starts with a number of packets, adds one for each message it receives, and each packet goes through
the memory bus before it can be sent. To send a packet is also to await one. The direct algorithm
holds the second half of an all-reduce back until the first half has been received.

A node goes on when it has sent all its messages and all its packets are free. It has then received
all messages too, so the packets that are left are those it started with.

## Main definitions

* `WindowPolicy`: what the algorithms differ in
* `PacketWindow.insertPacket`, `PacketWindow.ready`, `PacketWindow.iteratable`, `PacketWindow.run`:
  the functions of `Ring.cc` and `HalvingDoubling.cc`
* `PacketWindow.Live`, `PacketWindow.Done`: a node before and after it goes on

## Main results

* `PacketWindow.localInv`: every event keeps a node live, or it is done
* `PacketWindow.completes`: when what a node sends in a round is what its partner awaits in the same
  round, every run ends with all messages exchanged
* `PacketWindow.initialized_of_heard`: with one packet at a time, a node goes on only when all nodes
  it depends on have started
-/

namespace Opus.Simulation

open Lockstep

structure MyPacket where
  preferredSrc : ℕ
  preferredDest : ℕ
  msgSize : ℕ
  deriving DecidableEq, Repr

/-- What an algorithm with a window of packets is made of. `packet` is the next packet, `advance`
what `process_max_count` does for the one after it; `sendSize` and `recvSize` are the sizes that
`ready` posts, at a node for a packet. -/
structure WindowPolicy (γ : Type) where
  comType : ComType
  parallelReduce : ℕ
  /-- `get_non_zero_latency_packets` -/
  nonZeroLatencyPackets : ℕ
  /-- of the direct algorithm -/
  middlePoint : Option ℕ
  packet : γ → MyPacket
  advance : γ → γ
  bundleSize : γ → ℕ
  sendSize : ℕ → MyPacket → ℕ
  recvSize : ℕ → MyPacket → ℕ

/-- The state of such an algorithm at a node. -/
structure PacketWindow (γ : Type) where
  id : ℕ
  cursor : γ
  streamCount : ℕ
  remainedPacketsPerMaxCount : ℕ
  remainedPacketsPerMessage : ℕ
  zeroLatencyPackets : ℕ
  nonZeroLatencyPackets : ℕ
  toggle : Bool
  packets : List MyPacket
  freePackets : ℕ
  totalPacketsSent : ℕ
  totalPacketsReceived : ℕ
  deriving DecidableEq, Repr

variable {γ : Type}

namespace PacketWindow

/-- The constructor. -/
def start (id : ℕ) (cursor : γ) (streamCount : ℕ) : PacketWindow γ :=
  ⟨id, cursor, streamCount, 1, 1, 0, 0, false, [], 0, 0, 0⟩

/-- The stream of a node with such an algorithm. -/
abbrev Stream (γ : Type) := StreamBaseline (PacketWindow γ)

section Functions

variable (P : WindowPolicy γ)

/-- `process_stream_count`. -/
def processStreamCount (a : PacketWindow γ) : PacketWindow γ :=
  let remained := a.remainedPacketsPerMessage - 1
  if remained = 0 ∧ 0 < a.streamCount then
    { a with
      streamCount := a.streamCount - 1
      remainedPacketsPerMessage := if 0 < a.streamCount - 1 then 1 else remained }
  else { a with remainedPacketsPerMessage := remained }

/-- `process_max_count` with `release_packets`. -/
def processMaxCount (x : Stream γ) (toMA processed sendBack : Bool) : Stream γ :=
  let remained := x.algorithm.remainedPacketsPerMaxCount - 1
  if remained = 0 then
    { x.sendBundle ⟨toMA, processed, sendBack, P.bundleSize x.algorithm.cursor⟩ with
      algorithm := { x.algorithm with
        remainedPacketsPerMaxCount := 1
        cursor := P.advance x.algorithm.cursor } }
  else { x with algorithm := { x.algorithm with remainedPacketsPerMaxCount := remained } }

/-- `reduce`. -/
def reduce (a : PacketWindow γ) : PacketWindow γ :=
  let a := a.processStreamCount
  { a with
    packets := a.packets.tail
    freePackets := a.freePackets - 1
    totalPacketsSent := a.totalPacketsSent + 1 }

/-- The counts of packets with and without latency start again when both are used up. -/
def rearm (a : PacketWindow γ) : PacketWindow γ :=
  if a.zeroLatencyPackets = 0 ∧ a.nonZeroLatencyPackets = 0 then
    { a with
      zeroLatencyPackets := P.parallelReduce
      nonZeroLatencyPackets := P.nonZeroLatencyPackets
      toggle := !a.toggle }
  else a

/-- `insert_packet`. -/
def insertPacket (x : Stream γ) : Stream γ :=
  let a := rearm P x.algorithm
  let x := { x with algorithm := { a with packets := a.packets ++ [P.packet a.cursor] } }
  if 0 < a.zeroLatencyPackets then
    let x := processMaxCount P x true false false
    { x with algorithm := { x.algorithm with zeroLatencyPackets := a.zeroLatencyPackets - 1 } }
  else if 0 < a.nonZeroLatencyPackets then
    -- data is reduced on the way, in an all-reduce only in its first half
    let processed := decide (P.comType = .reduceScatter) ||
      (decide (P.comType = .allReduce) && a.toggle)
    let x := processMaxCount P x false processed
      (!decide (a.nonZeroLatencyPackets ≤ P.parallelReduce))
    { x with
      algorithm := { x.algorithm with nonZeroLatencyPackets := a.nonZeroLatencyPackets - 1 } }
  else
    -- `rearm` leaves one of the counts positive when the window is
    { x with algorithm := a }.sysPanic

/-- `ready`. -/
def ready (x : Stream γ) : Stream γ :=
  match x.algorithm.packets with
  | [] => x
  | packet :: _ =>
    if x.algorithm.streamCount = 0 ∨ x.algorithm.freePackets = 0 then x
    else
      let x := x.frontEndSimSend packet.preferredDest (P.sendSize x.algorithm.id packet)
      let x := x.frontEndSimRecv packet.preferredSrc (P.recvSize x.algorithm.id packet)
      { x with algorithm := x.algorithm.reduce }

/-- `iteratable` with `exit`. -/
def iteratable (x : Stream γ) : Stream γ :=
  if x.algorithm.streamCount = 0 ∧ x.algorithm.freePackets = P.parallelReduce then
    { x with algorithm := { x.algorithm with packets := [] } }.proceedToNextVnet
  else x

/-- The direct algorithm is in the second half of an all-reduce with this middle point. -/
def Gated (a : PacketWindow γ) (middlePoint : ℕ) : Prop :=
  P.middlePoint = some middlePoint ∧ P.comType = .allReduce ∧ a.streamCount ≤ middlePoint

/-- What `run` does when a bundle has come back. -/
def general (x : Stream γ) : Stream γ :=
  let x := { x with
    algorithm := { x.algorithm with freePackets := x.algorithm.freePackets + 1 } }
  match P.middlePoint with
  | none => iteratable P (ready P x)
  | some middlePoint =>
    if P.comType = .allReduce ∧ x.algorithm.streamCount ≤ middlePoint then
      if x.algorithm.totalPacketsReceived < middlePoint then x
      -- the packets that were held back are sent together
      else iteratable P ((ready P)^[P.parallelReduce] x)
    else iteratable P (ready P x)

/-- `run`. -/
def run : EventType → Stream γ → Stream γ
  | .general, x => general P x
  | .packetReceived, x =>
    insertPacket P { x with
      algorithm := { x.algorithm with
        totalPacketsReceived := x.algorithm.totalPacketsReceived + 1 } }
  | .streamInit, x => (insertPacket P)^[P.parallelReduce] x

end Functions

/-! ## What the functions do -/

section Spec

variable (P : WindowPolicy γ)

theorem grows_processMaxCount (x : Stream γ) (toMA processed sendBack : Bool) :
    x.Grows (processMaxCount P x toMA processed sendBack) := by
  unfold processMaxCount
  dsimp only
  split
  · exact ⟨rfl, rfl, List.prefix_rfl, List.prefix_rfl⟩
  · exact ⟨rfl, rfl, List.prefix_rfl, List.prefix_rfl⟩

theorem grows_insertPacket (x : Stream γ) : x.Grows (insertPacket P x) := by
  have hmax := fun toMA processed sendBack => grows_processMaxCount P
    { x with algorithm := { rearm P x.algorithm with
      packets := (rearm P x.algorithm).packets ++ [P.packet (rearm P x.algorithm).cursor] } }
    toMA processed sendBack
  unfold insertPacket
  dsimp only
  split
  · obtain ⟨hi, hr, hs, hv⟩ := hmax true false false
    exact ⟨hi, hr, hs, hv⟩
  · split
    · obtain ⟨hi, hr, hs, hv⟩ := hmax false _ _
      exact ⟨hi, hr, hs, hv⟩
    · exact ⟨rfl, rfl, List.prefix_rfl, List.prefix_rfl⟩

theorem grows_ready (x : Stream γ) : x.Grows (ready P x) := by
  unfold ready
  split
  · exact .refl x
  · split
    · exact .refl x
    · exact ⟨rfl, rfl, List.prefix_append _ _, List.prefix_append _ _⟩

theorem grows_iteratable (x : Stream γ) : x.Grows (iteratable P x) := by
  unfold iteratable
  split
  · exact ⟨rfl, rfl, List.prefix_rfl, List.prefix_rfl⟩
  · exact .refl x

theorem grows_general (x : Stream γ) : x.Grows (general P x) := by
  have hfree : x.Grows { x with
      algorithm := { x.algorithm with freePackets := x.algorithm.freePackets + 1 } } :=
    ⟨rfl, rfl, List.prefix_rfl, List.prefix_rfl⟩
  have hone := hfree.trans ((grows_ready P _).trans (grows_iteratable P _))
  have hall := hfree.trans ((StreamBaseline.Grows.iterate (grows_ready P) P.parallelReduce _).trans
    (grows_iteratable P _))
  unfold general
  dsimp only
  split
  · exact hone
  · split
    · split
      · exact hfree
      · exact hall
    · exact hone

theorem grows_run (e : EventType) (x : Stream γ) : x.Grows (run P e x) := by
  cases e with
  | streamInit => exact StreamBaseline.Grows.iterate (grows_insertPacket P) _ x
  | general => exact grows_general P x
  | packetReceived =>
    obtain ⟨hi, hr, hs, hv⟩ := grows_insertPacket P { x with
      algorithm := { x.algorithm with
        totalPacketsReceived := x.algorithm.totalPacketsReceived + 1 } }
    exact ⟨hi, hr, hs, hv⟩

/-- **Inserting a packet** puts it at the end of the queue and on the memory bus. -/
theorem insertPacket_eq (hp : 0 < P.parallelReduce) (x : Stream γ)
    (hx : x.algorithm.remainedPacketsPerMaxCount = 1) :
    ∃ b z n toggle, insertPacket P x =
      { x with
        bundles := x.bundles ++ [b]
        algorithm := { x.algorithm with
          zeroLatencyPackets := z
          nonZeroLatencyPackets := n
          toggle := toggle
          packets := x.algorithm.packets ++ [P.packet x.algorithm.cursor]
          cursor := P.advance x.algorithm.cursor } } := by
  obtain ⟨z, n, toggle, ha, hpos⟩ : ∃ z n toggle,
      rearm P x.algorithm = { x.algorithm with
        zeroLatencyPackets := z
        nonZeroLatencyPackets := n
        toggle := toggle } ∧ (0 < z ∨ 0 < n) := by
    by_cases hused : x.algorithm.zeroLatencyPackets = 0 ∧ x.algorithm.nonZeroLatencyPackets = 0
    · exact ⟨_, _, _, by rw [rearm, if_pos hused], .inl hp⟩
    · exact ⟨_, _, x.algorithm.toggle, by rw [rearm, if_neg hused],
        (not_and_or.mp hused).imp Nat.pos_of_ne_zero Nat.pos_of_ne_zero⟩
  simp only [insertPacket, ha, processMaxCount, hx, StreamBaseline.sendBundle]
  by_cases hz : 0 < z
  · rw [if_pos hz]
    simp only [Nat.sub_self, if_true]
    exact ⟨_, _, _, _, rfl⟩
  · -- one of the counts is positive, so a packet is never inserted in vain
    rw [if_neg hz, if_pos (hpos.resolve_left hz)]
    simp only [Nat.sub_self, if_true]
    exact ⟨_, _, _, _, rfl⟩

/-- **A packet is sent** when there is one, a message is left, and a packet is free. -/
theorem ready_eq {x : Stream γ} {packet : MyPacket} {rest : List MyPacket}
    (hpackets : x.algorithm.packets = packet :: rest) (hcount : 0 < x.algorithm.streamCount)
    (hfree : 0 < x.algorithm.freePackets) (hper : x.algorithm.remainedPacketsPerMessage = 1) :
    ready P x =
      { x with
        sends := x.sends ++ [(packet.preferredDest, P.sendSize x.algorithm.id packet)]
        recvs := x.recvs ++ [(packet.preferredSrc, P.recvSize x.algorithm.id packet)]
        algorithm := { x.algorithm with
          streamCount := x.algorithm.streamCount - 1
          remainedPacketsPerMessage := if 0 < x.algorithm.streamCount - 1 then 1 else 0
          packets := rest
          freePackets := x.algorithm.freePackets - 1
          totalPacketsSent := x.algorithm.totalPacketsSent + 1 } } := by
  simp only [ready, hpackets]
  rw [if_neg (by omega)]
  simp [reduce, processStreamCount, StreamBaseline.frontEndSimSend, StreamBaseline.frontEndSimRecv,
    hper, hcount, hpackets]

theorem ready_of_not {x : Stream γ}
    (h : x.algorithm.packets = [] ∨ x.algorithm.streamCount = 0 ∨ x.algorithm.freePackets = 0) :
    ready P x = x := by
  unfold ready
  split
  · rfl
  · rename_i packet rest hpackets
    exact if_pos (h.resolve_left (by simp [hpackets]))

end Spec

/-! ## The invariant of a node -/

section Invariant

variable (P : WindowPolicy γ) (cursor : ℕ → γ) (S : ℕ)

/-- The algorithm on all its nodes, with the cursor each of them starts with. -/
def algorithm : Algorithm (PacketWindow γ) where
  initial i := start i (cursor i) S
  run := run P
  grows := grows_run P

/-- The packet of a node with this number. -/
def packetAt (i k : ℕ) : MyPacket := P.packet (P.advance^[k] (cursor i))

/-- What a node sends with the packet of this number, with its destination. -/
def out (i k : ℕ) : ℕ × ℕ :=
  ((packetAt P cursor i k).preferredDest, P.sendSize i (packetAt P cursor i k))

/-- What a node awaits with the packet of this number, with its source. -/
def inc (i k : ℕ) : ℕ × ℕ :=
  ((packetAt P cursor i k).preferredSrc, P.recvSize i (packetAt P cursor i k))

/-- What holds also inside an event. -/
structure Core (i : ℕ) (x : Stream γ) : Prop where
  id : x.algorithm.id = i
  count : x.algorithm.streamCount + x.algorithm.totalPacketsSent = S
  perMaxCount : x.algorithm.remainedPacketsPerMaxCount = 1
  perMessage : 0 < x.algorithm.streamCount → x.algorithm.remainedPacketsPerMessage = 1
  sends : x.sends = firsts (out P cursor i) x.algorithm.totalPacketsSent
  recvs : x.recvs = firsts (inc P cursor i) x.algorithm.totalPacketsSent
  -- the queue holds the packets after those that have been sent
  packets : firsts (packetAt P cursor i)
      (x.algorithm.totalPacketsSent + x.algorithm.packets.length) =
    firsts (packetAt P cursor i) x.algorithm.totalPacketsSent ++ x.algorithm.packets
  position : x.algorithm.cursor =
    P.advance^[x.algorithm.totalPacketsSent + x.algorithm.packets.length] (cursor i)
  total : x.algorithm.totalPacketsReceived = x.received.length
  -- the bundle of a packet is on its way until the packet is free
  balance : x.algorithm.freePackets + x.bundles.length = x.algorithm.packets.length
  -- with a window of one, no message is awaited before the last one has been received
  ordered : P.parallelReduce = 1 →
    x.received.Perm (firsts (inc P cursor i) x.received.length)
  exits : x.exits = 0
  panicked : x.panicked = false

variable {P cursor S} {i : ℕ} {x : Stream γ}

/-- The first packet of the queue is the next one to be sent. -/
theorem Core.head (h : Core P cursor S i x) {packet : MyPacket} {rest : List MyPacket}
    (hpackets : x.algorithm.packets = packet :: rest) :
    packetAt P cursor i x.algorithm.totalPacketsSent = packet ∧
      firsts (packetAt P cursor i) (x.algorithm.totalPacketsSent + 1 + rest.length) =
        firsts (packetAt P cursor i) (x.algorithm.totalPacketsSent + 1) ++ rest := by
  have hall := h.packets
  rw [hpackets, List.length_cons, show x.algorithm.totalPacketsSent + (rest.length + 1) =
    x.algorithm.totalPacketsSent + 1 + rest.length by omega] at hall
  obtain ⟨tail, htail⟩ := firsts_prefix_of_le (packetAt P cursor i)
    (Nat.le_add_right (x.algorithm.totalPacketsSent + 1) rest.length)
  rw [← htail, firsts_succ, List.append_assoc] at hall
  have hcons := List.append_cancel_left hall
  rw [List.singleton_append, List.cons.injEq] at hcons
  exact ⟨hcons.1, by rw [← htail, hcons.2]⟩

theorem Core.insertPacket (h : Core P cursor S i x) (hp : 0 < P.parallelReduce) :
    Core P cursor S i (insertPacket P x) ∧ ∃ b,
      (PacketWindow.insertPacket P x).bundles = x.bundles ++ [b] ∧
      (PacketWindow.insertPacket P x).algorithm.packets.length = x.algorithm.packets.length + 1 ∧
      (PacketWindow.insertPacket P x).algorithm.streamCount = x.algorithm.streamCount ∧
      (PacketWindow.insertPacket P x).algorithm.freePackets = x.algorithm.freePackets := by
  obtain ⟨b, z, n, toggle, heq⟩ := insertPacket_eq P hp x h.perMaxCount
  rw [heq]
  refine ⟨⟨h.id, h.count, h.perMaxCount, h.perMessage, h.sends, h.recvs, ?_, ?_, h.total, ?_,
    h.ordered, h.exits, h.panicked⟩, b, rfl, by simp, rfl, rfl⟩
  · -- the new packet is the one of the cursor
    simp only [List.length_append, List.length_singleton]
    rw [← Nat.add_assoc, firsts_succ, h.packets, List.append_assoc, h.position]
    rfl
  · simp only [List.length_append, List.length_singleton]
    rw [← Nat.add_assoc, Function.iterate_succ_apply', h.position]
  · simp only [List.length_append, List.length_singleton]
    have hbalance := h.balance
    omega

theorem Core.ready (h : Core P cursor S i x) : Core P cursor S i (ready P x) := by
  by_cases hno : x.algorithm.packets = [] ∨ x.algorithm.streamCount = 0 ∨
      x.algorithm.freePackets = 0
  · rwa [ready_of_not P hno]
  · rw [not_or, not_or] at hno
    obtain ⟨hnil, hcount, hfree⟩ := hno
    obtain ⟨packet, rest, hpackets⟩ := List.exists_cons_of_ne_nil hnil
    obtain ⟨rfl, hrest⟩ := h.head hpackets
    have hper := h.perMessage (by omega)
    rw [ready_eq P hpackets (by omega) (by omega) hper]
    have hc := h.count
    have hbalance := h.balance
    have hcursor := h.position
    rw [hpackets, List.length_cons] at hbalance hcursor
    refine ⟨h.id, by simp only; omega, h.perMaxCount, fun hpos => if_pos hpos, ?_, ?_, hrest, ?_,
      h.total, by simp only; omega, h.ordered, h.exits, h.panicked⟩
    · simp only [h.sends, h.id, firsts_succ]
      rfl
    · simp only [h.recvs, h.id, firsts_succ]
      rfl
    · simp only [hcursor]
      congr 1
      omega

/-- Inserting packets one after the other. -/
theorem Core.iterate_insertPacket (h : Core P cursor S i x) (hp : 0 < P.parallelReduce) (n : ℕ) :
    Core P cursor S i ((PacketWindow.insertPacket P)^[n] x) ∧
      ((PacketWindow.insertPacket P)^[n] x).algorithm.packets.length =
        x.algorithm.packets.length + n ∧
      ((PacketWindow.insertPacket P)^[n] x).algorithm.streamCount = x.algorithm.streamCount ∧
      ((PacketWindow.insertPacket P)^[n] x).algorithm.freePackets = x.algorithm.freePackets ∧
      bundleWork ((PacketWindow.insertPacket P)^[n] x).bundles ≤ bundleWork x.bundles + 2 * n := by
  induction n generalizing x with
  | zero => exact ⟨h, rfl, rfl, rfl, Nat.le_refl _⟩
  | succ n ih =>
    obtain ⟨hcore, b, hbundles, hpackets, hcount, hfree⟩ := h.insertPacket hp
    obtain ⟨hcore', hpackets', hcount', hfree', hwork⟩ := ih hcore
    have hb := bundleWork_singleton_le b
    rw [Function.iterate_succ_apply]
    rw [hbundles, bundleWork_append] at hwork
    exact ⟨hcore', by omega, hcount'.trans hcount, hfree'.trans hfree, by omega⟩

theorem bundles_ready (P : WindowPolicy γ) (x : Stream γ) :
    (PacketWindow.ready P x).bundles = x.bundles := by
  unfold PacketWindow.ready
  split
  · rfl
  · split <;> rfl

/-- Sending a packet takes it from the queue, and uses up a free one unless no message is left. -/
theorem Core.ready_spec (h : Core P cursor S i x) :
    (PacketWindow.ready P x).algorithm.totalPacketsSent +
        (PacketWindow.ready P x).algorithm.packets.length =
      x.algorithm.totalPacketsSent + x.algorithm.packets.length ∧
    ((PacketWindow.ready P x).algorithm.streamCount = 0 ∨
      (PacketWindow.ready P x).algorithm.freePackets = x.algorithm.freePackets - 1) := by
  have hbalance := h.balance
  by_cases hno : x.algorithm.packets = [] ∨ x.algorithm.streamCount = 0 ∨
      x.algorithm.freePackets = 0
  · rw [ready_of_not P hno]
    refine ⟨rfl, ?_⟩
    rcases hno with hno | hno | hno
    · rw [hno, List.length_nil] at hbalance
      omega
    · exact .inl hno
    · omega
  · rw [not_or, not_or] at hno
    obtain ⟨hnil, hcount, hfree⟩ := hno
    obtain ⟨packet, rest, hpackets⟩ := List.exists_cons_of_ne_nil hnil
    rw [ready_eq P hpackets (by omega) (by omega) (h.perMessage (by omega)), hpackets,
      List.length_cons]
    exact ⟨by simp only; omega, .inr rfl⟩

/-- Sending packets until none is free or no message is left. -/
theorem Core.iterate_ready (h : Core P cursor S i x) {n : ℕ}
    (hn : x.algorithm.streamCount = 0 ∨ x.algorithm.freePackets ≤ n) :
    Core P cursor S i ((PacketWindow.ready P)^[n] x) ∧
      ((PacketWindow.ready P)^[n] x).bundles = x.bundles ∧
      ((PacketWindow.ready P)^[n] x).algorithm.totalPacketsSent +
          ((PacketWindow.ready P)^[n] x).algorithm.packets.length =
        x.algorithm.totalPacketsSent + x.algorithm.packets.length ∧
      (((PacketWindow.ready P)^[n] x).algorithm.streamCount = 0 ∨
        ((PacketWindow.ready P)^[n] x).algorithm.freePackets = 0) := by
  induction n generalizing x with
  | zero => exact ⟨h, rfl, rfl, hn.imp_right Nat.le_zero.mp⟩
  | succ n ih =>
    obtain ⟨hsum, hfree⟩ := h.ready_spec
    obtain ⟨hcore, hbundles, hsum', hdone⟩ := ih h.ready (by
      rcases hn with hn | hn
      · rw [ready_of_not P (.inr (.inl hn))]
        exact .inl hn
      · exact hfree.imp_right fun hfree => by omega)
    rw [Function.iterate_succ_apply]
    exact ⟨hcore, hbundles.trans (bundles_ready P x), hsum'.trans hsum, hdone⟩

/-! ### Before and after a node goes on -/

variable (P cursor S)

/-- A node between two events, before it goes on. A free packet waits for nothing but the end or the
first half of an all-reduce. -/
structure Live (i : ℕ) (x : Stream γ) : Prop where
  core : Core P cursor S i x
  inserted : x.algorithm.totalPacketsSent + x.algorithm.packets.length =
    if x.initialized then P.parallelReduce + x.received.length else 0
  waiting : 0 < x.algorithm.freePackets → x.algorithm.streamCount = 0 ∨
    ∃ m, Gated P x.algorithm m ∧ (x.received.length < m ∨ x.bundles ≠ [])
  busy : ¬ (x.algorithm.streamCount = 0 ∧ x.algorithm.freePackets = P.parallelReduce)

/-- A node that has gone on. -/
structure Done (i : ℕ) (x : Stream γ) : Prop where
  initialized : x.initialized = true
  bundles : x.bundles = []
  sends : x.sends = firsts (out P cursor i) S
  recvs : x.recvs = firsts (inc P cursor i) S
  received : x.received.length = S
  exits : x.exits = 1
  panicked : x.panicked = false

/-- The window is positive, and the first half of an all-reduce is at least as long. -/
structure Fits : Prop where
  pos : 0 < P.parallelReduce
  middle : ∀ m, P.middlePoint = some m → P.comType = .allReduce →
    P.parallelReduce ≤ m ∧ 2 * m ≤ S

variable {P cursor S}

theorem Core.length_recvs (h : Core P cursor S i x) :
    x.recvs.length = x.algorithm.totalPacketsSent := by
  rw [h.recvs, length_firsts]

theorem Live.received_le (h : Live P cursor S i x) (ha : Awaited x) :
    x.received.length ≤ x.algorithm.totalPacketsSent :=
  h.core.length_recvs ▸ ha.length_le

theorem live_idle (hfit : Fits P S) (i : ℕ) :
    Live P cursor S i (.idle (start i (cursor i) S)) where
  core := {
    id := rfl
    count := rfl
    perMaxCount := rfl
    perMessage _ := rfl
    sends := rfl
    recvs := rfl
    packets := rfl
    position := rfl
    total := rfl
    balance := rfl
    ordered _ := .refl _
    exits := rfl
    panicked := rfl }
  inserted := rfl
  waiting h := absurd h (Nat.lt_irrefl 0)
  busy h := absurd h.2.symm hfit.pos.ne'

/-- **The end of an event**: a node goes on when nothing is left for it. -/
theorem Core.iteratable (h : Core P cursor S i x) (ha : Awaited x) (hinit : x.initialized = true)
    (hsum : x.algorithm.totalPacketsSent + x.algorithm.packets.length =
      P.parallelReduce + x.received.length)
    (hfree : x.algorithm.streamCount = 0 ∨ x.algorithm.freePackets = 0) :
    Live P cursor S i (iteratable P x) ∨ Done P cursor S i (iteratable P x) := by
  unfold PacketWindow.iteratable
  have hcount := h.count
  have hbalance := h.balance
  have hle := ha.length_le
  rw [h.length_recvs] at hle
  split
  · rename_i hend
    right
    have hsent : x.algorithm.totalPacketsSent = S := by omega
    exact {
      initialized := hinit
      bundles := List.eq_nil_of_length_eq_zero (by
        simp only [StreamBaseline.proceedToNextVnet]
        omega)
      sends := hsent ▸ h.sends
      recvs := hsent ▸ h.recvs
      received := by
        simp only [StreamBaseline.proceedToNextVnet]
        omega
      exits := by simp only [StreamBaseline.proceedToNextVnet, h.exits]
      panicked := h.panicked }
  · rename_i hend
    left
    refine ⟨h, ?_, fun hpos => .inl (hfree.resolve_right hpos.ne'), hend⟩
    rwa [hinit]

/-- A node with a bundle on its way has started. -/
theorem Live.initialized_of_bundle (h : Live P cursor S i x) {k : ℕ} {b : PacketBundle}
    (hb : x.bundles[k]? = some b) : x.initialized = true := by
  by_contra hinit
  have hinserted := h.inserted
  rw [if_neg hinit] at hinserted
  have hbalance := h.core.balance
  have hlt := (List.getElem?_eq_some_iff.mp hb).1
  omega

/-- A node that awaits a message has started. -/
theorem Live.initialized_of_sent (h : Live P cursor S i x)
    (hsent : 0 < x.algorithm.totalPacketsSent) : x.initialized = true := by
  by_contra hinit
  have hinserted := h.inserted
  rw [if_neg hinit] at hinserted
  omega

/-! ### Events -/

/-- **A bundle that has come back** makes a packet free. -/
theorem Live.general (hfit : Fits P S) (h : Live P cursor S i x) (ha : Awaited x) {k : ℕ}
    {b : PacketBundle} (hb : x.bundles[k]? = some b) :
    Live P cursor S i (general P { x with bundles := x.bundles.eraseIdx k }) ∨
      Done P cursor S i (PacketWindow.general P { x with bundles := x.bundles.eraseIdx k }) := by
  have hinit := h.initialized_of_bundle hb
  have hlt := (List.getElem?_eq_some_iff.mp hb).1
  have hle := h.received_le ha
  have hbalance := h.core.balance
  have hcount := h.core.count
  have hinserted := h.inserted
  rw [if_pos hinit] at hinserted
  generalize hy : ({ x with
    bundles := x.bundles.eraseIdx k
    algorithm := { x.algorithm with freePackets := x.algorithm.freePackets + 1 } } : Stream γ) = y
  have hcore : Core P cursor S i y := by
    subst hy
    exact { h.core with
      balance := by
        simp only [List.length_eraseIdx_of_lt hlt]
        omega }
  have hya : Awaited y := hy ▸ ha
  have hyinit : y.initialized = true := hy ▸ hinit
  have hfree : y.algorithm.freePackets = x.algorithm.freePackets + 1 := hy ▸ rfl
  -- what remains of the event, when all free packets may be sent
  have hrest : ∀ n, (y.algorithm.streamCount = 0 ∨ y.algorithm.freePackets ≤ n) →
      Live P cursor S i (PacketWindow.iteratable P ((PacketWindow.ready P)^[n] y)) ∨
        Done P cursor S i (PacketWindow.iteratable P ((PacketWindow.ready P)^[n] y)) := by
    intro n hn
    obtain ⟨hcore', -, hsum, hdone⟩ := hcore.iterate_ready hn
    obtain ⟨hi, hr, -, hv⟩ := StreamBaseline.Grows.iterate (grows_ready P) n y
    refine hcore'.iteratable (fun m => ?_) (hi.trans hyinit) ?_ hdone
    · rw [hr]
      exact (hya m).trans (hv.sublist.count_le m)
    · rw [hsum, hr]
      subst hy
      exact hinserted
  have hone : (x.algorithm.streamCount = 0 ∨ x.algorithm.freePackets = 0) →
      y.algorithm.streamCount = 0 ∨ y.algorithm.freePackets ≤ 1 := by
    subst hy
    exact fun hor => hor.imp_right fun hzero => by simp only; omega
  have hwaiting := h.waiting
  unfold PacketWindow.general
  simp only [hy]
  split
  · -- without a second half no packet is held back
    rename_i hmiddle
    refine hrest 1 (hone ?_)
    by_contra hnot
    rcases hwaiting (by omega) with hzero | ⟨m, hgated, -⟩
    · exact hnot (.inl hzero)
    · exact absurd (hmiddle.symm.trans hgated.1) (by simp)
  · rename_i m hmiddle
    have hy1 : y.algorithm.streamCount = x.algorithm.streamCount := hy ▸ rfl
    have htotal := h.core.total
    split
    · rename_i hgate
      split
      · -- the first half has not been received
        rename_i hclosed
        left
        have hmid := hfit.middle m hmiddle hgate.1
        refine ⟨hcore, ?_, fun _ => .inr ⟨m, ⟨hmiddle, hgate.1, hy1.le.trans hgate.2⟩, .inl ?_⟩,
          fun hend => ?_⟩
        · rw [hyinit]
          subst hy
          exact hinserted
        · subst hy
          exact htotal ▸ hclosed
        · rw [hy1] at hend
          omega
      · -- no more packets are free than the window holds
        exact hrest _ (.inr (by omega))
    · -- the first half holds no packet back either
      rename_i hgate
      refine hrest 1 (hone ?_)
      by_contra hnot
      rcases hwaiting (by omega) with hzero | ⟨m', hgated, -⟩
      · exact hnot (.inl hzero)
      · obtain rfl : m = m' := Option.some.inj (hmiddle.symm.trans hgated.1)
        exact hgate ⟨hgated.2.1, hy1 ▸ hgated.2.2⟩

/-- With one packet at a time, messages are received in the order in which they are awaited. -/
theorem Live.ordered_received (h : Live P cursor S i x) (ha : Awaited x) {m : ℕ × ℕ}
    (hm : x.received.count m < x.recvs.count m) (hp : P.parallelReduce = 1) :
    (x.received ++ [m]).Perm (firsts (inc P cursor i) (x.received.length + 1)) := by
  have hlt := ha.length_lt hm
  rw [h.core.length_recvs] at hlt
  have hinserted := h.inserted
  rw [if_pos (h.initialized_of_sent (by omega)), hp] at hinserted
  have hsent : x.algorithm.totalPacketsSent = x.received.length + 1 := by omega
  rw [← hsent, ← h.core.recvs]
  refine (List.subperm_ext_iff.mpr fun a _ => count_append_singleton_le hm (ha a)).perm_of_length_le
    ?_
  rw [h.core.length_recvs, List.length_append, List.length_singleton]
  omega

/-- **A message that has been received** adds a packet. -/
theorem Live.packetReceived (hfit : Fits P S) (h : Live P cursor S i x) (ha : Awaited x)
    {m : ℕ × ℕ} (hm : x.received.count m < x.recvs.count m) :
    Live P cursor S i (run P .packetReceived { x with received := x.received ++ [m] }) ∧
      ∃ b, (run P .packetReceived { x with received := x.received ++ [m] }).bundles =
        x.bundles ++ [b] := by
  have hlt := ha.length_lt hm
  rw [h.core.length_recvs] at hlt
  have hinit := h.initialized_of_sent (by omega)
  have hinserted := h.inserted
  rw [if_pos hinit] at hinserted
  have hbusy := h.busy
  generalize hy : ({ x with
    received := x.received ++ [m]
    algorithm := { x.algorithm with
      totalPacketsReceived := x.algorithm.totalPacketsReceived + 1 } } : Stream γ) = y
  have hcore : Core P cursor S i y := by
    subst hy
    exact { h.core with
      total := by simp only [h.core.total, List.length_append, List.length_singleton]
      ordered := fun hp => by
        simp only [List.length_append, List.length_singleton]
        exact h.ordered_received ha hm hp }
  obtain ⟨hcore', b, hbundles, hpackets, hcount, hfree⟩ := hcore.insertPacket hfit.pos
  obtain ⟨hi, hr, hs, hv⟩ := grows_insertPacket P y
  have hrun : run P .packetReceived { x with received := x.received ++ [m] } =
      PacketWindow.insertPacket P y := by
    subst hy
    rfl
  rw [hrun]
  have hc := hcore.count
  have hc' := hcore'.count
  refine ⟨⟨hcore', ?_, fun hpos => ?_, ?_⟩, b, by rw [hbundles]; subst hy; rfl⟩
  · rw [hi, hr, hpackets]
    subst hy
    simp only [hinit, if_true, List.length_append, List.length_singleton] at hcount hc hc' ⊢
    omega
  · -- the bundle of the new packet is still on its way
    have hwaiting := h.waiting
    rw [hfree] at hpos
    subst hy
    refine (hwaiting hpos).imp (fun hzero => hcount.trans hzero) ?_
    rintro ⟨m', ⟨hmiddle, htype, hle⟩, -⟩
    exact ⟨m', ⟨hmiddle, htype, hcount.trans_le hle⟩, .inr (by simp [hbundles])⟩
  · -- the new packet is not free yet
    rw [hcount, hfree]
    subst hy
    exact hbusy

/-- **The start of a stream** puts all packets of the window on the memory bus. -/
theorem Live.streamInit (hfit : Fits P S) (h : Live P cursor S i x) (ha : Awaited x)
    (hinit : x.initialized = false) :
    Live P cursor S i (run P .streamInit { x with initialized := true }) ∧
      bundleWork (run P .streamInit { x with initialized := true }).bundles ≤
        bundleWork x.bundles + 2 * P.parallelReduce := by
  have hinserted := h.inserted
  rw [hinit, if_neg Bool.false_ne_true] at hinserted
  have hle := h.received_le ha
  have hbalance := h.core.balance
  have hcore : Core P cursor S i { x with initialized := true } := { h.core with }
  obtain ⟨hcore', hpackets, hcount, hfree, hwork⟩ :=
    hcore.iterate_insertPacket hfit.pos P.parallelReduce
  obtain ⟨hi, hr, hs, hv⟩ := StreamBaseline.Grows.iterate (grows_insertPacket P)
    P.parallelReduce { x with initialized := true }
  have hc := hcore.count
  have hc' := hcore'.count
  have hpos := hfit.pos
  simp only [run]
  refine ⟨⟨hcore', ?_, fun hf => ?_, fun hend => ?_⟩, hwork⟩
  · rw [hi, hr, if_pos rfl, hpackets]
    simp only at hcount hc ⊢
    omega
  · rw [hfree] at hf
    simp only at hf
    omega
  · rw [hfree] at hend
    simp only at hend
    omega

/-- Nothing happens at a node that has gone on. -/
theorem Done.not_nodeStep {A : Algorithm (PacketWindow γ)} (h : Done P cursor S i x)
    (ha : Awaited x)
    {y : Stream γ} : ¬ NodeStep A x y := by
  intro hy
  cases hy with
  | init hinit => exact absurd (h.initialized.symm.trans hinit) (by decide)
  | processed k b hb _ => simp [h.bundles] at hb
  | general k b hb _ => simp [h.bundles] at hb
  | received m hm =>
    have hlt := ha.length_lt hm
    rw [h.received, h.recvs, length_firsts] at hlt
    exact Nat.lt_irrefl _ hlt

theorem bundles_iterate_ready (P : WindowPolicy γ) (n : ℕ) (x : Stream γ) :
    ((PacketWindow.ready P)^[n] x).bundles = x.bundles := by
  induction n generalizing x with
  | zero => rfl
  | succ n ih => exact (ih _).trans (bundles_ready P x)

theorem bundles_iteratable (P : WindowPolicy γ) (x : Stream γ) :
    (PacketWindow.iteratable P x).bundles = x.bundles := by
  unfold PacketWindow.iteratable
  split <;> rfl

theorem bundles_general (P : WindowPolicy γ) (x : Stream γ) :
    (PacketWindow.general P x).bundles = x.bundles := by
  unfold PacketWindow.general
  dsimp only
  split
  · rw [bundles_iteratable, bundles_ready]
  · split
    · split
      · rfl
      · rw [bundles_iteratable, bundles_iterate_ready]
    · rw [bundles_iteratable, bundles_ready]

variable (P cursor S) in
/-- The invariant of a node. -/
def NodeInv (i : ℕ) (x : Stream γ) : Prop := Live P cursor S i x ∨ Done P cursor S i x

theorem NodeInv.length_recvs_le (h : NodeInv P cursor S i x) : x.recvs.length ≤ S := by
  rcases h with h | h
  · have hcount := h.core.count
    rw [h.core.length_recvs]
    omega
  · rw [h.recvs, length_firsts]

end Invariant

/-! ## Runs -/

section Runs

variable {P : WindowPolicy γ} {cursor : ℕ → γ} {S : ℕ} {nodes : Finset ℕ}

/-- **Every event keeps the invariant of its node.** -/
theorem localInv (hfit : Fits P S) (nodes : Finset ℕ) :
    LocalInv (algorithm P cursor S) nodes (NodeInv P cursor S) where
  idle i _ := .inl (live_idle hfit i)
  step i _ x y hx ha hy := by
    rcases hx with hx | hx
    · cases hy with
      | init hinit => exact .inl (hx.streamInit hfit ha hinit).1
      | processed k b hb _ =>
        -- the bundle is still on its way
        have hne : x.bundles.set k { b with needsProcessing := false } ≠ [] := by
          rw [Ne, List.set_eq_nil_iff]
          rintro hnil
          simp [hnil] at hb
        refine .inl ⟨{ hx.core with balance := ?_ }, hx.inserted, fun hpos => ?_, hx.busy⟩
        · simpa only [List.length_set] using hx.core.balance
        · exact (hx.waiting hpos).imp_right fun ⟨m, hgated, _⟩ => ⟨m, hgated, .inr hne⟩
      | general k b hb _ => exact hx.general hfit ha hb
      | received m hm => exact .inl (hx.packetReceived hfit ha hm).1
    · exact absurd hy (hx.not_nodeStep ha)

theorem frugal (hfit : Fits P S) (nodes : Finset ℕ) :
    Frugal (algorithm P cursor S) nodes (NodeInv P cursor S) P.parallelReduce S where
  init i _ x hx ha hinit := by
    rcases hx with hx | hx
    · exact (hx.streamInit hfit ha hinit).2
    · exact absurd (hx.initialized.symm.trans hinit) (by decide)
  general i _ x k b _ _ _ := bundles_general P _
  received i _ x m hx ha hm := by
    rcases hx with hx | hx
    · obtain ⟨-, b, hbundles⟩ := hx.packetReceived hfit ha hm
      have hb := bundleWork_singleton_le b
      have hwork := bundleWork_append x.bundles [b]
      rw [← hbundles] at hwork
      exact hwork.le.trans (Nat.add_le_add_left hb _)
    · exact absurd (NodeStep.received m hm) (hx.not_nodeStep (A := algorithm P cursor S) ha)
  recvs i _ x hx := hx.length_recvs_le

variable {t : CollectiveState (PacketWindow γ)}

/-- A node that nothing can happen at, and that has received what it awaits, has gone on. -/
theorem NodeInv.done (hfit : Fits P S) {i : ℕ} {x : Stream γ} (h : NodeInv P cursor S i x)
    (hinit : x.initialized = true) (hbundles : x.bundles = [])
    (hreceived : x.received.length = x.recvs.length) : Done P cursor S i x := by
  refine h.resolve_left fun hx => ?_
  have hinserted := hx.inserted
  rw [if_pos hinit, hreceived, hx.core.length_recvs] at hinserted
  have hbalance := hx.core.balance
  rw [hbundles, List.length_nil] at hbalance
  have hpos := hfit.pos
  -- all packets of the window are free, so the node waits for the first half of an all-reduce
  rcases hx.waiting (by omega) with hzero | ⟨m, ⟨hmiddle, htype, hle⟩, hlt | hne⟩
  · exact hx.busy ⟨hzero, by omega⟩
  · -- half of the messages are left, and half of them have been received
    have hmid := hfit.middle m hmiddle htype
    have hcount := hx.core.count
    rw [hreceived, hx.core.length_recvs] at hlt
    omega
  · exact hne hbundles

/-- What a node has sent, in terms of what it awaits. -/
theorem NodeInv.posted {i : ℕ} {x : Stream γ} (h : NodeInv P cursor S i x) :
    x.sends = firsts (out P cursor i) x.recvs.length ∧
      x.recvs = firsts (inc P cursor i) x.recvs.length := by
  rcases h with h | h
  · rw [h.core.length_recvs]
    exact ⟨h.core.sends, h.core.recvs⟩
  · rw [h.recvs, length_firsts]
    exact ⟨h.sends, rfl⟩

variable {R : Rounds nodes ℕ S} {t : CollectiveState (PacketWindow γ)}

/-- When nothing can happen, a node whose partners have sent what it awaits has gone on. -/
theorem done_of_blocked (hfit : Fits P S) (hout : R.out = out P cursor)
    (hinc : R.inc = inc P cursor)
    (ht : t.Reached (algorithm P cursor S) nodes)
    (hblocked : t.Blocked (algorithm P cursor S) nodes) {j : ℕ} (hj : j ∈ nodes)
    (hsent : ∀ i ∈ nodes, ∀ z, (firsts (R.inc j) (t j).recvs.length).count (i, z) ≤
      (firsts (R.out i) (t i).recvs.length).count (j, z)) :
    Done P cursor S j (t j) := by
  have hinv := (localInv hfit nodes).reaches ht
  have hperm := received_perm_of_blocked hblocked (Matched.reaches ht) (j := j) fun i z => by
    by_cases hi : i ∈ nodes
    · rw [(hinv j hj).posted.2, (hinv i hi).posted.1, ← hout, ← hinc]
      exact hsent i hi z
    · -- a node only awaits messages of the others
      rw [List.count_eq_zero_of_not_mem]
      · exact Nat.zero_le _
      · rw [(hinv j hj).posted.2, mem_firsts]
        rintro ⟨k, hlt, hk⟩
        have hmem := R.inc_mem j hj k (hlt.trans_le (hinv j hj).length_recvs_le)
        rw [hinc, hk] at hmem
        exact hi hmem
  exact (hinv j hj).done hfit (Blocked.initialized hblocked hj) (Blocked.bundles hblocked j)
    hperm.length_eq

/-- **A collective with a window of packets.** When what a node sends in a round is what its partner
awaits in the same round, every run ends with all messages exchanged. -/
theorem completes (hfit : Fits P S) (hout : R.out = out P cursor) (hinc : R.inc = inc P cursor) :
    Completes (algorithm P cursor S) nodes (nodes.card * (1 + 2 * P.parallelReduce + 3 * S))
      (fun i => firsts (out P cursor i) S) (fun i => firsts (inc P cursor i) S) where
  bounded _ _ h := (localInv hfit nodes).length_le (frugal hfit nodes) h
  sound t ht i hi := by
    rcases (localInv hfit nodes).reaches ht i hi with h | h
    · exact ⟨h.core.panicked, by rw [h.core.exits]; omega, fun hexits => by
        rw [h.core.exits] at hexits
        omega⟩
    · exact ⟨h.panicked, h.exits.le, fun _ =>
        ⟨h.initialized, h.bundles, by rw [h.received, h.recvs, length_firsts]⟩⟩
  complete t ht hblocked i hi := by
    have hinv := (localInv hfit nodes).reaches ht
    have hall : ∀ j ∈ nodes, S ≤ (t j).recvs.length := R.all_done fun j hj hlt hsent => by
      have hdone := done_of_blocked hfit hout hinc ht hblocked hj hsent
      rw [hdone.recvs, length_firsts] at hlt
      exact Nat.lt_irrefl _ hlt
    have hdone := done_of_blocked hfit hout hinc ht hblocked hi fun j hj z =>
      R.available hj hi (hinv i hi).length_recvs_le
        ((hinv i hi).length_recvs_le.trans (hall j hj)) z
    refine ⟨hdone.exits, hdone.sends, ?_⟩
    rw [← hdone.recvs]
    refine ((Matched.reaches ht).awaited i).perm ?_
    rw [hdone.recvs, length_firsts, hdone.received]

/-- What a node receives in its first messages has been sent by its partners. -/
theorem sent_of_received (hout : R.out = out P cursor) (hinc : R.inc = inc P cursor)
    (hfit : Fits P S)
    (ht : t.Reached (algorithm P cursor S) nodes) {i : ℕ} (hi : i ∈ nodes)
    (hperm : (t i).received.Perm (firsts (inc P cursor i) (t i).received.length)) {k : ℕ}
    (hk : k < (t i).received.length) : k < (t (R.inc i k).1).recvs.length := by
  have hle := ((Matched.reaches ht).awaited i).length_le.trans
    ((localInv hfit nodes).reaches ht i hi).length_recvs_le
  have hmem := R.inc_mem i hi k (hk.trans_le hle)
  refine R.lt_of_count_le hmem hi (z := (R.inc i k).2) rfl hk hle ?_
  have hsent := (Matched.reaches ht).sent (R.inc i k).1 i (R.inc i k).2
  have hposted := ((localInv hfit nodes).reaches ht _ hmem).posted.1
  rwa [hperm.count_eq, hposted, ← hinc, ← hout] at hsent

/-- A node that has asked for a message has started. -/
theorem NodeInv.initialized {i : ℕ} {x : Stream γ} (h : NodeInv P cursor S i x)
    (hsent : 0 < x.recvs.length) : x.initialized = true := by
  rcases h with h | h
  · exact h.initialized_of_sent (h.core.length_recvs ▸ hsent)
  · exact h.initialized

theorem initialized_of_exits (hfit : Fits P S) (ht : t.Reached (algorithm P cursor S) nodes) {i : ℕ}
    (hi : i ∈ nodes) (hexits : (t i).exits = 1) : (t i).initialized = true := by
  rcases (localInv hfit nodes).reaches ht i hi with h | h
  · rw [h.core.exits] at hexits
    omega
  · exact h.initialized

/-- **A node goes on only when its partners have started.** -/
theorem initialized_of_partner (hfit : Fits P S) (hout : R.out = out P cursor)
    (hinc : R.inc = inc P cursor)
    (ht : t.Reached (algorithm P cursor S) nodes) {i : ℕ} (hi : i ∈ nodes)
    (hexits : (t i).exits = 1) {k : ℕ}
    (hk : k < S) : (t (R.inc i k).1).initialized = true := by
  have hinv := (localInv hfit nodes).reaches ht
  rcases hinv i hi with h | h
  · rw [h.core.exits] at hexits
    omega
  · have hperm := ((Matched.reaches ht).awaited i).perm (by
      rw [h.recvs, length_firsts, h.received])
    have hlt := sent_of_received hout hinc hfit ht hi
      (by rwa [h.received, ← h.recvs]) (h.received.symm ▸ hk)
    exact (hinv _ (R.inc_mem i hi k hk)).initialized (by omega)

/-- **A node goes on only when all nodes it depends on have started**, with one packet at a time. -/
theorem initialized_of_heard (hfit : Fits P S) (hp : P.parallelReduce = 1)
    (hout : R.out = out P cursor) (hinc : R.inc = inc P cursor)
    (ht : t.Reached (algorithm P cursor S) nodes) {i : ℕ} (hi : i ∈ nodes)
    (hexits : (t i).exits = 1) :
    ∀ j ∈ R.heard S i, (t j).initialized = true := by
  have hinv := (localInv hfit nodes).reaches ht
  have hmatched := Matched.reaches ht
  have hperm : ∀ j ∈ nodes,
      (t j).received.Perm (firsts (inc P cursor j) (t j).received.length) := by
    intro j hj
    rcases hinv j hj with h | h
    · exact h.core.ordered hp
    · rw [h.received, ← h.recvs]
      exact (hmatched.awaited j).perm (by rw [h.recvs, length_firsts, h.received])
  rcases hinv i hi with h | h
  · rw [h.core.exits] at hexits
    omega
  · refine @Rounds.heard_of_received _ _ _ _ S R (fun j => (t j).recvs.length)
      (fun j => (t j).received.length) (fun j => (t j).initialized = true)
      (fun j hj => (hinv j hj).initialized) (fun j hj => ?_)
      (fun j hj k hk => sent_of_received hout hinc hfit ht hj (hperm j hj) hk) S (Nat.le_refl S) i hi
      h.initialized h.received.ge
    rcases hinv j hj with h | h
    · have hinserted := h.inserted
      rw [h.core.length_recvs]
      split at hinserted <;> omega
    · simp only [h.recvs, length_firsts, h.received]
      omega

end Runs

end PacketWindow

end Opus.Simulation
