import Opus.Simulation.PacketWindow
import Opus.Simulation.RingTopology

/-!
# The ring and the direct algorithm

In the ring algorithm a node sends to the next node of the ring and receives from the one before it.
In the direct algorithm it goes around the ring with both, and leaves itself out. With given loads
the direct algorithm takes the size of a message from the pair of its nodes.

## Main definitions

* `Ring.policy`, `AllToAll.policy`, `AllToAllv.policy`: the members of `Ring.cc`, `AllToAll.cc` and
  `AllToAllv.cc`
* `Ring.algorithm`, `AllToAll.algorithm`, `AllToAllv.algorithm`: the algorithms on a ring

## Main results

* `ring_completes`: every run of the ring algorithm ends with all messages exchanged between
  neighbours, and with one packet at a time no node goes on before all nodes have started
* `allToAll_completes`: every run of the direct algorithm ends with each pair of nodes having
  exchanged one message in each half, and no node goes on before all nodes have started
-/

namespace Opus.Simulation

open Lockstep

inductive InjectionPolicy where
  | infinite
  | aggressive
  | semiAggressive
  | extraAggressive
  | normal
  deriving DecidableEq, Repr

/-- The neighbours of a node for its next packet. -/
structure RingCursor where
  id : ℕ
  ring : RingTopology
  currSender : ℕ
  currReceiver : ℕ

/-- The cursor of a new algorithm. -/
def RingCursor.start (ring : RingTopology) (direction : RingTopology.Direction) (id : ℕ) :
    RingCursor :=
  ⟨id, ring, ring.getSender id direction, ring.getReceiver id direction⟩

/-! ## The algorithms -/

namespace Ring

/-- The window that the constructor sets for a ring of `n` nodes. -/
def parallelReduce (type : ComType) (injectionPolicy : InjectionPolicy) (n : ℕ) : ℕ :=
  match type with
  | .allToAll =>
    match injectionPolicy with
    | .aggressive => n - 1
    | _ => 1
  | _ => 1

/-- The number of messages that the constructor sets. -/
def streamCount (type : ComType) (n : ℕ) : ℕ :=
  match type with
  | .allReduce => 2 * (n - 1)
  | .allToAll => (n - 1) * n / 2
  | _ => n - 1

def policy (type : ComType) (n dataSize : ℕ) (injectionPolicy : InjectionPolicy) :
    WindowPolicy RingCursor where
  comType := type
  parallelReduce := parallelReduce type injectionPolicy n
  nonZeroLatencyPackets := (n - 1) * parallelReduce type injectionPolicy n
  middlePoint := none
  packet c := ⟨c.currSender, c.currReceiver, 0⟩
  advance c := c
  bundleSize _ := ringMsgSize type n dataSize
  sendSize _ _ := ringMsgSize type n dataSize
  recvSize _ _ := ringMsgSize type n dataSize

/-- The ring algorithm on a ring of `n` nodes, each with its own topology. -/
def algorithm (type : ComType) (n dataSize : ℕ) (direction : RingTopology.Direction)
    (injectionPolicy : InjectionPolicy) (topology : ℕ → RingTopology) :
    Algorithm (PacketWindow RingCursor) :=
  PacketWindow.algorithm (policy type n dataSize injectionPolicy)
    (fun id => .start (topology id) direction id) (streamCount type n)

end Ring

namespace AllToAll

/-- The window; `-1` stands for all other nodes. -/
def parallelReduce (window : ℤ) (n : ℕ) : ℕ :=
  if window = -1 then n - 1 else (min window (n - 1 : ℕ)).toNat

def streamCount (type : ComType) (n : ℕ) : ℕ :=
  if type = .allToAll then n - 1 else Ring.streamCount type n

/-- The neighbours for the next packet, leaving the node itself out. -/
def advance (direction : RingTopology.Direction) (c : RingCursor) : RingCursor :=
  let receiver := c.ring.getReceiver c.currReceiver direction
  let sender := c.ring.getSender c.currSender direction
  { c with
    currReceiver := if receiver = c.id then c.ring.getReceiver receiver direction else receiver
    currSender := if sender = c.id then c.ring.getSender sender direction else sender }

/-- `isLocal` tells whether the dimension of the ring is the local one. -/
def policy (type : ComType) (window : ℤ) (isLocal : Bool) (n dataSize : ℕ)
    (direction : RingTopology.Direction)
    (injectionPolicy : InjectionPolicy) : WindowPolicy RingCursor :=
  { Ring.policy type n dataSize injectionPolicy with
    parallelReduce := parallelReduce window n
    nonZeroLatencyPackets :=
      if isLocal then (n - 1) * parallelReduce window n else parallelReduce window n
    middlePoint := some (n - 1)
    advance := advance direction }

/-- The direct algorithm. -/
def algorithm (type : ComType) (window : ℤ) (isLocal : Bool) (n dataSize : ℕ)
    (direction : RingTopology.Direction) (injectionPolicy : InjectionPolicy)
    (topology : ℕ → RingTopology) : Algorithm (PacketWindow RingCursor) :=
  PacketWindow.algorithm (policy type window isLocal n dataSize direction injectionPolicy)
    (fun id => .start (topology id) direction id) (streamCount type n)

end AllToAll

namespace AllToAllv

/-- The size of a message, for a node that is given these loads. -/
def msgSizeOf (type : ComType) (n dataSize : ℕ) (loads : Option AllToAllVLoadMap)
    (totalSize chunkSize : ℕ) (src dst : ℕ) : ℕ :=
  pairMsgSize ⟨type, src, ringMsgSize type n dataSize, loads, totalSize, chunkSize⟩ src dst

def policy (type : ComType) (window : ℤ) (isLocal : Bool) (n dataSize : ℕ)
    (direction : RingTopology.Direction)
    (injectionPolicy : InjectionPolicy) (loads : Option AllToAllVLoadMap)
    (totalSize chunkSize : ℕ) : WindowPolicy RingCursor :=
  { AllToAll.policy type window isLocal n dataSize direction injectionPolicy with
    sendSize := fun id packet =>
      msgSizeOf type n dataSize loads totalSize chunkSize id packet.preferredDest
    recvSize := fun id packet =>
      msgSizeOf type n dataSize loads totalSize chunkSize packet.preferredSrc id }

/-- The direct algorithm with loads, which are the same at all nodes. -/
def algorithm (type : ComType) (window : ℤ) (isLocal : Bool) (n dataSize : ℕ)
    (direction : RingTopology.Direction) (injectionPolicy : InjectionPolicy)
    (loads : Option AllToAllVLoadMap)
    (totalSize chunkSize : ℕ) (topology : ℕ → RingTopology) :
    Algorithm (PacketWindow RingCursor) :=
  PacketWindow.algorithm
    (policy type window isLocal n dataSize direction injectionPolicy loads totalSize chunkSize)
    (fun id => .start (topology id) direction id) (AllToAll.streamCount type n)

end AllToAllv

/-! ## Rounds around a ring -/

section Rounds

variable {NPUs : List ℕ}

/-- Going around a ring with sends in one direction and receives in the other pairs them, when the
sizes agree. -/
theorem paired_of_positions (hnodup : NPUs.Nodup) (hne : 0 < NPUs.length)
    (direction : RingTopology.Direction)
    (q : ℕ → ℕ) (size : ℕ → ℕ → ℕ) {out inc : ℕ → ℕ → ℕ × ℕ}
    (hout : ∀ a k, out (ringAt NPUs a) k =
      (ringAt NPUs (a + direction.shift NPUs.length * q k),
        size (ringAt NPUs a) (ringAt NPUs (a + direction.shift NPUs.length * q k))))
    (hinc : ∀ a k, inc (ringAt NPUs a) k =
      (ringAt NPUs (a + direction.opposite.shift NPUs.length * q k),
        size (ringAt NPUs (a + direction.opposite.shift NPUs.length * q k)) (ringAt NPUs a))) :
    ∀ i ∈ NPUs, ∀ j ∈ NPUs, ∀ k z, out i k = (j, z) ↔ inc j k = (i, z) := by
  intro i hi j hj k z
  obtain ⟨a, -, rfl⟩ := exists_ringAt hi
  obtain ⟨b, -, rfl⟩ := exists_ringAt hj
  have hpos := add_shift_modEq_iff hne direction a b (q k)
  rw [← ringAt_eq_iff hnodup hne, ← ringAt_eq_iff hnodup hne] at hpos
  rw [hout, hinc, Prod.mk.injEq, Prod.mk.injEq]
  constructor
  · rintro ⟨hdest, rfl⟩
    have hsrc := hpos.mp hdest
    rw [hsrc, hdest]
    exact ⟨rfl, rfl⟩
  · rintro ⟨hsrc, rfl⟩
    have hdest := hpos.mpr hsrc
    rw [hsrc, hdest]
    exact ⟨rfl, rfl⟩

variable {topology : ℕ → RingTopology} (hring : ∀ i ∈ NPUs, (topology i).IsRing NPUs)
  (direction : RingTopology.Direction)

include hring in
/-- The neighbours a node starts with. -/
theorem RingCursor.start_eq (hne : 0 < NPUs.length) (a : ℕ) :
    start (topology (ringAt NPUs a)) direction (ringAt NPUs a) =
      ⟨ringAt NPUs a, topology (ringAt NPUs a),
        ringAt NPUs (a + direction.opposite.shift NPUs.length),
        ringAt NPUs (a + direction.shift NPUs.length)⟩ := by
  have ht := hring _ (ringAt_mem hne a)
  rw [start, ht.getSender hne, ht.getReceiver hne]

include hring in
/-- The direct algorithm goes around the ring, and leaves the node itself out. -/
theorem AllToAll.iterate_advance (hnodup : NPUs.Nodup) (hn : 2 ≤ NPUs.length) (a k : ℕ) :
    (advance direction)^[k]
        (.start (topology (ringAt NPUs a)) direction (ringAt NPUs a)) =
      ⟨ringAt NPUs a, topology (ringAt NPUs a),
        ringAt NPUs (a + direction.opposite.shift NPUs.length * (1 + k % (NPUs.length - 1))),
        ringAt NPUs (a + direction.shift NPUs.length * (1 + k % (NPUs.length - 1)))⟩ := by
  have hne : 0 < NPUs.length := by omega
  have ht := hring _ (ringAt_mem hne a)
  -- one step in a direction, which may have to be taken twice
  have hnext : ∀ (d : RingTopology.Direction) (k : ℕ),
      (if ringAt NPUs (a + d.shift NPUs.length * (1 + k % (NPUs.length - 1)) +
          d.shift NPUs.length) = ringAt NPUs a then
        ringAt NPUs (a + d.shift NPUs.length * (1 + k % (NPUs.length - 1)) +
          d.shift NPUs.length + d.shift NPUs.length)
      else ringAt NPUs (a + d.shift NPUs.length * (1 + k % (NPUs.length - 1)) +
          d.shift NPUs.length)) =
        ringAt NPUs (a + d.shift NPUs.length * (1 + (k + 1) % (NPUs.length - 1))) := by
    intro d k
    have hlt := Nat.mod_lt k (show 0 < NPUs.length - 1 by omega)
    have hstep : ∀ m, a + d.shift NPUs.length * m + d.shift NPUs.length =
        a + d.shift NPUs.length * (m + 1) := fun m => by rw [Nat.mul_succ, Nat.add_assoc]
    have hself : ∀ m, ringAt NPUs (a + d.shift NPUs.length * m) = ringAt NPUs a ↔
        m ≡ 0 [MOD NPUs.length] := by
      intro m
      rw [ringAt_eq_iff hnodup hne, ← shift_mul_modEq_iff hne d m 0, Nat.mul_zero]
      exact ⟨fun h => h.add_left_cancel' (c := a), fun h => h.add_left a⟩
    rw [hstep, hstep, succ_mod_eq k _ (by omega)]
    generalize k % (NPUs.length - 1) = m at hlt
    by_cases hlast : m + 1 = NPUs.length - 1
    · -- the next node would be the node itself, so the step is taken twice
      have hround : 1 + m + 1 = NPUs.length := by omega
      rw [if_pos hlast, hround, if_pos ((hself _).mpr (by simp [Nat.ModEq]))]
      refine ringAt_congr ?_
      rw [Nat.mul_succ, Nat.add_zero, Nat.mul_one, ← Nat.add_assoc]
      simp [Nat.ModEq, Nat.add_mod]
    · rw [if_neg hlast, if_neg, Nat.add_assoc]
      rw [hself, Nat.ModEq, Nat.zero_mod, Nat.mod_eq_of_lt (by omega)]
      omega
  induction k with
  | zero =>
    rw [Function.iterate_zero_apply, RingCursor.start_eq hring direction hne, Nat.zero_mod,
      Nat.add_zero, Nat.mul_one, Nat.mul_one]
  | succ k ih =>
    rw [Function.iterate_succ_apply', ih, advance]
    simp only [ht.getReceiver hne, ht.getSender hne]
    rw [hnext, hnext]

/-! ## The ring algorithm -/

theorem Ring.parallelReduce_pos (type : ComType) (injectionPolicy : InjectionPolicy) {n : ℕ}
    (hn : 2 ≤ n) : 0 < parallelReduce type injectionPolicy n := by
  unfold parallelReduce
  split
  · split <;> omega
  · omega

theorem Ring.le_streamCount (type : ComType) {n : ℕ} (hn : 2 ≤ n) : n - 1 ≤ streamCount type n := by
  unfold streamCount
  split
  · omega
  · rw [Nat.le_div_iff_mul_le (by omega)]
    exact Nat.mul_le_mul_left _ hn
  · exact Nat.le_refl _

theorem Ring.fits (type : ComType) {n : ℕ} (hn : 2 ≤ n) (dataSize : ℕ)
    (injectionPolicy : InjectionPolicy) :
    PacketWindow.Fits (policy type n dataSize injectionPolicy) (streamCount type n) where
  pos := parallelReduce_pos type injectionPolicy hn
  middle _ h := nomatch h

theorem Ring.packetAt_eq (type : ComType) (n dataSize : ℕ) (injectionPolicy : InjectionPolicy)
    (cursor : ℕ → RingCursor) (i k : ℕ) :
    PacketWindow.packetAt (policy type n dataSize injectionPolicy) cursor i k =
      ⟨(cursor i).currSender, (cursor i).currReceiver, 0⟩ := by
  have hid : (policy type n dataSize injectionPolicy).advance = id := rfl
  rw [PacketWindow.packetAt, hid, Function.iterate_id]
  rfl

/-- The rounds of the ring algorithm. -/
def Ring.rounds (type : ComType) (dataSize : ℕ) (injectionPolicy : InjectionPolicy)
    (hnodup : NPUs.Nodup) (hne : 0 < NPUs.length) :
    Rounds NPUs.toFinset ℕ (streamCount type NPUs.length) where
  out := PacketWindow.out (policy type NPUs.length dataSize injectionPolicy)
    fun id => .start (topology id) direction id
  inc := PacketWindow.inc (policy type NPUs.length dataSize injectionPolicy)
    fun id => .start (topology id) direction id
  inc_mem i hi k _ := by
    obtain ⟨a, -, rfl⟩ := exists_ringAt (List.mem_toFinset.mp hi)
    rw [PacketWindow.inc, packetAt_eq, RingCursor.start_eq hring direction hne]
    exact List.mem_toFinset.mpr (ringAt_mem hne _)
  paired i hi j hj k _ := by
    refine paired_of_positions hnodup hne direction (fun _ => 1)
      (fun _ _ => ringMsgSize type NPUs.length dataSize) (fun a k => ?_) (fun a k => ?_)
      i (List.mem_toFinset.mp hi) j (List.mem_toFinset.mp hj) k
    · rw [PacketWindow.out, packetAt_eq, RingCursor.start_eq hring direction hne, Nat.mul_one]
      rfl
    · rw [PacketWindow.inc, packetAt_eq, RingCursor.start_eq hring direction hne, Nat.mul_one]
      rfl

/-- After some rounds a node depends on the nodes that many positions back. -/
theorem Ring.mem_heard (type : ComType) (dataSize : ℕ) (injectionPolicy : InjectionPolicy)
    (hnodup : NPUs.Nodup) (hne : 0 < NPUs.length) (m : ℕ) :
    ∀ a, ∀ q ≤ m, ringAt NPUs (a + direction.opposite.shift NPUs.length * q) ∈
      (rounds hring direction type dataSize injectionPolicy hnodup hne).heard m
        (ringAt NPUs a) := by
  induction m with
  | zero =>
    intro a q hq
    rw [Nat.le_zero.mp hq, Nat.mul_zero, Nat.add_zero]
    exact Finset.mem_singleton_self _
  | succ m ih =>
    intro a q hq
    rw [Rounds.heard, Finset.mem_union]
    rcases Nat.lt_or_ge m q with hlt | hle
    · -- the farthest node is the farthest one of the neighbour
      right
      have hback := ih (a + direction.opposite.shift NPUs.length) m (Nat.le_refl _)
      have hinc : ((rounds hring direction type dataSize injectionPolicy hnodup hne).inc
          (ringAt NPUs a) m).1 = ringAt NPUs (a + direction.opposite.shift NPUs.length) := by
        simp only [rounds, PacketWindow.inc, packetAt_eq,
          RingCursor.start_eq hring direction hne]
      rw [hinc, show q = m + 1 by omega, Nat.mul_succ, Nat.add_comm (_ * m), ← Nat.add_assoc]
      exact hback
    · exact .inl (ih a q hle)

/-- **The ring algorithm completes.** In every run, whatever the order of the nodes, their bundles
and their messages, each node sends all its messages to the next node and receives as many from the
one before it, and then goes on once. With one packet at a time no node goes on before all nodes
have started. -/
theorem ring_completes (type : ComType) (dataSize : ℕ) (direction : RingTopology.Direction)
    (injectionPolicy : InjectionPolicy) {NPUs : List ℕ} (hnodup : NPUs.Nodup)
    (hn : 2 ≤ NPUs.length) {topology : ℕ → RingTopology}
    (hring : ∀ i ∈ NPUs, (topology i).IsRing NPUs) :
    Completes (Ring.algorithm type NPUs.length dataSize direction injectionPolicy topology)
      NPUs.toFinset
      (NPUs.length * (1 + 2 * Ring.parallelReduce type injectionPolicy NPUs.length +
        3 * Ring.streamCount type NPUs.length))
      (fun i => List.replicate (Ring.streamCount type NPUs.length)
        ((topology i).getReceiver i direction, ringMsgSize type NPUs.length dataSize))
      (fun i => List.replicate (Ring.streamCount type NPUs.length)
        ((topology i).getSender i direction, ringMsgSize type NPUs.length dataSize)) ∧
    (Ring.parallelReduce type injectionPolicy NPUs.length = 1 →
      ∀ t, CollectiveState.Reached
        (Ring.algorithm type NPUs.length dataSize direction injectionPolicy topology)
        NPUs.toFinset t →
      ∀ i ∈ NPUs, (t i).exits = 1 → ∀ j ∈ NPUs, (t j).initialized = true) := by
  have hne : 0 < NPUs.length := by omega
  have hfit := Ring.fits type hn dataSize injectionPolicy
  constructor
  · have hall := PacketWindow.completes (R := Ring.rounds hring direction type dataSize
      injectionPolicy hnodup hne) hfit rfl rfl
    rw [List.toFinset_card_of_nodup hnodup] at hall
    have hout : ∀ i, firsts (PacketWindow.out
        (Ring.policy type NPUs.length dataSize injectionPolicy)
        (fun id => .start (topology id) direction id) i) (Ring.streamCount type NPUs.length) = _ :=
      fun i => firsts_eq_replicate (fun k => by
        rw [PacketWindow.out, Ring.packetAt_eq]) _
    have hinc : ∀ i, firsts (PacketWindow.inc
        (Ring.policy type NPUs.length dataSize injectionPolicy)
        (fun id => .start (topology id) direction id) i) (Ring.streamCount type NPUs.length) = _ :=
      fun i => firsts_eq_replicate (fun k => by
        rw [PacketWindow.inc, Ring.packetAt_eq]) _
    simp only [hout, hinc] at hall
    exact hall
  · intro hp t ht i hi hexits j hj
    obtain ⟨a, -, rfl⟩ := exists_ringAt hi
    obtain ⟨b, -, rfl⟩ := exists_ringAt hj
    obtain ⟨q, hq, hpos⟩ := exists_shift hne direction.opposite a b
    refine PacketWindow.initialized_of_heard (R := Ring.rounds hring direction type dataSize
      injectionPolicy hnodup hne) hfit hp rfl rfl ht (List.mem_toFinset.mpr hi) hexits _ ?_
    rw [← ringAt_congr hpos]
    have hle := Ring.le_streamCount type hn
    exact Ring.mem_heard hring direction type dataSize injectionPolicy hnodup hne _ a q (by omega)

end Rounds

/-- The nodes of a dimension of four, each with its ring. -/
theorem isRing_four : ∀ i ∈ RingTopology.dimensionNodes 0 4 1,
    (RingTopology.homogeneous i 4 i 1).IsRing (RingTopology.dimensionNodes 0 4 1) := by
  intro i hi
  have hlt : i < 4 := by
    simpa [RingTopology.dimensionNodes] using hi
  simpa using (@RingTopology.isRing_homogeneous 0 4 i 1 Nat.one_pos hlt).1

/-- An all-reduce of four nodes. -/
theorem ring_completes_fourNodes :
    Completes (Ring.algorithm .allReduce 4 64 .clockwise .normal
        fun i => RingTopology.homogeneous i 4 i 1) {0, 1, 2, 3} 84
      (fun i => List.replicate 6
        ((RingTopology.homogeneous i 4 i 1).getReceiver i .clockwise, 16))
      (fun i => List.replicate 6
        ((RingTopology.homogeneous i 4 i 1).getSender i .clockwise, 16)) :=
  (ring_completes .allReduce 64 .clockwise .normal
    (RingTopology.nodup_dimensionNodes 0 4 Nat.one_pos) (by decide) isRing_four).1

/-! ## The direct algorithm -/

section Direct

variable {NPUs : List ℕ}

/-- The partner of a node for its packet with this number. -/
def AllToAll.partner (NPUs : List ℕ) (direction : RingTopology.Direction) (i k : ℕ) : ℕ :=
  ringAt NPUs (NPUs.idxOf i + direction.shift NPUs.length * (1 + k % (NPUs.length - 1)))

/-- The messages of a node with its partners, when their sizes depend on the partner. -/
def AllToAll.messages (NPUs : List ℕ) (direction : RingTopology.Direction) (size : ℕ → ℕ)
    (S i : ℕ) : List (ℕ × ℕ) :=
  firsts (fun k => (partner NPUs direction i k, size (partner NPUs direction i k))) S

/-- Each other node is the partner exactly once on the way around the ring. -/
theorem AllToAll.count_messages_once (hnodup : NPUs.Nodup) (hn : 2 ≤ NPUs.length)
    (direction : RingTopology.Direction) (size : ℕ → ℕ) {i j : ℕ} (hi : i ∈ NPUs) (hj : j ∈ NPUs)
    (hij : i ≠ j) :
    (messages NPUs direction size (NPUs.length - 1) i).count (j, size j) = 1 := by
  have hne : 0 < NPUs.length := by omega
  have hpartner : ∀ k < NPUs.length - 1, partner NPUs direction i k =
      ringAt NPUs (NPUs.idxOf i + direction.shift NPUs.length * (1 + k)) := fun k hk => by
    rw [partner, Nat.mod_eq_of_lt hk]
  refine List.count_eq_one_of_mem ?_ ?_
  · -- different packets have different partners
    refine (List.nodup_range).map_on fun k hk l hl h => ?_
    rw [List.mem_range] at hk hl
    have hpos := (Prod.mk.inj h).1
    rw [hpartner k hk, hpartner l hl, ringAt_eq_iff hnodup hne] at hpos
    have hmod := (shift_mul_modEq_iff hne direction _ _).mp hpos.add_left_cancel'
    have heq := Nat.ModEq.eq_of_lt_of_lt hmod (by omega) (by omega)
    omega
  · obtain ⟨b, -, rfl⟩ := exists_ringAt hj
    obtain ⟨q, hq, hpos⟩ := exists_shift hne direction (NPUs.idxOf i) b
    have hq0 : q ≠ 0 := by
      rintro rfl
      rw [Nat.mul_zero, Nat.add_zero] at hpos
      exact hij ((ringAt_idxOf hi).symm.trans (ringAt_congr hpos))
    refine mem_firsts.mpr ⟨q - 1, by omega, ?_⟩
    simp only [hpartner (q - 1) (by omega), Nat.add_sub_cancel' (Nat.pos_of_ne_zero hq0),
      ringAt_congr hpos]

/-- Each other node is the partner as often as the ring is gone around. -/
theorem AllToAll.count_messages (hnodup : NPUs.Nodup) (hn : 2 ≤ NPUs.length)
    (direction : RingTopology.Direction) (size : ℕ → ℕ) {i j : ℕ} (hi : i ∈ NPUs) (hj : j ∈ NPUs)
    (hij : i ≠ j) (c : ℕ) :
    (messages NPUs direction size (c * (NPUs.length - 1)) i).count (j, size j) = c := by
  induction c with
  | zero => simp [messages]
  | succ c ih =>
    have hperiod : ∀ k, partner NPUs direction i (c * (NPUs.length - 1) + k) =
        partner NPUs direction i k := fun k => by
      rw [partner, partner, Nat.add_comm (c * _), Nat.add_mul_mod_self_right]
    have hrest : firsts (fun k => (partner NPUs direction i (c * (NPUs.length - 1) + k),
        size (partner NPUs direction i (c * (NPUs.length - 1) + k)))) (NPUs.length - 1) =
        messages NPUs direction size (NPUs.length - 1) i := by
      simp only [hperiod]
      rfl
    rw [messages, Nat.succ_mul, firsts_add, List.count_append, hrest,
      count_messages_once hnodup hn direction size hi hj hij]
    exact congrArg (· + 1) ih

theorem AllToAll.parallelReduce_pos {window : ℤ} (hw : window = -1 ∨ 0 < window) {n : ℕ}
    (hn : 2 ≤ n) : 0 < parallelReduce window n ∧ parallelReduce window n ≤ n - 1 := by
  unfold parallelReduce
  split <;> omega

/-- How often the direct algorithm goes around the ring. -/
theorem AllToAll.streamCount_eq (type : ComType) (n : ℕ) :
    streamCount type n = (if type = .allReduce then 2 else 1) * (n - 1) := by
  cases type <;> simp [streamCount, Ring.streamCount]

theorem AllToAllv.fits (type : ComType) {window : ℤ} (hw : window = -1 ∨ 0 < window)
    (isLocal : Bool) {n : ℕ} (hn : 2 ≤ n) (dataSize : ℕ) (direction : RingTopology.Direction)
    (injectionPolicy : InjectionPolicy) (loads : Option AllToAllVLoadMap)
    (totalSize chunkSize : ℕ) :
    PacketWindow.Fits (policy type window isLocal n dataSize direction injectionPolicy loads
      totalSize chunkSize) (AllToAll.streamCount type n) where
  pos := (AllToAll.parallelReduce_pos hw hn).1
  middle m hm htype := by
    obtain rfl : n - 1 = m := Option.some.inj hm
    have htype' : type = .allReduce := htype
    refine ⟨(AllToAll.parallelReduce_pos hw hn).2, ?_⟩
    rw [AllToAll.streamCount_eq, if_pos htype']

/-- Without loads it is the plain direct algorithm. -/
theorem AllToAllv.algorithm_none (type : ComType) (window : ℤ) (isLocal : Bool) (n dataSize : ℕ)
    (direction : RingTopology.Direction) (injectionPolicy : InjectionPolicy)
    (totalSize chunkSize : ℕ)
    (topology : ℕ → RingTopology) :
    algorithm type window isLocal n dataSize direction injectionPolicy none totalSize chunkSize
        topology =
      AllToAll.algorithm type window isLocal n dataSize direction injectionPolicy topology := rfl

variable {topology : ℕ → RingTopology} (hring : ∀ i ∈ NPUs, (topology i).IsRing NPUs)
  (direction : RingTopology.Direction)

include hring in
/-- The packets of the direct algorithm are for the partners. -/
theorem AllToAllv.packetAt_eq (type : ComType) (window : ℤ) (isLocal : Bool) (dataSize : ℕ)
    (injectionPolicy : InjectionPolicy) (loads : Option AllToAllVLoadMap)
    (totalSize chunkSize : ℕ) (hnodup : NPUs.Nodup) (hn : 2 ≤ NPUs.length) (a k : ℕ) :
    PacketWindow.packetAt (policy type window isLocal NPUs.length dataSize direction
        injectionPolicy loads totalSize chunkSize)
        (fun id => .start (topology id) direction id) (ringAt NPUs a) k =
      ⟨ringAt NPUs (a + direction.opposite.shift NPUs.length * (1 + k % (NPUs.length - 1))),
        ringAt NPUs (a + direction.shift NPUs.length * (1 + k % (NPUs.length - 1))), 0⟩ := by
  have hiterate := AllToAll.iterate_advance hring direction hnodup hn a k
  rw [PacketWindow.packetAt]
  simp only [policy, AllToAll.policy, Ring.policy, hiterate]

/-- The rounds of the direct algorithm. -/
def AllToAllv.rounds (type : ComType) (window : ℤ) (isLocal : Bool) (dataSize : ℕ)
    (injectionPolicy : InjectionPolicy) (loads : Option AllToAllVLoadMap)
    (totalSize chunkSize : ℕ) (hnodup : NPUs.Nodup) (hn : 2 ≤ NPUs.length) :
    Rounds NPUs.toFinset ℕ (AllToAll.streamCount type NPUs.length) where
  out := PacketWindow.out (policy type window isLocal NPUs.length dataSize direction
    injectionPolicy loads totalSize chunkSize) fun id => .start (topology id) direction id
  inc := PacketWindow.inc (policy type window isLocal NPUs.length dataSize direction
    injectionPolicy loads totalSize chunkSize) fun id => .start (topology id) direction id
  inc_mem i hi k _ := by
    obtain ⟨a, -, rfl⟩ := exists_ringAt (List.mem_toFinset.mp hi)
    rw [PacketWindow.inc, packetAt_eq hring direction _ _ _ _ _ _ _ _ hnodup hn]
    exact List.mem_toFinset.mpr (ringAt_mem (by omega) _)
  paired i hi j hj k _ := by
    refine paired_of_positions hnodup (by omega) direction (fun k => 1 + k % (NPUs.length - 1))
      (msgSizeOf type NPUs.length dataSize loads totalSize chunkSize) (fun a k => ?_)
      (fun a k => ?_) i (List.mem_toFinset.mp hi) j (List.mem_toFinset.mp hj) k
    · rw [PacketWindow.out, packetAt_eq hring direction _ _ _ _ _ _ _ _ hnodup hn]
      rfl
    · rw [PacketWindow.inc, packetAt_eq hring direction _ _ _ _ _ _ _ _ hnodup hn]
      rfl

/-- **The direct algorithm completes**, also with given loads. In every run, whatever the order of
the nodes, their bundles and their messages, each node sends one message to each other node and
receives one from it, or two in an all-reduce, and then goes on once. No node goes on before all
nodes have started. -/
theorem allToAll_completes (type : ComType) {window : ℤ} (hw : window = -1 ∨ 0 < window)
    (isLocal : Bool) (dataSize : ℕ) (direction : RingTopology.Direction)
    (injectionPolicy : InjectionPolicy)
    (loads : Option AllToAllVLoadMap) (totalSize chunkSize : ℕ) {NPUs : List ℕ}
    (hnodup : NPUs.Nodup) (hn : 2 ≤ NPUs.length) {topology : ℕ → RingTopology}
    (hring : ∀ i ∈ NPUs, (topology i).IsRing NPUs) :
    Completes (AllToAllv.algorithm type window isLocal NPUs.length dataSize direction
        injectionPolicy loads totalSize chunkSize topology)
      NPUs.toFinset
      (NPUs.length * (1 + 2 * AllToAll.parallelReduce window NPUs.length +
        3 * AllToAll.streamCount type NPUs.length))
      (fun i => AllToAll.messages NPUs direction
        (fun j => AllToAllv.msgSizeOf type NPUs.length dataSize loads totalSize chunkSize i j)
        (AllToAll.streamCount type NPUs.length) i)
      (fun i => AllToAll.messages NPUs direction.opposite
        (fun j => AllToAllv.msgSizeOf type NPUs.length dataSize loads totalSize chunkSize j i)
        (AllToAll.streamCount type NPUs.length) i) ∧
    (∀ d, ∀ size : ℕ → ℕ, ∀ i ∈ NPUs, ∀ j ∈ NPUs, i ≠ j →
      (AllToAll.messages NPUs d size (AllToAll.streamCount type NPUs.length) i).count (j, size j) =
        if type = .allReduce then 2 else 1) ∧
    ∀ t, CollectiveState.Reached (AllToAllv.algorithm type window isLocal NPUs.length dataSize
        direction injectionPolicy loads totalSize chunkSize topology) NPUs.toFinset t →
      ∀ i ∈ NPUs, (t i).exits = 1 → ∀ j ∈ NPUs, (t j).initialized = true := by
  have hne : 0 < NPUs.length := by omega
  have hfit := AllToAllv.fits type hw isLocal hn dataSize direction injectionPolicy loads totalSize
    chunkSize
  refine ⟨?_, fun d size i hi j hj hij => ?_, fun t ht i hi hexits j hj => ?_⟩
  · have hall := PacketWindow.completes (R := AllToAllv.rounds hring direction type window isLocal
      dataSize injectionPolicy loads totalSize chunkSize hnodup hn) hfit rfl rfl
    rw [List.toFinset_card_of_nodup hnodup] at hall
    -- what the nodes send and await in their rounds
    have hpacket := AllToAllv.packetAt_eq hring direction type window isLocal dataSize
      injectionPolicy loads totalSize chunkSize hnodup hn
    refine { hall with complete := fun t ht hblocked i hi => ?_ }
    obtain ⟨hexits, hsends, hrecvs⟩ := hall.complete t ht hblocked i hi
    have hidx := ringAt_idxOf (List.mem_toFinset.mp hi)
    refine ⟨hexits, hsends.trans (congrArg (firsts · _) (funext fun k => ?_)),
      hrecvs.trans (List.Perm.of_eq (congrArg (firsts · _) (funext fun k => ?_)))⟩
    · have hk := hpacket (NPUs.idxOf i) k
      rw [hidx] at hk
      rw [PacketWindow.out, hk]
      rfl
    · have hk := hpacket (NPUs.idxOf i) k
      rw [hidx] at hk
      rw [PacketWindow.inc, hk]
      rfl
  · rw [AllToAll.streamCount_eq]
    exact AllToAll.count_messages hnodup hn d size hi hj hij _
  · by_cases hij : i = j
    · exact hij ▸ PacketWindow.initialized_of_exits hfit ht (List.mem_toFinset.mpr hi) hexits
    · -- each other node is the partner of some packet
      have hmem : (j, 0) ∈ AllToAll.messages NPUs direction.opposite (fun _ => 0)
          (NPUs.length - 1) i := by
        refine List.count_pos_iff.mp ?_
        have honce := AllToAll.count_messages_once hnodup hn direction.opposite (fun _ => 0) hi hj
          hij
        omega
      obtain ⟨k, hk, hpartner⟩ := mem_firsts.mp hmem
      have hinit := PacketWindow.initialized_of_partner (R := AllToAllv.rounds hring direction type
        window isLocal dataSize injectionPolicy loads totalSize chunkSize hnodup hn) hfit rfl rfl
        ht (List.mem_toFinset.mpr hi) hexits (k := k) (by
          have hle := AllToAll.streamCount_eq type NPUs.length
          split at hle <;> omega)
      have hpacket := AllToAllv.packetAt_eq hring direction type window isLocal dataSize
        injectionPolicy loads totalSize chunkSize hnodup hn (NPUs.idxOf i) k
      rw [ringAt_idxOf hi] at hpacket
      simp only [AllToAllv.rounds, PacketWindow.inc, hpacket] at hinit
      rwa [← (Prod.mk.inj hpartner).1]

end Direct

/-- Four nodes with a window of two, where node `0` has much for node `3`. -/
theorem allToAll_completes_fourNodes :
    Completes (AllToAllv.algorithm .allToAll 2 false 4 64 .clockwise .normal
        (some [((0, 3), 100)]) 64 64 fun i => RingTopology.homogeneous i 4 i 1) {0, 1, 2, 3} 56
      (fun i => AllToAll.messages [0, 1, 2, 3] .clockwise
        (fun j => AllToAllv.msgSizeOf .allToAll 4 64 (some [((0, 3), 100)]) 64 64 i j) 3 i)
      (fun i => AllToAll.messages [0, 1, 2, 3] .anticlockwise
        (fun j => AllToAllv.msgSizeOf .allToAll 4 64 (some [((0, 3), 100)]) 64 64 j i) 3 i) ∧
    AllToAll.messages [0, 1, 2, 3] .clockwise
      (fun j => AllToAllv.msgSizeOf .allToAll 4 64 (some [((0, 3), 100)]) 64 64 0 j) 3 0 =
        [(1, 16), (2, 16), (3, 100)] :=
  ⟨(allToAll_completes .allToAll (.inr (by decide)) false 64 .clockwise .normal
    (some [((0, 3), 100)]) 64 64 (RingTopology.nodup_dimensionNodes 0 4 Nat.one_pos) (by decide)
    isRing_four).1, by decide +kernel⟩

end Opus.Simulation
