import Mathlib.Data.Nat.Log
import Opus.Simulation.PacketWindow
import Opus.Simulation.RingTopology

/-!
# Halving and doubling

A node exchanges with the node at a distance that doubles or halves from one packet to the next; an
all-reduce first doubles the distance and then halves it. The two nodes of an exchange are partners
of each other, since the direction of a node alternates along the ring in blocks of the distance.

This needs a number of nodes that is a power of two.

## Main definitions

* `HalvingDoubling.policy`, `HalvingDoubling.algorithm`: the members of `HalvingDoubling.cc`
* `flip`: the index of the partner at a distance
* `offsetAt`: the distances, for a power of two

## Main results

* `halvingDoubling_completes`: every run ends with all messages exchanged between partners, and no
  node goes on before all nodes have started
-/

namespace Opus.Simulation

open Lockstep

/-! ## The algorithm -/

/-- The size of a message and the distance of the partner, which are the same at all nodes;
`doubling` stands for an offset multiplier of two, and of a half otherwise. -/
structure HalvingStep where
  msgSize : ℕ
  rankOffset : ℕ
  doubling : Bool
  deriving DecidableEq, Repr

structure HalvingCursor where
  id : ℕ
  ring : RingTopology
  step : HalvingStep
  currSender : ℕ
  currReceiver : ℕ

namespace HalvingDoubling

/-- What the constructor sets; the program ends for an all-to-all. -/
def firstStep (type : ComType) (n dataSize : ℕ) : Option HalvingStep :=
  match type with
  | .allReduce => some ⟨dataSize / 2, 1, true⟩
  | .allGather => some ⟨dataSize, n / 2, false⟩
  | .reduceScatter => some ⟨dataSize / 2, 1, true⟩
  | .allToAll => none

/-- `rank_offset *= offset_multiplier; msg_size /= offset_multiplier`. -/
def scale (s : HalvingStep) : HalvingStep :=
  if s.doubling then { s with msgSize := s.msgSize / 2, rankOffset := s.rankOffset * 2 }
  else { s with msgSize := s.msgSize * 2, rankOffset := s.rankOffset / 2 }

/-- The step of `process_max_count`; an all-reduce turns around at the number of nodes. -/
def nextStep (type : ComType) (n : ℕ) (s : HalvingStep) : HalvingStep :=
  let s := scale s
  if s.rankOffset = n ∧ type = .allReduce then scale { s with doubling := false } else s

/-- `specify_direction`. -/
def specifyDirection (ring : RingTopology) (rankOffset : ℕ) : RingTopology.Direction :=
  if rankOffset = 0 then .clockwise
  else if ring.indexInRing / rankOffset % 2 = 0 then .clockwise
  else .anticlockwise

/-- The loop that goes to the receiver, which becomes the sender too when there is a step to go. -/
def setPartner (c : HalvingCursor) : HalvingCursor :=
  let direction := specifyDirection c.ring c.step.rankOffset
  let receiver := (fun npu => c.ring.getReceiver npu direction)^[c.step.rankOffset] c.id
  { c with
    currReceiver := receiver
    currSender := if c.step.rankOffset = 0 then c.currSender else receiver }

/-- The cursor of a new algorithm; `curr_sender` is not set before the loop. -/
def start (ring : RingTopology) (step : HalvingStep) (id : ℕ) : HalvingCursor :=
  setPartner ⟨id, ring, step, 0, 0⟩

def advance (type : ComType) (n : ℕ) (c : HalvingCursor) : HalvingCursor :=
  setPartner { c with step := nextStep type n c.step }

/-- The number of messages, from the logarithm of `n` rounded down. -/
def streamCount (type : ComType) (n : ℕ) : ℕ :=
  if type = .allReduce then Nat.log 2 (n * n) else Nat.log 2 n

def policy (type : ComType) (n : ℕ) : WindowPolicy HalvingCursor where
  comType := type
  parallelReduce := 1
  nonZeroLatencyPackets := Nat.log 2 n - 1
  middlePoint := none
  packet c := ⟨c.currSender, c.currReceiver, c.step.msgSize⟩
  advance := advance type n
  bundleSize c := c.step.msgSize
  sendSize _ packet := packet.msgSize
  recvSize _ packet := packet.msgSize

/-- The algorithm on a ring of `n` nodes, each with its own topology. -/
def algorithm (type : ComType) (n dataSize : ℕ) (topology : ℕ → RingTopology) :
    Option (Algorithm (PacketWindow HalvingCursor)) :=
  (firstStep type n dataSize).map fun step =>
    PacketWindow.algorithm (policy type n) (fun id => start (topology id) step id)
      (streamCount type n)

end HalvingDoubling

/-! ## Partners -/

/-- The index of the partner at this distance. -/
def flip (offset a : ℕ) : ℕ := if a / offset % 2 = 0 then a + offset else a - offset

section Flip

variable {offset : ℕ}

theorem le_of_odd_block {a : ℕ} (h : ¬ a / offset % 2 = 0) : offset ≤ a := by
  by_contra hlt
  rw [Nat.div_eq_of_lt (Nat.not_le.mp hlt)] at h
  exact h rfl

/-- The blocks of a node and its partner are next to each other. -/
theorem flip_div (ho : 0 < offset) (a : ℕ) :
    flip offset a / offset = if a / offset % 2 = 0 then a / offset + 1 else a / offset - 1 := by
  unfold flip
  split
  · rw [Nat.add_div_right a ho]
  · rename_i hodd
    have hle := le_of_odd_block hodd
    have hsub := Nat.add_div_right (a - offset) ho
    rw [Nat.sub_add_cancel hle] at hsub
    rw [hsub, Nat.succ_sub_one]

/-- **Partners are mutual.** -/
theorem flip_flip (ho : 0 < offset) (a : ℕ) : flip offset (flip offset a) = a := by
  have hdiv := flip_div ho a
  by_cases heven : a / offset % 2 = 0
  · rw [if_pos heven] at hdiv
    have hodd : ¬ flip offset a / offset % 2 = 0 := by omega
    have hflip : flip offset a = a + offset := if_pos heven
    rw [flip, if_neg hodd, hflip, Nat.add_sub_cancel]
  · -- an odd block is not the first one, so going back does not go below zero
    rw [if_neg heven] at hdiv
    have hle := le_of_odd_block heven
    have heven' : flip offset a / offset % 2 = 0 := by omega
    have hflip : flip offset a = a - offset := if_neg heven
    rw [flip, if_pos heven', hflip, Nat.sub_add_cancel hle]

/-- The partner is in the same block of twice the distance. -/
theorem flip_div_two_mul (ho : 0 < offset) (a : ℕ) :
    flip offset a / (2 * offset) = a / (2 * offset) := by
  have hdiv := flip_div ho a
  rw [Nat.mul_comm, ← Nat.div_div_eq_div_mul, ← Nat.div_div_eq_div_mul, hdiv]
  generalize a / offset = block
  split <;> omega

theorem flip_lt (ho : 0 < offset) {a blocks : ℕ} (ha : a < 2 * offset * blocks) :
    flip offset a < 2 * offset * blocks := by
  have hpos : 0 < 2 * offset := by omega
  rw [Nat.mul_comm] at ha ⊢
  have hlt := (Nat.div_lt_iff_lt_mul hpos).mpr ha
  rw [← flip_div_two_mul ho] at hlt
  exact (Nat.div_lt_iff_lt_mul hpos).mp hlt

/-- The partner is at the same place of its block. -/
theorem flip_mod (a : ℕ) : flip offset a % offset = a % offset := by
  unfold flip
  split
  · exact Nat.add_mod_right a offset
  · rename_i hodd
    exact (Nat.mod_eq_sub_mod (le_of_odd_block hodd)).symm

/-- Among a power of two nodes, the partner at a smaller power of two is a node. -/
theorem flip_two_pow_lt {e L a : ℕ} (he : e < L) (ha : a < 2 ^ L) : flip (2 ^ e) a < 2 ^ L := by
  have hblocks : 2 ^ L = 2 * 2 ^ e * 2 ^ (L - 1 - e) := by
    rw [← Nat.pow_succ', ← Nat.pow_add]
    congr 1
    omega
  rw [hblocks] at ha ⊢
  exact flip_lt (Nat.two_pow_pos e) ha

end Flip

/-! ## The steps for a power of two -/

/-- The distance of the exchange with this number, among `2 ^ L` nodes. -/
def offsetAt (type : ComType) (L k : ℕ) : ℕ :=
  match type with
  | .allReduce => if k < L then 2 ^ k else 2 ^ (2 * L - 1 - k)
  | .allGather => 2 ^ (L - 1 - k)
  | _ => 2 ^ k

/-- The size of its message. When an all-reduce turns around, the size is halved and then doubled. -/
def sizeAt (type : ComType) (L dataSize k : ℕ) : ℕ :=
  match type with
  | .allReduce =>
    if k < L then dataSize / 2 ^ (k + 1) else dataSize / 2 ^ (L + 1) * 2 ^ (k + 1 - L)
  | .allGather => dataSize * 2 ^ k
  | _ => dataSize / 2 ^ (k + 1)

def doublingAt (type : ComType) (L k : ℕ) : Bool :=
  match type with
  | .allReduce => decide (k < L)
  | .allGather => false
  | _ => true

namespace HalvingDoubling

theorem streamCount_eq (type : ComType) (L : ℕ) :
    streamCount type (2 ^ L) = if type = .allReduce then 2 * L else L := by
  rw [streamCount, ← pow_add, Nat.log_pow (by decide), Nat.log_pow (by decide), Nat.two_mul]

/-- **The steps of an algorithm** on a power of two. -/
theorem iterate_nextStep {type : ComType} {L dataSize : ℕ} (hL : 0 < L) {step : HalvingStep}
    (h : firstStep type (2 ^ L) dataSize = some step) {k : ℕ}
    (hk : k < streamCount type (2 ^ L)) :
    (nextStep type (2 ^ L))^[k] step =
      ⟨sizeAt type L dataSize k, offsetAt type L k, doublingAt type L k⟩ := by
  rw [streamCount_eq] at hk
  have hpow : ∀ {m}, 0 < m → 2 ^ m / 2 = 2 ^ (m - 1) := fun {m} hm => by
    obtain ⟨m, rfl⟩ : ∃ m', m = m' + 1 := ⟨m - 1, by omega⟩
    rw [Nat.pow_succ, Nat.mul_div_cancel _ (by decide), Nat.add_sub_cancel]
  -- the algorithm turns around when the distance is the number of nodes, which happens once
  have hinj : ∀ {m}, 2 ^ m = 2 ^ L → m = L := fun h => Nat.pow_right_injective (Nat.le_refl 2) h
  induction k with
  | zero =>
    cases type with
    | allReduce =>
      obtain rfl := Option.some.inj h
      simp [sizeAt, offsetAt, doublingAt, hL]
    | allGather =>
      obtain rfl := Option.some.inj h
      simp [sizeAt, offsetAt, doublingAt, hpow hL]
    | reduceScatter =>
      obtain rfl := Option.some.inj h
      simp [sizeAt, offsetAt, doublingAt]
    | allToAll => cases h
  | succ k ih =>
    rw [Function.iterate_succ_apply', ih (by omega)]
    cases type with
    | allReduce =>
      rw [if_pos rfl] at hk
      by_cases hlt : k + 1 < L
      · -- the distance doubles
        have hne : ¬ 2 ^ (k + 1) = 2 ^ L := fun h => by
          have heq := hinj h
          omega
        simp [nextStep, scale, sizeAt, offsetAt, doublingAt, hlt, show k < L by omega,
          ← Nat.pow_succ, hne, Nat.div_div_eq_div_mul]
      · by_cases hturn : k + 1 = L
        · -- the all-reduce turns around
          subst hturn
          have hlast : 2 * (k + 1) - 1 - (k + 1) = k := by omega
          simp [nextStep, scale, sizeAt, offsetAt, doublingAt, ← Nat.pow_succ,
            Nat.div_div_eq_div_mul, hlast, hpow]
        · -- the distance halves, and does not reach the number of nodes again
          have hback : 2 * L - 1 - k - 1 = 2 * L - 1 - (k + 1) := by omega
          have hne : ¬ 2 ^ (2 * L - 1 - (k + 1)) = 2 ^ L := fun h => by
            have heq := hinj h
            omega
          have hexp : k + 1 + 1 - L = k + 1 - L + 1 := by omega
          simp [nextStep, scale, sizeAt, offsetAt, doublingAt, hlt, show ¬ k < L by omega,
            hpow (show 0 < 2 * L - 1 - k by omega), hback, hne, hexp, Nat.pow_succ,
            Nat.mul_assoc]
    | allGather =>
      rw [if_neg (by decide)] at hk
      have hback : L - 1 - k - 1 = L - 1 - (k + 1) := by omega
      simp [nextStep, scale, sizeAt, offsetAt, doublingAt, hpow (show 0 < L - 1 - k by omega),
        hback, Nat.pow_succ, Nat.mul_assoc]
    | reduceScatter =>
      simp [nextStep, scale, sizeAt, offsetAt, doublingAt, ← Nat.pow_succ,
        Nat.div_div_eq_div_mul]
    | allToAll => cases h

theorem offsetAt_lt {type : ComType} {L k : ℕ} (hk : k < streamCount type (2 ^ L)) :
    ∃ e < L, offsetAt type L k = 2 ^ e := by
  rw [streamCount_eq] at hk
  cases type with
  | allReduce =>
    rw [if_pos rfl] at hk
    by_cases hlt : k < L
    · exact ⟨k, hlt, if_pos hlt⟩
    · exact ⟨2 * L - 1 - k, by omega, if_neg hlt⟩
  | allGather =>
    rw [if_neg (by decide)] at hk
    exact ⟨L - 1 - k, by omega, rfl⟩
  | reduceScatter => exact ⟨k, by simpa using hk, rfl⟩
  | allToAll => exact ⟨k, by simpa using hk, rfl⟩

/-- The partner of a node is a node. -/
theorem flip_offsetAt_lt {type : ComType} {L k a : ℕ} (hk : k < streamCount type (2 ^ L))
    (ha : a < 2 ^ L) : flip (offsetAt type L k) a < 2 ^ L := by
  obtain ⟨e, he, hoffset⟩ := offsetAt_lt hk
  exact hoffset ▸ flip_two_pow_lt he ha

end HalvingDoubling

/-! ## Rounds -/

section Rounds

variable {NPUs : List ℕ} {L : ℕ} {topology : ℕ → RingTopology}

namespace HalvingDoubling

/-- The cursor has gone to the partner at its distance. -/
theorem setPartner_eq (hnodup : NPUs.Nodup) {c : HalvingCursor} (hring : c.ring.IsRing NPUs)
    (hid : c.ring.id = c.id) {a : ℕ} (ha : a < NPUs.length) (hc : c.id = ringAt NPUs a)
    (ho : 0 < c.step.rankOffset) :
    (setPartner c).currReceiver = ringAt NPUs (flip c.step.rankOffset a) ∧
      (setPartner c).currSender = ringAt NPUs (flip c.step.rankOffset a) := by
  have hne : 0 < NPUs.length := by omega
  have hindex := hring.indexInRing_eq hnodup ha (hid.trans hc)
  have hreceiver : (setPartner c).currReceiver = ringAt NPUs (flip c.step.rankOffset a) := by
    simp only [setPartner, specifyDirection, if_neg ho.ne', hindex, hc]
    rw [hring.iterate_getReceiver hne]
    unfold flip
    split
    · simp only [RingTopology.Direction.shift, Nat.one_mul]
    · -- going back is going forward around the rest of the ring
      rename_i hodd
      have hle := le_of_odd_block hodd
      refine ringAt_congr ?_
      have hround : a + (NPUs.length - 1) * c.step.rankOffset =
          a - c.step.rankOffset + NPUs.length * c.step.rankOffset := by
        obtain ⟨m, hm⟩ : ∃ m, NPUs.length = m + 1 := ⟨NPUs.length - 1, by omega⟩
        rw [hm, Nat.add_sub_cancel, Nat.succ_mul]
        omega
      simp only [RingTopology.Direction.shift]
      rw [hround]
      simp [Nat.ModEq]
  refine ⟨hreceiver, ?_⟩
  rw [← hreceiver]
  exact if_neg ho.ne'

/-- Every cursor has been set after its step. -/
theorem iterate_advance (type : ComType) (n : ℕ) (ring : RingTopology) (step : HalvingStep)
    (id k : ℕ) :
    ∃ c : HalvingCursor, c.id = id ∧ c.ring = ring ∧ c.step = (nextStep type n)^[k] step ∧
      (advance type n)^[k] (start ring step id) = setPartner c := by
  induction k with
  | zero => exact ⟨⟨id, ring, step, 0, 0⟩, rfl, rfl, rfl, rfl⟩
  | succ k ih =>
    obtain ⟨c, hid, hring, hstep, hc⟩ := ih
    refine ⟨{ setPartner c with step := nextStep type n c.step }, hid, hring, ?_, ?_⟩
    · rw [Function.iterate_succ_apply', hstep]
    · rw [Function.iterate_succ_apply', hc]
      rfl

/-- The packets are for the partners. -/
theorem packetAt_eq {type : ComType} {dataSize : ℕ} (hL : 0 < L) {step : HalvingStep}
    (h : firstStep type (2 ^ L) dataSize = some step) (hnodup : NPUs.Nodup)
    (hn : NPUs.length = 2 ^ L)
    (hring : ∀ i ∈ NPUs, (topology i).IsRing NPUs ∧ (topology i).id = i) {a : ℕ}
    (ha : a < NPUs.length) {k : ℕ} (hk : k < streamCount type (2 ^ L)) :
    PacketWindow.packetAt (policy type (2 ^ L)) (fun id => start (topology id) step id)
        (ringAt NPUs a) k =
      ⟨ringAt NPUs (flip (offsetAt type L k) a), ringAt NPUs (flip (offsetAt type L k) a),
        sizeAt type L dataSize k⟩ := by
  obtain ⟨c, hid, hcring, hstep, hc⟩ :=
    iterate_advance type (2 ^ L) (topology (ringAt NPUs a)) step (ringAt NPUs a) k
  rw [iterate_nextStep hL h hk] at hstep
  obtain ⟨hisRing, hown⟩ := hring _ (ringAt_mem (by omega) a)
  obtain ⟨e, -, hoffset⟩ := offsetAt_lt hk
  obtain ⟨hreceiver, hsender⟩ := setPartner_eq hnodup (hcring ▸ hisRing)
    (by rw [hcring, hid, hown]) ha hid
    (by rw [hstep, hoffset]; exact Nat.two_pow_pos e)
  have hsize : (setPartner c).step = c.step := rfl
  simp only [PacketWindow.packetAt, policy, hc, hreceiver, hsender, hsize, hstep]

/-- What a node exchanges with its partners. -/
def messages (NPUs : List ℕ) (type : ComType) (L dataSize i : ℕ) : List (ℕ × ℕ) :=
  firsts (fun k => (ringAt NPUs (flip (offsetAt type L k) (NPUs.idxOf i)),
    sizeAt type L dataSize k)) (streamCount type (2 ^ L))

/-- The rounds of the algorithm. -/
def rounds {type : ComType} {dataSize : ℕ} (hL : 0 < L) {step : HalvingStep}
    (h : firstStep type (2 ^ L) dataSize = some step) (hnodup : NPUs.Nodup)
    (hn : NPUs.length = 2 ^ L)
    (hring : ∀ i ∈ NPUs, (topology i).IsRing NPUs ∧ (topology i).id = i) :
    Rounds NPUs.toFinset ℕ (streamCount type (2 ^ L)) where
  out := PacketWindow.out (policy type (2 ^ L)) fun id => start (topology id) step id
  inc := PacketWindow.inc (policy type (2 ^ L)) fun id => start (topology id) step id
  inc_mem i hi k hk := by
    obtain ⟨a, ha, rfl⟩ := exists_ringAt (List.mem_toFinset.mp hi)
    rw [PacketWindow.inc, packetAt_eq hL h hnodup hn hring ha hk]
    exact List.mem_toFinset.mpr (ringAt_mem (by omega) _)
  paired i hi j hj k hk z := by
    obtain ⟨a, ha, rfl⟩ := exists_ringAt (List.mem_toFinset.mp hi)
    obtain ⟨b, hb, rfl⟩ := exists_ringAt (List.mem_toFinset.mp hj)
    have hflip : ∀ {c}, c < NPUs.length → flip (offsetAt type L k) c < NPUs.length := fun hc =>
      hn.symm ▸ flip_offsetAt_lt hk (hn ▸ hc)
    obtain ⟨e, -, hoffset⟩ := offsetAt_lt hk
    have hpos : 0 < offsetAt type L k := hoffset ▸ Nat.two_pow_pos e
    rw [PacketWindow.out, PacketWindow.inc, packetAt_eq hL h hnodup hn hring ha hk,
      packetAt_eq hL h hnodup hn hring hb hk, Prod.mk.injEq, Prod.mk.injEq]
    simp only [ringAt_inj hnodup (hflip ha) hb, ringAt_inj hnodup (hflip hb) ha]
    -- the sizes agree in a round, and the partner of a partner is the node itself
    refine and_congr_left fun _ => ⟨?_, ?_⟩
    · rintro rfl
      exact flip_flip hpos a
    · rintro rfl
      exact flip_flip hpos b

/-- The partner of a node in a round. -/
theorem inc_rounds {type : ComType} {dataSize : ℕ} (hL : 0 < L) {step : HalvingStep}
    (h : firstStep type (2 ^ L) dataSize = some step) (hnodup : NPUs.Nodup)
    (hn : NPUs.length = 2 ^ L)
    (hring : ∀ i ∈ NPUs, (topology i).IsRing NPUs ∧ (topology i).id = i) {a : ℕ}
    (ha : a < NPUs.length) {k : ℕ} (hk : k < streamCount type (2 ^ L)) :
    ((rounds hL h hnodup hn hring).inc (ringAt NPUs a) k).1 =
      ringAt NPUs (flip (offsetAt type L k) a) := by
  simp only [rounds, PacketWindow.inc, packetAt_eq hL h hnodup hn hring ha hk]

/-- When the distance doubles, a node depends on all nodes of a block that doubles. -/
theorem mem_heard_of_doubling {S : ℕ} (R : Rounds NPUs.toFinset ℕ S)
    (hinc : ∀ a < 2 ^ L, ∀ k < L, (R.inc (ringAt NPUs a) k).1 = ringAt NPUs (flip (2 ^ k) a))
    {m : ℕ} (hm : m ≤ L) :
    ∀ a < 2 ^ L, ∀ b < 2 ^ L, a / 2 ^ m = b / 2 ^ m →
      ringAt NPUs b ∈ R.heard m (ringAt NPUs a) := by
  induction m with
  | zero =>
    intro a _ b _ hab
    rw [Nat.pow_zero, Nat.div_one, Nat.div_one] at hab
    exact hab ▸ Finset.mem_singleton_self _
  | succ m ih =>
    intro a ha b hb hab
    rw [Rounds.heard, Finset.mem_union, hinc a ha m hm]
    have hpos := Nat.two_pow_pos m
    rw [Nat.pow_succ, ← Nat.div_div_eq_div_mul, ← Nat.div_div_eq_div_mul] at hab
    by_cases hsame : a / 2 ^ m = b / 2 ^ m
    · exact .inl (ih (by omega) a ha b hb hsame)
    · -- the other half of the block is that of the partner
      right
      refine ih (by omega) _ (flip_two_pow_lt (by omega) ha) b hb ?_
      rw [flip_div hpos]
      generalize a / 2 ^ m = x at hab hsame ⊢
      generalize b / 2 ^ m = y at hab hsame ⊢
      split <;> omega

/-- When the distance halves, a node depends on all nodes at multiples of it. -/
theorem mem_heard_of_halving {S : ℕ} (R : Rounds NPUs.toFinset ℕ S)
    (hinc : ∀ a < 2 ^ L, ∀ k < L,
      (R.inc (ringAt NPUs a) k).1 = ringAt NPUs (flip (2 ^ (L - 1 - k)) a))
    {m : ℕ} (hm : m ≤ L) :
    ∀ a < 2 ^ L, ∀ b < 2 ^ L, a % 2 ^ (L - m) = b % 2 ^ (L - m) →
      ringAt NPUs b ∈ R.heard m (ringAt NPUs a) := by
  induction m with
  | zero =>
    intro a ha b hb hab
    rw [Nat.sub_zero, Nat.mod_eq_of_lt ha, Nat.mod_eq_of_lt hb] at hab
    exact hab ▸ Finset.mem_singleton_self _
  | succ m ih =>
    intro a ha b hb hab
    rw [Rounds.heard, Finset.mem_union, hinc a ha m hm]
    rw [show L - (m + 1) = L - 1 - m by omega] at hab
    -- the place in a block of twice the distance has one bit more
    have hdouble : ∀ x, x % 2 ^ (L - m) =
        x % 2 ^ (L - 1 - m) + 2 ^ (L - 1 - m) * (x / 2 ^ (L - 1 - m) % 2) := fun x => by
      rw [← Nat.mod_mul, ← Nat.pow_succ]
      congr 2
      omega
    have hpos := Nat.two_pow_pos (L - 1 - m)
    by_cases hsame : a / 2 ^ (L - 1 - m) % 2 = b / 2 ^ (L - 1 - m) % 2
    · refine .inl (ih (by omega) a ha b hb ?_)
      rw [hdouble, hdouble, hab, hsame]
    · -- the partner is on the other side
      right
      refine ih (by omega) _ (flip_two_pow_lt (by omega) ha) b hb ?_
      rw [hdouble, hdouble, flip_mod, hab, flip_div hpos]
      generalize a / 2 ^ (L - 1 - m) = x at hsame ⊢
      generalize b / 2 ^ (L - 1 - m) = y at hsame ⊢
      congr 2
      split <;> omega

/-- A node depends on all nodes in the end. -/
theorem mem_heard {type : ComType} {dataSize : ℕ} (hL : 0 < L) {step : HalvingStep}
    (h : firstStep type (2 ^ L) dataSize = some step) (hnodup : NPUs.Nodup)
    (hn : NPUs.length = 2 ^ L)
    (hring : ∀ i ∈ NPUs, (topology i).IsRing NPUs ∧ (topology i).id = i) {i j : ℕ} (hi : i ∈ NPUs)
    (hj : j ∈ NPUs) :
    j ∈ (rounds hL h hnodup hn hring).heard (streamCount type (2 ^ L)) i := by
  obtain ⟨a, ha, rfl⟩ := exists_ringAt hi
  obtain ⟨b, hb, rfl⟩ := exists_ringAt hj
  rw [hn] at ha hb
  have hS : L ≤ streamCount type (2 ^ L) := by
    rw [streamCount_eq]
    split <;> omega
  have hinc : ∀ c < 2 ^ L, ∀ k < L, ((rounds hL h hnodup hn hring).inc (ringAt NPUs c) k).1 =
      ringAt NPUs (flip (offsetAt type L k) c) := fun c hc k hk =>
    inc_rounds hL h hnodup hn hring (hn ▸ hc) (hk.trans_le hS)
  refine Rounds.heard_mono _ hS _ ?_
  -- one pass over the distances is enough
  have hdoubling : (∀ k < L, offsetAt type L k = 2 ^ k) →
      ringAt NPUs b ∈ (rounds hL h hnodup hn hring).heard L (ringAt NPUs a) := fun hoffset =>
    mem_heard_of_doubling _ (fun c hc k hk => hoffset k hk ▸ hinc c hc k hk) (Nat.le_refl L) a ha b
      hb (by rw [Nat.div_eq_of_lt ha, Nat.div_eq_of_lt hb])
  cases type with
  | allReduce => exact hdoubling fun k hk => if_pos hk
  | allGather =>
    exact mem_heard_of_halving _ hinc (Nat.le_refl L) a ha b hb
      (by rw [Nat.sub_self, Nat.pow_zero, Nat.mod_one, Nat.mod_one])
  | reduceScatter => exact hdoubling fun k _ => rfl
  | allToAll => cases h

theorem fits (type : ComType) (n : ℕ) : PacketWindow.Fits (policy type n) (streamCount type n) where
  pos := Nat.one_pos
  middle _ h := nomatch h

end HalvingDoubling

/-- **Halving-doubling completes** for a power of two. In every run, whatever the order of the
nodes, their bundles and their messages, each node exchanges a message with each of its partners, at
the distances and with the sizes of the algorithm, and then goes on once. No node goes on before all
nodes have started. -/
theorem halvingDoubling_completes (type : ComType) (dataSize : ℕ) (hL : 0 < L)
    (hnodup : NPUs.Nodup) (hn : NPUs.length = 2 ^ L)
    (hring : ∀ i ∈ NPUs, (topology i).IsRing NPUs ∧ (topology i).id = i)
    {A : Algorithm (PacketWindow HalvingCursor)}
    (hA : HalvingDoubling.algorithm type NPUs.length dataSize topology = some A) :
    Completes A NPUs.toFinset
      (NPUs.length * (3 + 3 * HalvingDoubling.streamCount type NPUs.length))
      (HalvingDoubling.messages NPUs type L dataSize)
      (HalvingDoubling.messages NPUs type L dataSize) ∧
    ∀ t, CollectiveState.Reached A NPUs.toFinset t →
      ∀ i ∈ NPUs, (t i).exits = 1 → ∀ j ∈ NPUs, (t j).initialized = true := by
  rw [hn, HalvingDoubling.algorithm, Option.map_eq_some_iff] at hA
  obtain ⟨step, hstep, rfl⟩ := hA
  rw [hn]
  have hfit := HalvingDoubling.fits type (2 ^ L)
  have hpacket : ∀ i ∈ NPUs, ∀ k < HalvingDoubling.streamCount type (2 ^ L), _ := fun i hi k hk =>
    HalvingDoubling.packetAt_eq hL hstep hnodup hn hring (List.idxOf_lt_length_of_mem hi) hk
  constructor
  · have hall := PacketWindow.completes (R := HalvingDoubling.rounds hL hstep hnodup hn hring) hfit
      rfl rfl
    rw [List.toFinset_card_of_nodup hnodup, hn] at hall
    refine { hall with complete := fun t ht hblocked i hi => ?_ }
    obtain ⟨hexits, hsends, hrecvs⟩ := hall.complete t ht hblocked i hi
    have hi' := List.mem_toFinset.mp hi
    refine ⟨hexits, hsends.trans (firsts_congr fun k hk => ?_),
      hrecvs.trans (List.Perm.of_eq (firsts_congr fun k hk => ?_))⟩
    · have hk' := hpacket i hi' k hk
      rw [ringAt_idxOf hi'] at hk'
      rw [PacketWindow.out, hk']
      rfl
    · have hk' := hpacket i hi' k hk
      rw [ringAt_idxOf hi'] at hk'
      rw [PacketWindow.inc, hk']
      rfl
  · intro t ht i hi hexits j hj
    exact PacketWindow.initialized_of_heard (R := HalvingDoubling.rounds hL hstep hnodup hn hring)
      hfit rfl rfl rfl ht (List.mem_toFinset.mpr hi) hexits j
      (HalvingDoubling.mem_heard hL hstep hnodup hn hring hi hj)

/-- An all-reduce of four nodes: the exchanges of a node, and their sizes. -/
theorem halvingDoubling_completes_fourNodes :
    (∃ A, HalvingDoubling.algorithm .allReduce 4 64
        (fun i => RingTopology.homogeneous i 4 i 1) = some A ∧
      Completes A {0, 1, 2, 3} 60 (HalvingDoubling.messages [0, 1, 2, 3] .allReduce 2 64)
        (HalvingDoubling.messages [0, 1, 2, 3] .allReduce 2 64)) ∧
    HalvingDoubling.messages [0, 1, 2, 3] .allReduce 2 64 1 =
      [(0, 32), (3, 16), (3, 16), (0, 32)] :=
  ⟨⟨_, rfl, (@halvingDoubling_completes (RingTopology.dimensionNodes 0 4 1) 2 _ .allReduce 64
    (by decide) (RingTopology.nodup_dimensionNodes 0 4 Nat.one_pos) rfl
    (fun i hi => by
      have hlt : i < 4 := by simpa [RingTopology.dimensionNodes] using hi
      simpa using @RingTopology.isRing_homogeneous 0 4 i 1 Nat.one_pos hlt) _ rfl).1⟩,
    by decide +kernel⟩

end Rounds

end Opus.Simulation
