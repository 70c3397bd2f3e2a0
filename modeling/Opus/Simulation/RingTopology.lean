import Mathlib.Data.Int.ModEq
import Mathlib.Data.List.Nodup
import Mathlib.Logic.Function.Iterate
import Mathlib.Tactic.Ring

/-!
# Logical rings

A ring numbers its nodes. It is made of a list of nodes, or, in a dimension of the topology, of the
nodes at a fixed distance from each other, which its constructor finds by going once around.

## Main definitions

* `RingTopology.ofNPUs`, `RingTopology.homogeneous`: the two constructors
* `RingTopology.getReceiver`, `RingTopology.getSender`: the neighbours of a node
* `RingTopology.IsRing`: the maps of a ring are those of a list of nodes
* `ringAt`: the node at a position, counted around the ring

## Main results

* `RingTopology.isRing_ofNPUs`, `RingTopology.isRing_homogeneous`: both constructors number their
  nodes
* `RingTopology.IsRing.getReceiver`, `RingTopology.IsRing.getSender`: a neighbour is one position on
-/

namespace Opus.Simulation

/-- A ring as one of its nodes has it. -/
structure RingTopology where
  id : ℕ
  totalNodesInRing : ℕ
  indexInRing : ℕ
  idToIndex : ℕ → Option ℕ
  indexToId : ℕ → Option ℕ

namespace RingTopology

inductive Direction where
  | clockwise
  | anticlockwise
  deriving DecidableEq, Repr

/-! ## Constructors -/

/-- `id_to_index[id] = index; index_to_id[index] = id`. -/
def setIndex (t : RingTopology) (id index : ℕ) : RingTopology :=
  { t with
    idToIndex := Function.update t.idToIndex id (some index)
    indexToId := Function.update t.indexToId index (some id) }

/-- The ring of a list of nodes; the assertion fails when the node is not one of them. -/
def ofNPUs (id : ℕ) (NPUs : List ℕ) : Option RingTopology :=
  if id ∈ NPUs then
    some (NPUs.zipIdx.foldl
      (fun t npu =>
        let t := t.setIndex npu.1 npu.2
        if id = npu.1 then { t with indexInRing := npu.2 } else t)
      ⟨id, NPUs.length, 0, fun _ => none, fun _ => none⟩)
  else none

/-- `get_receiver_homogeneous`: the receiver, which is entered with its index. The subtraction of
the length of the ring does not go below zero when the index is right. -/
def getReceiverHomogeneous (t : RingTopology) (nodeId : ℕ) (direction : Direction) (offset : ℕ) :
    ℕ × RingTopology :=
  let index := (t.idToIndex nodeId).getD 0
  match direction with
  | .clockwise =>
    if index = t.totalNodesInRing - 1 then
      let receiver := nodeId + offset - t.totalNodesInRing * offset
      (receiver, t.setIndex receiver 0)
    else (nodeId + offset, t.setIndex (nodeId + offset) (index + 1))
  | .anticlockwise =>
    if index = 0 then
      let receiver := nodeId + t.totalNodesInRing * offset - offset
      (receiver, t.setIndex receiver (t.totalNodesInRing - 1))
    else (nodeId - offset, t.setIndex (nodeId - offset) (index - 1))

/-- The loop of the second constructor, which goes around the ring. -/
def goAround (offset : ℕ) : ℕ → ℕ × RingTopology → ℕ × RingTopology
  | 0, x => x
  | n + 1, x => goAround offset n (x.2.getReceiverHomogeneous x.1 .clockwise offset)

/-- The ring of the nodes at this distance from each other. -/
def homogeneous (id totalNodesInRing indexInRing offset : ℕ) : RingTopology :=
  let t : RingTopology := ⟨id, totalNodesInRing, indexInRing, fun _ => none, fun _ => none⟩
  (goAround offset (totalNodesInRing - 1) (id, t.setIndex id indexInRing)).2

/-! ## Neighbours -/

/-- `get_receiver`. -/
def getReceiver (t : RingTopology) (nodeId : ℕ) (direction : Direction) : ℕ :=
  let index := (t.idToIndex nodeId).getD 0
  match direction with
  | .clockwise =>
    (t.indexToId (if index + 1 = t.totalNodesInRing then 0 else index + 1)).getD 0
  | .anticlockwise =>
    (t.indexToId (if index = 0 then t.totalNodesInRing - 1 else index - 1)).getD 0

/-- `get_sender`. -/
def getSender (t : RingTopology) (nodeId : ℕ) (direction : Direction) : ℕ :=
  let index := (t.idToIndex nodeId).getD 0
  match direction with
  | .anticlockwise =>
    (t.indexToId (if index + 1 = t.totalNodesInRing then 0 else index + 1)).getD 0
  | .clockwise =>
    (t.indexToId (if index = 0 then t.totalNodesInRing - 1 else index - 1)).getD 0

def Direction.opposite : Direction → Direction
  | .clockwise => .anticlockwise
  | .anticlockwise => .clockwise

theorem getSender_eq (t : RingTopology) (nodeId : ℕ) (direction : Direction) :
    t.getSender nodeId direction = t.getReceiver nodeId direction.opposite := by
  cases direction <;> rfl

/-! ## The nodes of a ring -/

/-- The maps number these nodes, and the ring knows the index of its own node. -/
structure IsRing (t : RingTopology) (NPUs : List ℕ) : Prop where
  total : t.totalNodesInRing = NPUs.length
  idToIndex : ∀ k npu, NPUs[k]? = some npu → t.idToIndex npu = some k
  indexToId : ∀ k npu, NPUs[k]? = some npu → t.indexToId k = some npu
  index : NPUs[t.indexInRing]? = some t.id

/-- The loop of the first constructor, from the index `s` on. -/
theorem ofNPUs_loop (id : ℕ) (NPUs : List ℕ) (hnodup : NPUs.Nodup) (s : ℕ) (t : RingTopology) :
    let u := (NPUs.zipIdx s).foldl
      (fun t npu =>
        let t := t.setIndex npu.1 npu.2
        if id = npu.1 then { t with indexInRing := npu.2 } else t) t
    u.id = t.id ∧ u.totalNodesInRing = t.totalNodesInRing ∧
      (∀ k npu, NPUs[k]? = some npu → u.idToIndex npu = some (s + k)) ∧
      (∀ npu, npu ∉ NPUs → u.idToIndex npu = t.idToIndex npu) ∧
      (∀ k npu, NPUs[k]? = some npu → u.indexToId (s + k) = some npu) ∧
      (∀ k, k < s → u.indexToId k = t.indexToId k) ∧
      (∀ k, NPUs[k]? = some id → u.indexInRing = s + k) ∧
      (id ∉ NPUs → u.indexInRing = t.indexInRing) := by
  induction NPUs generalizing s t with
  | nil => simp
  | cons npu NPUs ih =>
    rw [List.nodup_cons] at hnodup
    have hrest := ih hnodup.2 (s + 1) (if id = npu then
      { t.setIndex npu s with indexInRing := s } else t.setIndex npu s)
    simp only [List.zipIdx_cons, List.foldl_cons] at hrest ⊢
    generalize (NPUs.zipIdx (s + 1)).foldl _ _ = u at hrest ⊢
    obtain ⟨hid, htotal, hindex, hindex', hnode, hnode', hown, hown'⟩ := hrest
    -- the own index is set beside the maps, and does not change them
    have hmaps : (if id = npu then ({ t.setIndex npu s with indexInRing := s } : RingTopology)
        else t.setIndex npu s).idToIndex = Function.update t.idToIndex npu (some s) ∧
        (if id = npu then ({ t.setIndex npu s with indexInRing := s } : RingTopology)
        else t.setIndex npu s).indexToId = Function.update t.indexToId s (some npu) := by
      split <;> exact ⟨rfl, rfl⟩
    rw [hmaps.1] at hindex'
    rw [hmaps.2] at hnode'
    refine ⟨hid.trans (by split <;> rfl), htotal.trans (by split <;> rfl), ?_, ?_, ?_, ?_, ?_, ?_⟩
    · rintro (_ | k) v hk
      · obtain rfl : npu = v := by simpa using hk
        rw [hindex' npu hnodup.1, Function.update_self, Nat.add_zero]
      · rw [hindex k v (by simpa using hk), Nat.add_right_comm, Nat.add_assoc]
    · intro v hv
      rw [List.mem_cons, not_or] at hv
      rw [hindex' v hv.2, Function.update_of_ne hv.1]
    · rintro (_ | k) v hk
      · obtain rfl : npu = v := by simpa using hk
        rw [Nat.add_zero, hnode' s (Nat.lt_succ_self s), Function.update_self]
      · rw [← hnode k v (by simpa using hk), Nat.add_right_comm, Nat.add_assoc]
    · intro k hk
      rw [hnode' k (by omega), Function.update_of_ne hk.ne]
    · rintro (_ | k) hk
      · obtain rfl : npu = id := by simpa using hk
        rw [hown' hnodup.1, if_pos rfl, Nat.add_zero]
      · rw [hown k (by simpa using hk), Nat.add_right_comm, Nat.add_assoc]
    · intro hv
      rw [List.mem_cons, not_or] at hv
      rw [hown' hv.2, if_neg hv.1]
      rfl

/-- **The ring of a list of nodes.** -/
theorem isRing_ofNPUs {id : ℕ} {NPUs : List ℕ} (hnodup : NPUs.Nodup) {t : RingTopology}
    (h : ofNPUs id NPUs = some t) : t.IsRing NPUs ∧ t.id = id := by
  unfold ofNPUs at h
  split at h
  · rename_i hmem
    have hloop := ofNPUs_loop id NPUs hnodup 0 ⟨id, NPUs.length, 0, fun _ => none, fun _ => none⟩
    simp only [Nat.zero_add] at hloop
    obtain rfl := Option.some.inj h
    obtain ⟨hid, htotal, hindex, -, hnode, -, hown, -⟩ := hloop
    refine ⟨⟨htotal, hindex, hnode, ?_⟩, hid⟩
    obtain ⟨k, hk⟩ := List.getElem?_of_mem hmem
    rw [hown k hk, hid]
    exact hk
  · cases h

/-! ### The nodes at a distance -/

/-- The nodes of a dimension, from the first one on. -/
def dimensionNodes (base n offset : ℕ) : List ℕ := (List.range n).map fun k => base + k * offset

theorem getElem?_dimensionNodes {base n offset k : ℕ} (hk : k < n) :
    (dimensionNodes base n offset)[k]? = some (base + k * offset) := by
  simp [dimensionNodes, hk]

theorem nodup_dimensionNodes (base n : ℕ) {offset : ℕ} (ho : 0 < offset) :
    (dimensionNodes base n offset).Nodup := by
  refine List.nodup_range.map fun k l h => ?_
  exact Nat.eq_of_mul_eq_mul_right ho (Nat.add_left_cancel h)

/-- A ring in which the nodes at these indices have been entered. -/
structure Entered (t : RingTopology) (base n offset : ℕ) (indices : ℕ → Prop) : Prop where
  total : t.totalNodesInRing = n
  idToIndex : ∀ k, indices k → t.idToIndex (base + k * offset) = some k
  indexToId : ∀ k, indices k → t.indexToId k = some (base + k * offset)

theorem Entered.setIndex {t : RingTopology} {base n offset : ℕ} {indices : ℕ → Prop}
    (h : t.Entered base n offset indices) (ho : 0 < offset) (k : ℕ) :
    (t.setIndex (base + k * offset) k).Entered base n offset fun l => indices l ∨ l = k where
  total := h.total
  idToIndex l hl := by
    simp only [RingTopology.setIndex, Function.update_apply]
    split
    · rename_i heq
      rw [Nat.eq_of_mul_eq_mul_right ho (Nat.add_left_cancel heq)]
    · rename_i hne
      exact h.idToIndex l (hl.resolve_right fun hlk => hne (hlk ▸ rfl))
  indexToId l hl := by
    simp only [RingTopology.setIndex, Function.update_apply]
    split
    · rename_i heq
      rw [heq]
    · rename_i hne
      exact h.indexToId l (hl.resolve_right hne)

/-- The next node clockwise, and its index. -/
theorem Entered.getReceiverHomogeneous {t : RingTopology} {base n offset : ℕ} {indices : ℕ → Prop}
    (h : t.Entered base n offset indices) {k : ℕ} (hk : indices k) (hkn : k < n) :
    t.getReceiverHomogeneous (base + k * offset) .clockwise offset =
      (base + (k + 1) % n * offset, t.setIndex (base + (k + 1) % n * offset) ((k + 1) % n)) := by
  simp only [RingTopology.getReceiverHomogeneous, h.idToIndex k hk, Option.getD_some, h.total]
  by_cases hlast : k = n - 1
  · -- the last node is followed by the first one, the length of the ring back
    have hk1 : k + 1 = n := by omega
    rw [if_pos hlast, hk1, Nat.mod_self, ← hk1]
    have hsub : base + k * offset + offset - (k + 1) * offset = base + 0 * offset := by
      rw [Nat.add_mul, Nat.one_mul, Nat.zero_mul]
      omega
    rw [hsub]
  · rw [if_neg hlast, Nat.mod_eq_of_lt (by omega), Nat.add_mul, Nat.one_mul, Nat.add_assoc]

theorem Entered.goAround {t : RingTopology} {base n offset : ℕ} {indices : ℕ → Prop}
    (h : t.Entered base n offset indices) (ho : 0 < offset) (m : ℕ) {k : ℕ} (hk : indices k)
    (hkn : k < n) :
    (goAround offset m (base + k * offset, t)).2.Entered base n offset
        (fun l => indices l ∨ ∃ j < m, l = (k + j + 1) % n) ∧
      (RingTopology.goAround offset m (base + k * offset, t)).2.id = t.id ∧
      (RingTopology.goAround offset m (base + k * offset, t)).2.indexInRing = t.indexInRing := by
  induction m generalizing t k indices with
  | zero => exact ⟨{ h with
      idToIndex := fun l hl => h.idToIndex l (hl.resolve_right (by simp))
      indexToId := fun l hl => h.indexToId l (hl.resolve_right (by simp)) }, rfl, rfl⟩
  | succ m ih =>
    simp only [RingTopology.goAround, h.getReceiverHomogeneous hk hkn]
    obtain ⟨hu, hid, hindex⟩ := ih (h.setIndex ho ((k + 1) % n)) (.inr rfl)
      (Nat.mod_lt _ (by omega))
    refine ⟨{ hu with
      idToIndex := fun l hl => hu.idToIndex l ?_
      indexToId := fun l hl => hu.indexToId l ?_ }, hid, hindex⟩ <;>
    · -- the first step of the loop enters the next node, the others those after it
      rcases hl with hl | ⟨_ | j, hj, rfl⟩
      · exact .inl (.inl hl)
      · exact .inl (.inr rfl)
      · refine .inr ⟨j, by omega, ?_⟩
        rw [Nat.add_assoc ((k + 1) % n), Nat.mod_add_mod]
        congr 1
        omega

/-- **The ring of a dimension** numbers its nodes as the ring of their list does. -/
theorem isRing_homogeneous {base n index offset : ℕ} (ho : 0 < offset) (hi : index < n) :
    (homogeneous (base + index * offset) n index offset).IsRing (dimensionNodes base n offset) ∧
      (homogeneous (base + index * offset) n index offset).id = base + index * offset := by
  have hstart : RingTopology.Entered
      ⟨base + index * offset, n, index, fun _ => none, fun _ => none⟩ base n offset
      (fun _ => False) := ⟨rfl, fun _ h => h.elim, fun _ h => h.elim⟩
  obtain ⟨hall, hid, hindex⟩ := (hstart.setIndex ho index).goAround ho (n - 1) (.inr rfl) hi
  -- the loop has come to every index
  have hentered : ∀ k < n, (False ∨ k = index) ∨ ∃ j < n - 1, k = (index + j + 1) % n := by
    intro k hk
    by_cases heq : k = index
    · exact .inl (.inr heq)
    · right
      by_cases hlt : index < k
      · exact ⟨k - index - 1, by omega, by rw [Nat.mod_eq_of_lt] <;> omega⟩
      · refine ⟨k + n - index - 1, by omega, ?_⟩
        rw [show index + (k + n - index - 1) + 1 = k + n by omega, Nat.add_mod_right,
          Nat.mod_eq_of_lt hk]
  have hlength : (dimensionNodes base n offset).length = n := by simp [dimensionNodes]
  have hget : ∀ k npu, (dimensionNodes base n offset)[k]? = some npu →
      k < n ∧ npu = base + k * offset := by
    intro k npu hk
    have hlt := hlength ▸ (List.getElem?_eq_some_iff.mp hk).1
    rw [getElem?_dimensionNodes hlt] at hk
    exact ⟨hlt, (Option.some.inj hk).symm⟩
  refine ⟨⟨hall.total.trans hlength.symm, ?_, ?_, ?_⟩, hid⟩
  · intro k npu hk
    obtain ⟨hlt, rfl⟩ := hget k npu hk
    exact hall.idToIndex k (hentered k hlt)
  · intro k npu hk
    obtain ⟨hlt, rfl⟩ := hget k npu hk
    exact hall.indexToId k (hentered k hlt)
  · have hown : (homogeneous (base + index * offset) n index offset).indexInRing = index := hindex
    rw [hown, getElem?_dimensionNodes hi]
    exact congrArg some hid.symm

/-! ## Positions -/

end RingTopology

/-- The node at this position, counted around the ring. -/
def ringAt (NPUs : List ℕ) (k : ℕ) : ℕ := (NPUs[k % NPUs.length]?).getD 0

/-- How many positions a direction goes on, around a ring of `n` nodes. -/
def RingTopology.Direction.shift (n : ℕ) : RingTopology.Direction → ℕ
  | .clockwise => 1
  | .anticlockwise => n - 1

section Positions

variable {NPUs : List ℕ}

theorem getElem?_ringAt (hne : 0 < NPUs.length) (k : ℕ) :
    NPUs[k % NPUs.length]? = some (ringAt NPUs k) := by
  have hlt := Nat.mod_lt k hne
  simp [ringAt, hlt]

theorem ringAt_mem (hne : 0 < NPUs.length) (k : ℕ) : ringAt NPUs k ∈ NPUs :=
  List.mem_of_getElem? (getElem?_ringAt hne k)

theorem exists_ringAt {i : ℕ} (h : i ∈ NPUs) : ∃ a < NPUs.length, ringAt NPUs a = i := by
  obtain ⟨a, ha⟩ := List.getElem?_of_mem h
  have hlt := (List.getElem?_eq_some_iff.mp ha).1
  exact ⟨a, hlt, by rw [ringAt, Nat.mod_eq_of_lt hlt, ha, Option.getD_some]⟩

theorem ringAt_congr {k l : ℕ} (h : k ≡ l [MOD NPUs.length]) : ringAt NPUs k = ringAt NPUs l := by
  rw [ringAt, ringAt, h]

/-- Different positions around the ring are different nodes. -/
theorem ringAt_eq_iff (hnodup : NPUs.Nodup) (hne : 0 < NPUs.length) {k l : ℕ} :
    ringAt NPUs k = ringAt NPUs l ↔ k ≡ l [MOD NPUs.length] := by
  refine ⟨fun h => ?_, ringAt_congr⟩
  have hk := getElem?_ringAt hne k
  rw [h, ← getElem?_ringAt hne l] at hk
  exact (List.getElem?_inj (Nat.mod_lt k hne) hnodup).mp hk

theorem succ_mod_eq (k n : ℕ) (hn : 0 < n) :
    (k + 1) % n = if k % n + 1 = n then 0 else k % n + 1 := by
  have hlt := Nat.mod_lt k hn
  rw [← Nat.mod_add_mod]
  split
  · rename_i h
    rw [h, Nat.mod_self]
  · rw [Nat.mod_eq_of_lt (by omega)]

theorem add_pred_mod_eq (k n : ℕ) (hn : 0 < n) :
    (k + (n - 1)) % n = if k % n = 0 then n - 1 else k % n - 1 := by
  have hlt := Nat.mod_lt k hn
  rw [← Nat.mod_add_mod]
  split
  · rename_i h
    rw [h, Nat.zero_add, Nat.mod_eq_of_lt (by omega)]
  · rw [show k % n + (n - 1) = k % n - 1 + n by omega, Nat.add_mod_right,
      Nat.mod_eq_of_lt (by omega)]

/-- **The receiver of a node** is one position on in the direction. -/
theorem RingTopology.IsRing.getReceiver {t : RingTopology} (h : t.IsRing NPUs)
    (hne : 0 < NPUs.length) (k : ℕ) (direction : Direction) :
    t.getReceiver (ringAt NPUs k) direction =
      ringAt NPUs (k + direction.shift NPUs.length) := by
  have hindex := h.idToIndex _ _ (getElem?_ringAt hne k)
  have hnode := fun l => h.indexToId _ _ (getElem?_ringAt hne l)
  cases direction with
  | clockwise =>
    simp only [RingTopology.getReceiver, hindex, Option.getD_some, h.total, Direction.shift]
    rw [← succ_mod_eq k _ hne, hnode, Option.getD_some]
  | anticlockwise =>
    simp only [RingTopology.getReceiver, hindex, Option.getD_some, h.total, Direction.shift]
    rw [← add_pred_mod_eq k _ hne, hnode, Option.getD_some]

/-- **The sender of a node** is one position back. -/
theorem RingTopology.IsRing.getSender {t : RingTopology} (h : t.IsRing NPUs)
    (hne : 0 < NPUs.length) (k : ℕ) (direction : Direction) :
    t.getSender (ringAt NPUs k) direction =
      ringAt NPUs (k + direction.opposite.shift NPUs.length) := by
  rw [RingTopology.getSender_eq, h.getReceiver hne]

/-- Going to the receiver several times. -/
theorem RingTopology.IsRing.iterate_getReceiver {t : RingTopology} (h : t.IsRing NPUs)
    (hne : 0 < NPUs.length) (a m : ℕ) (direction : Direction) :
    (fun npu => t.getReceiver npu direction)^[m] (ringAt NPUs a) =
      ringAt NPUs (a + direction.shift NPUs.length * m) := by
  induction m with
  | zero => rfl
  | succ m ih =>
    rw [Function.iterate_succ_apply', ih, h.getReceiver hne, Nat.mul_succ, Nat.add_assoc]

/-- A ring has its own node at its index. -/
theorem RingTopology.IsRing.indexInRing_eq {t : RingTopology} (h : t.IsRing NPUs)
    (hnodup : NPUs.Nodup) {a : ℕ} (ha : a < NPUs.length) (hid : t.id = ringAt NPUs a) :
    t.indexInRing = a := by
  have hown := h.index
  have hnode := getElem?_ringAt (show 0 < NPUs.length by omega) a
  rw [Nat.mod_eq_of_lt ha, ← hid, ← hown] at hnode
  exact ((List.getElem?_inj ha hnodup).mp hnode).symm

/-- Different indices are different nodes. -/
theorem ringAt_inj (hnodup : NPUs.Nodup) {a b : ℕ} (ha : a < NPUs.length) (hb : b < NPUs.length) :
    ringAt NPUs a = ringAt NPUs b ↔ a = b := by
  rw [ringAt_eq_iff hnodup (by omega)]
  exact ⟨fun h => Nat.ModEq.eq_of_lt_of_lt h ha hb, fun h => h ▸ rfl⟩

theorem ringAt_idxOf {i : ℕ} (hi : i ∈ NPUs) : ringAt NPUs (NPUs.idxOf i) = i := by
  have hlt := List.idxOf_lt_length_of_mem hi
  rw [ringAt, Nat.mod_eq_of_lt hlt]
  simp [hlt]

theorem RingTopology.Direction.shift_add_shift {n : ℕ} (hn : 0 < n) (direction : Direction) :
    direction.shift n + direction.opposite.shift n = n := by
  cases direction <;> simp only [opposite, shift] <;> omega

/-- A position that is some steps on in a direction is that many steps back from there. -/
theorem add_shift_modEq_iff {n : ℕ} (hn : 0 < n) (direction : RingTopology.Direction)
    (a b q : ℕ) :
    a + direction.shift n * q ≡ b [MOD n] ↔ b + direction.opposite.shift n * q ≡ a [MOD n] := by
  have hsum : direction.shift n * q + direction.opposite.shift n * q = n * q := by
    rw [← Nat.add_mul, direction.shift_add_shift hn]
  have hround : ∀ c, c + n * q ≡ c [MOD n] := fun c => by simp [Nat.ModEq]
  constructor
  · intro h
    have h' := h.symm.add_right (direction.opposite.shift n * q)
    rw [Nat.add_assoc, hsum] at h'
    exact h'.trans (hround a)
  · intro h
    have h' := h.symm.add_right (direction.shift n * q)
    rw [Nat.add_assoc, Nat.add_comm (direction.opposite.shift n * q), hsum] at h'
    exact h'.trans (hround b)

/-- As many steps in a direction lead to the same position only all around the ring. -/
theorem shift_mul_modEq_iff {n : ℕ} (hn : 0 < n) (direction : RingTopology.Direction) (q q' : ℕ) :
    direction.shift n * q ≡ direction.shift n * q' [MOD n] ↔ q ≡ q' [MOD n] := by
  refine ⟨fun h => ?_, fun h => h.mul_left _⟩
  cases direction with
  | clockwise => simpa only [RingTopology.Direction.shift, Nat.one_mul] using h
  | anticlockwise =>
    -- a step back is undone by a step forward
    have hback : ∀ r, 0 + RingTopology.Direction.anticlockwise.shift n * r ≡
        RingTopology.Direction.anticlockwise.shift n * q' [MOD n] →
        RingTopology.Direction.anticlockwise.shift n * q' + 1 * r ≡ 0 [MOD n] := fun r =>
      (add_shift_modEq_iff hn .anticlockwise 0 _ r).mp
    have hq := hback q (by rwa [Nat.zero_add])
    have hq' := hback q' (by rw [Nat.zero_add])
    have hcancel := (hq.trans hq'.symm).add_left_cancel' _
    rwa [Nat.one_mul, Nat.one_mul] at hcancel

/-- Every position is reached in some direction before the ring has been gone around. -/
theorem exists_shift {n : ℕ} (hn : 0 < n) (direction : RingTopology.Direction) (a b : ℕ) :
    ∃ q < n, a + direction.shift n * q ≡ b [MOD n] := by
  have hforward : ∀ a b, ∃ q < n, a + 1 * q ≡ b [MOD n] := by
    intro a b
    refine ⟨(b + (n - 1) * a) % n, Nat.mod_lt _ hn, ?_⟩
    have hround : a + (b + (n - 1) * a) = b + n * a := by
      obtain ⟨m, rfl⟩ : ∃ m, n = m + 1 := ⟨n - 1, by omega⟩
      rw [Nat.add_sub_cancel]
      ring
    have hmod : (b + (n - 1) * a) % n ≡ b + (n - 1) * a [MOD n] := Nat.mod_modEq _ _
    rw [Nat.one_mul]
    refine (hmod.add_left a).trans ?_
    rw [hround]
    simp [Nat.ModEq]
  cases direction with
  | clockwise => exact hforward a b
  | anticlockwise =>
    obtain ⟨q, hq, h⟩ := hforward b a
    exact ⟨q, hq, (add_shift_modEq_iff hn .clockwise b a q).mp h⟩

end Positions

end Opus.Simulation
