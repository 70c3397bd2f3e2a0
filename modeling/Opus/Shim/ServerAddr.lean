import Mathlib.Data.List.Nodup
import Mathlib.Tactic.Ring
import Mathlib.Tactic.Linarith

/-!
# Rendezvous addresses

Before a backend can check in, rank 0 of its group opens a server socket and the other members
connect to it. Every rank computes the address on its own, from its global rank, the backend id
and the parallel degrees: the node of the group's first rank, and a port from a block of ports
that belongs to the backend.

The blocks are laid out for a replicate degree of 1. With a replicate degree above 1 a block
holds more groups than the next block's offset leaves room for, and two backends compute the
same port for different groups. The groups then share a socket when their servers are on one
node.

## Main definitions

* `determineServerAddr`: the address a rank computes
* `Identifies`: equal addresses belong to one group, and a group's server computes its address
* `Separated`: no group in the overrun of a block meets another group's server on its node

## Main results

* `identifies_iff_separated`: addresses identify groups exactly when the overruns are separated
* `separated_of_replicate_eq_one`: this is so whenever the replicate degree is 1
-/

namespace Opus

/-- The parallel degrees of a job and the shape of its cluster. -/
structure ParallelConfig where
  replicate : ℕ
  shard : ℕ
  tensor : ℕ
  pipeline : ℕ
  numNodes : ℕ
  numRanksPerNode : ℕ
  replicate_pos : 0 < replicate
  shard_pos : 0 < shard
  tensor_pos : 0 < tensor
  pipeline_pos : 0 < pipeline

namespace ParallelConfig

variable (c : ParallelConfig)

/-- The number of ranks the degrees ask for. -/
def parallelismProduct : ℕ := c.replicate * c.shard * c.tensor * c.pipeline

/-- The number of degrees above 1. -/
def totalNumParallelism : ℕ :=
  (if c.replicate > 1 then 1 else 0) + (if c.shard > 1 then 1 else 0) +
    (if c.tensor > 1 then 1 else 0) + (if c.pipeline > 1 then 1 else 0)

/-- The innermost degree of a two-dimensional job. -/
def innerParallelismDegree : ℕ :=
  if c.tensor > 1 then c.tensor else if c.shard > 1 then c.shard else 1

/-- The outer degree of a two-dimensional job. -/
def outerParallelismDegree : ℕ :=
  c.pipeline * c.tensor * c.shard / c.innerParallelismDegree

/-- `determine_server_addr` returns an address for a two- or three-dimensional job. -/
def Accepted : Prop :=
  c.numNodes * c.numRanksPerNode = c.parallelismProduct ∧
    (c.totalNumParallelism = 3 ∨ c.totalNumParallelism = 2 ∧ c.innerParallelismDegree ≠ 1)

instance : Decidable c.Accepted := inferInstanceAs (Decidable (_ ∧ _))

/-- The server's global rank and the port, with three degrees above 1. -/
def slot3 (globalRank backendId : ℕ) : ℕ × ℕ :=
  let innerP := c.tensor
  let midP := c.shard * c.tensor
  let outerP := c.pipeline * c.shard * c.tensor
  if backendId = 3 then
    (globalRank / innerP * innerP, 34567 + 1 + globalRank / innerP)
  else if backendId = 2 then
    (globalRank / midP * midP + globalRank % c.tensor,
      34567 + 1 + outerP / c.tensor + globalRank / midP * c.tensor + globalRank % c.tensor + 50)
  else if backendId = 1 then
    (globalRank % midP,
      34567 + 1 + outerP / c.tensor + outerP / c.shard + globalRank % midP + 50 * 2)
  else if backendId ≠ 0 then
    (globalRank / midP * midP + globalRank % c.tensor,
      34567 + 1 + outerP / c.tensor + midP + outerP / c.shard * (backendId - 3) +
        globalRank / midP * c.tensor + globalRank % c.tensor + 50 * (backendId - 1))
  else (0, 34567)

/-- The server's global rank and the port, with two degrees above 1. -/
def slot2 (globalRank backendId : ℕ) : ℕ × ℕ :=
  let innerP := c.innerParallelismDegree
  let outerP := c.outerParallelismDegree
  if backendId = 2 then
    (globalRank / innerP * innerP, 34567 + 1 + globalRank / innerP)
  else if backendId = 1 then
    (globalRank % innerP, 34567 + 1 + outerP + globalRank % innerP)
  else if backendId ≠ 0 then
    if c.tensor > 1 then
      (globalRank % innerP, 34567 + 1 + outerP + innerP * (backendId - 2) + globalRank % innerP)
    else
      (globalRank / innerP * innerP,
        34567 + 1 + outerP * (backendId - 2) + innerP + globalRank / innerP)
  else (0, 34567)

/-- The server's global rank and the port of a rank on a backend. -/
def slot (globalRank backendId : ℕ) : ℕ × ℕ :=
  if c.totalNumParallelism = 3 then c.slot3 globalRank backendId
  else if c.totalNumParallelism = 2 then c.slot2 globalRank backendId
  else (0, 34567)

/-- The address a rank computes for a backend: the entry of `serverIps` for the server's node, if
there is one, and the port. -/
def determineServerAddr (serverIps : List String) (globalRank backendId : ℕ) :
    Except String (Option String × ℕ) :=
  if c.numNodes * c.numRanksPerNode ≠ c.parallelismProduct then
    .error "Mismatch between total ranks and parallelism degrees."
  else if c.totalNumParallelism = 2 ∧ c.innerParallelismDegree = 1 then
    .error "Inner parallelism degree cannot be 1 when total parallelism is 2."
  else
    .ok (serverIps[(c.slot globalRank backendId).1 / c.numRanksPerNode]?,
      (c.slot globalRank backendId).2)

/-- Equal addresses belong to one backend and one group, and the server of a group computes the
address of every member that names it. -/
def Identifies (serverIps : List String) : Prop :=
  (∀ r₁ r₂ b₁ b₂, r₁ < c.parallelismProduct → r₂ < c.parallelismProduct →
    1 ≤ b₁ ∧ b₁ ≤ 6 → 1 ≤ b₂ ∧ b₂ ≤ 6 →
    c.determineServerAddr serverIps r₁ b₁ = c.determineServerAddr serverIps r₂ b₂ →
    b₁ = b₂ ∧ (c.slot r₁ b₁).1 = (c.slot r₂ b₂).1) ∧
  ∀ r b, r < c.parallelismProduct → 1 ≤ b ∧ b ≤ 6 →
    c.determineServerAddr serverIps (c.slot r b).1 b = c.determineServerAddr serverIps r b

/-- The port offset of the block of a data-parallel backend of a three-dimensional job. -/
def blockOffset (backendId : ℕ) : ℕ :=
  if backendId = 2 then c.pipeline * c.shard + 50
  else c.pipeline * c.shard + c.shard * c.tensor + c.pipeline * c.tensor * (backendId - 3) +
    50 * (backendId - 1)

/-- A data-parallel group `d` pipeline stages into the overrun of its block and a group at the
start of the next block have their servers on one node. -/
def DataOverrun : Prop :=
  ∃ d < c.replicate * c.pipeline, c.pipeline * c.tensor + 50 < (d + 1) * c.tensor ∧
    d * (c.tensor * (c.shard - 1)) + c.pipeline * c.tensor + 50 < c.numRanksPerNode

/-- A tensor-parallel group whose port lies in the block of a data-parallel backend has its server
on the node of the data-parallel group of that port. -/
def TensorOverrun : Prop :=
  ∃ b, (b = 2 ∨ 4 ≤ b ∧ b ≤ 6) ∧ ∃ q < c.replicate * c.pipeline, ∃ m < c.tensor,
    c.blockOffset b + q * c.tensor + m < c.replicate * c.pipeline * c.shard ∧
    (c.blockOffset b + q * c.tensor + m) * c.tensor / c.numRanksPerNode =
      (q * (c.shard * c.tensor) + m) / c.numRanksPerNode

/-- No overrun of a port block meets another group's server on its node. -/
def Separated : Prop :=
  (c.totalNumParallelism = 3 → ¬ c.DataOverrun ∧ ¬ c.TensorOverrun) ∧
  (c.totalNumParallelism = 2 → c.replicate = 1 ∨
    c.numRanksPerNode ≤ c.outerParallelismDegree * c.innerParallelismDegree)

/-! ## Arithmetic of the blocks -/

theorem lt_of_add_div_eq {a d k : ℕ} (hk : 0 < k) (h : (a + d) / k = a / k) : d < k := by
  by_contra hd
  have hle : (a + k) / k ≤ (a + d) / k := Nat.div_le_div_right (by omega)
  rw [Nat.add_div_right a hk] at hle
  omega

/-- A group number and a position within the group are determined by their combined index. -/
theorem eq_of_mul_add_eq (q₁ q₂ : ℕ) {m₁ m₂ t : ℕ} (h₁ : m₁ < t) (h₂ : m₂ < t)
    (h : q₁ * t + m₁ = q₂ * t + m₂) : q₁ = q₂ ∧ m₁ = m₂ := by
  have hq : q₁ = q₂ := by
    have hdiv := congrArg (· / t) h
    simpa [Nat.add_comm, Nat.add_mul_div_right _ _ (Nat.zero_lt_of_lt h₁),
      Nat.div_eq_of_lt h₁, Nat.div_eq_of_lt h₂] using hdiv
  subst hq
  exact ⟨rfl, Nat.add_left_cancel h⟩

/-- Two groups of overrunning blocks on one node, `x` ports apart: the difference of their group
numbers is a witness of a data overrun. -/
theorem overrun_of_same_node {d base m₁ m₂ s t p x k : ℕ} (hs : 0 < s) (hk : 0 < k) (hm : m₁ < t)
    (hx : p * t + 50 ≤ x) (hport : d * t + m₁ = x + m₂)
    (hnode : (base + d * (s * t) + m₁) / k = (base + m₂) / k) :
    p * t + 50 < (d + 1) * t ∧ d * (t * (s - 1)) + p * t + 50 < k := by
  obtain ⟨s, rfl⟩ : ∃ s', s = s' + 1 := ⟨s - 1, by omega⟩
  have hdiff : base + d * ((s + 1) * t) + m₁ = base + m₂ + (x + d * (t * s)) := by
    have hsplit : d * ((s + 1) * t) = d * (t * s) + d * t := by ring
    omega
  rw [hdiff] at hnode
  have hlt := lt_of_add_div_eq hk hnode
  rw [Nat.add_sub_cancel]
  refine ⟨?_, by omega⟩
  have hsucc : (d + 1) * t = d * t + t := by ring
  omega

/-! ## Three degrees above 1 -/

variable {c}

/-- The data-parallel backends of a three-dimensional job. -/
def IsData (b : ℕ) : Prop := b = 2 ∨ 4 ≤ b ∧ b ≤ 6

theorem outer_div_tensor (c : ParallelConfig) :
    c.pipeline * c.shard * c.tensor / c.tensor = c.pipeline * c.shard :=
  Nat.mul_div_cancel _ c.tensor_pos

theorem outer_div_shard (c : ParallelConfig) :
    c.pipeline * c.shard * c.tensor / c.shard = c.pipeline * c.tensor := by
  rw [Nat.mul_right_comm]
  exact Nat.mul_div_cancel _ c.shard_pos

theorem slot3_three (r : ℕ) :
    c.slot3 r 3 = (r / c.tensor * c.tensor, 34568 + r / c.tensor) := by
  simp [slot3]

theorem slot3_one (r : ℕ) :
    c.slot3 r 1 = (r % (c.shard * c.tensor),
      34568 + c.pipeline * c.shard + c.pipeline * c.tensor + 100 + r % (c.shard * c.tensor)) := by
  simp [slot3, outer_div_tensor, outer_div_shard]
  omega

theorem slot3_data {b : ℕ} (hb : IsData b) (r : ℕ) :
    c.slot3 r b = (r / (c.shard * c.tensor) * (c.shard * c.tensor) + r % c.tensor,
      34568 + c.blockOffset b + r / (c.shard * c.tensor) * c.tensor + r % c.tensor) := by
  rcases hb with rfl | hb
  · simp [slot3, blockOffset, outer_div_tensor]
    omega
  · simp [slot3, blockOffset, outer_div_tensor, outer_div_shard, show b ≠ 3 by omega,
      show b ≠ 2 by omega, show b ≠ 1 by omega, show b ≠ 0 by omega]
    omega

/-- Consecutive blocks of the data-parallel backends start at least one pipeline of groups and 50
ports apart. -/
theorem blockOffset_add_le {b b' : ℕ} (hb : IsData b) (hb' : IsData b') (h : b < b') :
    c.blockOffset b + (c.pipeline * c.tensor + 50) ≤ c.blockOffset b' := by
  have hstep : ∀ k, c.pipeline * c.tensor * (k + 1) = c.pipeline * c.tensor * k +
      c.pipeline * c.tensor := fun k => by ring
  have h1 := hstep 0
  have h2 := hstep 1
  have h3 := hstep 2
  rcases hb with rfl | hb <;> rcases hb' with rfl | hb'
  · omega
  · obtain rfl | rfl | rfl : b' = 4 ∨ b' = 5 ∨ b' = 6 := by omega
    all_goals simp [blockOffset]; omega
  · omega
  · obtain ⟨rfl, rfl⟩ | ⟨rfl, rfl⟩ | ⟨rfl, rfl⟩ : b = 4 ∧ b' = 5 ∨ b = 4 ∧ b' = 6 ∨
        b = 5 ∧ b' = 6 := by omega
    all_goals simp [blockOffset]; omega

theorem div_lt_groups {r : ℕ} (hr : r < c.parallelismProduct) :
    r / (c.shard * c.tensor) < c.replicate * c.pipeline := by
  rw [Nat.div_lt_iff_lt_mul (Nat.mul_pos c.shard_pos c.tensor_pos)]
  calc r < c.replicate * c.shard * c.tensor * c.pipeline := hr
    _ = c.replicate * c.pipeline * (c.shard * c.tensor) := by ring

theorem div_tensor_lt {r : ℕ} (hr : r < c.parallelismProduct) :
    r / c.tensor < c.replicate * c.pipeline * c.shard := by
  rw [Nat.div_lt_iff_lt_mul c.tensor_pos]
  calc r < c.replicate * c.shard * c.tensor * c.pipeline := hr
    _ = c.replicate * c.pipeline * c.shard * c.tensor := by ring

theorem parallelismProduct_pos (c : ParallelConfig) : 0 < c.parallelismProduct :=
  Nat.mul_pos (Nat.mul_pos (Nat.mul_pos c.replicate_pos c.shard_pos) c.tensor_pos) c.pipeline_pos

/-- The first rank of a data-parallel group is a rank of the job. -/
theorem group_lt {q m : ℕ} (hq : q < c.replicate * c.pipeline) (hm : m < c.tensor) :
    q * (c.shard * c.tensor) + m < c.parallelismProduct := by
  have hmid : m < c.shard * c.tensor :=
    lt_of_lt_of_le hm (Nat.le_mul_of_pos_left _ c.shard_pos)
  calc q * (c.shard * c.tensor) + m < (q + 1) * (c.shard * c.tensor) := by
        rw [Nat.succ_mul]
        omega
    _ ≤ c.replicate * c.pipeline * (c.shard * c.tensor) := Nat.mul_le_mul_right _ hq
    _ = c.parallelismProduct := by
        unfold parallelismProduct
        ring

theorem group_div_mod (q : ℕ) {m : ℕ} (hm : m < c.tensor) :
    (q * (c.shard * c.tensor) + m) / (c.shard * c.tensor) = q ∧
      (q * (c.shard * c.tensor) + m) % c.tensor = m := by
  have hmid : m < c.shard * c.tensor :=
    lt_of_lt_of_le hm (Nat.le_mul_of_pos_left _ c.shard_pos)
  constructor
  · rw [Nat.mul_comm q, Nat.mul_add_div (Nat.mul_pos c.shard_pos c.tensor_pos),
      Nat.div_eq_of_lt hmid, Nat.add_zero]
  · rw [← Nat.mul_assoc, Nat.mul_comm _ c.tensor, Nat.mul_add_mod, Nat.mod_eq_of_lt hm]

/-- Ranks `r₁` and `r₂` compute the same port on backends `b₁` and `b₂`, at servers on one node. -/
def Meet (c : ParallelConfig) (r₁ b₁ r₂ b₂ : ℕ) : Prop :=
  (c.slot r₁ b₁).2 = (c.slot r₂ b₂).2 ∧
    (c.slot r₁ b₁).1 / c.numRanksPerNode = (c.slot r₂ b₂).1 / c.numRanksPerNode

theorem Meet.symm {r₁ b₁ r₂ b₂ : ℕ} (h : c.Meet r₁ b₁ r₂ b₂) : c.Meet r₂ b₂ r₁ b₁ :=
  ⟨h.1.symm, h.2.symm⟩

section Three

variable (h3 : c.totalNumParallelism = 3) (hk : 0 < c.numRanksPerNode)
include h3 hk

theorem dataOverrun_of_meet_data {r₁ r₂ b₁ b₂ : ℕ} (h₁ : r₁ < c.parallelismProduct)
    (hb₁ : IsData b₁) (hb₂ : IsData b₂) (hlt : b₁ < b₂) (h : c.Meet r₁ b₁ r₂ b₂) :
    c.DataOverrun := by
  have hoff := blockOffset_add_le (c := c) hb₁ hb₂ hlt
  simp only [Meet, slot, h3, if_true, slot3_data hb₁, slot3_data hb₂] at h
  obtain ⟨hport, hnode⟩ := h
  have hgroups := div_lt_groups h₁
  generalize r₁ / (c.shard * c.tensor) = q₁ at *
  generalize r₂ / (c.shard * c.tensor) = q₂ at *
  have hm₁ : r₁ % c.tensor < c.tensor := Nat.mod_lt _ c.tensor_pos
  have hle : q₂ ≤ q₁ := by
    by_contra hgt
    have : (q₁ + 1) * c.tensor ≤ q₂ * c.tensor := Nat.mul_le_mul_right _ (by omega)
    rw [Nat.succ_mul] at this
    omega
  obtain ⟨d, rfl⟩ := Nat.exists_eq_add_of_le hle
  rw [Nat.add_mul] at hport hnode
  have hlt' : d < c.replicate * c.pipeline := by omega
  have hport' : d * c.tensor + r₁ % c.tensor =
      (c.blockOffset b₂ - c.blockOffset b₁) + r₂ % c.tensor := by omega
  exact ⟨d, hlt', overrun_of_same_node c.shard_pos hk hm₁ (by omega) hport' hnode⟩

theorem dataOverrun_of_meet_one {r₁ r₂ b : ℕ} (h₁ : r₁ < c.parallelismProduct)
    (hb : IsData b) (h : c.Meet r₁ b r₂ 1) : c.DataOverrun := by
  simp only [Meet, slot, h3, if_true, slot3_data hb, slot3_one] at h
  obtain ⟨hport, hnode⟩ := h
  have hn : r₂ % (c.shard * c.tensor) < c.shard * c.tensor :=
    Nat.mod_lt _ (Nat.mul_pos c.shard_pos c.tensor_pos)
  have hm₁ : r₁ % c.tensor < c.tensor := Nat.mod_lt _ c.tensor_pos
  rcases hb with rfl | hb
  · simp only [blockOffset, if_true] at hport
    have hport' : r₁ / (c.shard * c.tensor) * c.tensor + r₁ % c.tensor =
        c.pipeline * c.tensor + 50 + r₂ % (c.shard * c.tensor) := by omega
    rw [← Nat.zero_add (_ * _), ← Nat.zero_add (r₂ % _)] at hnode
    exact ⟨_, div_lt_groups h₁, overrun_of_same_node c.shard_pos hk hm₁ le_rfl hport' hnode⟩
  · -- the blocks of backends 4, 5 and 6 start after the last port of backend 1
    have hge : c.pipeline * c.tensor ≤ c.pipeline * c.tensor * (b - 3) :=
      Nat.le_mul_of_pos_right _ (by omega)
    simp only [blockOffset, show b ≠ 2 by omega, if_false] at hport
    omega

omit hk in
theorem tensorOverrun_of_meet_data {r₁ r₂ b : ℕ} (h₁ : r₁ < c.parallelismProduct)
    (h₂ : r₂ < c.parallelismProduct) (hb : IsData b) (h : c.Meet r₁ 3 r₂ b) :
    c.TensorOverrun := by
  simp only [Meet, slot, h3, if_true, slot3_data hb, slot3_three] at h
  obtain ⟨hport, hnode⟩ := h
  have hq : r₁ / c.tensor =
      c.blockOffset b + r₂ / (c.shard * c.tensor) * c.tensor + r₂ % c.tensor := by omega
  refine ⟨b, hb, r₂ / (c.shard * c.tensor), div_lt_groups h₂, r₂ % c.tensor,
    Nat.mod_lt _ c.tensor_pos, ?_, ?_⟩
  · rw [← hq]
    exact div_tensor_lt h₁
  · rw [← hq]
    exact hnode

theorem tensorOverrun_of_meet_one {r₁ r₂ : ℕ} (h₁ : r₁ < c.parallelismProduct)
    (h : c.Meet r₁ 3 r₂ 1) : c.TensorOverrun := by
  simp only [Meet, slot, h3, if_true, slot3_one, slot3_three] at h
  obtain ⟨hport, hnode⟩ := h
  have hq : r₁ / c.tensor = c.pipeline * c.shard + c.pipeline * c.tensor + 100 +
      r₂ % (c.shard * c.tensor) := by omega
  have hbound := div_tensor_lt h₁
  have hpos : 0 < c.replicate * c.pipeline := Nat.mul_pos c.replicate_pos c.pipeline_pos
  have ht := c.tensor_pos
  refine ⟨2, .inl rfl, 0, hpos, 0, ht, ?_, ?_⟩
  · simp only [blockOffset, if_true]
    omega
  · -- both servers are closer together than the two that meet
    set x := c.pipeline * c.shard + c.pipeline * c.tensor + 100 with hx
    have hsplit : r₁ / c.tensor * c.tensor = r₂ % (c.shard * c.tensor) +
        (x * c.tensor + r₂ % (c.shard * c.tensor) * (c.tensor - 1)) := by
      obtain ⟨t, hte⟩ : ∃ t, c.tensor = t + 1 := ⟨c.tensor - 1, by omega⟩
      rw [hq, hte]
      simp only [Nat.add_sub_cancel]
      ring
    rw [hsplit] at hnode
    have hlt := lt_of_add_div_eq hk hnode
    have hle : (c.pipeline * c.shard + 50) * c.tensor ≤ x * c.tensor :=
      Nat.mul_le_mul_right _ (by omega)
    simp only [blockOffset, if_true, Nat.zero_mul, Nat.add_zero, Nat.zero_div]
    exact Nat.div_eq_of_lt (by omega)

/-- Without overruns, ranks that meet are in one group of one backend. -/
theorem eq_of_meet_three (hd : ¬ c.DataOverrun) (ht : ¬ c.TensorOverrun) {r₁ r₂ b₁ b₂ : ℕ}
    (h₁ : r₁ < c.parallelismProduct) (h₂ : r₂ < c.parallelismProduct)
    (hb₁ : 1 ≤ b₁ ∧ b₁ ≤ 6) (hb₂ : 1 ≤ b₂ ∧ b₂ ≤ 6) (h : c.Meet r₁ b₁ r₂ b₂) :
    b₁ = b₂ ∧ (c.slot r₁ b₁).1 = (c.slot r₂ b₂).1 := by
  have hkind : ∀ b, 1 ≤ b ∧ b ≤ 6 → b = 1 ∨ b = 3 ∨ IsData b := by
    intro b hb
    unfold IsData
    omega
  rcases hkind b₁ hb₁ with rfl | rfl | hb₁ <;> rcases hkind b₂ hb₂ with rfl | rfl | hb₂
  · refine ⟨rfl, ?_⟩
    simp only [Meet, slot, h3, if_true, slot3_one] at h ⊢
    omega
  · exact absurd (tensorOverrun_of_meet_one h3 hk h₂ h.symm) ht
  · exact absurd (dataOverrun_of_meet_one h3 hk h₂ hb₂ h.symm) hd
  · exact absurd (tensorOverrun_of_meet_one h3 hk h₁ h) ht
  · refine ⟨rfl, ?_⟩
    simp only [Meet, slot, h3, if_true, slot3_three] at h ⊢
    rw [Nat.add_left_cancel h.1]
  · exact absurd (tensorOverrun_of_meet_data h3 h₁ h₂ hb₂ h) ht
  · exact absurd (dataOverrun_of_meet_one h3 hk h₁ hb₁ h) hd
  · exact absurd (tensorOverrun_of_meet_data h3 h₂ h₁ hb₁ h.symm) ht
  · rcases lt_trichotomy b₁ b₂ with hlt | rfl | hgt
    · exact absurd (dataOverrun_of_meet_data h3 hk h₁ hb₁ hb₂ hlt h) hd
    · refine ⟨rfl, ?_⟩
      simp only [Meet, slot, h3, if_true, slot3_data hb₁] at h ⊢
      obtain ⟨hq, hm⟩ := eq_of_mul_add_eq (r₁ / (c.shard * c.tensor))
        (r₂ / (c.shard * c.tensor)) (Nat.mod_lt r₁ c.tensor_pos) (Nat.mod_lt r₂ c.tensor_pos)
        (by omega)
      rw [hq, hm]
    · exact absurd (dataOverrun_of_meet_data h3 hk h₂ hb₂ hb₁ hgt h.symm) hd

omit hk in
theorem meet_of_dataOverrun (hd : c.DataOverrun) :
    ∃ r₁ < c.parallelismProduct, ∃ r₂ < c.parallelismProduct, c.Meet r₁ 2 r₂ 1 := by
  obtain ⟨d, hd, hport, hnode⟩ := hd
  -- the group of backend 2 whose port is the first one of backend 1
  have hle : (c.pipeline * c.tensor + 50) / c.tensor ≤ d :=
    Nat.lt_succ_iff.mp ((Nat.div_lt_iff_lt_mul c.tensor_pos).mpr hport)
  have hm : (c.pipeline * c.tensor + 50) % c.tensor < c.tensor := Nat.mod_lt _ c.tensor_pos
  have hsplit := Nat.div_add_mod' (c.pipeline * c.tensor + 50) c.tensor
  generalize (c.pipeline * c.tensor + 50) / c.tensor = q at *
  generalize (c.pipeline * c.tensor + 50) % c.tensor = m at *
  obtain ⟨hqdiv, hmmod⟩ := group_div_mod (c := c) q hm
  refine ⟨q * (c.shard * c.tensor) + m, group_lt (by omega) hm, 0, c.parallelismProduct_pos, ?_⟩
  simp only [Meet, slot, h3, if_true, slot3_data (.inl rfl : IsData 2), slot3_one, hqdiv, hmmod,
    Nat.zero_mod, Nat.zero_div]
  refine ⟨by simp only [blockOffset, if_true]; omega, Nat.div_eq_of_lt ?_⟩
  have hmono : q * (c.tensor * (c.shard - 1)) ≤ d * (c.tensor * (c.shard - 1)) :=
    Nat.mul_le_mul_right _ hle
  have hshard : q * (c.shard * c.tensor) = q * (c.tensor * (c.shard - 1)) + q * c.tensor := by
    obtain ⟨s, hs⟩ : ∃ s, c.shard = s + 1 := ⟨c.shard - 1, by have := c.shard_pos; omega⟩
    rw [hs, Nat.add_sub_cancel]
    ring
  omega

omit hk in
theorem meet_of_tensorOverrun (ht : c.TensorOverrun) :
    ∃ b, IsData b ∧ ∃ r₁ < c.parallelismProduct, ∃ r₂ < c.parallelismProduct, c.Meet r₁ 3 r₂ b := by
  obtain ⟨b, hb, q, hq, m, hm, hport, hnode⟩ := ht
  obtain ⟨hqdiv, hmmod⟩ := group_div_mod (c := c) q hm
  refine ⟨b, hb, (c.blockOffset b + q * c.tensor + m) * c.tensor, ?_,
    q * (c.shard * c.tensor) + m, group_lt hq hm, ?_⟩
  · calc (c.blockOffset b + q * c.tensor + m) * c.tensor
        < c.replicate * c.pipeline * c.shard * c.tensor :=
          Nat.mul_lt_mul_of_pos_right hport c.tensor_pos
      _ = c.parallelismProduct := by
          unfold parallelismProduct
          ring
  · simp only [Meet, slot, h3, if_true, slot3_data hb, slot3_three, hqdiv, hmmod,
      Nat.mul_div_cancel _ c.tensor_pos]
    exact ⟨by omega, hnode⟩

end Three

/-! ## Two degrees above 1 -/

theorem inner_pos (c : ParallelConfig) : 0 < c.innerParallelismDegree := by
  unfold innerParallelismDegree
  split_ifs <;> omega

theorem outer_mul_inner (c : ParallelConfig) :
    c.outerParallelismDegree * c.innerParallelismDegree = c.pipeline * c.tensor * c.shard := by
  refine Nat.div_mul_cancel ?_
  unfold innerParallelismDegree
  split_ifs
  · exact ⟨c.pipeline * c.shard, by ring⟩
  · exact ⟨c.pipeline * c.tensor, by ring⟩
  · exact one_dvd _

theorem product_eq_mul_outer (c : ParallelConfig) : c.parallelismProduct =
    c.replicate * c.outerParallelismDegree * c.innerParallelismDegree := by
  rw [Nat.mul_assoc, outer_mul_inner, parallelismProduct]
  ring

theorem outer_pos (c : ParallelConfig) : 0 < c.outerParallelismDegree := by
  have h := c.parallelismProduct_pos
  rw [product_eq_mul_outer] at h
  exact Nat.pos_of_mul_pos_left (Nat.pos_of_mul_pos_right h)

theorem div_inner_lt {r : ℕ} (hr : r < c.parallelismProduct) :
    r / c.innerParallelismDegree < c.replicate * c.outerParallelismDegree := by
  rwa [Nat.div_lt_iff_lt_mul c.inner_pos, ← product_eq_mul_outer]

theorem slot2_two (r : ℕ) : c.slot2 r 2 = (r / c.innerParallelismDegree * c.innerParallelismDegree,
    34568 + r / c.innerParallelismDegree) := by
  simp [slot2]

/-- The block of a backend whose groups are the residues of the inner degree. -/
theorem slot2_residue {b : ℕ} (hb : b = 1 ∨ 3 ≤ b ∧ c.tensor > 1) (r : ℕ) :
    c.slot2 r b = (r % c.innerParallelismDegree, 34568 + c.outerParallelismDegree +
      (b - 2) * c.innerParallelismDegree + r % c.innerParallelismDegree) := by
  rcases hb with rfl | ⟨hb, ht⟩
  · simp [slot2]
  · simp [slot2, ht, show b ≠ 2 by omega, show b ≠ 1 by omega, show b ≠ 0 by omega,
      Nat.mul_comm]

/-- The block of a backend above 2 whose groups are contiguous. -/
theorem slot2_contiguous {b : ℕ} (hb : 3 ≤ b) (ht : ¬ c.tensor > 1) (r : ℕ) :
    c.slot2 r b = (r / c.innerParallelismDegree * c.innerParallelismDegree,
      34568 + (b - 2) * c.outerParallelismDegree + c.innerParallelismDegree +
        r / c.innerParallelismDegree) := by
  simp [slot2, ht, show b ≠ 2 by omega, show b ≠ 1 by omega, show b ≠ 0 by omega, Nat.mul_comm]

section Two

variable (h2 : c.totalNumParallelism = 2) (hk : 0 < c.numRanksPerNode)
include h2 hk

/-- The condition fails when a contiguous group in the overrun of its block has its server on the
node of a group with a server `x` groups before it. -/
theorem not_separated_of_same_node {q n x : ℕ} (hq : q < c.replicate * c.outerParallelismDegree)
    (hx : c.outerParallelismDegree ≤ x) (hqx : x ≤ q)
    (hle : n + x * c.innerParallelismDegree ≤ q * c.innerParallelismDegree)
    (hnode : q * c.innerParallelismDegree / c.numRanksPerNode = n / c.numRanksPerNode) :
    ¬ c.Separated := by
  rintro ⟨-, hsep⟩
  have hmul : c.outerParallelismDegree * c.innerParallelismDegree ≤
      x * c.innerParallelismDegree := Nat.mul_le_mul_right _ hx
  obtain ⟨d, hd⟩ := Nat.exists_eq_add_of_le
    ((Nat.add_le_add_left hmul n).trans hle)
  rw [hd, Nat.add_assoc] at hnode
  have hlt := lt_of_add_div_eq hk hnode
  rcases hsep h2 with hone | hbig
  · rw [hone, Nat.one_mul] at hq
    omega
  · omega

/-- A contiguous group that meets a residue group is in the overrun. -/
theorem not_separated_of_meet_residue {r₁ r₂ b : ℕ} (h₁ : r₁ < c.parallelismProduct)
    (hb : b = 1 ∨ 3 ≤ b ∧ c.tensor > 1) (h : c.Meet r₁ 2 r₂ b) : ¬ c.Separated := by
  simp only [Meet, slot, h2, show ¬ (2 = 3) by omega, if_false, if_true, slot2_two,
    slot2_residue hb] at h
  obtain ⟨hport, hnode⟩ := h
  have hq := div_inner_lt h₁
  refine not_separated_of_same_node h2 hk hq (x := c.outerParallelismDegree) le_rfl (by omega) ?_
    hnode
  generalize r₁ / c.innerParallelismDegree = q at *
  generalize r₂ % c.innerParallelismDegree = n at *
  have hqeq : c.outerParallelismDegree + n ≤ q := by omega
  calc n + c.outerParallelismDegree * c.innerParallelismDegree
      ≤ n * c.innerParallelismDegree + c.outerParallelismDegree * c.innerParallelismDegree :=
        Nat.add_le_add_right (Nat.le_mul_of_pos_right _ c.inner_pos) _
    _ = (c.outerParallelismDegree + n) * c.innerParallelismDegree := by ring
    _ ≤ q * c.innerParallelismDegree := Nat.mul_le_mul_right _ hqeq

/-- Contiguous groups of different backends that meet are in the overrun. -/
theorem not_separated_of_meet_contiguous {r₁ r₂ b₁ b₂ : ℕ} (h₁ : r₁ < c.parallelismProduct)
    (ht : ¬ c.tensor > 1) (hb₁ : 2 ≤ b₁) (hlt : b₁ < b₂) (h : c.Meet r₁ b₁ r₂ b₂) :
    ¬ c.Separated := by
  have hq := div_inner_lt h₁
  simp only [Meet, slot, h2, show ¬ (2 = 3) by omega, if_false, if_true,
    slot2_contiguous (show 3 ≤ b₂ by omega) ht] at h
  have hmeet : ∃ x, c.outerParallelismDegree ≤ x ∧
      r₁ / c.innerParallelismDegree = x + r₂ / c.innerParallelismDegree ∧
      r₁ / c.innerParallelismDegree * c.innerParallelismDegree / c.numRanksPerNode =
        r₂ / c.innerParallelismDegree * c.innerParallelismDegree / c.numRanksPerNode := by
    rcases Nat.lt_or_ge b₁ 3 with hb | hb
    · obtain rfl : b₁ = 2 := by omega
      rw [slot2_two] at h
      have hone : 1 * c.outerParallelismDegree ≤ (b₂ - 2) * c.outerParallelismDegree :=
        Nat.mul_le_mul_right _ (by omega)
      exact ⟨(b₂ - 2) * c.outerParallelismDegree + c.innerParallelismDegree, by omega, by omega,
        h.2⟩
    · rw [slot2_contiguous hb ht] at h
      obtain ⟨j, rfl⟩ := Nat.exists_eq_add_of_lt hlt
      have hsub : (b₁ + j + 1 - 2) * c.outerParallelismDegree =
          (b₁ - 2) * c.outerParallelismDegree + (j + 1) * c.outerParallelismDegree := by
        rw [← Nat.add_mul]
        congr 1
        omega
      refine ⟨(j + 1) * c.outerParallelismDegree, Nat.le_mul_of_pos_left _ (by omega), by omega,
        h.2⟩
  obtain ⟨x, hx, hqx, hnode⟩ := hmeet
  refine not_separated_of_same_node h2 hk hq hx (hqx ▸ Nat.le_add_right x _) (le_of_eq ?_) hnode
  rw [hqx]
  ring

omit hk in
/-- Contiguous groups above backend 2 lie after the residue groups of backend 1. -/
theorem not_meet_one_contiguous {r₁ r₂ b : ℕ} (hb : 3 ≤ b) (ht : ¬ c.tensor > 1) :
    ¬ c.Meet r₁ 1 r₂ b := by
  rintro ⟨hport, -⟩
  simp only [slot, h2, show ¬ (2 = 3) by omega, if_false, if_true, slot2_contiguous hb ht,
    slot2_residue (.inl rfl : 1 = 1 ∨ _)] at hport
  have hn : r₁ % c.innerParallelismDegree < c.innerParallelismDegree := Nat.mod_lt _ c.inner_pos
  have hone : 1 * c.outerParallelismDegree ≤ (b - 2) * c.outerParallelismDegree :=
    Nat.mul_le_mul_right _ (by omega)
  generalize r₂ / c.innerParallelismDegree = q at hport
  omega

omit hk in
theorem eq_of_meet_contiguous {r₁ r₂ b : ℕ} (hb : b = 2 ∨ 3 ≤ b ∧ ¬ c.tensor > 1)
    (h : c.Meet r₁ b r₂ b) : (c.slot r₁ b).1 = (c.slot r₂ b).1 := by
  have hdiv : r₁ / c.innerParallelismDegree = r₂ / c.innerParallelismDegree := by
    have hport := h.1
    rcases hb with rfl | ⟨hb, ht⟩
    · simpa [slot, h2, slot2_two] using hport
    · simpa [slot, h2, slot2_contiguous hb ht] using hport
  rcases hb with rfl | ⟨hb, ht⟩
  · simp [slot, h2, slot2_two, hdiv]
  · simp [slot, h2, slot2_contiguous hb ht, hdiv]

omit hk in
theorem eq_of_meet_residue {r₁ r₂ b₁ b₂ : ℕ} (hb₁ : b₁ = 1 ∨ 3 ≤ b₁ ∧ c.tensor > 1)
    (hb₂ : b₂ = 1 ∨ 3 ≤ b₂ ∧ c.tensor > 1) (h : c.Meet r₁ b₁ r₂ b₂) :
    b₁ = b₂ ∧ (c.slot r₁ b₁).1 = (c.slot r₂ b₂).1 := by
  simp only [Meet, slot, h2, show ¬ (2 = 3) by omega, if_false, if_true, slot2_residue hb₁,
    slot2_residue hb₂] at h ⊢
  obtain ⟨hb, hn⟩ := eq_of_mul_add_eq (b₁ - 2) (b₂ - 2) (Nat.mod_lt r₁ c.inner_pos)
    (Nat.mod_lt r₂ c.inner_pos) (by omega)
  exact ⟨by omega, hn⟩

/-- When the overruns are separated, ranks that meet are in one group of one backend. -/
theorem eq_of_meet_two (hsep : c.Separated) {r₁ r₂ b₁ b₂ : ℕ}
    (h₁ : r₁ < c.parallelismProduct) (h₂ : r₂ < c.parallelismProduct)
    (hb₁ : 1 ≤ b₁) (hb₂ : 1 ≤ b₂) (h : c.Meet r₁ b₁ r₂ b₂) :
    b₁ = b₂ ∧ (c.slot r₁ b₁).1 = (c.slot r₂ b₂).1 := by
  by_cases ht : c.tensor > 1
  · have hkind : ∀ b, 1 ≤ b → b = 2 ∨ b = 1 ∨ 3 ≤ b ∧ c.tensor > 1 := by omega
    rcases hkind b₁ hb₁ with rfl | hb₁ <;> rcases hkind b₂ hb₂ with rfl | hb₂
    · exact ⟨rfl, eq_of_meet_contiguous h2 (.inl rfl) h⟩
    · exact absurd hsep (not_separated_of_meet_residue h2 hk h₁ hb₂ h)
    · exact absurd hsep (not_separated_of_meet_residue h2 hk h₂ hb₁ h.symm)
    · exact eq_of_meet_residue h2 hb₁ hb₂ h
  · have hone : ∀ {r r' b}, r' < c.parallelismProduct → 2 ≤ b → ¬ c.Meet r 1 r' b := by
      intro r r' b hr' hb hmeet
      rcases Nat.lt_or_ge b 3 with hlt | hge
      · obtain rfl : b = 2 := by omega
        exact not_separated_of_meet_residue h2 hk hr' (.inl rfl) hmeet.symm hsep
      · exact not_meet_one_contiguous h2 hge ht hmeet
    rcases Nat.lt_or_ge b₁ 2 with hlt₁ | hge₁ <;> rcases Nat.lt_or_ge b₂ 2 with hlt₂ | hge₂
    · exact eq_of_meet_residue h2 (by omega) (by omega) h
    · obtain rfl : b₁ = 1 := by omega
      exact absurd h (hone h₂ hge₂)
    · obtain rfl : b₂ = 1 := by omega
      exact absurd h.symm (hone h₁ hge₁)
    · rcases lt_trichotomy b₁ b₂ with hlt | rfl | hgt
      · exact absurd hsep (not_separated_of_meet_contiguous h2 hk h₁ ht hge₁ hlt h)
      · exact ⟨rfl, eq_of_meet_contiguous h2 (by omega) h⟩
      · exact absurd hsep (not_separated_of_meet_contiguous h2 hk h₂ ht hge₂ hgt h.symm)

omit hk in
/-- With more than one replica and its first two groups on one node, backend 2 meets backend 1. -/
theorem meet_of_replicas (hr : c.replicate ≠ 1)
    (hnode : c.outerParallelismDegree * c.innerParallelismDegree < c.numRanksPerNode) :
    ∃ r₁ < c.parallelismProduct, ∃ r₂ < c.parallelismProduct, c.Meet r₁ 2 r₂ 1 := by
  refine ⟨c.outerParallelismDegree * c.innerParallelismDegree, ?_, 0, c.parallelismProduct_pos, ?_⟩
  · have hpos := c.replicate_pos
    rw [product_eq_mul_outer, Nat.mul_assoc]
    exact lt_mul_of_one_lt_left (Nat.mul_pos c.outer_pos c.inner_pos) (by omega)
  · simp [Meet, slot, h2, slot2_two, slot2_residue (.inl rfl : 1 = 1 ∨ _),
      Nat.mul_div_cancel _ c.inner_pos, Nat.div_eq_of_lt hnode]

end Two

/-! ## Addresses identify groups -/

/-- A server is a rank of the job. -/
theorem slot_fst_le (c : ParallelConfig) {r b : ℕ} (hb : 1 ≤ b ∧ b ≤ 6) : (c.slot r b).1 ≤ r := by
  have hmod : r / (c.shard * c.tensor) * (c.shard * c.tensor) + r % c.tensor ≤ r := by
    have hle : r % (c.shard * c.tensor) % c.tensor ≤ r % (c.shard * c.tensor) := Nat.mod_le _ _
    rw [Nat.mod_mul_left_mod] at hle
    have hsplit := Nat.div_add_mod' r (c.shard * c.tensor)
    omega
  by_cases h3 : c.totalNumParallelism = 3
  · obtain rfl | rfl | hb : b = 1 ∨ b = 3 ∨ IsData b := by unfold IsData; omega
    · simpa [slot, h3, slot3_one] using Nat.mod_le _ _
    · simpa [slot, h3, slot3_three] using Nat.div_mul_le_self _ _
    · simpa [slot, h3, slot3_data hb] using hmod
  by_cases h2 : c.totalNumParallelism = 2
  · obtain rfl | hb | hb : b = 2 ∨ (b = 1 ∨ 3 ≤ b ∧ c.tensor > 1) ∨ (3 ≤ b ∧ ¬ c.tensor > 1) := by
      omega
    · simpa [slot, h2, slot2_two] using Nat.div_mul_le_self _ _
    · simpa [slot, h2, slot2_residue hb] using Nat.mod_le _ _
    · simpa [slot, h2, slot2_contiguous hb.1 hb.2] using Nat.div_mul_le_self _ _
  · simp [slot, h2, h3]

/-- A server names itself, at its members' port. -/
theorem slot_server (c : ParallelConfig) {r b : ℕ} (hb : 1 ≤ b ∧ b ≤ 6) :
    c.slot (c.slot r b).1 b = c.slot r b := by
  by_cases h3 : c.totalNumParallelism = 3
  · obtain rfl | rfl | hb : b = 1 ∨ b = 3 ∨ IsData b := by unfold IsData; omega
    · simp [slot, h3, slot3_one]
    · simp [slot, h3, slot3_three, Nat.mul_div_cancel _ c.tensor_pos]
    · obtain ⟨hq, hm⟩ := group_div_mod (c := c) (r / (c.shard * c.tensor))
        (Nat.mod_lt r c.tensor_pos)
      simp [slot, h3, slot3_data hb, hq, hm]
  by_cases h2 : c.totalNumParallelism = 2
  · obtain rfl | hb | hb : b = 2 ∨ (b = 1 ∨ 3 ≤ b ∧ c.tensor > 1) ∨ (3 ≤ b ∧ ¬ c.tensor > 1) := by
      omega
    · simp [slot, h2, slot2_two, Nat.mul_div_cancel _ c.inner_pos]
    · simp [slot, h2, slot2_residue hb]
    · simp [slot, h2, slot2_contiguous hb.1 hb.2, Nat.mul_div_cancel _ c.inner_pos]
  · simp [slot, h2, h3]

theorem Accepted.numRanksPerNode_pos (h : c.Accepted) : 0 < c.numRanksPerNode := by
  have hpos := c.parallelismProduct_pos
  rw [← h.1] at hpos
  exact Nat.pos_of_mul_pos_left hpos

theorem determineServerAddr_eq (h : c.Accepted) (serverIps : List String) (r b : ℕ) :
    c.determineServerAddr serverIps r b =
      .ok (serverIps[(c.slot r b).1 / c.numRanksPerNode]?, (c.slot r b).2) := by
  have hinner : ¬ (c.totalNumParallelism = 2 ∧ c.innerParallelismDegree = 1) := by
    have := h.2
    omega
  simp [determineServerAddr, h.1, hinner]

/-- With distinct entries for the nodes, ranks compute equal addresses exactly when they meet. -/
theorem determineServerAddr_eq_iff (h : c.Accepted) {serverIps : List String}
    (hips : serverIps.Nodup) (hlen : c.numNodes ≤ serverIps.length) {r₁ r₂ b₁ b₂ : ℕ}
    (h₁ : r₁ < c.parallelismProduct) (hb₁ : 1 ≤ b₁ ∧ b₁ ≤ 6) :
    c.determineServerAddr serverIps r₁ b₁ = c.determineServerAddr serverIps r₂ b₂ ↔
      c.Meet r₁ b₁ r₂ b₂ := by
  have hnode : (c.slot r₁ b₁).1 / c.numRanksPerNode < serverIps.length := by
    refine lt_of_lt_of_le ?_ hlen
    rw [Nat.div_lt_iff_lt_mul h.numRanksPerNode_pos, h.1]
    exact lt_of_le_of_lt (c.slot_fst_le hb₁) h₁
  rw [determineServerAddr_eq h, determineServerAddr_eq h, Except.ok.injEq, Prod.mk.injEq, Meet,
    and_comm, and_congr_right_iff]
  exact fun _ => List.getElem?_inj hnode hips

/-- **Addresses identify groups** exactly when no overrun of a port block meets another group's
server on its node. -/
theorem identifies_iff_separated (c : ParallelConfig) (h : c.Accepted) (serverIps : List String)
    (hips : serverIps.Nodup) (hlen : c.numNodes ≤ serverIps.length) :
    c.Identifies serverIps ↔ c.Separated := by
  have hk := h.numRanksPerNode_pos
  constructor
  · rintro ⟨hid, -⟩
    -- two ranks that meet on different backends contradict the identification
    have hno : ∀ b₁ b₂, 1 ≤ b₁ ∧ b₁ ≤ 6 → 1 ≤ b₂ ∧ b₂ ≤ 6 → b₁ ≠ b₂ →
        ¬ ∃ r₁ < c.parallelismProduct, ∃ r₂ < c.parallelismProduct, c.Meet r₁ b₁ r₂ b₂ := by
      rintro b₁ b₂ hb₁ hb₂ hne ⟨r₁, h₁, r₂, h₂, hmeet⟩
      exact hne (hid r₁ r₂ b₁ b₂ h₁ h₂ hb₁ hb₂
        ((determineServerAddr_eq_iff h hips hlen h₁ hb₁).mpr hmeet)).1
    refine ⟨fun h3 => ⟨fun hd => ?_, fun ht => ?_⟩, fun h2 => ?_⟩
    · exact hno 2 1 (by omega) (by omega) (by omega) (meet_of_dataOverrun h3 hd)
    · obtain ⟨b, hb, hmeet⟩ := meet_of_tensorOverrun h3 ht
      unfold IsData at hb
      exact hno 3 b (by omega) (by omega) (by omega) hmeet
    · by_contra hneither
      rw [not_or, Nat.not_le] at hneither
      exact hno 2 1 (by omega) (by omega) (by omega) (meet_of_replicas h2 hneither.1 hneither.2)
  · intro hsep
    refine ⟨fun r₁ r₂ b₁ b₂ h₁ h₂ hb₁ hb₂ haddr => ?_, fun r b hr hb => ?_⟩
    · have hmeet := (determineServerAddr_eq_iff h hips hlen h₁ hb₁).mp haddr
      rcases h.2 with h3 | ⟨h2, -⟩
      · exact eq_of_meet_three h3 hk (hsep.1 h3).1 (hsep.1 h3).2 h₁ h₂ hb₁ hb₂ hmeet
      · exact eq_of_meet_two h2 hk hsep h₁ h₂ hb₁.1 hb₂.1 hmeet
    · rw [determineServerAddr_eq h, determineServerAddr_eq h, c.slot_server hb]

/-- With a replicate degree of 1 no block overruns. -/
theorem separated_of_replicate_eq_one (hr : c.replicate = 1) : c.Separated := by
  refine ⟨fun _ => ⟨?_, ?_⟩, fun _ => .inl hr⟩
  · rintro ⟨d, hd, hport, -⟩
    rw [hr, Nat.one_mul] at hd
    have hle : (d + 1) * c.tensor ≤ c.pipeline * c.tensor := Nat.mul_le_mul_right _ hd
    omega
  · rintro ⟨b, hb, q, -, m, -, hport, -⟩
    rw [hr, Nat.one_mul] at hport
    unfold blockOffset at hport
    split_ifs at hport <;> omega

/-- A job with data parallelism over two nodes and tensor parallelism inside them. -/
def twoByTwo : ParallelConfig where
  replicate := 1
  shard := 2
  tensor := 2
  pipeline := 1
  numNodes := 2
  numRanksPerNode := 2
  replicate_pos := by decide
  shard_pos := by decide
  tensor_pos := by decide
  pipeline_pos := by decide

theorem identifies_twoByTwo : twoByTwo.Accepted ∧ twoByTwo.Identifies ["nid0", "nid1"] :=
  ⟨by decide, (identifies_iff_separated twoByTwo (by decide) ["nid0", "nid1"] (by decide)
    (by decide)).mpr (separated_of_replicate_eq_one rfl)⟩

/-- Two replicas of a tensor-parallel pair on one node of four ranks. -/
def replicatedPair : ParallelConfig where
  replicate := 2
  shard := 1
  tensor := 2
  pipeline := 1
  numNodes := 1
  numRanksPerNode := 4
  replicate_pos := by decide
  shard_pos := by decide
  tensor_pos := by decide
  pipeline_pos := by decide

/-- Rank 0 on backend 1 and rank 2 on backend 2 compute the same address. -/
theorem not_identifies_replicatedPair :
    replicatedPair.Accepted ∧ ¬ replicatedPair.Identifies ["nid0"] := by
  refine ⟨by decide, fun h => ?_⟩
  have hsame : replicatedPair.determineServerAddr ["nid0"] 0 1 =
      replicatedPair.determineServerAddr ["nid0"] 2 2 := by rfl
  exact absurd (h.1 0 2 1 2 (by decide) (by decide) (by decide) (by decide) hsame).1 (by decide)

end ParallelConfig

end Opus
