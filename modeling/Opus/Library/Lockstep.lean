import Mathlib.Data.Finset.Max
import Mathlib.Data.List.Perm.Subperm

/-!
# Exchanges in rounds

In every round each node of a finite set sends one message and receives one, and what a node
receives in a round is what another node sends in the same round. A channel only tells how many of
its messages have been sent and received, so a message of one round may be taken for that of
another.

## Main definitions

* `firsts f m`: the first `m` values of `f`
* `Rounds`: what each node sends and receives in each round
* `Rounds.heard`: the nodes a node depends on after some rounds, when it sends in a round only what
  it has received before

## Main results

* `Rounds.available`: what a node has received in its rounds so far, nodes that are as far have sent
* `Rounds.all_done`: when a node can go on unless something it waits for has not been sent, all
  nodes take all rounds
* `Rounds.heard_of_received`: what holds of the nodes that have sent holds of all nodes that a node
  depends on
-/

namespace Lockstep

/-! ## The first values of a sequence -/

section Firsts

variable {κ : Type*}

/-- The first `m` values of `f`. -/
def firsts (f : ℕ → κ) (m : ℕ) : List κ := (List.range m).map f

@[simp] theorem length_firsts (f : ℕ → κ) (m : ℕ) : (firsts f m).length = m := by simp [firsts]

@[simp] theorem firsts_zero (f : ℕ → κ) : firsts f 0 = [] := rfl

theorem firsts_succ (f : ℕ → κ) (m : ℕ) : firsts f (m + 1) = firsts f m ++ [f m] := by
  simp [firsts, List.range_succ]

theorem firsts_eq_replicate {f : ℕ → κ} {a : κ} (h : ∀ k, f k = a) (m : ℕ) :
    firsts f m = List.replicate m a := by
  rw [funext h]
  simp [firsts]

theorem firsts_congr {f g : ℕ → κ} {m : ℕ} (h : ∀ k < m, f k = g k) : firsts f m = firsts g m :=
  List.map_congr_left fun k hk => h k (List.mem_range.mp hk)

theorem firsts_add (f : ℕ → κ) (m m' : ℕ) :
    firsts f (m + m') = firsts f m ++ firsts (fun k => f (m + k)) m' := by
  simp [firsts, List.range_add]

theorem mem_firsts {f : ℕ → κ} {m : ℕ} {a : κ} : a ∈ firsts f m ↔ ∃ k < m, f k = a := by
  simp [firsts]

theorem firsts_prefix_of_le (f : ℕ → κ) {m m' : ℕ} (h : m ≤ m') : firsts f m <+: firsts f m' := by
  induction h with
  | refl => exact List.prefix_rfl
  | step _ ih => exact ih.trans ⟨[f _], (firsts_succ f _).symm⟩

variable [BEq κ] [LawfulBEq κ]

omit [LawfulBEq κ] in
theorem count_firsts_succ (f : ℕ → κ) (m : ℕ) (a : κ) :
    (firsts f (m + 1)).count a = (firsts f m).count a + if f m == a then 1 else 0 := by
  simp [firsts_succ, List.count_singleton]

omit [LawfulBEq κ] in
theorem count_firsts_mono (f : ℕ → κ) {m m' : ℕ} (h : m ≤ m') (a : κ) :
    (firsts f m).count a ≤ (firsts f m').count a :=
  (firsts_prefix_of_le f h).sublist.count_le a

/-- Sequences that take two values at the same places take them equally often. -/
theorem count_firsts_congr {κ' : Type*} [BEq κ'] [LawfulBEq κ'] {f : ℕ → κ} {g : ℕ → κ'}
    {a : κ} {b : κ'} {m : ℕ} (h : ∀ k < m, f k = a ↔ g k = b) :
    (firsts f m).count a = (firsts g m).count b := by
  induction m with
  | zero => rfl
  | succ m ih =>
    have hm : (f m == a) = (g m == b) := by
      rw [Bool.eq_iff_iff, beq_iff_eq, beq_iff_eq, h m (Nat.lt_succ_self m)]
    rw [count_firsts_succ, count_firsts_succ, ih fun k hk => h k (Nat.lt_succ_of_lt hk), hm]

end Firsts

/-! ## Rounds -/

variable {ι κ : Type*} [DecidableEq ι] [DecidableEq κ]

/-- The partner and the message of each node, for what it sends and for what it receives in each of
`S` rounds. -/
structure Rounds (nodes : Finset ι) (κ : Type*) (S : ℕ) where
  out : ι → ℕ → ι × κ
  inc : ι → ℕ → ι × κ
  inc_mem : ∀ i ∈ nodes, ∀ k < S, (inc i k).1 ∈ nodes
  paired : ∀ i ∈ nodes, ∀ j ∈ nodes, ∀ k < S, ∀ z, out i k = (j, z) ↔ inc j k = (i, z)

namespace Rounds

variable {nodes : Finset ι} {S : ℕ} (R : Rounds nodes κ S)

theorem count_inc_eq_count_out {i j : ι} (hi : i ∈ nodes) (hj : j ∈ nodes) {m : ℕ} (hm : m ≤ S)
    (z : κ) : (firsts (R.inc j) m).count (i, z) = (firsts (R.out i) m).count (j, z) :=
  count_firsts_congr fun k hk => (R.paired i hi j hj k (hk.trans_le hm) z).symm

/-- **What a node awaits in its first rounds** is sent by a node that is as far. -/
theorem available {i j : ι} (hi : i ∈ nodes) (hj : j ∈ nodes) {m m' : ℕ} (hm : m ≤ S)
    (h : m ≤ m') (z : κ) :
    (firsts (R.inc j) m).count (i, z) ≤ (firsts (R.out i) m').count (j, z) := by
  rw [R.count_inc_eq_count_out hi hj hm]
  exact count_firsts_mono (R.out i) h _

/-- A node that has received a message of a round has a partner that has sent it. -/
theorem lt_of_count_le {i j : ι} (hi : i ∈ nodes) (hj : j ∈ nodes) {k m m' : ℕ} {z : κ}
    (hk : R.inc j k = (i, z)) (hkm : k < m) (hm : m ≤ S)
    (h : (firsts (R.inc j) m).count (i, z) ≤ (firsts (R.out i) m').count (j, z)) : k < m' := by
  by_contra hlt
  have hle : (firsts (R.out i) m').count (j, z) ≤ (firsts (R.out i) k).count (j, z) :=
    count_firsts_mono (R.out i) (Nat.not_lt.mp hlt) _
  have hlast : (firsts (R.inc j) (k + 1)).count (i, z) =
      (firsts (R.inc j) k).count (i, z) + 1 := by
    rw [count_firsts_succ, if_pos (beq_iff_eq.mpr hk)]
  have hmono : (firsts (R.inc j) (k + 1)).count (i, z) ≤ (firsts (R.inc j) m).count (i, z) :=
    count_firsts_mono (R.inc j) hkm _
  have heq := R.count_inc_eq_count_out hi hj (hkm.le.trans hm) z
  omega

/-- **Progress**: when every node takes another round once all nodes have taken as many rounds as it
has, every node takes all rounds. -/
theorem all_done {sent : ι → ℕ}
    (h : ∀ j ∈ nodes, sent j < S →
      (∀ i ∈ nodes, ∀ z, (firsts (R.inc j) (sent j)).count (i, z) ≤
        (firsts (R.out i) (sent i)).count (j, z)) → False) :
    ∀ j ∈ nodes, S ≤ sent j := by
  intro j hj
  by_contra hlt
  -- a node with the least number of rounds waits for nothing
  obtain ⟨i, hi, hmin⟩ := nodes.exists_min_image sent ⟨j, hj⟩
  have hle := hmin j hj
  exact h i hi (by omega) fun a ha z => R.available ha hi (by omega) (hmin a ha) z

/-- The nodes on which a node depends after its first rounds. -/
def heard : ℕ → ι → Finset ι
  | 0, i => {i}
  | m + 1, i => heard m i ∪ heard m (R.inc i m).1

omit [DecidableEq κ] in
theorem heard_mono {m m' : ℕ} (h : m ≤ m') (i : ι) : R.heard m i ⊆ R.heard m' i := by
  induction h with
  | refl => exact Finset.Subset.refl _
  | step _ ih => exact ih.trans Finset.subset_union_left

omit [DecidableEq κ] in
/-- **Dependence**: when every node sends at most one message more than it has received, and
receives only what has been sent, a property of all nodes that have sent holds of all nodes that a
node depends on. -/
theorem heard_of_received {sent received : ι → ℕ} {P : ι → Prop}
    (hsent : ∀ i ∈ nodes, 0 < sent i → P i) (hwindow : ∀ i ∈ nodes, sent i ≤ received i + 1)
    (hreceived : ∀ i ∈ nodes, ∀ k < received i, k < sent (R.inc i k).1) {m : ℕ} (hm : m ≤ S) :
    ∀ i ∈ nodes, P i → m ≤ received i → ∀ j ∈ R.heard m i, P j := by
  induction m with
  | zero =>
    intro i _ hP _ j hj
    rw [heard, Finset.mem_singleton] at hj
    exact hj ▸ hP
  | succ m ih =>
    intro i hi hP hle j hj
    rw [heard, Finset.mem_union] at hj
    rcases hj with hj | hj
    · exact ih (by omega) i hi hP (by omega) j hj
    · have hmem := R.inc_mem i hi m hm
      have hlt := hreceived i hi m hle
      have hwin := hwindow _ hmem
      exact ih (by omega) _ hmem (hsent _ hmem (by omega)) (by omega) j hj

end Rounds

end Lockstep
