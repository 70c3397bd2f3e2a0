import Mathlib.Data.Nat.Digits.Defs
import Mathlib.Data.Nat.Log
import Opus.Library.RowMajor
import Opus.Simulation.StageState

/-!
# The topologies of the bitmask studies

A generator writes one bandwidth matrix for every choice of the pipeline stages that use the
pipeline topology, and numbers the choices. The scheduler computes the number from its stage
vector. All ranks of a tensor-parallel group are connected in every matrix; a stage is connected as
rings of its data-parallel groups, or with its neighbour stages when both have been chosen.

## Main definitions

* `genTopo`, `fgPp`: the matrix of a choice, and the file with all of them
* `sixDecimals`: a bandwidth as the file has it
* `bitmaskTopoId`: the id that `Scheduler::reconfigure` computes
* `npu`, `ServesStages`: the ranks of a layout, and what a matrix should provide

## Main results

* `genTopo_npu`: in the coordinates of either layout, the matrix is the one of the link rules
* `linkRule_outside`: the links of a rank that leave its tensor-parallel group
* `circuitSchedules_fgPp`: the matrix under the id of a stage vector is the one for that vector
* `servesStages_fgPp`: it serves the traffic the stages are set to
-/

namespace Opus.Simulation

/-! ## The generator -/

/-- A bandwidth matrix, by ranks. -/
abbrev BwMatrix := ℕ → ℕ → Bandwidth

/-- Two positions of a ring are neighbours, also over its end. -/
def Adjacent (n a b : ℕ) : Prop := ((a : ℤ) - b).natAbs = 1 ∨ ((a : ℤ) - b).natAbs = n - 1

instance (n a b : ℕ) : Decidable (Adjacent n a b) := inferInstanceAs (Decidable (_ ∨ _))

/-- The stage is chosen together with the stage before or after it. -/
def ppMode (pp : ℕ) (ppGroups : List Bool) (p : ℕ) : Bool :=
  (ppGroups.getD ((p + pp - 1) % pp) false && ppGroups.getD p false) ||
    (ppGroups.getD ((p + 1) % pp) false && ppGroups.getD p false)

/-- The rules of `gen_topo` for two ranks with these indexes of the stage, the data-parallel and the
tensor-parallel group. A later rule overrides an earlier one. -/
def linkRule (dp pp : ℕ) (dpBw tpBw ppBw : Bandwidth) (ppGroups : List Bool)
    (iPp iDp iTp jPp jDp jTp : ℕ) : Bandwidth :=
  let bw := if iDp = jDp ∧ iPp = jPp then tpBw else 0
  let bw :=
    if Adjacent pp iPp jPp ∧ ppGroups.getD iPp false ∧ ppGroups.getD jPp false then
      if iDp = jDp ∧ iTp = jTp then ppBw else bw
    else bw
  if iTp = jTp ∧ iPp = jPp then
    if ¬ ppMode pp ppGroups iPp then
      if Adjacent dp iDp jDp then dpBw else bw
    else bw
  else bw

/-- The rank in the swapped layout. -/
def swappedIndex (dp tp i : ℕ) : ℕ := i / (dp * tp) * (tp * dp) + i % tp * dp + i % (dp * tp) / tp

/-- The second half of `gen_topo`. The inner loop writes one row. -/
def swapLayout (dp tp pp : ℕ) (m : BwMatrix) : BwMatrix :=
  (List.range (dp * tp * pp)).foldl (fun m' i =>
    Function.update m' (swappedIndex dp tp i)
      ((List.range (dp * tp * pp)).foldl
        (fun row j => Function.update row (swappedIndex dp tp j) (m i j))
        (m' (swappedIndex dp tp i))))
    fun _ _ => 0

def genTopo (dp tp pp : ℕ) (dpBw tpBw ppBw : Bandwidth) (ppGroups : List Bool) (swapDpTp : Bool) :
    BwMatrix :=
  let m : BwMatrix := fun i j =>
    linkRule dp pp dpBw tpBw ppBw ppGroups (i / (dp * tp)) (i % (dp * tp) / tp) (i % tp)
      (j / (dp * tp)) (j % (dp * tp) / tp) (j % tp)
  if swapDpTp then swapLayout dp tp pp m else m

/-- `itertools.product([False, True], repeat=n)`. -/
def product : ℕ → List (List Bool)
  | 0 => [[]]
  | n + 1 => (product n).map (false :: ·) ++ (product n).map (true :: ·)

/-- The nearest integer, the even one of two. -/
def roundHalfEven (q : ℚ≥0) : ℕ :=
  if q + q < ⌊q⌋₊ + ⌊q⌋₊ + 1 ∨ (q + q = ⌊q⌋₊ + ⌊q⌋₊ + 1 ∧ ⌊q⌋₊ % 2 = 0) then ⌊q⌋₊
  else ⌊q⌋₊ + 1

/-- A number as `write_matrix` formats it. -/
def sixDecimals (x : Bandwidth) : Bandwidth := roundHalfEven (x * 1000000) / 1000000

/-- The file of the `fg-pp` generator: an id and a matrix for each choice of stages. -/
def fgPp (dp tp pp : ℕ) (dpBw tpBw ppBw : Bandwidth) (swapDpTp : Bool) : List (ℕ × BwMatrix) :=
  (product pp).mapIdx fun idx sel =>
    (idx, fun i j => sixDecimals (genTopo dp tp pp dpBw tpBw ppBw sel swapDpTp i j))

/-! ## The scheduler -/

/-- The matrix of `circuit_schedules` under an id. -/
def circuitSchedules (file : List (ℕ × BwMatrix)) (topoId : ℤ) : Option BwMatrix :=
  (file.find? fun p => (p.1 : ℤ) = topoId).map Prod.snd

/-- The stage count of `main` for bitmask ids. -/
def bitmaskStages (file : List (ℕ × BwMatrix)) : ℕ := Nat.log 2 file.length

/-- The id of `Scheduler::reconfigure`, an `int`: stage `i` is bit `pp_stages - 1 - i`. -/
def bitmaskTopoId (ppStages : ℕ) (stageDpOrPp : List ℕ) : ℤ :=
  (stageDpOrPp.zipIdx.foldl (fun id p => id + BitVec.ofNat 32 p.1 <<< (ppStages - 1 - p.2))
    (0 : BitVec 32)).toInt

/-! ## Ranks -/

/-- The rank of a data-parallel and a tensor-parallel index in a stage. -/
def npu (dp tp : ℕ) (swapDpTp : Bool) (p d t : ℕ) : ℕ :=
  if swapDpTp then p * (tp * dp) + t * dp + d else p * (dp * tp) + d * tp + t

/-- The stage and the data-parallel index of a rank, which its tensor-parallel group shares. -/
def tpGroup (dp tp : ℕ) (swapDpTp : Bool) (i : ℕ) : ℕ × ℕ :=
  if swapDpTp then (i / (tp * dp), i % dp) else (i / (dp * tp), i % (dp * tp) / tp)

/-- What the links of a matrix should provide for a stage vector. -/
structure ServesStages (dp tp pp : ℕ) (swapDpTp : Bool) (stages : List ℕ) (m : BwMatrix) : Prop where
  tp_pos : ∀ p < pp, ∀ d < dp, ∀ t < tp, ∀ t' < tp, t ≠ t' →
    0 < m (npu dp tp swapDpTp p d t) (npu dp tp swapDpTp p d t')
  dp_pos : ∀ p < pp, stages[p]? = some 0 → ∀ d < dp, ∀ t < tp,
    0 < m (npu dp tp swapDpTp p d t) (npu dp tp swapDpTp p ((d + 1) % dp) t) ∧
      0 < m (npu dp tp swapDpTp p ((d + 1) % dp) t) (npu dp tp swapDpTp p d t)
  pp_pos : ∀ p < pp, stages[p]? = some 1 → stages[(p + 1) % pp]? = some 1 → ∀ d < dp, ∀ t < tp,
    0 < m (npu dp tp swapDpTp p d t) (npu dp tp swapDpTp ((p + 1) % pp) d t) ∧
      0 < m (npu dp tp swapDpTp ((p + 1) % pp) d t) (npu dp tp swapDpTp p d t)
  degree_le : ∀ i < dp * tp * pp,
    ((Finset.range (dp * tp * pp)).filter fun j =>
      0 < m i j ∧ tpGroup dp tp swapDpTp j ≠ tpGroup dp tp swapDpTp i).card ≤ 2

/-! ## Index arithmetic -/

section

variable {n a b : ℕ}

theorem succ_mod (ha : a < n) : (a + 1) % n = if a + 1 = n then 0 else a + 1 := by
  split
  · next h => rw [h, Nat.mod_self]
  · exact Nat.mod_eq_of_lt (by omega)

theorem pred_mod (ha : a < n) : (a + n - 1) % n = if a = 0 then n - 1 else a - 1 := by
  split
  · next h =>
    rw [h, Nat.zero_add]
    exact Nat.mod_eq_of_lt (by omega)
  · have h : a + n - 1 = (a - 1) + n := by omega
    rw [h, Nat.add_mod_right]
    exact Nat.mod_eq_of_lt (by omega)

/-- **The neighbours** of a position are the next and the previous one, also in rings of one or two
positions. -/
theorem adjacent_iff (ha : a < n) (hb : b < n) :
    Adjacent n a b ↔ b = (a + 1) % n ∨ b = (a + n - 1) % n := by
  rw [Adjacent, succ_mod ha, pred_mod ha]
  split <;> split <;> omega

theorem Adjacent.symm (h : Adjacent n a b) : Adjacent n b a := by
  unfold Adjacent at h ⊢
  omega

end

/-! ## Layouts -/

section

variable {α : Type*} {l : List ℕ} {g : ℕ → ℕ} {V : ℕ → α → α}

theorem foldl_update_of_forall_ne {k : ℕ} (h : ∀ i ∈ l, g i ≠ k) (f : ℕ → α) :
    l.foldl (fun f i => Function.update f (g i) (V i (f (g i)))) f k = f k := by
  induction l generalizing f with
  | nil => rfl
  | cons i l ih =>
    rw [List.foldl_cons, ih fun j hj => h j (List.mem_cons_of_mem i hj)]
    exact Function.update_of_ne (h i List.mem_cons_self).symm _ _

/-- A loop that writes each place once leaves there what it wrote. -/
theorem foldl_update_of_mem (hg : ∀ i ∈ l, ∀ j ∈ l, g i = g j → i = j) (hl : l.Nodup) {i : ℕ}
    (hi : i ∈ l) (f : ℕ → α) :
    l.foldl (fun f i => Function.update f (g i) (V i (f (g i)))) f (g i) = V i (f (g i)) := by
  induction l generalizing f with
  | nil => exact absurd hi List.not_mem_nil
  | cons j l ih =>
    obtain ⟨hjl, hl⟩ := List.nodup_cons.mp hl
    rw [List.foldl_cons]
    by_cases hij : i = j
    · subst hij
      rw [foldl_update_of_forall_ne, Function.update_self]
      intro k hk he
      obtain rfl := hg k (List.mem_cons_of_mem i hk) i List.mem_cons_self he
      exact hjl hk
    · have hil : i ∈ l := (List.mem_cons.mp hi).resolve_left hij
      have hne : g i ≠ g j := fun he => hij (hg i hi j List.mem_cons_self he)
      rw [ih (fun a ha b hb => hg a (List.mem_cons_of_mem j ha) b (List.mem_cons_of_mem j hb)) hl hil,
        Function.update_of_ne hne]

end

section

variable {dp tp pp : ℕ} {dpBw tpBw ppBw : Bandwidth} {g : List Bool} {swapDpTp : Bool}
  {p d t p' d' t' : ℕ}

theorem swappedIndex_npu (hd : d < dp) (ht : t < tp) :
    swappedIndex dp tp (npu dp tp false p d t) = npu dp tp true p d t := by
  obtain ⟨h1, h2, h3⟩ := RowMajor.parts (p := p) hd ht
  simp only [swappedIndex, npu, Bool.false_eq_true, if_false, if_true, h1, h2, h3]

theorem npu_lt (hp : p < pp) (hd : d < dp) (ht : t < tp) :
    npu dp tp swapDpTp p d t < dp * tp * pp := by
  cases swapDpTp with
  | false => exact RowMajor.lt hp hd ht
  | true =>
    rw [Nat.mul_comm dp]
    exact RowMajor.lt hp ht hd

theorem exists_npu (swapDpTp : Bool) {i : ℕ} (hi : i < dp * tp * pp) :
    ∃ p < pp, ∃ d < dp, ∃ t < tp, i = npu dp tp swapDpTp p d t := by
  cases swapDpTp with
  | false => exact RowMajor.exists_eq hi
  | true =>
    rw [Nat.mul_comm dp] at hi
    obtain ⟨p, hp, t, ht, d, hd, he⟩ := RowMajor.exists_eq hi
    exact ⟨p, hp, d, hd, t, ht, he⟩

theorem tpGroup_npu (hd : d < dp) (ht : t < tp) :
    tpGroup dp tp swapDpTp (npu dp tp swapDpTp p d t) = (p, d) := by
  cases swapDpTp with
  | false =>
    obtain ⟨h1, h2, -⟩ := RowMajor.parts (p := p) hd ht
    simp only [tpGroup, npu, Bool.false_eq_true, if_false, h1, h2]
  | true =>
    obtain ⟨h1, -, h3⟩ := RowMajor.parts (p := p) ht hd
    simp only [tpGroup, npu, if_true, h1, h3]

/-- The swapped layout numbers different ranks differently. -/
theorem swappedIndex_injOn {i j : ℕ} (hi : i < dp * tp * pp) (hj : j < dp * tp * pp)
    (h : swappedIndex dp tp i = swappedIndex dp tp j) : i = j := by
  obtain ⟨p, -, d, hd, t, ht, rfl⟩ := exists_npu false hi
  obtain ⟨p', -, d', hd', t', ht', rfl⟩ := exists_npu false hj
  rw [swappedIndex_npu hd ht, swappedIndex_npu hd' ht'] at h
  obtain ⟨h1, h2, h3⟩ := RowMajor.parts (p := p) ht hd
  obtain ⟨h1', h2', h3'⟩ := RowMajor.parts (p := p') ht' hd'
  have he : p * (tp * dp) + t * dp + d = p' * (tp * dp) + t' * dp + d' := h
  rw [he] at h1 h2 h3
  rw [← h1, ← h2, ← h3, h1', h2', h3']

theorem swapLayout_swappedIndex (m : BwMatrix) {i j : ℕ} (hi : i < dp * tp * pp)
    (hj : j < dp * tp * pp) :
    swapLayout dp tp pp m (swappedIndex dp tp i) (swappedIndex dp tp j) = m i j := by
  have hinj : ∀ a ∈ List.range (dp * tp * pp), ∀ b ∈ List.range (dp * tp * pp),
      swappedIndex dp tp a = swappedIndex dp tp b → a = b := fun a ha b hb =>
    swappedIndex_injOn (List.mem_range.mp ha) (List.mem_range.mp hb)
  have hrow := fun row : ℕ → Bandwidth =>
    foldl_update_of_mem (V := fun j _ => m i j) hinj List.nodup_range (List.mem_range.mpr hj) row
  have hmat := foldl_update_of_mem (V := fun i (row : ℕ → Bandwidth) =>
    (List.range (dp * tp * pp)).foldl
      (fun row j => Function.update row (swappedIndex dp tp j) (m i j)) row)
    hinj List.nodup_range (List.mem_range.mpr hi) fun _ _ => 0
  exact (congrFun hmat _).trans (hrow _)

/-- **In the coordinates of either layout, the matrix is the one of the rules.** -/
theorem genTopo_npu (hp : p < pp) (hd : d < dp) (ht : t < tp) (hp' : p' < pp) (hd' : d' < dp)
    (ht' : t' < tp) :
    genTopo dp tp pp dpBw tpBw ppBw g swapDpTp (npu dp tp swapDpTp p d t)
        (npu dp tp swapDpTp p' d' t') =
      linkRule dp pp dpBw tpBw ppBw g p d t p' d' t' := by
  obtain ⟨h1, h2, h3⟩ := RowMajor.parts (p := p) hd ht
  obtain ⟨h1', h2', h3'⟩ := RowMajor.parts (p := p') hd' ht'
  cases swapDpTp with
  | false =>
    simp only [genTopo, npu, Bool.false_eq_true, if_false, h1, h2, h3, h1', h2', h3']
  | true =>
    rw [← swappedIndex_npu hd ht, ← swappedIndex_npu hd' ht', genTopo, if_pos rfl,
      swapLayout_swappedIndex _ (npu_lt hp hd ht) (npu_lt hp' hd' ht')]
    simp only [npu, Bool.false_eq_true, if_false, h1, h2, h3, h1', h2', h3']

/-! ## The rules -/

theorem linkRule_tp (hpp : 2 ≤ pp) (ht : t ≠ t') :
    linkRule dp pp dpBw tpBw ppBw g p d t p d t' = tpBw := by
  have hadj : ¬ Adjacent pp p p := by
    unfold Adjacent
    omega
  simp [linkRule, hadj, ht]

theorem linkRule_dp (hm : ppMode pp g p = false) (hd : Adjacent dp d d') :
    linkRule dp pp dpBw tpBw ppBw g p d t p d' t = dpBw := by
  simp [linkRule, hm, hd]

theorem linkRule_pp (hp : Adjacent pp p p') (hne : p ≠ p') (hg : g.getD p false = true)
    (hg' : g.getD p' false = true) : linkRule dp pp dpBw tpBw ppBw g p d t p' d t = ppBw := by
  simp only [linkRule, hp, hg, hg', hne, and_self, and_false, if_true, if_false]

/-- **Links that leave a tensor-parallel group** go to a neighbour stage or to a neighbour in the
ring, depending on the choice of the stages. -/
theorem linkRule_outside (hp : p < pp) (hp' : p' < pp) (hd : d < dp) (hd' : d' < dp)
    (hpos : 0 < linkRule dp pp dpBw tpBw ppBw g p d t p' d' t') (hne : (p', d') ≠ (p, d)) :
    t' = t ∧
      if ppMode pp g p then d' = d ∧ (p' = (p + 1) % pp ∨ p' = (p + pp - 1) % pp)
      else p' = p ∧ (d' = (d + 1) % dp ∨ d' = (d + dp - 1) % dp) := by
  have hsame : ¬ (d = d' ∧ p = p') := fun h => hne (Prod.ext h.2.symm h.1.symm)
  simp only [linkRule, hsame, if_false] at hpos
  by_cases hring : t = t' ∧ p = p' ∧ ppMode pp g p = false ∧ Adjacent dp d d'
  · -- the link was set by the last rule
    obtain ⟨rfl, rfl, hm, hadj⟩ := hring
    rw [hm, if_neg Bool.false_ne_true]
    exact ⟨rfl, rfl, (adjacent_iff hd hd').mp hadj⟩
  · have hpos' : 0 < if Adjacent pp p p' ∧ g.getD p false = true ∧ g.getD p' false = true then
        if d = d' ∧ t = t' then ppBw else 0 else 0 := by
      split_ifs at hpos with h1 h2 h3 h4 h5 h6 <;> simp_all
    split_ifs at hpos' with h1 h2
    · obtain ⟨hadj, hg, hg'⟩ := h1
      obtain ⟨rfl, rfl⟩ := h2
      have hnb := (adjacent_iff hp hp').mp hadj
      have hm : ppMode pp g p = true := by
        rcases hnb with rfl | rfl <;>
          simp only [ppMode, hg, hg', Bool.and_self, Bool.or_true, Bool.true_or]
      rw [if_pos hm]
      exact ⟨rfl, rfl, hnb⟩
    · exact absurd hpos' (lt_irrefl 0)
    · exact absurd hpos' (lt_irrefl 0)

end

/-! ## Ids -/

theorem topoId_cons (b c : ℕ) (stages : List ℕ) :
    topoIdFromStageState b (c :: stages) =
      topoIdFromStageState b stages + b ^ stages.length * c := by
  rw [topoIdFromStageState, List.reverse_cons, Nat.ofDigits_append, Nat.ofDigits_singleton,
    List.length_reverse, topoIdFromStageState]

theorem topoId_two_lt {stages : List ℕ} (hb : ∀ c ∈ stages, c < 2) :
    topoIdFromStageState 2 stages < 2 ^ stages.length := by
  rw [topoIdFromStageState, ← List.length_reverse]
  exact Nat.ofDigits_lt_base_pow_length (by norm_num) fun c hc => hb c (List.mem_reverse.mp hc)

/-- The scheduler adds up the bits of the stages. -/
theorem foldl_zipIdx_shiftLeft {ppStages : ℕ} (stages : List ℕ) :
    ∀ (k : ℕ) (id : BitVec 32), k + stages.length = ppStages →
      (stages.zipIdx k).foldl (fun id p => id + BitVec.ofNat 32 p.1 <<< (ppStages - 1 - p.2)) id =
        id + BitVec.ofNat 32 (topoIdFromStageState 2 stages) := by
  induction stages with
  | nil =>
    intro k id _
    show id = id + BitVec.ofNat 32 0
    simp
  | cons c stages ih =>
    intro k id hk
    rw [List.length_cons] at hk
    have hsh : ppStages - 1 - k = stages.length := by omega
    rw [List.zipIdx_cons, List.foldl_cons, ih (k + 1) _ (by omega), hsh, topoId_cons]
    apply BitVec.eq_of_toNat_eq
    simp [Nat.shiftLeft_eq, Nat.mul_comm, Nat.add_comm, Nat.add_assoc, Nat.add_left_comm]

/-- **The id of a stage vector** is its value in base two, as long as that is an `int`. -/
theorem bitmaskTopoId_eq {stages : List ℕ} (hb : ∀ c ∈ stages, c < 2) (hl : stages.length ≤ 31) :
    bitmaskTopoId stages.length stages = topoIdFromStageState 2 stages := by
  have hlt : topoIdFromStageState 2 stages < 2147483648 :=
    (topoId_two_lt hb).trans_le ((Nat.pow_le_pow_right two_pos hl).trans (by norm_num))
  rw [bitmaskTopoId, foldl_zipIdx_shiftLeft stages 0 _ (Nat.zero_add _)]
  show (0#32 + BitVec.ofNat 32 (topoIdFromStageState 2 stages)).toInt = _
  have hnat : (BitVec.ofNat 32 (topoIdFromStageState 2 stages)).toNat =
      topoIdFromStageState 2 stages := by
    rw [BitVec.toNat_ofNat]
    exact Nat.mod_eq_of_lt (by omega)
  rw [BitVec.zero_add, BitVec.toInt_eq_toNat_of_lt (by omega), hnat]

theorem length_product (n : ℕ) : (product n).length = 2 ^ n := by
  induction n with
  | zero => rfl
  | succ n ih =>
    rw [product, List.length_append, List.length_map, List.length_map, ih, Nat.pow_succ]
    omega

/-- **The generator numbers the choices by their bits.** -/
theorem product_topoId {stages : List ℕ} (hb : ∀ c ∈ stages, c < 2) :
    (product stages.length)[topoIdFromStageState 2 stages]? = some (stages.map fun c => decide (c = 1)) := by
  induction stages with
  | nil => rfl
  | cons c stages ih =>
    have ih := ih fun d hd => hb d (List.mem_cons_of_mem c hd)
    have hlt := topoId_two_lt fun d hd => hb d (List.mem_cons_of_mem c hd)
    rw [List.length_cons, product, topoId_cons]
    obtain rfl | rfl : c = 0 ∨ c = 1 := by
      have := hb c List.mem_cons_self
      omega
    · rw [Nat.mul_zero, Nat.add_zero, List.getElem?_append_left (by simpa [length_product] using hlt),
        List.getElem?_map, ih]
      simp
    · rw [Nat.mul_one, List.getElem?_append_right (by simp [length_product]), List.length_map,
        length_product, Nat.add_sub_cancel, List.getElem?_map, ih]
      simp

theorem find?_mapIdx {α β : Type*} (f : α → β) (l : List α) (k o : ℕ) :
    (l.mapIdx fun i a => (i + o, f a)).find? (fun p => p.1 = k + o) =
      l[k]?.map fun a => (k + o, f a) := by
  induction l generalizing k o with
  | nil => rfl
  | cons a l ih =>
    rw [List.mapIdx_cons]
    cases k with
    | zero => simp
    | succ k =>
      have hshift : ∀ i, i + 1 + o = i + (o + 1) := fun i => by omega
      rw [List.find?_cons_of_neg (by simp)]
      simpa only [hshift, List.getElem?_cons_succ] using ih k (o + 1)

/-! ## The matrix of a stage vector -/

section

variable {dp tp pp : ℕ} {dpBw tpBw ppBw : Bandwidth} {swapDpTp : Bool} {stages : List ℕ}

theorem bitmaskStages_fgPp : bitmaskStages (fgPp dp tp pp dpBw tpBw ppBw swapDpTp) = pp := by
  rw [bitmaskStages, fgPp, List.length_mapIdx, length_product, Nat.log_pow Nat.one_lt_two]

/-- **The matrix under the id of a stage vector** is the one for that vector, as the file has it. -/
theorem circuitSchedules_fgPp (hl : stages.length = pp) (hpp : pp ≤ 31) (hb : ∀ c ∈ stages, c < 2) :
    circuitSchedules (fgPp dp tp pp dpBw tpBw ppBw swapDpTp) (bitmaskTopoId pp stages) =
      some fun i j => sixDecimals (genTopo dp tp pp dpBw tpBw ppBw
        (stages.map fun c => decide (c = 1)) swapDpTp i j) := by
  subst hl
  have hfind := find?_mapIdx (fun sel i j =>
    sixDecimals (genTopo dp tp stages.length dpBw tpBw ppBw sel swapDpTp i j))
    (product stages.length) (topoIdFromStageState 2 stages) 0
  rw [product_topoId hb] at hfind
  simp only [circuitSchedules, bitmaskTopoId_eq hb hpp, Nat.cast_inj]
  exact congrArg (Option.map Prod.snd) hfind

theorem roundHalfEven_natCast (k : ℕ) : roundHalfEven k = k := by
  have hf : ⌊(k : ℚ≥0)⌋₊ = k := Nat.floor_natCast k
  rw [roundHalfEven, hf, if_pos (.inl (lt_add_one _))]

theorem sixDecimals_zero : sixDecimals 0 = 0 := by
  rw [sixDecimals, zero_mul, ← Nat.cast_zero, roundHalfEven_natCast, Nat.cast_zero, zero_div]

/-- Six decimals are written as they are. -/
theorem sixDecimals_micro (k : ℕ) : sixDecimals (k / 1000000) = k / 1000000 := by
  rw [sixDecimals, div_mul_cancel₀ _ (by norm_num), roundHalfEven_natCast]

/-- The rules commute with the format of the file. -/
theorem sixDecimals_linkRule (g : List Bool) (p d t p' d' t' : ℕ) :
    sixDecimals (linkRule dp pp dpBw tpBw ppBw g p d t p' d' t') =
      linkRule dp pp (sixDecimals dpBw) (sixDecimals tpBw) (sixDecimals ppBw) g p d t p' d' t' := by
  simp only [linkRule, apply_ite sixDecimals, sixDecimals_zero]

theorem getD_stages (stages : List ℕ) (p : ℕ) :
    (stages.map fun c => decide (c = 1)).getD p false = true ↔ stages[p]? = some 1 := by
  rw [List.getD_eq_getElem?_getD, List.getElem?_map]
  cases stages[p]? with
  | none => simp
  | some c => simp

/-- **A matrix of the rules serves the stages**: the choice of a stage and its neighbours decides
between the rings and the links to the neighbours, and no rank needs more than two of them. -/
theorem servesStages_of_linkRule {m : BwMatrix} (hpp : 2 ≤ pp) (hdpBw : 0 < dpBw)
    (htpBw : 0 < tpBw) (hppBw : 0 < ppBw)
    (hm : ∀ p < pp, ∀ d < dp, ∀ t < tp, ∀ p' < pp, ∀ d' < dp, ∀ t' < tp,
      m (npu dp tp swapDpTp p d t) (npu dp tp swapDpTp p' d' t') =
        linkRule dp pp dpBw tpBw ppBw (stages.map fun c => decide (c = 1)) p d t p' d' t') :
    ServesStages dp tp pp swapDpTp stages m where
  tp_pos p hp d hd t ht t' ht' hne := by
    rw [hm p hp d hd t ht p hp d hd t' ht', linkRule_tp hpp hne]
    exact htpBw
  dp_pos p hp h0 d hd t ht := by
    have hnext : (d + 1) % dp < dp := Nat.mod_lt _ (by omega)
    have hadj : Adjacent dp d ((d + 1) % dp) := (adjacent_iff hd hnext).mpr (.inl rfl)
    have hmode : ppMode pp (stages.map fun c => decide (c = 1)) p = false := by
      have hg : (stages.map fun c => decide (c = 1)).getD p false = false := by
        rw [← Bool.not_eq_true, getD_stages stages, h0]
        simp
      simp only [ppMode, hg, Bool.and_false, Bool.or_self]
    rw [hm p hp d hd t ht p hp _ hnext t ht, hm p hp _ hnext t ht p hp d hd t ht,
      linkRule_dp hmode hadj, linkRule_dp hmode hadj.symm]
    exact ⟨hdpBw, hdpBw⟩
  pp_pos p hp h1 h1' d hd t ht := by
    have hnext : (p + 1) % pp < pp := Nat.mod_lt _ (by omega)
    have hadj : Adjacent pp p ((p + 1) % pp) := (adjacent_iff hp hnext).mpr (.inl rfl)
    have hne : p ≠ (p + 1) % pp := by
      rw [succ_mod hp]
      split <;> omega
    have hg := (getD_stages stages p).mpr h1
    have hg' := (getD_stages stages ((p + 1) % pp)).mpr h1'
    rw [hm p hp d hd t ht _ hnext d hd t ht, hm _ hnext d hd t ht p hp d hd t ht,
      linkRule_pp hadj hne hg hg', linkRule_pp hadj.symm hne.symm hg' hg]
    exact ⟨hppBw, hppBw⟩
  degree_le i hi := by
    obtain ⟨p, hp, d, hd, t, ht, rfl⟩ := exists_npu swapDpTp hi
    -- the two ranks that can be reached
    obtain ⟨a, b, hab⟩ : ∃ a b, ∀ p' < pp, ∀ d' < dp, ∀ t' < tp,
        0 < m (npu dp tp swapDpTp p d t) (npu dp tp swapDpTp p' d' t') → (p', d') ≠ (p, d) →
          npu dp tp swapDpTp p' d' t' = a ∨ npu dp tp swapDpTp p' d' t' = b := by
      cases hmode : ppMode pp (stages.map fun c => decide (c = 1)) p with
      | true =>
        refine ⟨npu dp tp swapDpTp ((p + 1) % pp) d t, npu dp tp swapDpTp ((p + pp - 1) % pp) d t,
          fun p' hp' d' hd' t' ht' hpos hne => ?_⟩
        rw [hm p hp d hd t ht p' hp' d' hd' t' ht'] at hpos
        obtain ⟨rfl, h⟩ := linkRule_outside hp hp' hd hd' hpos hne
        rw [hmode, if_pos rfl] at h
        obtain ⟨rfl, rfl | rfl⟩ := h
        · exact .inl rfl
        · exact .inr rfl
      | false =>
        refine ⟨npu dp tp swapDpTp p ((d + 1) % dp) t, npu dp tp swapDpTp p ((d + dp - 1) % dp) t,
          fun p' hp' d' hd' t' ht' hpos hne => ?_⟩
        rw [hm p hp d hd t ht p' hp' d' hd' t' ht'] at hpos
        obtain ⟨rfl, h⟩ := linkRule_outside hp hp' hd hd' hpos hne
        rw [hmode, if_neg Bool.false_ne_true] at h
        obtain ⟨rfl, rfl | rfl⟩ := h
        · exact .inl rfl
        · exact .inr rfl
    refine (Finset.card_le_card fun j hj => ?_).trans (Finset.card_le_two (a := a) (b := b))
    obtain ⟨hj, hpos, hgroup⟩ := Finset.mem_filter.mp hj
    obtain ⟨p', hp', d', hd', t', ht', rfl⟩ := exists_npu swapDpTp (Finset.mem_range.mp hj)
    rw [tpGroup_npu hd ht, tpGroup_npu hd' ht'] at hgroup
    simpa using hab p' hp' d' hd' t' ht' hpos hgroup

/-- **Bitmask topologies serve the traffic the scheduler selects them for**: for all degrees with at
most 31 stages, both layouts and every stage vector, the file has under the id of the vector the
matrix for exactly that vector, with the bandwidths rounded to six decimals; and when these are
positive, the matrix serves the stages. -/
theorem servesStages_fgPp (hpp : 2 ≤ pp) (hpp' : pp ≤ 31) (hdpBw : 0 < sixDecimals dpBw)
    (htpBw : 0 < sixDecimals tpBw) (hppBw : 0 < sixDecimals ppBw) (swapDpTp : Bool)
    (hl : stages.length = bitmaskStages (fgPp dp tp pp dpBw tpBw ppBw swapDpTp))
    (hb : ∀ c ∈ stages, c < 2) :
    ∃ m, circuitSchedules (fgPp dp tp pp dpBw tpBw ppBw swapDpTp)
        (bitmaskTopoId (bitmaskStages (fgPp dp tp pp dpBw tpBw ppBw swapDpTp)) stages) = some m ∧
      (∀ i j, m i j = sixDecimals (genTopo dp tp pp dpBw tpBw ppBw
        (stages.map fun c => decide (c = 1)) swapDpTp i j)) ∧
      ServesStages dp tp pp swapDpTp stages m := by
  rw [bitmaskStages_fgPp] at hl ⊢
  refine ⟨_, circuitSchedules_fgPp hl hpp' hb, fun _ _ => rfl, ?_⟩
  refine servesStages_of_linkRule hpp hdpBw htpBw hppBw
    fun p hp d hd t ht p' hp' d' hd' t' ht' => ?_
  rw [genTopo_npu hp hd ht hp' hd' ht', sixDecimals_linkRule]

end

theorem servesStages_twoStages :
    ∃ m, circuitSchedules (fgPp 2 2 2 5 10 5 true)
        (bitmaskTopoId (bitmaskStages (fgPp 2 2 2 5 10 5 true)) [1, 0]) = some m ∧
      (∀ i j, m i j = sixDecimals (genTopo 2 2 2 5 10 5 [true, false] true i j)) ∧
      ServesStages 2 2 2 true [1, 0] m :=
  servesStages_fgPp (by decide) (by decide) (by decide +kernel) (by decide +kernel)
    (by decide +kernel) true (by rw [bitmaskStages_fgPp]; rfl) (by decide)

/-- No matrix is written under a negative id. -/
theorem circuitSchedules_of_neg (file : List (ℕ × BwMatrix)) {topoId : ℤ} (h : topoId < 0) :
    circuitSchedules file topoId = none := by
  rw [circuitSchedules, Option.map_eq_none_iff, List.find?_eq_none]
  intro p _ hp
  have := of_decide_eq_true hp
  omega

/-- A bandwidth of a ten-millionth is written as zero, so that the ring of the first stage is not
connected; and with 32 stages the id of a vector with the first bit set is negative. -/
theorem not_servesStages_tinyBandwidth :
    (∃ m, circuitSchedules (fgPp 2 1 2 (1 / 10000000) 1 1 false) (bitmaskTopoId 2 [0, 0]) = some m ∧
      ¬ ServesStages 2 1 2 false [0, 0] m) ∧
    circuitSchedules (fgPp 1 1 32 1 1 1 false) (bitmaskTopoId 32 (1 :: List.replicate 31 0)) =
      none := by
  constructor
  · refine ⟨_, circuitSchedules_fgPp rfl (by decide) (by decide), fun h => ?_⟩
    have hpos := (h.dp_pos 0 (by decide) rfl 0 (by decide) 0 (by decide)).1
    exact absurd hpos (by decide +kernel)
  · have hid : bitmaskTopoId 32 (1 :: List.replicate 31 0) = -2147483648 := by decide +kernel
    rw [hid]
    exact circuitSchedules_of_neg _ (by decide)

end Opus.Simulation
