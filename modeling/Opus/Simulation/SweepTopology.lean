import Mathlib.Data.Finset.Sort
import Mathlib.Data.List.Permutation
import Mathlib.Data.Nat.Digits.Lemmas
import Opus.Library.Cycle
import Opus.Library.RowMajor
import Opus.Simulation.StageState
import Opus.Simulation.SweepConfig

/-!
# The topologies of the expert-parallel sweep

Each stage of a topology is set to one of three modes by a decimal digit: `0` for links to the other
stages, `1` for rings over the nodes of the stage, and `3` for the links of the expert-parallel
groups, which are the rings again or, in the diverged variant, a cycle over the nodes of the group
that is chosen for each rail. Within a node all ranks are connected.

## Main definitions

* `divergedCyclesForGroup`: the cycles, chosen one after the other
* `topologyMatrix`, `writeSchedules`: the matrix of a digit vector, and the file with all of them
* `ReachIn`: reachability over positive links
* `ServesDigits`: what a matrix should provide for the requests that its digits satisfy

## Main results

* `mem_divergedCycles`: every cycle visits all nodes of the group
* `mem_writeSchedules`: every digit vector has its matrix in the file
* `ppStages_writeSchedules`: the number of stages that `main` recovers
* `reachIn_of_cycles`: ranks reach each other over one rail and the links of a node
* `servesDigits_writeSchedules`: the file serves all satisfied requests
-/

namespace Opus.Simulation

open VertexCycle

/-! ## Rings and cycles -/

def ringEdges (count : ℕ) : List (Sym2 ℕ) :=
  (List.range count).map fun i => s(i, (i + 1) % count)

/-- Tuples are compared component by component. -/
def tupleLt : List ℤ → List ℤ → Bool
  | _, [] => false
  | [], _ :: _ => true
  | a :: as, b :: bs => a < b || a = b && tupleLt as bs

/-- `max` with a key: the first of the greatest. -/
def maxBy {α : Type*} (key : α → List ℤ) : List α → Option α
  | [] => none
  | a :: as => some (as.foldl (fun best b => if tupleLt (key best) (key b) then b else best) a)

/-- The `score` of a cycle, from the uses of each edge so far. -/
def cycleScore (used : List (Sym2 ℕ)) (cycle : List ℕ) : List ℤ :=
  let after := (cycleEdges cycle).map fun edge => used.count edge + 1
  let newEdges := (cycleEdges cycle).countP fun edge => used.count edge = 0
  [(newEdges : ℤ), -(after.foldr max 0 : ℕ), -(after.sum : ℕ)] ++ cycle.map fun node => -(node : ℤ)

/-- The cycles to choose from. -/
def cycleCandidates (nodes : List ℕ) : List (List ℕ) :=
  if nodes.length ≤ 8 then
    match nodes with
    | [] => []
    | first :: rest => rest.permutations.map (first :: ·)
  else
    ((List.range nodes.length).filter fun step => 1 ≤ step ∧ step.gcd nodes.length = 1).map fun step =>
      (List.range nodes.length).map fun i => nodes.getD (i * step % nodes.length) 0

/-- The loop over the rails: the edges used so far, with repetitions, and the chosen cycles. -/
def chooseCycles (candidates : List (List ℕ)) : ℕ → List (Sym2 ℕ) × List (List ℕ)
  | 0 => ([], [])
  | rail + 1 =>
    let (used, cycles) := chooseCycles candidates rail
    let cycle := (maxBy (cycleScore used) candidates).getD []
    (used ++ cycleEdges cycle, cycles ++ [cycle])

def divergedCyclesForGroup (nodes : List ℕ) (rails : ℕ) : List (List ℕ) :=
  if nodes.length ≤ 2 then List.replicate rails nodes
  else (chooseCycles (cycleCandidates nodes) rails).2

section

variable (cfg : SweepConfig) (epSize : ℕ)

/-- The nodes of a group, counted within the stage. -/
def groupNodes (groupIdx : ℕ) : List ℕ :=
  List.range' (groupIdx * (epSize / cfg.gpusPerNode)) (epSize / cfg.gpusPerNode)

/-- `diverged_edge_sets`: the edges of a rail. -/
def divergedEdges (rail : ℕ) : List (Sym2 ℕ) :=
  (List.range (cfg.nodesPerStage / (epSize / cfg.gpusPerNode))).flatMap fun groupIdx =>
    cycleEdges
      ((divergedCyclesForGroup (groupNodes cfg epSize groupIdx) cfg.gpusPerNode).getD rail [])

/-! ## Matrices -/

/-- The bandwidths between ranks. -/
def topologyMatrix (digits : List ℕ) (diverged : Bool) (src dst : ℕ) : ℚ :=
  let srcStage := src / cfg.ranksPerStage
  let dstStage := dst / cfg.ranksPerStage
  let edge := s(src % cfg.ranksPerStage / cfg.gpusPerNode, dst % cfg.ranksPerStage / cfg.gpusPerNode)
  let digit := digits.getD srcStage 0
  if src = dst then 0
  else if src / cfg.gpusPerNode = dst / cfg.gpusPerNode then cfg.scaleUpGBps
  else if (srcStage = dstStage ∧ src % cfg.gpusPerNode = dst % cfg.gpusPerNode) ∧
      (digit = 1 ∧ edge ∈ ringEdges cfg.nodesPerStage ∨
        digit = 3 ∧
          (diverged = true ∧ edge ∈ divergedEdges cfg epSize (src % cfg.gpusPerNode) ∨
            diverged = false ∧ edge ∈ ringEdges cfg.nodesPerStage)) then
    cfg.scaleOutGBps
  else if srcStage ≠ dstStage ∧ src % cfg.ranksPerStage = dst % cfg.ranksPerStage ∧
      (digit = 0 ∨ digits.getD dstStage 0 = 0) then
    cfg.scaleOutGBps
  else 0

/-- `itertools.product(choices, repeat=n)`. -/
def digitVectors (choices : List ℕ) : ℕ → List (List ℕ)
  | 0 => [[]]
  | n + 1 => choices.flatMap fun d => (digitVectors choices n).map (d :: ·)

/-- `topo_id`: digits are written one after the other. -/
def topoId (digits : List ℕ) : ℕ := digits.foldl (fun id d => 10 * id + d) 0

/-- `digits_for_topo`: the decimal digits, filled up with zeros on the left. -/
def digitsForTopo (value pp : ℕ) : List ℕ :=
  let digits := if value = 0 then [0] else (Nat.digits 10 value).reverse
  List.replicate (pp - digits.length) 0 ++ digits

def digitChoices : List ℕ := if cfg.epTopoEnabled epSize then [0, 1, 3] else [0, 1]

/-- The file of `write_schedules`: an id and a matrix for each digit vector. -/
def writeSchedules (variant : Variant) : List (ℕ × (ℕ → ℕ → ℚ)) :=
  let diverged := variant = .opusDiverge ∧ cfg.epTopoEnabled epSize
  (((digitVectors (digitChoices cfg epSize) cfg.pp).map topoId).toFinset.sort).map fun tid =>
    (tid, topologyMatrix cfg epSize (digitsForTopo tid cfg.pp) diverged)

/-! ## What a matrix provides -/

/-- The rank at a node and a rail of a stage. -/
def rankOf (stage node rail : ℕ) : ℕ := stage * cfg.ranksPerStage + node * cfg.gpusPerNode + rail

/-- The second rank is reached from the first one over positive links that stay in the set. -/
def ReachIn (m : ℕ → ℕ → ℚ) (S : ℕ → Prop) : ℕ → ℕ → Prop :=
  Relation.ReflTransGen fun a b => S b ∧ 0 < m a b

/-- What a matrix provides for the requests that its digits satisfy. -/
structure ServesDigits (variant : Variant) (digits : List ℕ) (m : ℕ → ℕ → ℚ) : Prop where
  pipeline : ∀ r, requestSatisfied r digits → r.stage < cfg.pp → r.dim = 0 →
    ∀ d, r.dst? cfg.pp = some d → d ≠ r.stage → ∀ k < cfg.ranksPerStage,
      0 < m (r.stage * cfg.ranksPerStage + k) (d * cfg.ranksPerStage + k) ∧
        0 < m (d * cfg.ranksPerStage + k) (r.stage * cfg.ranksPerStage + k)
  dataParallel : ∀ r, requestSatisfied r digits → r.stage < cfg.pp → r.dim = 1 →
    ∀ rail < cfg.gpusPerNode, ∀ i ∈ dpMembers cfg r.stage rail, ∀ j ∈ dpMembers cfg r.stage rail,
      ReachIn m (· < cfg.totalGpus) i j
  expertParallel : ∀ r, requestSatisfied r digits → r.stage < cfg.pp → r.dim = 3 →
    ∀ g < epGroupsPerStage cfg epSize, ∀ i ∈ epMembers cfg epSize r.stage g,
      ∀ j ∈ epMembers cfg epSize r.stage g,
        ReachIn m (if variant = .opusDiverge then (· ∈ epMembers cfg epSize r.stage g)
          else (· < cfg.totalGpus)) i j
  oneCycle : variant = .opusDiverge → ∀ r, requestSatisfied r digits → r.stage < cfg.pp →
    r.dim = 3 → ∀ g < epGroupsPerStage cfg epSize, ∀ rail < cfg.gpusPerNode,
      ∃ cycle : List ℕ, cycle.Perm (groupNodes cfg epSize g) ∧
        ∀ a ∈ groupNodes cfg epSize g, ∀ b ∈ groupNodes cfg epSize g, a ≠ b →
          (0 < m (rankOf cfg r.stage a rail) (rankOf cfg r.stage b rail) ↔
            s(a, b) ∈ cycleEdges cycle)

end

/-! ## The chosen cycles -/

/-- A step that is coprime to the length visits every position. -/
theorem perm_map_mul_mod {n step : ℕ} (hn : 0 < n) (h : step.gcd n = 1) :
    ((List.range n).map fun i => i * step % n).Perm (List.range n) := by
  have hnodup : ((List.range n).map fun i => i * step % n).Nodup := by
    refine List.Nodup.map_on (fun i hi j hj hij => ?_) List.nodup_range
    have hmod : i * step ≡ j * step [MOD n] := hij
    have := Nat.ModEq.cancel_right_of_coprime (Nat.gcd_comm step n ▸ h) hmod
    rwa [Nat.ModEq, Nat.mod_eq_of_lt (List.mem_range.mp hi),
      Nat.mod_eq_of_lt (List.mem_range.mp hj)] at this
  have hsub : ((List.range n).map fun i => i * step % n) ⊆ List.range n := by
    intro x hx
    obtain ⟨i, -, rfl⟩ := List.mem_map.mp hx
    exact List.mem_range.mpr (Nat.mod_lt _ hn)
  exact (List.subperm_of_subset hnodup hsub).perm_of_length_le (by simp)

theorem map_getD_range (nodes : List ℕ) :
    (List.range nodes.length).map (fun i => nodes.getD i 0) = nodes := by
  apply List.ext_getElem (by simp)
  intro i h1 h2
  simp [List.getElem?_eq_getElem h2]

theorem perm_of_mem_cycleCandidates {nodes cycle : List ℕ} (h : cycle ∈ cycleCandidates nodes) :
    cycle.Perm nodes := by
  unfold cycleCandidates at h
  split at h
  · cases nodes with
    | nil => exact absurd h List.not_mem_nil
    | cons first rest =>
      obtain ⟨l, hl, rfl⟩ := List.mem_map.mp h
      exact (List.mem_permutations.mp hl).cons first
  · next hlen =>
    obtain ⟨step, hstep, rfl⟩ := List.mem_map.mp h
    obtain ⟨-, hgcd⟩ := List.mem_filter.mp hstep
    have hp := (perm_map_mul_mod (by omega) (of_decide_eq_true hgcd).2).map fun i => nodes.getD i 0
    rwa [map_getD_range, List.map_map] at hp

theorem cycleCandidates_ne_nil {nodes : List ℕ} (h : 2 < nodes.length) :
    cycleCandidates nodes ≠ [] := by
  unfold cycleCandidates
  split
  · cases nodes with
    | nil => simp at h
    | cons first rest =>
      rw [Ne, List.map_eq_nil_iff]
      exact List.ne_nil_of_mem (List.mem_permutations.mpr (List.Perm.refl rest))
  · rw [Ne, List.map_eq_nil_iff]
    refine List.ne_nil_of_mem (List.mem_filter.mpr ⟨List.mem_range.mpr (show 1 < nodes.length by omega), ?_⟩)
    simp

theorem maxBy_spec {α : Type*} (key : α → List ℤ) {l : List α} (h : l ≠ []) :
    ∃ a, maxBy key l = some a ∧ a ∈ l := by
  obtain ⟨a, as, rfl⟩ := List.exists_cons_of_ne_nil h
  refine ⟨_, rfl, ?_⟩
  -- the best so far is always one of the elements
  have hfold : ∀ (l : List α) (best : α),
      l.foldl (fun best b => if tupleLt (key best) (key b) then b else best) best ∈ best :: l := by
    intro l
    induction l with
    | nil => exact fun best => List.mem_cons_self
    | cons b l ih =>
      intro best
      rw [List.foldl_cons]
      split
      · exact List.mem_cons_of_mem best (ih b)
      · rcases List.mem_cons.mp (ih best) with he | hl
        · rw [he]
          exact List.mem_cons_self
        · exact List.mem_cons_of_mem best (List.mem_cons_of_mem b hl)
  exact hfold as a

/-- The loop chooses one candidate for each rail. -/
theorem chooseCycles_spec {candidates : List (List ℕ)} (h : candidates ≠ []) (rails : ℕ) :
    (chooseCycles candidates rails).2.length = rails ∧
      ∀ cycle ∈ (chooseCycles candidates rails).2, cycle ∈ candidates := by
  induction rails with
  | zero => exact ⟨rfl, fun _ h => absurd h List.not_mem_nil⟩
  | succ rails ih =>
    obtain ⟨hlen, hmem⟩ := ih
    obtain ⟨best, hbest, hbestMem⟩ :=
      maxBy_spec (cycleScore (chooseCycles candidates rails).1) h
    simp only [chooseCycles, hbest, Option.getD_some]
    refine ⟨by rw [List.length_append, hlen, List.length_singleton], fun cycle hc => ?_⟩
    rcases List.mem_append.mp hc with hc | hc
    · exact hmem cycle hc
    · rw [List.mem_singleton.mp hc]
      exact hbestMem

/-- **Every rail has a cycle through all nodes of the group.** -/
theorem mem_divergedCycles (nodes : List ℕ) {rails rail : ℕ} (h : rail < rails) :
    ((divergedCyclesForGroup nodes rails).getD rail []).Perm nodes := by
  unfold divergedCyclesForGroup
  split
  · rw [List.getD_eq_getElem?_getD, List.getElem?_replicate, if_pos h]
    rfl
  · next hlen =>
    obtain ⟨hl, hmem⟩ := chooseCycles_spec (cycleCandidates_ne_nil (Nat.lt_of_not_le hlen)) rails
    have hget : (chooseCycles (cycleCandidates nodes) rails).2.getD rail [] ∈
        (chooseCycles (cycleCandidates nodes) rails).2 := by
      rw [List.getD_eq_getElem?_getD, List.getElem?_eq_getElem (by rw [hl]; exact h),
        Option.getD_some]
      exact List.getElem_mem _
    exact perm_of_mem_cycleCandidates (hmem _ hget)

/-! ## Ids -/

theorem topoId_eq (digits : List ℕ) : topoId digits = topoIdFromStageState 10 digits := by
  induction digits using List.reverseRecOn with
  | nil => rfl
  | append_singleton digits d ih =>
    rw [topoId, List.foldl_append, ← topoId, ih, topoIdFromStageState, topoIdFromStageState,
      List.reverse_append, List.reverse_singleton, List.singleton_append, Nat.ofDigits_cons]
    exact Nat.add_comm _ _

theorem topoId_lt {digits : List ℕ} (h : ∀ d ∈ digits, d < 10) :
    topoId digits < 10 ^ digits.length := by
  rw [topoId_eq, topoIdFromStageState, ← List.length_reverse]
  exact Nat.ofDigits_lt_base_pow_length (by norm_num) fun d hd => h d (List.mem_reverse.mp hd)

/-- **The digits of an id are those it was written with.** -/
theorem digitsForTopo_topoId {digits : List ℕ} (hne : digits ≠ []) (h : ∀ d ∈ digits, d < 10) :
    digitsForTopo (topoId digits) digits.length = digits := by
  obtain ⟨w, hw⟩ : ∃ w, w = if topoId digits = 0 then [0]
      else (Nat.digits 10 (topoId digits)).reverse := ⟨_, rfl⟩
  have hwlen : w.length ≤ digits.length := by
    rw [hw]
    split
    · exact List.length_pos_of_ne_nil hne
    · rw [List.length_reverse, Nat.digits_length_le_iff (by norm_num)]
      exact topoId_lt h
  have hwlt : ∀ d ∈ w, d < 10 := by
    rw [hw]
    split
    · simp
    · exact fun d hd => Nat.digits_lt_base (by norm_num) (List.mem_reverse.mp hd)
  have hwval : Nat.ofDigits 10 w.reverse = topoId digits := by
    rw [hw]
    split
    · next h0 => simp [h0]
    · rw [List.reverse_reverse, Nat.ofDigits_digits]
  have hform : digitsForTopo (topoId digits) digits.length =
      List.replicate (digits.length - w.length) 0 ++ w := by
    rw [digitsForTopo, ← hw]
  rw [hform]
  -- both lists have the same length and the same value
  apply List.reverse_injective
  refine Nat.ofDigits_inj_of_len_eq (by norm_num : 1 < 10) ?_ ?_ ?_ ?_
  · simp only [List.length_reverse, List.length_append, List.length_replicate]
    omega
  · intro d hd
    rcases List.mem_append.mp (List.mem_reverse.mp hd) with hd | hd
    · rw [List.eq_of_mem_replicate hd]
      norm_num
    · exact hwlt d hd
  · exact fun d hd => h d (List.mem_reverse.mp hd)
  · rw [List.reverse_append, Nat.ofDigits_append, List.reverse_replicate, Nat.ofDigits_replicate_zero,
      Nat.mul_zero, Nat.add_zero, hwval, topoId_eq, topoIdFromStageState]

theorem mem_digitVectors {choices digits : List ℕ} {n : ℕ} :
    digits ∈ digitVectors choices n ↔ digits.length = n ∧ ∀ d ∈ digits, d ∈ choices := by
  induction n generalizing digits with
  | zero =>
    rw [digitVectors, List.mem_singleton, List.length_eq_zero_iff]
    constructor
    · rintro rfl
      exact ⟨rfl, fun _ h => absurd h List.not_mem_nil⟩
    · exact fun h => h.1
  | succ n ih =>
    simp only [digitVectors, List.mem_flatMap, List.mem_map]
    constructor
    · rintro ⟨d, hd, l, hl, rfl⟩
      obtain ⟨hlen, hmem⟩ := ih.mp hl
      exact ⟨by rw [List.length_cons, hlen], List.forall_mem_cons.mpr ⟨hd, hmem⟩⟩
    · rintro ⟨hlen, hmem⟩
      cases digits with
      | nil => simp at hlen
      | cons d l =>
        obtain ⟨hd, hl⟩ := List.forall_mem_cons.mp hmem
        exact ⟨d, hd, l, ih.mpr ⟨by simpa using hlen, hl⟩, rfl⟩

section

variable {cfg : SweepConfig} {epSize : ℕ} {variant : Variant} {digits : List ℕ}

theorem lt_of_mem_digitChoices {d : ℕ} (h : d ∈ digitChoices cfg epSize) : d < 10 := by
  unfold digitChoices at h
  split at h <;> simp at h <;> omega

/-- The ids in the file are those of the digit vectors. -/
theorem mem_map_fst_writeSchedules {tid : ℕ} :
    tid ∈ (writeSchedules cfg epSize variant).map Prod.fst ↔
      ∃ digits, digits.length = cfg.pp ∧ (∀ d ∈ digits, d ∈ digitChoices cfg epSize) ∧
        topoId digits = tid := by
  have hid : (writeSchedules cfg epSize variant).map Prod.fst =
      ((digitVectors (digitChoices cfg epSize) cfg.pp).map topoId).toFinset.sort := by
    rw [writeSchedules, List.map_map]
    exact List.map_id _
  rw [hid, Finset.mem_sort, List.mem_toFinset, List.mem_map]
  simp only [mem_digitVectors, and_assoc]

/-- **Every digit vector has its matrix in the file**, under the id of the scheduler. -/
theorem lookup_writeSchedules (hpp : 0 < cfg.pp) (hlen : digits.length = cfg.pp)
    (hmem : ∀ d ∈ digits, d ∈ digitChoices cfg epSize) :
    (writeSchedules cfg epSize variant).lookup (topoIdFromStageState 10 digits) =
      some (topologyMatrix cfg epSize digits
        (decide (variant = .opusDiverge ∧ cfg.epTopoEnabled epSize))) := by
  have hid : topoId digits ∈
      ((digitVectors (digitChoices cfg epSize) cfg.pp).map topoId).toFinset.sort := by
    rw [Finset.mem_sort, List.mem_toFinset]
    exact List.mem_map_of_mem (mem_digitVectors.mpr ⟨hlen, hmem⟩)
  have hne : digits ≠ [] := List.ne_nil_of_length_pos (hlen ▸ hpp)
  have hdig : digitsForTopo (topoId digits) cfg.pp = digits :=
    hlen ▸ digitsForTopo_topoId hne fun d hd => lt_of_mem_digitChoices (hmem d hd)
  rw [← topoId_eq, writeSchedules, List.lookup_graph _ hid, hdig]

theorem topoId_lt_of_mem (hlen : digits.length = cfg.pp)
    (hmem : ∀ d ∈ digits, d ∈ digitChoices cfg epSize) : topoId digits < 10 ^ cfg.pp :=
  hlen ▸ topoId_lt fun d hd => lt_of_mem_digitChoices (hmem d hd)

/-- **`main` recovers the number of stages** from the largest id of the file. -/
theorem ppStages_writeSchedules (hpp : 0 < cfg.pp) {E : Stages} (hd : E.decimal = true)
    (hs : E.schedules = (writeSchedules cfg epSize variant).map Prod.fst) :
    E.ppStages = cfg.pp := by
  obtain ⟨k, hk⟩ := Nat.exists_eq_succ_of_ne_zero hpp.ne'
  -- the id of all ones has as many digits as there are stages
  have hones : topoId (List.replicate cfg.pp 1) ∈ E.schedules := by
    rw [hs, mem_map_fst_writeSchedules]
    refine ⟨_, List.length_replicate, fun d hd => ?_, rfl⟩
    rw [List.eq_of_mem_replicate hd, digitChoices]
    split <;> simp
  have hge : 10 ^ k ≤ topoId (List.replicate cfg.pp 1) := by
    rw [hk, topoId_eq, List.replicate_succ, topoIdFromStageState, List.reverse_cons,
      Nat.ofDigits_append, List.length_reverse, List.length_replicate, Nat.ofDigits_singleton,
      Nat.mul_one]
    exact Nat.le_add_left _ _
  have hlt : E.schedules.foldr max 0 < 10 ^ (k + 1) := by
    refine (List.max_le_of_forall_le E.schedules (10 ^ (k + 1) - 1) fun tid htid => ?_).trans_lt
      (Nat.sub_one_lt (Nat.pow_pos (by norm_num)).ne')
    rw [hs, mem_map_fst_writeSchedules] at htid
    obtain ⟨digits, hlen, hmem, rfl⟩ := htid
    have hlt := topoId_lt_of_mem hlen hmem
    rw [hk] at hlt
    exact Nat.le_sub_one_of_lt hlt
  have hle := E.lt_of_mem_schedules hd hones
  have hupper : E.ppStages ≤ k + 1 := by
    rw [Stages.ppStages, if_pos hd]
    exact Nat.succ_le_of_lt (Nat.log_lt_of_lt_pow' (Nat.succ_ne_zero k) hlt)
  have hlower : k < E.ppStages :=
    (Nat.pow_lt_pow_iff_right (by norm_num)).mp (hge.trans_lt hle)
  omega

/-! ## Links -/

variable {diverged : Bool} {stage stage' a b ρ ρ' : ℕ}

/-- The parts of a rank. -/
theorem rankOf_parts (stage : ℕ) (h : cfg.Valid) (ha : a < cfg.nodesPerStage) (hρ : ρ < cfg.gpusPerNode) :
    rankOf cfg stage a ρ / cfg.ranksPerStage = stage ∧
      rankOf cfg stage a ρ % cfg.ranksPerStage = a * cfg.gpusPerNode + ρ ∧
      rankOf cfg stage a ρ % cfg.ranksPerStage / cfg.gpusPerNode = a ∧
      rankOf cfg stage a ρ % cfg.gpusPerNode = ρ ∧
      rankOf cfg stage a ρ / cfg.gpusPerNode = stage * cfg.nodesPerStage + a := by
  have hrps : cfg.ranksPerStage = cfg.nodesPerStage * cfg.gpusPerNode :=
    h.ranks_eq.symm.trans (Nat.mul_comm _ _)
  obtain ⟨h1, h2, h3⟩ := RowMajor.parts (p := stage) ha hρ
  rw [rankOf, hrps]
  have hmod : (stage * (cfg.nodesPerStage * cfg.gpusPerNode) + a * cfg.gpusPerNode + ρ) %
      (cfg.nodesPerStage * cfg.gpusPerNode) = a * cfg.gpusPerNode + ρ := by
    have hd := Nat.div_add_mod
      (stage * (cfg.nodesPerStage * cfg.gpusPerNode) + a * cfg.gpusPerNode + ρ)
      (cfg.nodesPerStage * cfg.gpusPerNode)
    rw [h1, Nat.mul_comm _ stage] at hd
    omega
  refine ⟨h1, hmod, h2, h3, ?_⟩
  have he : stage * (cfg.nodesPerStage * cfg.gpusPerNode) + a * cfg.gpusPerNode + ρ =
      ρ + cfg.gpusPerNode * (stage * cfg.nodesPerStage + a) := by ring
  rw [he, Nat.add_mul_div_left _ _ h.gpusPerNode_pos, Nat.div_eq_of_lt hρ, Nat.zero_add]

/-- Ranks at different positions are different. -/
theorem rankOf_inj (h : cfg.Valid) (ha : a < cfg.nodesPerStage) (hρ : ρ < cfg.gpusPerNode)
    (hb : b < cfg.nodesPerStage) (hρ' : ρ' < cfg.gpusPerNode)
    (he : rankOf cfg stage a ρ = rankOf cfg stage' b ρ') : stage = stage' ∧ a = b ∧ ρ = ρ' := by
  obtain ⟨h1, -, h2, h3, -⟩ := rankOf_parts stage h ha hρ
  obtain ⟨h1', -, h2', h3', -⟩ := rankOf_parts stage' h hb hρ'
  rw [he] at h1 h2 h3
  exact ⟨h1.symm.trans h1', h2.symm.trans h2', h3.symm.trans h3'⟩

/-- Within a node. -/
theorem topologyMatrix_node (h : cfg.Valid) (ha : a < cfg.nodesPerStage)
    (hρ : ρ < cfg.gpusPerNode) (hρ' : ρ' < cfg.gpusPerNode) (hne : ρ ≠ ρ') :
    topologyMatrix cfg epSize digits diverged (rankOf cfg stage a ρ) (rankOf cfg stage a ρ') =
      cfg.scaleUpGBps := by
  have hrank : rankOf cfg stage a ρ ≠ rankOf cfg stage a ρ' :=
    fun he => hne (rankOf_inj h ha hρ ha hρ' he).2.2
  obtain ⟨-, -, -, -, h4⟩ := rankOf_parts stage h ha hρ
  obtain ⟨-, -, -, -, h4'⟩ := rankOf_parts stage h ha hρ'
  rw [topologyMatrix, if_neg hrank, if_pos (h4.trans h4'.symm)]

/-- Between two nodes of a stage, on one rail. -/
theorem topologyMatrix_rail (h : cfg.Valid) (ha : a < cfg.nodesPerStage)
    (hb : b < cfg.nodesPerStage) (hρ : ρ < cfg.gpusPerNode) (hne : a ≠ b) :
    topologyMatrix cfg epSize digits diverged (rankOf cfg stage a ρ) (rankOf cfg stage b ρ) =
      if digits.getD stage 0 = 1 ∧ s(a, b) ∈ ringEdges cfg.nodesPerStage ∨
        digits.getD stage 0 = 3 ∧
          (diverged = true ∧ s(a, b) ∈ divergedEdges cfg epSize ρ ∨
            diverged = false ∧ s(a, b) ∈ ringEdges cfg.nodesPerStage)
      then cfg.scaleOutGBps else 0 := by
  have hrank : rankOf cfg stage a ρ ≠ rankOf cfg stage b ρ :=
    fun he => hne (rankOf_inj h ha hρ hb hρ he).2.1
  obtain ⟨h1, -, h2, h3, h4⟩ := rankOf_parts stage h ha hρ
  obtain ⟨h1', -, h2', h3', h4'⟩ := rankOf_parts stage h hb hρ
  have hnode : stage * cfg.nodesPerStage + a ≠ stage * cfg.nodesPerStage + b := by omega
  simp only [topologyMatrix, hrank, h1, h1', h2, h2', h3, h3', h4, h4', hnode, if_false, and_self,
    true_and, ne_eq, not_true, false_and]

/-- Between two stages. -/
theorem topologyMatrix_stage (h : cfg.Valid) (ha : a < cfg.nodesPerStage)
    (hρ : ρ < cfg.gpusPerNode) (hne : stage ≠ stage')
    (hd : digits.getD stage 0 = 0 ∨ digits.getD stage' 0 = 0) :
    topologyMatrix cfg epSize digits diverged (rankOf cfg stage a ρ) (rankOf cfg stage' a ρ) =
      cfg.scaleOutGBps := by
  have hrank : rankOf cfg stage a ρ ≠ rankOf cfg stage' a ρ :=
    fun he => hne (rankOf_inj h ha hρ ha hρ he).1
  obtain ⟨h1, hm, h2, h3, h4⟩ := rankOf_parts stage h ha hρ
  obtain ⟨h1', hm', h2', h3', h4'⟩ := rankOf_parts stage' h ha hρ
  have hnode : stage * cfg.nodesPerStage + a ≠ stage' * cfg.nodesPerStage + a := by
    intro he
    exact hne (Nat.eq_of_mul_eq_mul_right (by omega) (Nat.add_right_cancel he))
  simp only [topologyMatrix, hrank, h1, h1', hm, hm', h4, h4', hnode, hne, if_false, false_and,
    ne_eq, not_false_iff, true_and, hd, if_true]

/-! ## Reachability -/

/-- **Ranks reach each other** over the cycle of one rail and the links of a node. -/
theorem reachIn_of_cycles (h : cfg.Valid) (hup : 0 < cfg.scaleUpGBps) {S : ℕ → Prop}
    {nodes : List ℕ} (hnodes : ∀ a ∈ nodes, a < cfg.nodesPerStage)
    (hS : ∀ a ∈ nodes, ∀ ρ < cfg.gpusPerNode, S (rankOf cfg stage a ρ)) {c : ℕ → List ℕ}
    (hperm : ∀ ρ < cfg.gpusPerNode, (c ρ).Perm nodes)
    (hlink : ∀ ρ < cfg.gpusPerNode, ∀ a b, s(a, b) ∈ cycleEdges (c ρ) → a ≠ b →
      0 < topologyMatrix cfg epSize digits diverged (rankOf cfg stage a ρ) (rankOf cfg stage b ρ))
    (ha : a ∈ nodes) (hb : b ∈ nodes) (hρ : ρ < cfg.gpusPerNode) (hρ' : ρ' < cfg.gpusPerNode) :
    ReachIn (topologyMatrix cfg epSize digits diverged) S (rankOf cfg stage a ρ)
      (rankOf cfg stage b ρ') := by
  have hrail : ReachIn (topologyMatrix cfg epSize digits diverged) S (rankOf cfg stage a ρ)
      (rankOf cfg stage b ρ) := by
    have hpath := reflTransGen_of_cycleEdges
      (r := fun a b => s(a, b) ∈ cycleEdges (c ρ) ∧ a ≠ b) (fun a b he hne => ⟨he, hne⟩)
      ((hperm ρ hρ).mem_iff.mpr ha) ((hperm ρ hρ).mem_iff.mpr hb)
    refine hpath.lift (fun node => rankOf cfg stage node ρ) fun x y hxy => ?_
    obtain ⟨he, hne⟩ := hxy
    have hy := (hperm ρ hρ).mem_iff.mp (mem_of_mem_cycleEdges he).2
    exact ⟨hS y hy ρ hρ, hlink ρ hρ x y he hne⟩
  by_cases heq : ρ = ρ'
  · exact heq ▸ hrail
  · refine hrail.tail ⟨hS b hb ρ' hρ', ?_⟩
    rw [topologyMatrix_node h (hnodes b hb) hρ hρ' heq]
    exact hup

theorem mem_cycleEdges_range {n : ℕ} {e : Sym2 ℕ} :
    e ∈ cycleEdges (List.range n) ↔ e ∈ ringEdges n := by
  rw [mem_cycleEdges, ringEdges, List.mem_map, List.length_range]
  constructor
  · rintro ⟨i, a, b, ha, hb, rfl⟩
    obtain ⟨hi, rfl⟩ := List.getElem?_eq_some_iff.mp ha
    obtain ⟨hj, rfl⟩ := List.getElem?_eq_some_iff.mp hb
    refine ⟨i, by simpa using hi, ?_⟩
    simp
  · rintro ⟨i, hi, rfl⟩
    have hlt := List.mem_range.mp hi
    exact ⟨i, i, (i + 1) % n, List.getElem?_range hlt,
      List.getElem?_range (Nat.mod_lt _ (Nat.zero_lt_of_lt hlt)), rfl⟩

/-! ## Groups -/

theorem mem_dpMembers {i : ℕ} :
    i ∈ dpMembers cfg stage ρ ↔ ∃ a < cfg.nodesPerStage, i = rankOf cfg stage a ρ := by
  simp only [dpMembers, List.mem_map, List.mem_range, rankOf, eq_comm]

theorem mem_groupNodes {g : ℕ} :
    a ∈ groupNodes cfg epSize g ↔ g * (epSize / cfg.gpusPerNode) ≤ a ∧
      a < g * (epSize / cfg.gpusPerNode) + epSize / cfg.gpusPerNode :=
  List.mem_range'_1

/-- A group that is made of whole nodes has all ranks of its nodes. -/
theorem mem_epMembers {i g : ℕ} (hgpn : 0 < cfg.gpusPerNode) (hdvd : cfg.gpusPerNode ∣ epSize) :
    i ∈ epMembers cfg epSize stage g ↔
      ∃ a ∈ groupNodes cfg epSize g, ∃ ρ < cfg.gpusPerNode, i = rankOf cfg stage a ρ := by
  obtain ⟨k, rfl⟩ := hdvd
  have hk : cfg.gpusPerNode * k / cfg.gpusPerNode = k := Nat.mul_div_cancel_left k hgpn
  rw [epMembers, List.mem_range'_1]
  simp only [mem_groupNodes, hk, rankOf]
  constructor
  · rintro ⟨hlo, hhi⟩
    obtain ⟨x, rfl⟩ := Nat.exists_eq_add_of_le hlo
    have hx : x < cfg.gpusPerNode * k := by omega
    have hdiv : x / cfg.gpusPerNode < k := Nat.div_lt_of_lt_mul hx
    refine ⟨g * k + x / cfg.gpusPerNode, ⟨Nat.le_add_right _ _, Nat.add_lt_add_left hdiv _⟩,
      x % cfg.gpusPerNode, Nat.mod_lt _ hgpn, ?_⟩
    have hmod := Nat.div_add_mod x cfg.gpusPerNode
    have hg : (g * k + x / cfg.gpusPerNode) * cfg.gpusPerNode =
        g * (cfg.gpusPerNode * k) + cfg.gpusPerNode * (x / cfg.gpusPerNode) := by ring
    omega
  · rintro ⟨a, ⟨hlo, hhi⟩, ρ, hρ, rfl⟩
    have h1 : g * (cfg.gpusPerNode * k) ≤ a * cfg.gpusPerNode := by
      calc g * (cfg.gpusPerNode * k) = g * k * cfg.gpusPerNode := by ring
        _ ≤ a * cfg.gpusPerNode := Nat.mul_le_mul_right _ hlo
    have h2 : (a + 1) * cfg.gpusPerNode ≤ g * (cfg.gpusPerNode * k) + cfg.gpusPerNode * k := by
      calc (a + 1) * cfg.gpusPerNode ≤ (g * k + k) * cfg.gpusPerNode := Nat.mul_le_mul_right _ hhi
        _ = g * (cfg.gpusPerNode * k) + cfg.gpusPerNode * k := by ring
    rw [Nat.succ_mul] at h2
    omega

/-- The nodes of a group lie in the stage. -/
theorem lt_of_mem_groupNodes {g : ℕ} (h : cfg.Valid) (hdvd : cfg.gpusPerNode ∣ epSize)
    (hep : 0 < epSize) (hg : g < epGroupsPerStage cfg epSize) (ha : a ∈ groupNodes cfg epSize g) :
    a < cfg.nodesPerStage ∧ g < cfg.nodesPerStage / (epSize / cfg.gpusPerNode) := by
  obtain ⟨k, rfl⟩ := hdvd
  have hk : cfg.gpusPerNode * k / cfg.gpusPerNode = k :=
    Nat.mul_div_cancel_left k h.gpusPerNode_pos
  have hk0 : 0 < k := Nat.pos_of_mul_pos_left hep
  rw [epGroupsPerStage, ← h.ranks_eq, Nat.mul_div_mul_left _ _ h.gpusPerNode_pos] at hg
  rw [mem_groupNodes, hk] at ha
  rw [hk]
  have hle : (g + 1) * k ≤ cfg.nodesPerStage := (Nat.le_div_iff_mul_le hk0).mp hg
  rw [Nat.succ_mul] at hle
  exact ⟨by omega, hg⟩

/-- **Inside a group, a rail has the edges of one cycle**: the cycles of other groups do not come
near. -/
theorem mem_divergedEdges_iff {g : ℕ} (hg : g < cfg.nodesPerStage / (epSize / cfg.gpusPerNode))
    (hρ : ρ < cfg.gpusPerNode) (ha : a ∈ groupNodes cfg epSize g) :
    s(a, b) ∈ divergedEdges cfg epSize ρ ↔
      s(a, b) ∈ cycleEdges
        ((divergedCyclesForGroup (groupNodes cfg epSize g) cfg.gpusPerNode).getD ρ []) := by
  rw [divergedEdges, List.mem_flatMap]
  refine ⟨?_, fun he => ⟨g, List.mem_range.mpr hg, he⟩⟩
  rintro ⟨g', -, he⟩
  have ha' := (mem_divergedCycles _ hρ).mem_iff.mp (mem_of_mem_cycleEdges he).1
  rw [mem_groupNodes] at ha ha'
  -- the blocks of two groups have no node in common
  have hgg : g = g' := by
    rcases Nat.lt_trichotomy g g' with hlt | heq | hlt
    · have := Nat.mul_le_mul_right (epSize / cfg.gpusPerNode) (Nat.succ_le_of_lt hlt)
      rw [Nat.succ_mul] at this
      omega
    · exact heq
    · have := Nat.mul_le_mul_right (epSize / cfg.gpusPerNode) (Nat.succ_le_of_lt hlt)
      rw [Nat.succ_mul] at this
      omega
  exact hgg ▸ he

theorem rankOf_lt (h : cfg.Valid) (hs : stage < cfg.pp) (ha : a < cfg.nodesPerStage)
    (hρ : ρ < cfg.gpusPerNode) : rankOf cfg stage a ρ < cfg.totalGpus := by
  have hlt := RowMajor.lt hs ha hρ
  rwa [← Nat.mul_comm cfg.gpusPerNode, h.ranks_eq, Nat.mul_comm cfg.ranksPerStage, h.total_eq] at hlt

/-! ## The requests of a digit vector -/

/-- A satisfied request has the digit it asks for. -/
theorem getD_of_requestSatisfied {r : TopoRequest} (h : requestSatisfied r digits)
    (hs : r.stage < digits.length) : digits.getD r.stage 0 = r.dim ∧
      ∀ d, r.dst? digits.length = some d → digits.getD d 0 = 0 := by
  unfold requestSatisfied at h
  rw [if_neg (by omega)] at h
  split at h
  · exact absurd h Bool.false_ne_true
  · next hdim =>
    rw [not_not] at hdim
    refine ⟨by rw [List.getD_eq_getElem?_getD, hdim]; rfl, fun d hd => ?_⟩
    rw [hd] at h
    rw [List.getD_eq_getElem?_getD, of_decide_eq_true h]
    rfl

/-- An expert-parallel digit is only used for groups of several whole nodes. -/
theorem epTopoEnabled_of_getD (hmem : ∀ d ∈ digits, d ∈ digitChoices cfg epSize)
    (h3 : digits.getD stage 0 = 3) : cfg.epTopoEnabled epSize = true := by
  have h : 3 ∈ digits := by
    rw [List.getD_eq_getElem?_getD] at h3
    cases hd : digits[stage]? with
    | none => simp [hd] at h3
    | some d =>
      rw [hd] at h3
      exact h3 ▸ List.mem_of_getElem? hd
  have hc := hmem 3 h
  unfold digitChoices at hc
  split at hc
  · assumption
  · simp at hc

variable (h : cfg.Valid) (hup : 0 < cfg.scaleUpGBps) (hout : 0 < cfg.scaleOutGBps)

include h hup hout

/-- The ranks of a stage reach each other over the rings. -/
theorem reachIn_of_ring (hs : stage < cfg.pp)
    (hd : digits.getD stage 0 = 1 ∨ digits.getD stage 0 = 3 ∧ diverged = false)
    (ha : a < cfg.nodesPerStage) (hb : b < cfg.nodesPerStage) (hρ : ρ < cfg.gpusPerNode)
    (hρ' : ρ' < cfg.gpusPerNode) :
    ReachIn (topologyMatrix cfg epSize digits diverged) (· < cfg.totalGpus) (rankOf cfg stage a ρ)
      (rankOf cfg stage b ρ') := by
  have hlt : ∀ x ∈ List.range cfg.nodesPerStage, x < cfg.nodesPerStage :=
    fun x hx => List.mem_range.mp hx
  refine reachIn_of_cycles (c := fun _ => List.range cfg.nodesPerStage) h hup hlt
    (fun x hx σ hσ => rankOf_lt h hs (hlt x hx) hσ) (fun _ _ => List.Perm.refl _) ?_
    (List.mem_range.mpr ha) (List.mem_range.mpr hb) hρ hρ'
  intro σ hσ x y he hne
  obtain ⟨hx, hy⟩ := mem_of_mem_cycleEdges he
  rw [mem_cycleEdges_range] at he
  rw [topologyMatrix_rail h (hlt x hx) (hlt y hy) hσ hne, if_pos]
  · exact hout
  · rcases hd with hd | ⟨hd, hdiv⟩
    · exact .inl ⟨hd, he⟩
    · exact .inr ⟨hd, .inr ⟨hdiv, he⟩⟩

/-- The ranks of a group reach each other over the cycles of the group. -/
theorem reachIn_of_diverged {g : ℕ} (hdvd : cfg.gpusPerNode ∣ epSize) (hep : 0 < epSize)
    (hg : g < epGroupsPerStage cfg epSize) (hd : digits.getD stage 0 = 3)
    (ha : a ∈ groupNodes cfg epSize g) (hb : b ∈ groupNodes cfg epSize g)
    (hρ : ρ < cfg.gpusPerNode) (hρ' : ρ' < cfg.gpusPerNode) :
    ReachIn (topologyMatrix cfg epSize digits true) (· ∈ epMembers cfg epSize stage g)
      (rankOf cfg stage a ρ) (rankOf cfg stage b ρ') := by
  have hlt := fun x (hx : x ∈ groupNodes cfg epSize g) => lt_of_mem_groupNodes h hdvd hep hg hx
  refine reachIn_of_cycles (c := fun ρ =>
    (divergedCyclesForGroup (groupNodes cfg epSize g) cfg.gpusPerNode).getD ρ []) h hup
    (fun x hx => (hlt x hx).1)
    (fun x hx σ hσ => (mem_epMembers h.gpusPerNode_pos hdvd).mpr ⟨x, hx, σ, hσ, rfl⟩)
    (fun σ hσ => mem_divergedCycles _ hσ) ?_ ha hb hρ hρ'
  intro σ hσ x y he hne
  obtain ⟨hx, hy⟩ := mem_of_mem_cycleEdges he
  rw [(mem_divergedCycles _ hσ).mem_iff] at hx hy
  rw [topologyMatrix_rail h (hlt x hx).1 (hlt y hy).1 hσ hne, if_pos]
  · exact hout
  · exact .inr ⟨hd, .inl ⟨rfl, (mem_divergedEdges_iff (hlt x hx).2 hσ hx).mpr he⟩⟩

/-- **A matrix serves the requests that its digits satisfy.** -/
theorem servesDigits_topologyMatrix (hep : 0 < epSize) (hlen : digits.length = cfg.pp)
    (hmem : ∀ d ∈ digits, d ∈ digitChoices cfg epSize) :
    ServesDigits cfg epSize variant digits (topologyMatrix cfg epSize digits
      (decide (variant = .opusDiverge ∧ cfg.epTopoEnabled epSize))) where
  pipeline r hr hs hdim d hd hne k hk := by
    obtain ⟨-, hdst⟩ := getD_of_requestSatisfied hr (hlen ▸ hs)
    have hd0 : digits.getD d 0 = 0 := hdst d (hlen ▸ hd)
    have hnode : k / cfg.gpusPerNode < cfg.nodesPerStage :=
      Nat.div_lt_of_lt_mul (by rw [h.ranks_eq]; exact hk)
    have hrail : k % cfg.gpusPerNode < cfg.gpusPerNode := Nat.mod_lt _ h.gpusPerNode_pos
    have hrank : ∀ stage, stage * cfg.ranksPerStage + k =
        rankOf cfg stage (k / cfg.gpusPerNode) (k % cfg.gpusPerNode) := by
      intro stage
      have hk' := Nat.div_add_mod k cfg.gpusPerNode
      rw [rankOf, Nat.add_assoc, Nat.mul_comm (k / _), hk']
    rw [hrank, hrank, topologyMatrix_stage h hnode hrail hne.symm (.inr hd0),
      topologyMatrix_stage h hnode hrail hne (.inl hd0)]
    exact ⟨hout, hout⟩
  dataParallel r hr hs hdim rail hrail i hi j hj := by
    obtain ⟨hd, -⟩ := getD_of_requestSatisfied hr (hlen ▸ hs)
    obtain ⟨a, ha, rfl⟩ := mem_dpMembers.mp hi
    obtain ⟨b, hb, rfl⟩ := mem_dpMembers.mp hj
    exact reachIn_of_ring h hup hout hs (.inl (hd.trans hdim)) ha hb hrail hrail
  expertParallel r hr hs hdim g hg i hi j hj := by
    obtain ⟨hd, -⟩ := getD_of_requestSatisfied hr (hlen ▸ hs)
    have hd3 := hd.trans hdim
    have hen := epTopoEnabled_of_getD hmem hd3
    have hdvd : cfg.gpusPerNode ∣ epSize := Nat.dvd_of_mod_eq_zero (of_decide_eq_true hen).2.1
    rw [mem_epMembers h.gpusPerNode_pos hdvd] at hi hj
    obtain ⟨a, ha, ρ, hρ, rfl⟩ := hi
    obtain ⟨b, hb, ρ', hρ', rfl⟩ := hj
    by_cases hv : variant = .opusDiverge
    · rw [if_pos hv, decide_eq_true ⟨hv, hen⟩]
      exact reachIn_of_diverged h hup hout hdvd hep hg hd3 ha hb hρ hρ'
    · have hnd : decide (variant = .opusDiverge ∧ cfg.epTopoEnabled epSize = true) = false :=
        decide_eq_false fun hc => hv hc.1
      rw [if_neg hv, hnd]
      exact reachIn_of_ring h hup hout hs (.inr ⟨hd3, rfl⟩)
        (lt_of_mem_groupNodes h hdvd hep hg ha).1 (lt_of_mem_groupNodes h hdvd hep hg hb).1 hρ hρ'
  oneCycle hv r hr hs hdim g hg rail hrail := by
    obtain ⟨hd, -⟩ := getD_of_requestSatisfied hr (hlen ▸ hs)
    have hd3 := hd.trans hdim
    have hen := epTopoEnabled_of_getD hmem hd3
    have hdvd : cfg.gpusPerNode ∣ epSize := Nat.dvd_of_mod_eq_zero (of_decide_eq_true hen).2.1
    refine ⟨_, mem_divergedCycles (groupNodes cfg epSize g) hrail, fun a ha b hb hne => ?_⟩
    have hla := lt_of_mem_groupNodes h hdvd hep hg ha
    have hlb := lt_of_mem_groupNodes h hdvd hep hg hb
    rw [decide_eq_true ⟨hv, hen⟩, topologyMatrix_rail h hla.1 hlb.1 hrail hne,
      ← mem_divergedEdges_iff hla.2 hrail ha]
    by_cases he : s(a, b) ∈ divergedEdges cfg epSize rail
    · rw [if_pos (.inr ⟨hd3, .inl ⟨rfl, he⟩⟩)]
      exact iff_of_true hout he
    · rw [if_neg]
      · exact iff_of_false (lt_irrefl 0) he
      · rintro (⟨h1, -⟩ | ⟨-, ⟨-, he'⟩ | ⟨hf, -⟩⟩)
        · omega
        · exact he he'
        · exact Bool.false_ne_true hf.symm

end

/-- **Decimal topologies serve every satisfied request**: for every valid configuration with at most
nine stages and positive bandwidths, every size of the expert-parallel groups, both variants and
every digit vector, the file has a matrix under the id of the vector, the id is an `int`, `main`
recovers the number of stages, and the matrix serves the requests that the vector satisfies. -/
theorem servesDigits_writeSchedules {cfg : SweepConfig} (hv : cfg.validateConfig = some [])
    (hpp : cfg.pp ≤ 9) (hup : 0 < cfg.scaleUpGBps) (hout : 0 < cfg.scaleOutGBps) {epSize : ℕ}
    (hep : epSize ∈ cfg.epSizes) (variant : Variant) {digits : List ℕ}
    (hlen : digits.length = cfg.pp) (hmem : ∀ d ∈ digits, d ∈ digitChoices cfg epSize) :
    (∀ E : Stages, E.decimal = true →
      E.schedules = (writeSchedules cfg epSize variant).map Prod.fst → E.ppStages = cfg.pp) ∧
    topoIdFromStageState 10 digits ≤ 2147483647 ∧
    ∃ m, (writeSchedules cfg epSize variant).lookup (topoIdFromStageState 10 digits) = some m ∧
      ServesDigits cfg epSize variant digits m := by
  have h := SweepConfig.valid_of_validateConfig hv
  refine ⟨fun E hd hs => ppStages_writeSchedules h.pp_pos hd hs, ?_, _,
    lookup_writeSchedules h.pp_pos hlen hmem,
    servesDigits_topologyMatrix h hup hout (h.epSize_pos epSize hep) hlen hmem⟩
  have hlt := topoId_lt_of_mem hlen hmem
  have hle : (10 : ℕ) ^ cfg.pp ≤ 10 ^ 9 := Nat.pow_le_pow_right (by norm_num) hpp
  rw [topoId_eq] at hlt
  norm_num at hle
  omega

/-- Two stages of three nodes with two gpus each. -/
def smallSweep (scaleUp scaleOut : ℚ) : SweepConfig where
  totalGpus := 12
  gpusPerNode := 2
  pp := 2
  microbatches := 2
  globalBatchSize := 4
  numHeads := 2
  epSizes := [1, 6]
  epCommPattern := "all_to_all"
  moeRouting := "uniform"
  all2allvPayloadScale := "comm_size"
  all2allvCollectiveEnvelope := "max_rank_load"
  scaleUpGBps := scaleUp
  scaleOutGBps := scaleOut
  layersPerStage := 1
  seqLen := 12
  dModel := 8
  kvLoraRank := 4
  qLoraRank := 4
  qkHeadDim := 4
  vHeadDim := 4
  qkRopeDim := 4
  numExperts := 6
  topK := 2
  expertDFF := 8
  dtypeBytes := 2

theorem validateConfig_smallSweep (scaleUp scaleOut : ℚ) :
    (smallSweep scaleUp scaleOut).validateConfig = some [] := by
  show (smallSweep 0 0).validateConfig = some []
  decide +kernel

theorem servesDigits_smallSweep :
    ∃ m, (writeSchedules (smallSweep 450 50) 6 .opusDiverge).lookup
        (topoIdFromStageState 10 [0, 3]) = some m ∧
      ServesDigits (smallSweep 450 50) 6 .opusDiverge [0, 3] m :=
  (servesDigits_writeSchedules (validateConfig_smallSweep 450 50) (by decide) (by decide +kernel)
    (by decide +kernel) (by decide) .opusDiverge rfl (by decide)).2.2

/-- Without scale-up links every link stays on its rail. -/
theorem mod_eq_of_topologyMatrix_pos {cfg : SweepConfig} (h : cfg.Valid) (hup : cfg.scaleUpGBps = 0)
    {epSize : ℕ} {digits : List ℕ} {diverged : Bool} {src dst : ℕ}
    (hpos : 0 < topologyMatrix cfg epSize digits diverged src dst) :
    src % cfg.gpusPerNode = dst % cfg.gpusPerNode := by
  simp only [topologyMatrix, hup] at hpos
  split_ifs at hpos with h1 h2 h3 h4
  · exact absurd hpos (lt_irrefl 0)
  · exact absurd hpos (lt_irrefl 0)
  · exact h3.1.2
  · rw [← Nat.mod_mod_of_dvd src h.gpusPerNode_dvd, h4.2.1, Nat.mod_mod_of_dvd dst h.gpusPerNode_dvd]
  · exact absurd hpos (lt_irrefl 0)

/-- The checks accept bandwidths of zero. Without scale-out links two pipeline stages are not
connected; without scale-up links the rails of an expert-parallel group are not. -/
theorem not_servesDigits_zeroBandwidth :
    ((smallSweep 450 0).validateConfig = some [] ∧
      ∃ m, (writeSchedules (smallSweep 450 0) 6 .opusSame).lookup
          (topoIdFromStageState 10 [0, 0]) = some m ∧
        ¬ ServesDigits (smallSweep 450 0) 6 .opusSame [0, 0] m) ∧
    (smallSweep 0 50).validateConfig = some [] ∧
      ∃ m, (writeSchedules (smallSweep 0 50) 6 .opusSame).lookup
          (topoIdFromStageState 10 [3, 3]) = some m ∧
        ¬ ServesDigits (smallSweep 0 50) 6 .opusSame [3, 3] m := by
  refine ⟨⟨validateConfig_smallSweep 450 0, _,
    lookup_writeSchedules (by decide) rfl (by decide), fun h => ?_⟩,
    validateConfig_smallSweep 0 50, _, lookup_writeSchedules (by decide) rfl (by decide),
    fun h => ?_⟩
  · have hpos := (h.pipeline ⟨0, 0, 1⟩ (by decide) (by decide) rfl 1 (by decide) (by decide) 0
      (by decide)).1
    exact absurd hpos (by decide +kernel)
  · have hreach := h.expertParallel ⟨0, 3, -1⟩ (by decide) (by decide) rfl 0 (by decide) 0
      (by decide) 1 (by decide)
    -- all ranks reached from rank 0 are on its rail
    have hinv : ∀ b, ReachIn (topologyMatrix (smallSweep 0 50) 6 [3, 3] false)
        (· < (smallSweep 0 50).totalGpus) 0 b → b % 2 = 0 := by
      intro b hb
      induction hb with
      | refl => rfl
      | tail _ hlink ih =>
        have hv := SweepConfig.valid_of_validateConfig (validateConfig_smallSweep 0 50)
        exact (mod_eq_of_topologyMatrix_pos hv rfl hlink.2).symm.trans ih
    exact absurd (hinv 1 hreach) (by decide)

end Opus.Simulation
