import Mathlib.Data.List.Sort
import Opus.Library.Dict
import Opus.Simulation.StageState

/-!
# Provisioning from a trace

`post_reconfig` counts the finished communications of a rank from `-1` and prints, for each, its
index and the group it provisions for. A script reads these lines from a run without provisioning,
drops the tensor-parallel communications, and lists for each group the indexes at which the next
communication of another kind belongs to it. In the next run each rank loads its groups, and
`post_reconfig` asks for a reconfiguration at these indexes.

Index `0` is special: the first group is listed there whatever its index, and a change right after
index `0` takes its place.

## Main definitions

* `parseCommGroups`, `changedCommGroups`, `writeRankCommGroups`: the functions of the script
* `loadProvision`: the groups a rank loads
* `replayFrom`: the calls of `post_reconfig` with the lines they print and their requests
* `ProvisionedAt`: the last communication before a change of group

## Main results

* `scanOf_kept`: what the scan for changes lists at each index
* `mem_writeRankCommGroups`: the lists of the groups are the inverse of the changes
* `postReconfig_eq`: the requests are those of the scheduler
* `provision_roundTrip`: every change is provisioned once, after the last communication of the group
  before it
-/

open Transition

namespace Opus.Simulation

/-! ## The script -/

/-- The numbers of a line
`Scheduler: <rank>, current comm idx: <idx>, target comm group id: <id>`. -/
structure TraceLine where
  rank : ℕ
  commIdx : ℤ
  target : ℤ
  deriving DecidableEq, Repr

/-- `parse_comm_groups`: for each rank, the group of each index. -/
def parseCommGroups (lines : List TraceLine) : List (ℕ × List (ℤ × ℤ)) :=
  lines.foldl (fun commIdxMap line =>
    -- a new rank gets an empty map, and an old one keeps its own
    let idxMap := (commIdxMap.lookup line.rank).getD []
    if line.commIdx ≠ -1 ∧ line.target ≠ -2 then
      Dict.set commIdxMap line.rank (Dict.set idxMap line.commIdx line.target)
    else Dict.set commIdxMap line.rank idxMap) []

/-- The variables of the loop of `changed_comm_groups`. -/
structure ChangeScan where
  changed : List (ℤ × ℤ)
  lastGroupId : Option ℤ
  lastIdx : ℤ
  deriving DecidableEq, Repr

/-- One pass of the loop, for an index and its group. -/
def ChangeScan.step (s : ChangeScan) (idx groupId : ℤ) : ChangeScan :=
  if some groupId ≠ s.lastGroupId then
    ⟨Dict.set s.changed s.lastIdx groupId, some groupId, idx⟩
  else { s with lastIdx := idx }

/-- `changed_comm_groups` for one rank. -/
def changedCommGroups (idxMap : List (ℤ × ℤ)) : List (ℤ × ℤ) :=
  (((idxMap.map Prod.fst).insertionSort (· ≤ ·)).foldl
    (fun (s : ChangeScan) idx => s.step idx ((idxMap.lookup idx).getD 0)) ⟨[], none, 0⟩).changed

/-- `write_rank_comm_groups_yaml` for one rank: the indexes of each group. -/
def writeRankCommGroups (changed : List (ℤ × ℤ)) : List (ℤ × List ℤ) :=
  changed.foldl (fun newMap p =>
    Dict.set newMap p.2 ((newMap.lookup p.2).getD [] ++ [p.1])) []

/-- The groups that `Scheduler::Scheduler` reads for a rank from the file of the script. -/
def loadProvision (lines : List TraceLine) (rank : ℕ) : List (ℤ × List ℤ) :=
  (((parseCommGroups lines).map fun p =>
    (p.1, writeRankCommGroups (changedCommGroups p.2))).lookup rank).getD []

/-! ## The calls -/

/-- The group `post_reconfig` provisions for at an index: the last of the groups that has it. -/
def provisionTarget (provision : List (ℤ × List ℤ)) (commIdx cur : ℤ) : ℤ :=
  provision.foldl (fun target p => if commIdx ∈ p.2 then p.1 else target) cur

/-- The group it asks a reconfiguration for. -/
def provisionRequest (provision : List (ℤ × List ℤ)) (commIdx cur : ℤ) : Option ℤ :=
  let target := provisionTarget provision commIdx cur
  if target ≠ cur then some target else none

/-- A sequence of calls: the index and the target each of them prints, and its request. -/
def replayFrom (provision : List (ℤ × List ℤ)) : ℤ → List ℤ → List (ℤ × ℤ × Option ℤ)
  | _, [] => []
  | commIdx, cur :: rest =>
    (commIdx, provisionTarget provision commIdx cur, provisionRequest provision commIdx cur) ::
      replayFrom provision (commIdx + 1) rest

/-- The calls of a rank: one with `-10` when its workload is created, and one for each finished
communication. -/
def rankReplay (provision : List (ℤ × List ℤ)) (groups : List ℤ) : List (ℤ × ℤ × Option ℤ) :=
  replayFrom provision (-1) (-10 :: groups)

/-- The lines a rank prints in a run without provisioning. -/
def traceLines (rank : ℕ) (groups : List ℤ) : List TraceLine :=
  (rankReplay [] groups).map fun call => ⟨rank, call.1, call.2.1⟩

/-- A call of the scheduler makes the request. -/
theorem postReconfig_eq (E : Stages) (gate : Gate) (s : SchedulerState) (now rank : ℕ) (cur : ℤ) :
    s.postReconfig E gate now rank cur =
      (let t := { s with
        curCommIdx := Function.update s.curCommIdx rank (s.curCommIdx rank + 1) }
      match provisionRequest (E.provision rank) (s.curCommIdx rank) cur with
      | none => some t
      | some target =>
        (t.preReconfig E gate now rank target (if target ≠ -1 then 1 else -1) false).map
          Prod.snd) := by
  obtain ⟨target, htarget⟩ : ∃ target, target = s.provisioned E rank cur := ⟨_, rfl⟩
  have hrequest : provisionRequest (E.provision rank) (s.curCommIdx rank) cur =
      if target ≠ cur then some target else none := by
    rw [htarget]
    rfl
  simp only [SchedulerState.postReconfig, ← htarget, hrequest]
  by_cases h : target = cur
  · simp [h]
  · simp [h]

/-! ## Changes of group -/

/-- The last communication that is not tensor-parallel. -/
def LastKept (groups : List ℤ) (k : ℕ) (c : ℤ) : Prop :=
  groups[k]? = some c ∧ c ≠ -2 ∧ ∀ j, k < j → j < groups.length → groups[j]? = some (-2)

/-- `k` is the last communication before a change to the group `g`, not counting tensor-parallel
ones; or it is the first of all and tensor-parallel, and `g` is the first group. -/
def ProvisionedAt (groups : List ℤ) (k : ℕ) (g : ℤ) : Prop :=
  ∃ m, groups[m]? = some g ∧ g ≠ -2 ∧
    ((∃ c, LastKept (groups.take m) k c ∧ c ≠ g) ∨
      (k = 0 ∧ 0 < m ∧ ∀ j, j < m → groups[j]? = some (-2)))

section Changes

variable {groups : List ℤ} {k k' : ℕ} {c c' g x : ℤ}

theorem LastKept.lt (h : LastKept groups k c) : k < groups.length :=
  (List.getElem?_eq_some_iff.mp h.1).1

theorem LastKept.unique (h : LastKept groups k c) (h' : LastKept groups k' c') :
    k = k' ∧ c = c' := by
  have hk : k = k' := by
    rcases Nat.lt_trichotomy k k' with hlt | heq | hlt
    · have htp := h.2.2 k' hlt h'.lt
      rw [h'.1] at htp
      exact absurd (Option.some.inj htp) h'.2.1
    · exact heq
    · have htp := h'.2.2 k hlt h.lt
      rw [h.1] at htp
      exact absurd (Option.some.inj htp) h.2.1
  subst hk
  refine ⟨rfl, ?_⟩
  have heq := h.1
  rw [h'.1] at heq
  exact (Option.some.inj heq).symm

theorem LastKept.concat_tp (h : LastKept groups k c) : LastKept (groups ++ [-2]) k c := by
  refine ⟨by rw [List.getElem?_append_left h.lt]; exact h.1, h.2.1, fun j hkj hj => ?_⟩
  rcases Nat.lt_succ_iff_lt_or_eq.mp (by simpa using hj) with hlt | rfl
  · rw [List.getElem?_append_left hlt]
    exact h.2.2 j hkj hlt
  · simp

theorem lastKept_concat (hx : x ≠ -2) : LastKept (groups ++ [x]) groups.length x := by
  refine ⟨by simp, hx, fun j hkj hj => ?_⟩
  rw [List.length_append, List.length_singleton] at hj
  omega

/-- What one more communication adds. -/
theorem provisionedAt_concat :
    ProvisionedAt (groups ++ [x]) k g ↔ ProvisionedAt groups k g ∨
      (x = g ∧ g ≠ -2 ∧ ((∃ c, LastKept groups k c ∧ c ≠ g) ∨
        (k = 0 ∧ 0 < groups.length ∧ ∀ j, j < groups.length → groups[j]? = some (-2)))) := by
  constructor
  · rintro ⟨m, hm, hg, hcase⟩
    have hmlt : m < groups.length + 1 := by
      have hlt := (List.getElem?_eq_some_iff.mp hm).1
      rwa [List.length_append, List.length_singleton] at hlt
    rcases Nat.lt_succ_iff_lt_or_eq.mp hmlt with hlt | rfl
    · left
      rw [List.getElem?_append_left hlt] at hm
      rw [List.take_append_of_le_length hlt.le] at hcase
      refine ⟨m, hm, hg, hcase.imp_right fun ⟨hk, hpos, hall⟩ => ⟨hk, hpos, fun j hj => ?_⟩⟩
      have htp := hall j hj
      rwa [List.getElem?_append_left (hj.trans hlt)] at htp
    · right
      rw [List.take_left'] at hcase
      · refine ⟨by simpa using hm, hg, hcase.imp_right fun ⟨hk, hpos, hall⟩ =>
          ⟨hk, hpos, fun j hj => ?_⟩⟩
        have htp := hall j hj
        rwa [List.getElem?_append_left hj] at htp
      · rfl
  · rintro (⟨m, hm, hg, hcase⟩ | ⟨rfl, hg, hcase⟩)
    · have hlt := (List.getElem?_eq_some_iff.mp hm).1
      refine ⟨m, by rw [List.getElem?_append_left hlt]; exact hm, hg, ?_⟩
      rw [List.take_append_of_le_length hlt.le]
      refine hcase.imp_right fun ⟨hk, hpos, hall⟩ => ⟨hk, hpos, fun j hj => ?_⟩
      rw [List.getElem?_append_left (hj.trans hlt)]
      exact hall j hj
    · refine ⟨groups.length, by simp, hg, ?_⟩
      rw [List.take_left']
      · refine hcase.imp_right fun ⟨hk, hpos, hall⟩ => ⟨hk, hpos, fun j hj => ?_⟩
        rw [List.getElem?_append_left hj]
        exact hall j hj
      · rfl

/-- Nothing is provisioned at the last communication that counts: no other follows it. -/
theorem LastKept.not_provisionedAt (h : LastKept groups k c) : ¬ ProvisionedAt groups k g := by
  rintro ⟨m, hm, hg, ⟨c', hlast, -⟩ | ⟨rfl, hpos, hall⟩⟩
  · have hlt := hlast.lt
    rw [List.length_take] at hlt
    have htp := h.2.2 m (by omega) (List.getElem?_eq_some_iff.mp hm).1
    rw [hm] at htp
    exact hg (Option.some.inj htp)
  · have htp := hall 0 hpos
    rw [h.1] at htp
    exact h.2.1 (Option.some.inj htp)

end Changes

/-! ## The scan -/

/-- The communications that are not tensor-parallel, with their indexes. -/
def kept (groups : List ℤ) : List (ℤ × ℤ) :=
  (groups.zipIdx.filter fun p => p.1 ≠ -2).map fun p => ((p.2 : ℤ), p.1)

theorem kept_concat (groups : List ℤ) (x : ℤ) :
    kept (groups ++ [x]) =
      if x = -2 then kept groups else kept groups ++ [((groups.length : ℤ), x)] := by
  rw [kept, List.zipIdx_append, List.filter_append, List.map_append]
  by_cases hx : x = -2
  · simp [hx, kept]
  · simp [hx, kept]

theorem lt_of_mem_kept {groups : List ℤ} {i g : ℤ} (h : (i, g) ∈ kept groups) :
    0 ≤ i ∧ i < groups.length := by
  obtain ⟨⟨g', j⟩, hmem, heq⟩ := List.mem_map.mp h
  obtain ⟨hzip, -⟩ := List.mem_filter.mp hmem
  have hj := (List.mem_zipIdx' hzip).1
  cases heq
  omega

theorem pairwise_kept (groups : List ℤ) : ((kept groups).map Prod.fst).Pairwise (· < ·) := by
  induction groups using List.reverseRecOn with
  | nil => simp [kept]
  | append_singleton groups x ih =>
    rw [kept_concat]
    split
    · exact ih
    · rw [List.map_append, List.pairwise_append]
      refine ⟨ih, List.pairwise_singleton _ _, fun i hi j hj => ?_⟩
      obtain ⟨⟨i', g⟩, hmem, rfl⟩ := List.mem_map.mp hi
      rw [List.map_singleton, List.mem_singleton] at hj
      rw [hj]
      exact (lt_of_mem_kept hmem).2

theorem nodup_kept (groups : List ℤ) : ((kept groups).map Prod.fst).Nodup :=
  (pairwise_kept groups).imp fun hlt => hlt.ne

/-- What the scan has listed after the communications `groups`. -/
structure ScanOf (groups : List ℤ) (s : ChangeScan) : Prop where
  nodup : (s.changed.map Prod.fst).Nodup
  of_none : s.lastGroupId = none →
    s.changed = [] ∧ s.lastIdx = 0 ∧ ∀ j, j < groups.length → groups[j]? = some (-2)
  of_some : ∀ c, s.lastGroupId = some c → ∃ k : ℕ, s.lastIdx = k ∧ LastKept groups k c
  sound : ∀ i g, s.changed.lookup i = some g →
    ∃ k : ℕ, i = k ∧ (ProvisionedAt groups k g ∨ (k = 0 ∧ groups[0]? = some g))
  complete : ∀ (k : ℕ) g, ProvisionedAt groups k g → s.changed.lookup (k : ℤ) = some g

section Scan

variable {groups : List ℤ} {s : ChangeScan} {x c : ℤ}

theorem ScanOf.concat_tp (h : ScanOf groups s) : ScanOf (groups ++ [-2]) s where
  nodup := h.nodup
  of_none := by
    intro hnone
    obtain ⟨hchanged, hidx, hall⟩ := h.of_none hnone
    refine ⟨hchanged, hidx, fun j hj => ?_⟩
    rcases Nat.lt_succ_iff_lt_or_eq.mp (by simpa using hj) with hlt | rfl
    · rw [List.getElem?_append_left hlt]
      exact hall j hlt
    · simp
  of_some := by
    intro c hc
    obtain ⟨k, hk, hlast⟩ := h.of_some c hc
    exact ⟨k, hk, hlast.concat_tp⟩
  sound := by
    intro i g hg
    obtain ⟨k, hk, hprov | ⟨h0, hself⟩⟩ := h.sound i g hg
    · exact ⟨k, hk, .inl (provisionedAt_concat.mpr (.inl hprov))⟩
    · refine ⟨k, hk, .inr ⟨h0, ?_⟩⟩
      rw [List.getElem?_append_left (List.getElem?_eq_some_iff.mp hself).1]
      exact hself
  complete := by
    intro k g hprov
    rcases provisionedAt_concat.mp hprov with hprov | ⟨rfl, hg, -⟩
    · exact h.complete k g hprov
    · exact absurd rfl hg

/-- The first communication that counts is listed at index `0`. -/
theorem ScanOf.concat_first (h : ScanOf groups s) (hx : x ≠ -2) (hnone : s.lastGroupId = none) :
    ScanOf (groups ++ [x]) (s.step groups.length x) := by
  obtain ⟨hchanged, hidx, hall⟩ := h.of_none hnone
  have hstep : s.step groups.length x = ⟨[(0, x)], some x, groups.length⟩ := by
    rw [ChangeScan.step, hnone, if_pos (by simp), hchanged, hidx]
    rfl
  have hlookup : ∀ i : ℤ, [((0 : ℤ), x)].lookup i = if i = 0 then some x else none := by
    intro i
    by_cases hi : i = 0 <;> simp [hi]
  rw [hstep]
  refine ⟨by simp, by simp, ?_, ?_, ?_⟩
  · rintro c ⟨rfl⟩
    exact ⟨groups.length, rfl, lastKept_concat hx⟩
  · intro i g hg
    rw [hlookup] at hg
    split at hg
    · next hi =>
      cases hg
      refine ⟨0, hi, ?_⟩
      rcases Nat.eq_zero_or_pos groups.length with hzero | hpos
      · rw [List.length_eq_zero_iff] at hzero
        subst hzero
        exact .inr ⟨rfl, rfl⟩
      · exact .inl (provisionedAt_concat.mpr (.inr ⟨rfl, hx, .inr ⟨rfl, hpos, hall⟩⟩))
    · cases hg
  · intro k g hprov
    rcases provisionedAt_concat.mp hprov with hprov | ⟨rfl, -, ⟨c, hlast, -⟩ | ⟨rfl, -, -⟩⟩
    · -- nothing has been listed before
      have habs := h.complete k g hprov
      rw [hchanged] at habs
      cases habs
    · have htp := hall k hlast.lt
      rw [hlast.1] at htp
      exact absurd (Option.some.inj htp) hlast.2.1
    · simp

/-- A communication of another group is listed at the last one that counts. -/
theorem ScanOf.concat_change (h : ScanOf groups s) (hx : x ≠ -2) (hsome : s.lastGroupId = some c)
    (hne : x ≠ c) : ScanOf (groups ++ [x]) (s.step groups.length x) := by
  obtain ⟨k₀, hk₀, hlast⟩ := h.of_some c hsome
  have hstep : s.step groups.length x =
      ⟨Dict.set s.changed (k₀ : ℤ) x, some x, groups.length⟩ := by
    rw [ChangeScan.step, hsome, if_pos (by simpa using hne), hk₀]
  rw [hstep]
  refine ⟨Dict.nodup_set h.nodup _ _, by simp, ?_, ?_, ?_⟩
  · rintro c' ⟨rfl⟩
    exact ⟨groups.length, rfl, lastKept_concat hx⟩
  · intro i g hg
    rw [Dict.lookup_set] at hg
    split at hg
    · next hi =>
      cases hg
      exact ⟨k₀, hi, .inl (provisionedAt_concat.mpr
        (.inr ⟨rfl, hx, .inl ⟨c, hlast, Ne.symm hne⟩⟩))⟩
    · obtain ⟨k, hk, hprov | ⟨h0, hself⟩⟩ := h.sound i g hg
      · exact ⟨k, hk, .inl (provisionedAt_concat.mpr (.inl hprov))⟩
      · refine ⟨k, hk, .inr ⟨h0, ?_⟩⟩
        rw [List.getElem?_append_left (List.getElem?_eq_some_iff.mp hself).1]
        exact hself
  · intro k g hprov
    rw [Dict.lookup_set]
    rcases provisionedAt_concat.mp hprov with hprov | ⟨rfl, -, ⟨c', hlast', -⟩ | ⟨rfl, hpos, hall⟩⟩
    · -- an earlier change is listed at an earlier index
      have hk : (k : ℤ) ≠ k₀ := by
        intro heq
        rw [Nat.cast_inj] at heq
        exact hlast.not_provisionedAt (heq ▸ hprov)
      rw [if_neg hk]
      exact h.complete k g hprov
    · rw [if_pos (by rw [(hlast'.unique hlast).1])]
    · have htp := hall k₀ hlast.lt
      rw [hlast.1] at htp
      exact absurd (Option.some.inj htp) hlast.2.1

/-- A communication of the same group is not listed. -/
theorem ScanOf.concat_same (h : ScanOf groups s) (hx : x ≠ -2) (hsome : s.lastGroupId = some x) :
    ScanOf (groups ++ [x]) (s.step groups.length x) := by
  obtain ⟨k₀, hk₀, hlast⟩ := h.of_some x hsome
  have hstep : s.step groups.length x = { s with lastIdx := groups.length } := by
    rw [ChangeScan.step, hsome, if_neg (by simp)]
  rw [hstep]
  refine ⟨h.nodup, fun hnone => ?_, ?_, ?_, ?_⟩
  · dsimp only at hnone
    rw [hsome] at hnone
    cases hnone
  · intro c' hc'
    dsimp only at hc'
    rw [hsome] at hc'
    cases hc'
    exact ⟨groups.length, rfl, lastKept_concat hx⟩
  · intro i g hg
    obtain ⟨k, hk, hprov | ⟨h0, hself⟩⟩ := h.sound i g hg
    · exact ⟨k, hk, .inl (provisionedAt_concat.mpr (.inl hprov))⟩
    · refine ⟨k, hk, .inr ⟨h0, ?_⟩⟩
      rw [List.getElem?_append_left (List.getElem?_eq_some_iff.mp hself).1]
      exact hself
  · intro k g hprov
    rcases provisionedAt_concat.mp hprov with
      hprov | ⟨rfl, -, ⟨c', hlast', hne⟩ | ⟨rfl, hpos, hall⟩⟩
    · exact h.complete k g hprov
    · exact absurd (hlast'.unique hlast).2 hne
    · have htp := hall k₀ hlast.lt
      rw [hlast.1] at htp
      exact absurd (Option.some.inj htp) hlast.2.1

/-- **What the scan lists**: at each index the group of the change after it. -/
theorem scanOf_kept (groups : List ℤ) :
    ScanOf groups
      ((kept groups).foldl (fun (s : ChangeScan) p => s.step p.1 p.2) ⟨[], none, 0⟩) := by
  induction groups using List.reverseRecOn with
  | nil =>
    refine ⟨List.nodup_nil, fun _ => ⟨rfl, rfl, fun j hj => ?_⟩, ?_, ?_, ?_⟩
    · exact absurd hj (Nat.not_lt_zero j)
    · intro c hc
      cases hc
    · intro i g hg
      cases hg
    · rintro k g ⟨m, hm, -⟩
      cases hm
  | append_singleton groups x ih =>
    rw [kept_concat]
    by_cases hx : x = -2
    · rw [if_pos hx, hx]
      exact ih.concat_tp
    · rw [if_neg hx, List.foldl_append, List.foldl_cons, List.foldl_nil]
      obtain ⟨s, hs⟩ : ∃ s, s = (kept groups).foldl (fun (s : ChangeScan) p => s.step p.1 p.2)
        (⟨[], none, 0⟩ : ChangeScan) := ⟨_, rfl⟩
      rw [← hs] at ih ⊢
      cases hlast : s.lastGroupId with
      | none => exact ih.concat_first hx hlast
      | some c =>
        by_cases hc : x = c
        · exact ih.concat_same hx (hc ▸ hlast)
        · exact ih.concat_change hx hlast hc

/-- The keys of the kept communications are sorted, so the script scans them in order. -/
theorem changedCommGroups_kept (groups : List ℤ) :
    changedCommGroups (kept groups) =
      ((kept groups).foldl (fun (s : ChangeScan) p => s.step p.1 p.2) ⟨[], none, 0⟩).changed := by
  have hsorted : ((kept groups).map Prod.fst).insertionSort (· ≤ ·) = (kept groups).map Prod.fst :=
    ((pairwise_kept groups).imp fun hlt => hlt.le).insertionSort_eq
  have hfold : ∀ (l : List (ℤ × ℤ)) (s : ChangeScan), (∀ p ∈ l, p ∈ kept groups) →
      (l.map Prod.fst).foldl
          (fun (s : ChangeScan) idx => s.step idx (((kept groups).lookup idx).getD 0)) s =
        l.foldl (fun (s : ChangeScan) p => s.step p.1 p.2) s := by
    intro l
    induction l with
    | nil => exact fun _ _ => rfl
    | cons p l ih =>
      intro s hl
      have hp : (kept groups).lookup p.1 = some p.2 :=
        (Dict.lookup_eq_some_iff (nodup_kept groups) p.1 p.2).mpr (hl p (by simp))
      rw [List.map_cons, List.foldl_cons, List.foldl_cons, hp, Option.getD_some]
      exact ih _ fun q hq => hl q (by simp [hq])
  rw [changedCommGroups, hsorted, hfold _ _ fun p hp => hp]

end Scan

/-! ## The lines of a rank -/

theorem mem_replayFrom {provision : List (ℤ × List ℤ)} {commIdx : ℤ} {curs : List ℤ}
    {call : ℤ × ℤ × Option ℤ} :
    call ∈ replayFrom provision commIdx curs ↔ ∃ n cur, curs[n]? = some cur ∧
      call = (commIdx + (n : ℕ), provisionTarget provision (commIdx + (n : ℕ)) cur,
        provisionRequest provision (commIdx + (n : ℕ)) cur) := by
  induction curs generalizing commIdx with
  | nil => simp [replayFrom]
  | cons cur curs ih =>
    rw [replayFrom, List.mem_cons, ih]
    constructor
    · rintro (rfl | ⟨n, c, hc, rfl⟩)
      · exact ⟨0, cur, rfl, by simp⟩
      · refine ⟨n + 1, c, by rwa [List.getElem?_cons_succ], ?_⟩
        rw [show commIdx + ((n + 1 : ℕ) : ℤ) = commIdx + 1 + (n : ℤ) by push_cast; ring]
    · rintro ⟨n, c, hc, rfl⟩
      cases n with
      | zero =>
        left
        cases hc
        simp
      | succ n =>
        right
        refine ⟨n, c, by rwa [List.getElem?_cons_succ] at hc, ?_⟩
        rw [show commIdx + ((n + 1 : ℕ) : ℤ) = commIdx + 1 + (n : ℤ) by push_cast; ring]

theorem replayFrom_concat (provision : List (ℤ × List ℤ)) (commIdx : ℤ) (curs : List ℤ) (cur : ℤ) :
    replayFrom provision commIdx (curs ++ [cur]) = replayFrom provision commIdx curs ++
      [(commIdx + curs.length, provisionTarget provision (commIdx + curs.length) cur,
        provisionRequest provision (commIdx + curs.length) cur)] := by
  induction curs generalizing commIdx with
  | nil => simp [replayFrom]
  | cons c curs ih =>
    rw [List.cons_append, replayFrom, ih, replayFrom, List.cons_append, List.length_cons,
      show commIdx + ((curs.length + 1 : ℕ) : ℤ) = commIdx + 1 + (curs.length : ℤ) by
        push_cast; ring]

theorem traceLines_concat (rank : ℕ) (groups : List ℤ) (x : ℤ) :
    traceLines rank (groups ++ [x]) = traceLines rank groups ++ [⟨rank, groups.length, x⟩] := by
  rw [traceLines, rankReplay, ← List.cons_append, replayFrom_concat, List.map_append]
  rw [List.length_cons, show (-1 : ℤ) + ((groups.length + 1 : ℕ) : ℤ) = groups.length by
    push_cast; ring]
  rfl

/-- What a line of a rank does to the groups of its indexes. -/
def keepLine (idxMap : List (ℤ × ℤ)) (line : TraceLine) : List (ℤ × ℤ) :=
  if line.commIdx ≠ -1 ∧ line.target ≠ -2 then Dict.set idxMap line.commIdx line.target else idxMap

/-- The lines of one rank do not touch the groups of another. -/
theorem lookup_parseCommGroups (lines : List TraceLine) (rank : ℕ) :
    ((parseCommGroups lines).lookup rank).getD [] =
      (lines.filter fun line => line.rank = rank).foldl keepLine [] := by
  induction lines using List.reverseRecOn with
  | nil => rfl
  | append_singleton lines line ih =>
    have hstep : parseCommGroups (lines ++ [line]) = Dict.set (parseCommGroups lines) line.rank
        (keepLine (((parseCommGroups lines).lookup line.rank).getD []) line) := by
      rw [parseCommGroups, List.foldl_append, List.foldl_cons, List.foldl_nil, ← parseCommGroups,
        keepLine]
      split <;> rfl
    rw [hstep, Dict.lookup_set, List.filter_append, List.foldl_append]
    by_cases hrank : line.rank = rank
    · subst hrank
      rw [if_pos rfl, Option.getD_some, ih]
      simp
    · rw [if_neg (Ne.symm hrank), ih]
      simp [hrank]

theorem foldl_traceLines (rank : ℕ) (groups : List ℤ) :
    (traceLines rank groups).foldl keepLine [] = kept groups := by
  induction groups using List.reverseRecOn with
  | nil => rfl
  | append_singleton groups x ih =>
    rw [traceLines_concat, List.foldl_append, ih, List.foldl_cons, List.foldl_nil, kept_concat,
      keepLine]
    by_cases hx : x = -2
    · rw [if_pos hx, if_neg fun h => h.2 hx]
    · have hidx : (groups.length : ℤ) ∉ (kept groups).map Prod.fst := by
        rintro hmem
        obtain ⟨⟨i, g⟩, hp, heq⟩ := List.mem_map.mp hmem
        have hlt := (lt_of_mem_kept hp).2
        dsimp only at heq
        omega
      rw [if_neg hx, if_pos ⟨by dsimp only; omega, hx⟩, Dict.set_of_not_mem hidx]

/-- **What a rank loads**: the inverse of the changes of its own communications. -/
theorem loadProvision_eq {lines : List TraceLine} {rank : ℕ} {groups : List ℤ}
    (hlines : (lines.filter fun line => line.rank = rank) = traceLines rank groups) :
    loadProvision lines rank = writeRankCommGroups (changedCommGroups (kept groups)) := by
  have hparse := lookup_parseCommGroups lines rank
  rw [hlines, foldl_traceLines] at hparse
  have hmap : ∀ d : List (ℕ × List (ℤ × ℤ)), ((d.map fun p =>
      (p.1, writeRankCommGroups (changedCommGroups p.2))).lookup rank).getD [] =
      writeRankCommGroups (changedCommGroups ((d.lookup rank).getD [])) := by
    intro d
    induction d with
    | nil => rfl
    | cons p d ih =>
      obtain ⟨r, idxMap⟩ := p
      by_cases hr : rank = r
      · subst hr
        rw [List.map_cons, List.lookup_cons_self, List.lookup_cons_self]
        rfl
      · rw [List.map_cons, Dict.lookup_cons_of_ne hr, Dict.lookup_cons_of_ne hr, ih]
  rw [loadProvision, hmap, hparse]

/-! ## The groups of a rank -/

theorem nodup_writeRankCommGroups (changed : List (ℤ × ℤ)) :
    ((writeRankCommGroups changed).map Prod.fst).Nodup := by
  induction changed using List.reverseRecOn with
  | nil => exact List.nodup_nil
  | append_singleton changed p ih =>
    rw [writeRankCommGroups, List.foldl_append]
    exact Dict.nodup_set ih _ _

/-- **The groups are the inverse of the changes.** -/
theorem mem_writeRankCommGroups (changed : List (ℤ × ℤ)) (idx g : ℤ) :
    (∃ idxs, (g, idxs) ∈ writeRankCommGroups changed ∧ idx ∈ idxs) ↔ (idx, g) ∈ changed := by
  have hlookup : idx ∈ ((writeRankCommGroups changed).lookup g).getD [] ↔ (idx, g) ∈ changed := by
    induction changed using List.reverseRecOn with
    | nil => simp [writeRankCommGroups]
    | append_singleton changed p ih =>
      obtain ⟨idx', g'⟩ := p
      rw [writeRankCommGroups, List.foldl_append, List.foldl_cons, List.foldl_nil,
        ← writeRankCommGroups, Dict.lookup_set, List.mem_append, ← ih]
      by_cases hg : g = g'
      · subst hg
        simp
      · simp [hg]
  rw [← hlookup]
  constructor
  · rintro ⟨idxs, hmem, hidx⟩
    rw [(Dict.lookup_eq_some_iff (nodup_writeRankCommGroups changed) g idxs).mpr hmem]
    exact hidx
  · intro hidx
    cases hl : (writeRankCommGroups changed).lookup g with
    | none =>
      rw [hl] at hidx
      cases hidx
    | some idxs =>
      rw [hl] at hidx
      exact ⟨idxs, (Dict.lookup_eq_some_iff (nodup_writeRankCommGroups changed) g idxs).mp hl, hidx⟩

/-! ## The targets -/

section Targets

variable {provision : List (ℤ × List ℤ)} {commIdx cur g : ℤ}

theorem provisionTarget_of_not_mem (h : ∀ p ∈ provision, commIdx ∉ p.2) :
    provisionTarget provision commIdx cur = cur := by
  apply List.foldlRecOn (motive := fun target => target = cur) provision _ rfl
  intro target ih p hp
  rw [if_neg (h p hp), ih]

/-- The order of the groups does not matter for an index with one group. -/
theorem provisionTarget_of_mem {p : ℤ × List ℤ} (hp : p ∈ provision) (hidx : commIdx ∈ p.2)
    (huniq : ∀ q ∈ provision, commIdx ∈ q.2 → q.1 = p.1) :
    provisionTarget provision commIdx cur = p.1 := by
  obtain ⟨before, after, rfl⟩ := List.append_of_mem hp
  rw [provisionTarget, List.foldl_append, List.foldl_cons, if_pos hidx]
  apply List.foldlRecOn (motive := fun target => target = p.1) after _ rfl
  intro target ih q hq
  split
  · next hmem => exact huniq q (by simp [hq]) hmem
  · exact ih

end Targets

/-- The groups with which a rank calls `post_reconfig`. -/
def finishedGroups (rank : ℕ) (calls : List SchedulerCall) : List ℤ :=
  calls.filterMap fun
    | .postReconfig _ _ r cur => if r = rank then some cur else none
    | _ => none

theorem finishedGroups_cons (rank : ℕ) (call : SchedulerCall) (calls : List SchedulerCall) :
    finishedGroups rank (call :: calls) =
      finishedGroups rank [call] ++ finishedGroups rank calls := by
  rw [finishedGroups, finishedGroups, finishedGroups, ← List.filterMap_append]
  rfl

section Run

variable {E : Stages} {s t : SchedulerState} {rank : ℕ}

theorem curCommIdx_legacyReconfig {gate : Gate} {r : ℕ} {cur prev : ℤ} {skipInflight b : Bool}
    (h : s.legacyReconfig E gate r cur prev skipInflight = some (b, t)) :
    t.curCommIdx = s.curCommIdx := by
  simp only [SchedulerState.legacyReconfig] at h
  split at h
  · split at h <;> cases h <;> rfl
  · cases h

theorem curCommIdx_batchReconfig {gate : Gate} {now : ℕ} {r : TopoRequest} {skipInflight b : Bool}
    (h : s.batchReconfig E gate now r skipInflight = some (b, t)) :
    t.curCommIdx = s.curCommIdx := by
  simp only [SchedulerState.batchReconfig] at h
  split at h
  · cases h
    rfl
  · split at h
    · split at h <;> cases h <;> rfl
    · cases h

theorem curCommIdx_decimalReconfig {gate : Gate} {now : ℕ} {r : TopoRequest}
    {skipInflight b : Bool} (h : s.decimalReconfig E gate now r skipInflight = some (b, t)) :
    t.curCommIdx = s.curCommIdx := by
  simp only [SchedulerState.decimalReconfig] at h
  split at h
  · cases h
    rfl
  · split at h
    · cases h
      rfl
    · -- the window starts now, or has started before
      split at h <;> split at h
      · cases h
        rfl
      · have hidx := curCommIdx_batchReconfig h
        exact hidx
      · cases h
        rfl
      · have hidx := curCommIdx_batchReconfig h
        exact hidx

theorem curCommIdx_preReconfig {gate : Gate} {now r : ℕ} {cur prev : ℤ} {skipInflight b : Bool}
    (h : s.preReconfig E gate now r cur prev skipInflight = some (b, t)) :
    t.curCommIdx = s.curCommIdx := by
  rw [SchedulerState.preReconfig] at h
  split at h
  · exact curCommIdx_decimalReconfig h
  · exact curCommIdx_legacyReconfig h

/-- Only `post_reconfig` counts, and only for its own rank. -/
theorem curCommIdx_schedulerStep {call : SchedulerCall} (h : schedulerStep E s call = some t) :
    t.curCommIdx rank = s.curCommIdx rank + ((finishedGroups rank [call]).length : ℤ) := by
  cases call with
  | preReconfig gate now r cur prev skipInflight =>
    simp only [schedulerStep] at h
    split at h
    · obtain ⟨⟨b, u⟩, hu, rfl⟩ := Option.map_eq_some_iff.mp h
      rw [curCommIdx_preReconfig hu]
      exact (add_zero _).symm
    · cases h
  | postReconfig gate now r cur =>
    simp only [schedulerStep] at h
    have hidx : t.curCommIdx = Function.update s.curCommIdx r (s.curCommIdx r + 1) := by
      split at h
      · simp only [SchedulerState.postReconfig] at h
        split at h
        · cases h
          rfl
        · obtain ⟨⟨b, u⟩, hu, rfl⟩ := Option.map_eq_some_iff.mp h
          exact curCommIdx_preReconfig hu
      · cases h
    rw [hidx]
    by_cases hr : r = rank
    · subst hr
      simp [finishedGroups]
    · rw [Function.update_of_ne (Ne.symm hr)]
      simp [finishedGroups, hr]
  | issueReconfig gate topoId skipInflight =>
    obtain ⟨⟨b, u⟩, hu, rfl⟩ := Option.map_eq_some_iff.mp h
    have hidx : u.curCommIdx = s.curCommIdx := by
      rw [SchedulerState.issueReconfig] at hu
      split at hu
      · split at hu <;> cases hu <;> rfl
      · cases hu
    rw [hidx]
    exact (add_zero _).symm

theorem curCommIdx_run {calls : List SchedulerCall} (h : run (schedulerStep E) s calls = some t) :
    t.curCommIdx rank = s.curCommIdx rank + ((finishedGroups rank calls).length : ℤ) := by
  induction calls generalizing s with
  | nil =>
    cases h
    exact (add_zero _).symm
  | cons call calls ih =>
    rw [run_cons] at h
    obtain ⟨u, hu, hrun⟩ := Option.bind_eq_some_iff.mp h
    rw [ih hrun, curCommIdx_schedulerStep hu, finishedGroups_cons rank call calls,
      List.length_append, Nat.cast_add, add_assoc]

/-- In a run, whatever the other ranks do, a call of a rank is the one of the replay. -/
theorem mem_rankReplay_of_run {calls : List SchedulerCall} {groups : List ℤ} {cur : ℤ}
    (h : run (schedulerStep E) (.initial E) calls = some s)
    (hcalls : finishedGroups rank calls ++ [cur] <+: -10 :: groups) :
    (s.curCommIdx rank, provisionTarget (E.provision rank) (s.curCommIdx rank) cur,
      provisionRequest (E.provision rank) (s.curCommIdx rank) cur) ∈
        rankReplay (E.provision rank) groups := by
  obtain ⟨rest, hrest⟩ := hcalls
  refine mem_replayFrom.mpr ⟨(finishedGroups rank calls).length, cur, ?_, ?_⟩
  · rw [← hrest, List.append_assoc, List.getElem?_append_right le_rfl, Nat.sub_self]
    rfl
  · rw [curCommIdx_run h]
    rfl

end Run

/-! ## The round trip -/

theorem ProvisionedAt.ne_cur {groups : List ℤ} {k : ℕ} {g : ℤ} (h : ProvisionedAt groups k g) :
    ∃ cur, groups[k]? = some cur ∧ g ≠ cur := by
  obtain ⟨m, -, hg, ⟨c, hlast, hne⟩ | ⟨rfl, hpos, hall⟩⟩ := h
  · have hk := hlast.1
    have hlt := hlast.lt
    rw [List.length_take] at hlt
    rw [List.getElem?_take_of_lt (by omega)] at hk
    exact ⟨c, hk, hne.symm⟩
  · exact ⟨-2, hall 0 hpos, hg⟩

/-- **The round trip**: from a trace in which a rank has finished the communications `groups`, it
loads at most one target for an index, and replaying them it asks for a reconfiguration to `g` at
the index `k` exactly when a change to `g` follows `k`, in whatever order the groups are kept. -/
theorem provision_roundTrip {lines : List TraceLine} {rank : ℕ} {groups : List ℤ}
    (hlines : (lines.filter fun line => line.rank = rank) = traceLines rank groups)
    {provision : List (ℤ × List ℤ)} (hperm : provision.Perm (loadProvision lines rank)) :
    (∀ idx, ∀ p ∈ provision, ∀ q ∈ provision, idx ∈ p.2 → idx ∈ q.2 → p = q) ∧
      ∀ idx g, (∃ target, (idx, target, some g) ∈ rankReplay provision groups) ↔
        ∃ k : ℕ, idx = k ∧ ProvisionedAt groups k g := by
  obtain ⟨changed, hchanged⟩ : ∃ changed, changed = changedCommGroups (kept groups) := ⟨_, rfl⟩
  rw [loadProvision_eq hlines, ← hchanged] at hperm
  have hscan := scanOf_kept groups
  obtain ⟨scan, hfold⟩ : ∃ scan, scan = (kept groups).foldl
    (fun (s : ChangeScan) p => s.step p.1 p.2) ⟨[], none, 0⟩ := ⟨_, rfl⟩
  have hscanned : changed = scan.changed := by rw [hchanged, changedCommGroups_kept, hfold]
  rw [← hfold] at hscan
  -- an index is in the list of a group exactly when the change to the group is listed there
  have hmem : ∀ idx g, (∃ p ∈ provision, p.1 = g ∧ idx ∈ p.2) ↔
      changed.lookup idx = some g := by
    intro idx g
    rw [Dict.lookup_eq_some_iff (hscanned ▸ hscan.nodup), ← mem_writeRankCommGroups]
    constructor
    · rintro ⟨⟨g', idxs⟩, hp, rfl, hidx⟩
      exact ⟨idxs, hperm.mem_iff.mp hp, hidx⟩
    · rintro ⟨idxs, hp, hidx⟩
      exact ⟨(g, idxs), hperm.mem_iff.mpr hp, rfl, hidx⟩
  have huniq : ∀ idx, ∀ p ∈ provision, ∀ q ∈ provision, idx ∈ p.2 → idx ∈ q.2 → q.1 = p.1 := by
    intro idx p hp q hq hpidx hqidx
    have hpg := (hmem idx p.1).mp ⟨p, hp, rfl, hpidx⟩
    have hqg := (hmem idx q.1).mp ⟨q, hq, rfl, hqidx⟩
    exact Option.some.inj (hqg.symm.trans hpg)
  have htarget : ∀ idx cur, provisionTarget provision idx cur = (changed.lookup idx).getD cur := by
    intro idx cur
    cases hl : changed.lookup idx with
    | none =>
      apply provisionTarget_of_not_mem
      intro p hp hidx
      rw [(hmem idx p.1).mp ⟨p, hp, rfl, hidx⟩] at hl
      cases hl
    | some g =>
      obtain ⟨p, hp, rfl, hidx⟩ := (hmem idx g).mpr hl
      exact provisionTarget_of_mem hp hidx fun q hq hqidx => huniq idx p hp q hq hidx hqidx
  constructor
  · intro idx p hp q hq hpidx hqidx
    have hnodup := nodup_writeRankCommGroups changed
    have hpl := (Dict.lookup_eq_some_iff hnodup p.1 p.2).mpr (hperm.mem_iff.mp hp)
    have hql := (Dict.lookup_eq_some_iff hnodup q.1 q.2).mpr (hperm.mem_iff.mp hq)
    have hg := huniq idx p hp q hq hpidx hqidx
    rw [hg, hpl] at hql
    exact Prod.ext hg.symm (Option.some.inj hql)
  · intro idx g
    constructor
    · rintro ⟨target, hcall⟩
      obtain ⟨n, cur, hn, heq⟩ := mem_replayFrom.mp hcall
      rw [Prod.mk.injEq, Prod.mk.injEq, provisionRequest, htarget] at heq
      obtain ⟨rfl, -, hrequest⟩ := heq
      cases hl : changed.lookup (-1 + (n : ℤ)) with
      | none => simp [hl] at hrequest
      | some g' =>
        rw [hl, Option.getD_some] at hrequest
        have hne : g' ≠ cur := by
          rintro rfl
          simp at hrequest
        rw [if_pos hne, Option.some_inj] at hrequest
        subst hrequest
        obtain ⟨k, hk, hprov | ⟨rfl, hself⟩⟩ := hscan.sound _ _ (hscanned ▸ hl)
        · exact ⟨k, hk, hprov⟩
        · -- the first group is listed at its own index, where it is not asked for
          obtain rfl : n = 1 := by omega
          rw [List.getElem?_cons_succ, hself] at hn
          exact absurd (Option.some.inj hn) hne
    · rintro ⟨k, rfl, hprov⟩
      obtain ⟨cur, hcur, hne⟩ := hprov.ne_cur
      have hl : changed.lookup (k : ℤ) = some g := hscanned ▸ hscan.complete k g hprov
      have hidx : -1 + ((k + 1 : ℕ) : ℤ) = k := by
        push_cast
        ring
      refine ⟨g, mem_replayFrom.mpr ⟨k + 1, cur, by rwa [List.getElem?_cons_succ], ?_⟩⟩
      rw [hidx, provisionRequest, htarget, hl, Option.getD_some, if_pos hne]

/-- Two data-parallel communications after a tensor-parallel one, and a transfer to rank `4`. -/
def pipelineGroups : List ℤ := [-2, -1, -1, -2, 4]

/-- The trace of rank `0` with a line of rank `1` in it. -/
def pipelineTrace : List TraceLine :=
  ⟨0, -1, -10⟩ :: ⟨1, -1, -10⟩ :: (traceLines 0 pipelineGroups).tail

theorem provision_roundTrip_pipelineTrace :
    (∀ idx, ∀ p ∈ [((4 : ℤ), [(2 : ℤ)]), (-1, [0])], ∀ q ∈ [((4 : ℤ), [(2 : ℤ)]), (-1, [0])],
      idx ∈ p.2 → idx ∈ q.2 → p = q) ∧
    ∀ idx g, (∃ target,
        (idx, target, some g) ∈ rankReplay [(4, [2]), (-1, [0])] pipelineGroups) ↔
      ∃ k : ℕ, idx = k ∧ ProvisionedAt pipelineGroups k g :=
  @provision_roundTrip pipelineTrace 0 pipelineGroups (by decide) [(4, [2]), (-1, [0])] (by decide)

end Opus.Simulation
