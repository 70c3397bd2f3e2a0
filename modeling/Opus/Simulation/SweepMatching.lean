import Mathlib.Data.Prod.Lex
import Opus.Library.Acyclic
import Opus.Simulation.SweepTrace

/-!
# The workloads of the sweep are matched and free of deadlock

Every send has its receive and every receive its send, and the members of a group issue the same
collectives on it in the same order. Forward work of a microbatch moves from stage to stage with the
activations, backward work in the opposite direction with the gradients, so a node is placed by its
phase, by the number of microbatches and transfers before it, and by its id.

## Main definitions

* `dpGroupOf`, `tpGroupOf`, `epGroupOf`: the groups of a rank
* `WellMatched`, `SameCollectives`: transfers and collectives are matched
* `Precedes`, `SameCollective`: what has to happen before what, and what happens at once
* `nodeKey`: the place of a node

## Main results

* `groups_agree`: the members of a group have it in the same role
* `transfer_matched`: the other end of a transfer has exactly one node for it
* `plan_collectivesOn`: the members of a group write its collectives under the same ids
* `nodeKey_lt`: what precedes a node has a smaller place
* `generateWorkload_matched`: the workload is matched, and nothing waits in a cycle
-/

namespace Opus.Simulation

open Relation

/-! ## Groups of ranks -/

section Groups

variable (cfg : SweepConfig) (epSize : ℕ)

def dpGroupOf (rank : ℕ) : ℕ :=
  dpGroupBase cfg epSize + rank / cfg.ranksPerStage * cfg.gpusPerNode + rank % cfg.gpusPerNode

def tpGroupOf (rank : ℕ) : ℕ := tpGroupBase cfg epSize + rank / cfg.gpusPerNode

def epGroupOf (rank : ℕ) : ℕ :=
  rank / cfg.ranksPerStage * epGroupsPerStage cfg epSize + rank % cfg.ranksPerStage / epSize

variable {cfg epSize} {gid rank rank' stage node rail : ℕ} {members : List ℕ}

theorem mem_generateCommGroups : (gid, members) ∈ generateCommGroups cfg epSize ↔
    (∃ stage < cfg.pp, ∃ i < epGroupsPerStage cfg epSize,
      gid = stage * epGroupsPerStage cfg epSize + i ∧ members = epMembers cfg epSize stage i) ∨
    (∃ node < cfg.nodes, gid = tpGroupBase cfg epSize + node ∧ members = tpMembers cfg node) ∨
    (∃ stage < cfg.pp, ∃ rail < cfg.gpusPerNode,
      gid = dpGroupBase cfg epSize + stage * cfg.gpusPerNode + rail ∧
        members = dpMembers cfg stage rail) ∨
    ∃ stage < cfg.pp,
      gid = stageGroupBase cfg epSize + stage ∧ members = stageMembers cfg stage := by
  simp only [generateCommGroups, List.mem_append, List.mem_flatMap, List.mem_map, List.mem_range,
    Prod.mk.injEq, or_assoc]
  simp only [eq_comm]

/-- The stages are made of whole groups of experts. -/
theorem epGroups_mul (h : cfg.Valid) (hep : epSize ∈ cfg.epSizes) :
    epGroupsPerStage cfg epSize * epSize = cfg.ranksPerStage :=
  Nat.div_mul_cancel (h.epSize_dvd epSize hep)

theorem ranksPerStage_pos (h : cfg.Valid) (hep : epSize ∈ cfg.epSizes) : 0 < cfg.ranksPerStage :=
  (h.epSize_pos epSize hep).trans_le (h.epSize_le epSize hep)

theorem stage_lt (h : cfg.Valid) (hrank : rank < cfg.totalGpus) :
    rank / cfg.ranksPerStage < cfg.pp := by
  rw [← h.total_eq] at hrank
  exact Nat.div_lt_of_lt_mul (Nat.mul_comm cfg.pp _ ▸ hrank)

theorem nodes_eq (h : cfg.Valid) : cfg.nodes = cfg.pp * cfg.nodesPerStage := by
  rw [SweepConfig.nodes, ← h.total_eq, ← h.ranks_eq, Nat.mul_left_comm,
    Nat.mul_div_cancel_left _ h.gpusPerNode_pos]

theorem node_lt (h : cfg.Valid) (hrank : rank < cfg.totalGpus) :
    rank / cfg.gpusPerNode < cfg.nodes := by
  rw [nodes_eq h]
  apply Nat.div_lt_of_lt_mul
  rw [Nat.mul_left_comm, h.ranks_eq, h.total_eq]
  exact hrank

/-- A node belongs to one stage. -/
theorem stage_of_node (h : cfg.Valid) (rank : ℕ) :
    rank / cfg.ranksPerStage = rank / cfg.gpusPerNode / cfg.nodesPerStage := by
  rw [Nat.div_div_eq_div_mul, h.ranks_eq]

theorem mem_epMembers_iff (h : cfg.Valid) (hep : epSize ∈ cfg.epSizes) {i : ℕ}
    (hi : i < epGroupsPerStage cfg epSize) :
    rank ∈ epMembers cfg epSize stage i ↔
      rank / cfg.ranksPerStage = stage ∧ rank % cfg.ranksPerStage / epSize = i := by
  have hpos := h.epSize_pos epSize hep
  have hmul := epGroups_mul h hep
  rw [epMembers, List.mem_range'_1]
  constructor
  · rintro ⟨hlo, hhi⟩
    obtain ⟨x, rfl⟩ := Nat.exists_eq_add_of_le hlo
    have hx : x < epSize := by omega
    obtain ⟨h1, h2, -⟩ := RowMajor.parts (p := stage) hi hx
    rw [hmul] at h1 h2
    exact ⟨h1, h2⟩
  · rintro ⟨hstage, hi'⟩
    have hd := Nat.div_add_mod rank cfg.ranksPerStage
    have hd' := Nat.div_add_mod (rank % cfg.ranksPerStage) epSize
    have hlt := Nat.mod_lt (rank % cfg.ranksPerStage) hpos
    rw [hstage, Nat.mul_comm] at hd
    rw [hi', Nat.mul_comm] at hd'
    omega

theorem mem_tpMembers_iff (h : cfg.Valid) : rank ∈ tpMembers cfg node ↔
    rank / cfg.gpusPerNode = node := by
  rw [tpMembers, List.mem_range'_1, Nat.div_eq_iff h.gpusPerNode_pos]
  have hpos := h.gpusPerNode_pos
  omega

theorem mem_dpMembers_iff (h : cfg.Valid) (hep : epSize ∈ cfg.epSizes)
    (hrail : rail < cfg.gpusPerNode) : rank ∈ dpMembers cfg stage rail ↔
      rank / cfg.ranksPerStage = stage ∧ rank % cfg.gpusPerNode = rail := by
  rw [mem_dpMembers]
  constructor
  · rintro ⟨a, ha, rfl⟩
    obtain ⟨h1, -, -, h2, -⟩ := rankOf_parts stage h ha hrail
    exact ⟨h1, h2⟩
  · rintro ⟨hstage, hr⟩
    have hlt : rank % cfg.ranksPerStage < cfg.gpusPerNode * cfg.nodesPerStage := by
      rw [h.ranks_eq]
      exact Nat.mod_lt _ (ranksPerStage_pos h hep)
    refine ⟨rank % cfg.ranksPerStage / cfg.gpusPerNode, Nat.div_lt_of_lt_mul hlt, ?_⟩
    have hd := Nat.div_add_mod rank cfg.ranksPerStage
    have hd' := Nat.div_add_mod (rank % cfg.ranksPerStage) cfg.gpusPerNode
    rw [hstage, Nat.mul_comm] at hd
    rw [Nat.mod_mod_of_dvd _ h.gpusPerNode_dvd, hr, Nat.mul_comm] at hd'
    rw [rankOf]
    omega

theorem mem_stageMembers_iff (h : cfg.Valid) (hep : epSize ∈ cfg.epSizes) :
    rank ∈ stageMembers cfg stage ↔ rank / cfg.ranksPerStage = stage := by
  have hpos := ranksPerStage_pos h hep
  rw [stageMembers, List.mem_range'_1, Nat.div_eq_iff hpos]
  omega

/-- The numbers of the groups of a rank, by their kinds. -/
theorem group_bounds (h : cfg.Valid) (hep : epSize ∈ cfg.epSizes) (hrank : rank < cfg.totalGpus) :
    epGroupOf cfg epSize rank < tpGroupBase cfg epSize ∧
      tpGroupBase cfg epSize ≤ tpGroupOf cfg epSize rank ∧
      tpGroupOf cfg epSize rank < dpGroupBase cfg epSize ∧
      dpGroupBase cfg epSize ≤ dpGroupOf cfg epSize rank ∧
      dpGroupOf cfg epSize rank < stageGroupBase cfg epSize := by
  have hstage := stage_lt h hrank
  have hnode := node_lt h hrank
  have hrail := Nat.mod_lt rank h.gpusPerNode_pos
  have hidx : rank % cfg.ranksPerStage / epSize < epGroupsPerStage cfg epSize := by
    apply Nat.div_lt_of_lt_mul
    rw [Nat.mul_comm, epGroups_mul h hep]
    exact Nat.mod_lt _ (ranksPerStage_pos h hep)
  have hep' := Nat.mul_le_mul_right (epGroupsPerStage cfg epSize) (Nat.succ_le_of_lt hstage)
  have hdp := Nat.mul_le_mul_right cfg.gpusPerNode (Nat.succ_le_of_lt hstage)
  rw [Nat.succ_mul] at hep' hdp
  simp only [epGroupOf, tpGroupOf, dpGroupOf, stageGroupBase, dpGroupBase, tpGroupBase]
  generalize rank / cfg.gpusPerNode = node at *
  generalize rank % cfg.ranksPerStage / epSize = idx at *
  omega

/-- **The role of a group**: it has one stage, and is a group of each member in the role that its
number tells. -/
theorem group_role (h : cfg.Valid) (hep : epSize ∈ cfg.epSizes)
    (hg : (gid, members) ∈ generateCommGroups cfg epSize) :
    ∃ stage < cfg.pp, ∀ rank ∈ members, rank / cfg.ranksPerStage = stage ∧
      (gid = epGroupOf cfg epSize rank ∨ gid = tpGroupOf cfg epSize rank ∨
        gid = dpGroupOf cfg epSize rank ∨ stageGroupBase cfg epSize ≤ gid) := by
  rcases mem_generateCommGroups.mp hg with ⟨stage, hstage, i, hi, rfl, rfl⟩ |
    ⟨node, hnode, rfl, rfl⟩ | ⟨stage, hstage, rail, hrail, rfl, rfl⟩ | ⟨stage, hstage, rfl, rfl⟩
  · refine ⟨stage, hstage, fun rank hr => ?_⟩
    obtain ⟨rfl, rfl⟩ := (mem_epMembers_iff h hep hi).mp hr
    exact ⟨rfl, .inl rfl⟩
  · refine ⟨node / cfg.nodesPerStage, ?_, fun rank hr => ?_⟩
    · rw [nodes_eq h, Nat.mul_comm] at hnode
      exact Nat.div_lt_of_lt_mul hnode
    · obtain rfl := (mem_tpMembers_iff h).mp hr
      exact ⟨stage_of_node h rank, .inr (.inl rfl)⟩
  · refine ⟨stage, hstage, fun rank hr => ?_⟩
    obtain ⟨rfl, rfl⟩ := (mem_dpMembers_iff h hep hrail).mp hr
    exact ⟨rfl, .inr (.inr (.inl rfl))⟩
  · refine ⟨stage, hstage, fun rank hr => ?_⟩
    exact ⟨(mem_stageMembers_iff h hep).mp hr, .inr (.inr (.inr (Nat.le_add_right _ _)))⟩

theorem lt_totalGpus_of_stage (h : cfg.Valid) (hep : epSize ∈ cfg.epSizes)
    (hstage : rank / cfg.ranksPerStage < cfg.pp) : rank < cfg.totalGpus := by
  rw [← h.total_eq]
  exact (Nat.div_lt_iff_lt_mul (ranksPerStage_pos h hep)).mp hstage

/-- **The members of a group have it in the same role**, and are of one stage. -/
theorem groups_agree (h : cfg.Valid) (hep : epSize ∈ cfg.epSizes)
    (hg : (gid, members) ∈ generateCommGroups cfg epSize) (hr : rank ∈ members)
    (hr' : rank' ∈ members) :
    rank / cfg.ranksPerStage = rank' / cfg.ranksPerStage ∧
      (dpGroupOf cfg epSize rank = gid ↔ dpGroupOf cfg epSize rank' = gid) ∧
      (tpGroupOf cfg epSize rank = gid ↔ tpGroupOf cfg epSize rank' = gid) ∧
      (epGroupOf cfg epSize rank = gid ↔ epGroupOf cfg epSize rank' = gid) := by
  obtain ⟨stage, hstage, hrole⟩ := group_role h hep hg
  obtain ⟨hs, hkind⟩ := hrole rank hr
  obtain ⟨hs', hkind'⟩ := hrole rank' hr'
  have hb := group_bounds h hep (lt_totalGpus_of_stage h hep (hs.symm ▸ hstage))
  have hb' := group_bounds h hep (lt_totalGpus_of_stage h hep (hs'.symm ▸ hstage))
  refine ⟨hs.trans hs'.symm, ?_, ?_, ?_⟩
  -- the range of a number tells its role
  · omega
  · omega
  · omega

/-- A member of a group is a rank. -/
theorem lt_totalGpus_of_mem (h : cfg.Valid) (hep : epSize ∈ cfg.epSizes)
    (hg : (gid, members) ∈ generateCommGroups cfg epSize) (hr : rank ∈ members) :
    rank < cfg.totalGpus := by
  obtain ⟨stage, hstage, hrole⟩ := group_role h hep hg
  exact lt_totalGpus_of_stage h hep ((hrole rank hr).1.symm ▸ hstage)

/-- The group of a rank in each role has the rank. -/
theorem mem_groups_of_rank (h : cfg.Valid) (hep : epSize ∈ cfg.epSizes)
    (hrank : rank < cfg.totalGpus) :
    (∃ members, (epGroupOf cfg epSize rank, members) ∈ generateCommGroups cfg epSize ∧
      rank ∈ members) ∧
    (∃ members, (tpGroupOf cfg epSize rank, members) ∈ generateCommGroups cfg epSize ∧
      rank ∈ members) ∧
    ∃ members, (dpGroupOf cfg epSize rank, members) ∈ generateCommGroups cfg epSize ∧
      rank ∈ members := by
  have hstage := stage_lt h hrank
  have hrail := Nat.mod_lt rank h.gpusPerNode_pos
  have hidx : rank % cfg.ranksPerStage / epSize < epGroupsPerStage cfg epSize := by
    apply Nat.div_lt_of_lt_mul
    rw [Nat.mul_comm, epGroups_mul h hep]
    exact Nat.mod_lt _ (ranksPerStage_pos h hep)
  refine ⟨⟨_, mem_generateCommGroups.mpr (.inl ⟨_, hstage, _, hidx, rfl, rfl⟩), ?_⟩,
    ⟨_, mem_generateCommGroups.mpr (.inr (.inl ⟨_, node_lt h hrank, rfl, rfl⟩)), ?_⟩,
    ⟨_, mem_generateCommGroups.mpr (.inr (.inr (.inl ⟨_, hstage, _, hrail, rfl, rfl⟩))), ?_⟩⟩
  · exact (mem_epMembers_iff h hep hidx).mpr ⟨rfl, rfl⟩
  · exact (mem_tpMembers_iff h).mpr rfl
  · exact (mem_dpMembers_iff h hep hrail).mpr ⟨rfl, rfl⟩

/-- A loop that keeps the last value which passes a test, where one value at most does. -/
theorem foldl_keep {l : List (ℕ × List ℕ)} {p : ℕ × List ℕ → Prop} [DecidablePred p] {v : ℕ}
    (huniq : ∀ group ∈ l, p group → group.1 = v) (hsome : ∃ group ∈ l, p group)
    (found : Option ℕ) :
    l.foldl (fun found group => if p group then some group.1 else found) found = some v := by
  have hkept : ∀ l : List (ℕ × List ℕ), (∀ group ∈ l, p group → group.1 = v) →
      l.foldl (fun found group => if p group then some group.1 else found) (some v) = some v := by
    intro l huniq
    induction l with
    | nil => rfl
    | cons group l ih =>
      have hstep : (if p group then some group.1 else some v) = some v := by
        split
        · next hp => rw [huniq group List.mem_cons_self hp]
        · rfl
      rw [List.foldl_cons, hstep]
      exact ih fun group' hg => huniq group' (List.mem_cons_of_mem _ hg)
  induction l generalizing found with
  | nil =>
    obtain ⟨group, hg, -⟩ := hsome
    exact absurd hg List.not_mem_nil
  | cons group l ih =>
    have htail : ∀ group' ∈ l, p group' → group'.1 = v :=
      fun group' hg => huniq group' (List.mem_cons_of_mem _ hg)
    rw [List.foldl_cons]
    by_cases hp : p group
    · rw [if_pos hp, huniq group List.mem_cons_self hp]
      exact hkept l htail
    · apply ih htail
      obtain ⟨group', hg, hp'⟩ := hsome
      rcases List.mem_cons.mp hg with rfl | hg
      · exact absurd hp' hp
      · exact ⟨group', hg, hp'⟩

/-- **Every rank has its group of experts**. -/
theorem rankToEpGroup_eq (h : cfg.Valid) (hep : epSize ∈ cfg.epSizes)
    (hrank : rank < cfg.totalGpus) :
    rankToEpGroup cfg epSize rank = some (epGroupOf cfg epSize rank) := by
  have hb := group_bounds h hep hrank
  obtain ⟨⟨members, hg, hr⟩, -⟩ := mem_groups_of_rank h hep hrank
  have hloop := @foldl_keep (generateCommGroups cfg epSize)
    (fun group => ¬ tpGroupBase cfg epSize ≤ group.1 ∧ rank ∈ group.2) _
    (epGroupOf cfg epSize rank) ?_ ⟨_, hg, hb.1.not_ge, hr⟩ none
  · rw [← hloop, rankToEpGroup]
    congr 1
    funext found group
    by_cases hbase : tpGroupBase cfg epSize ≤ group.1
    · rw [if_pos hbase, if_neg fun hp => hp.1 hbase]
    · simp only [hbase, if_false, not_false_iff, true_and]
  · rintro ⟨gid, members⟩ hg ⟨hbase, hr⟩
    obtain ⟨stage, hstage, hrole⟩ := group_role h hep hg
    obtain ⟨-, hkind⟩ := hrole rank hr
    dsimp only at hbase ⊢
    have hle : tpGroupBase cfg epSize ≤ stageGroupBase cfg epSize := by omega
    omega

end Groups

/-! ## The traces of a workload -/

/-- The traces are those of a generator for the ranks of a configuration. -/
structure WrittenBy (cfg : SweepConfig) (epSize : ℕ) (G : Generator)
    (traces : List (List SweepNode)) : Prop where
  rps : G.shape.rps = cfg.ranksPerStage
  gpn : G.shape.gpn = cfg.gpusPerNode
  pp : G.shape.pp = cfg.pp
  total : G.shape.total = cfg.totalGpus
  tpGroupBase : G.tpGroupBase = tpGroupBase cfg epSize
  dpGroupBase : G.dpGroupBase = dpGroupBase cfg epSize
  length : traces.length = cfg.totalGpus
  trace : ∀ rank < cfg.totalGpus,
    traces.getD rank [] = G.rankTrace (epGroupOf cfg epSize rank) rank

theorem shape_eq {F : Floats} {cfg : SweepConfig} {epSize : ℕ} {shape : WorkloadShape}
    (h : workloadShape F cfg epSize = some shape) :
    shape.rps = cfg.ranksPerStage ∧ shape.gpn = cfg.gpusPerNode ∧ shape.pp = cfg.pp ∧
      shape.total = cfg.totalGpus := by
  unfold workloadShape at h
  split at h
  · cases h
  · obtain ⟨attn, -, h⟩ := Option.bind_eq_some_iff.mp h
    obtain ⟨router, -, h⟩ := Option.bind_eq_some_iff.mp h
    obtain ⟨expert, -, h⟩ := Option.bind_eq_some_iff.mp h
    obtain rfl := Option.some.inj h
    exact ⟨rfl, rfl, rfl, rfl⟩

theorem mapM_eq_map {α β : Type*} {f : α → Option β} {g : α → β} {l : List α}
    (h : ∀ a ∈ l, f a = some (g a)) : l.mapM f = some (l.map g) := by
  induction l with
  | nil => rfl
  | cons a l ih =>
    rw [List.mapM_cons, h a List.mem_cons_self, ih fun b hb => h b (List.mem_cons_of_mem _ hb)]
    rfl

/-- **What `generate_workload` writes.** -/
theorem writtenBy_generateWorkload {F : Floats} {cfg : SweepConfig} {epSize : ℕ}
    {variant : Variant} {traces : List (List SweepNode)} (h : cfg.Valid)
    (hep : epSize ∈ cfg.epSizes) (ht : generateWorkload F cfg epSize variant = some traces) :
    ∃ G, WrittenBy cfg epSize G traces := by
  obtain ⟨shape, hshape, ht⟩ := Option.bind_eq_some_iff.mp ht
  obtain ⟨hrps, hgpn, hpp, htotal⟩ := shape_eq hshape
  have hmap := @mapM_eq_map ℕ (List SweepNode)
    (fun rank => (rankToEpGroup cfg epSize rank).map fun epGroup =>
      (generator F cfg epSize variant shape).rankTrace epGroup rank)
    (fun rank => (generator F cfg epSize variant shape).rankTrace (epGroupOf cfg epSize rank) rank)
    (List.range cfg.totalGpus) fun rank hrank => by
      rw [rankToEpGroup_eq h hep (List.mem_range.mp hrank)]
      rfl
  obtain rfl := Option.some.inj (ht.symm.trans hmap)
  refine ⟨generator F cfg epSize variant shape, hrps, hgpn, hpp, htotal, rfl, rfl, ?_, ?_⟩
  · rw [List.length_map, List.length_range]
  · intro rank hrank
    rw [List.getD_eq_getElem?_getD, List.getElem?_map, List.getElem?_range hrank]
    rfl

/-! ## Transfers -/

theorem mem_stageTransfers {G : Generator} {stage : ℕ} {name : NodeName} :
    name ∈ G.stageTransfers stage ↔ ∃ t, ∃ mb < G.shape.microbatches,
      (t.arrives G.shape.pp stage = true ∧ name = recvName t mb) ∨
        (t.leaves G.shape.pp stage = true ∧ name = sendName t mb) := by
  have hmem : ∀ (p : Prop) [Decidable p] (l : List ℕ) (f : ℕ → NodeName),
      name ∈ (if p then l.map f else []) ↔ p ∧ ∃ mb ∈ l, f mb = name := by
    intro p _ l f
    by_cases hp : p
    · rw [if_pos hp, List.mem_map]
      exact (and_iff_right hp).symm
    · rw [if_neg hp]
      exact ⟨fun h => absurd h List.not_mem_nil, fun h => absurd h.1 hp⟩
  simp only [Generator.stageTransfers, List.mem_append, hmem, List.mem_reverse, List.mem_range]
  constructor
  · rintro (((⟨hs, mb, hmb, rfl⟩ | ⟨hs, mb, hmb, rfl⟩) | ⟨hs, mb, hmb, rfl⟩) | ⟨hs, mb, hmb, rfl⟩)
    · exact ⟨.activation, mb, hmb, .inl ⟨decide_eq_true hs, rfl⟩⟩
    · exact ⟨.activation, mb, hmb, .inr ⟨decide_eq_true hs, rfl⟩⟩
    · exact ⟨.grad, mb, hmb, .inl ⟨decide_eq_true hs, rfl⟩⟩
    · exact ⟨.grad, mb, hmb, .inr ⟨decide_eq_true hs, rfl⟩⟩
  · rintro ⟨t, mb, hmb, ⟨hs, rfl⟩ | ⟨hs, rfl⟩⟩
    · cases t with
      | activation => exact .inl (.inl (.inl ⟨of_decide_eq_true hs, mb, hmb, rfl⟩))
      | grad => exact .inl (.inr ⟨of_decide_eq_true hs, mb, hmb, rfl⟩)
    · cases t with
      | activation => exact .inl (.inl (.inr ⟨of_decide_eq_true hs, mb, hmb, rfl⟩))
      | grad => exact .inr ⟨of_decide_eq_true hs, mb, hmb, rfl⟩

/-- Every transfer is written once. -/
theorem nodup_stageTransfers (G : Generator) (stage : ℕ) : (G.stageTransfers stage).Nodup := by
  have hmap : ∀ (p : Prop) [Decidable p] (l : List ℕ) (part : Part), l.Nodup →
      (if p then l.map fun mb => NodeName.mk mb none part else []).Nodup := by
    intro p _ l part hl
    split
    · apply hl.map
      intro mb mb' heq
      exact congrArg NodeName.mb heq
    · exact List.nodup_nil
  have hpart : ∀ (p : Prop) [Decidable p] (l : List ℕ) (part : Part) (name : NodeName),
      name ∈ (if p then l.map fun mb => NodeName.mk mb none part else []) → name.part = part := by
    intro p _ l part name hname
    split at hname
    · obtain ⟨mb, -, rfl⟩ := List.mem_map.mp hname
      rfl
    · exact absurd hname List.not_mem_nil
  have hrange := @List.nodup_range G.shape.microbatches
  -- the four blocks have different parts
  apply List.Nodup.append
  · apply List.Nodup.append
    · apply List.Nodup.append
      · exact hmap _ _ _ hrange
      · exact hmap _ _ _ hrange
      · intro name h h'
        exact absurd ((hpart _ _ _ _ h).symm.trans (hpart _ _ _ _ h')) (by decide)
    · exact hmap _ _ _ hrange
    · intro name h h'
      have hp := hpart _ _ _ _ h'
      rcases List.mem_append.mp h with h | h
      · exact absurd ((hpart _ _ _ _ h).symm.trans hp) (by decide)
      · exact absurd ((hpart _ _ _ _ h).symm.trans hp) (by decide)
  · exact hmap _ _ _ (List.nodup_reverse.mpr hrange)
  · intro name h h'
    have hp := hpart _ _ _ _ h'
    rcases List.mem_append.mp h with h | h
    · rcases List.mem_append.mp h with h | h
      · exact absurd ((hpart _ _ _ _ h).symm.trans hp) (by decide)
      · exact absurd ((hpart _ _ _ _ h).symm.trans hp) (by decide)
    · exact absurd ((hpart _ _ _ _ h).symm.trans hp) (by decide)

section Neighbours

variable {t : Transfer} {pp rps rank : ℕ}

theorem stage_pos_iff (hrps : 0 < rps) : 0 < rank / rps ↔ rps ≤ rank := by
  rw [Nat.div_pos_iff]
  exact and_iff_right hrps

theorem stage_succ_lt_iff (hrps : 0 < rps) : rank / rps + 1 < pp ↔ rank + rps < pp * rps := by
  rw [← Nat.add_div_right _ hrps, Nat.div_lt_iff_lt_mul hrps]

/-- The rank that a transfer goes to expects it. -/
theorem Transfer.dst_of_leaves (hrps : 0 < rps) (hrank : rank < pp * rps)
    (h : t.leaves pp (rank / rps) = true) :
    t.dst rps rank < pp * rps ∧ t.arrives pp (t.dst rps rank / rps) = true ∧
      t.src rps (t.dst rps rank) = rank := by
  cases t with
  | activation =>
    have hle := (stage_succ_lt_iff hrps).mp (of_decide_eq_true h)
    refine ⟨hle, decide_eq_true ((stage_pos_iff hrps).mpr ?_), Nat.add_sub_cancel _ _⟩
    exact Nat.le_add_left _ _
  | grad =>
    have hle := (stage_pos_iff hrps).mp (of_decide_eq_true h)
    have hback : rank - rps + rps = rank := Nat.sub_add_cancel hle
    refine ⟨(Nat.sub_le _ _).trans_lt hrank,
      decide_eq_true ((stage_succ_lt_iff hrps).mpr ?_), hback⟩
    rw [Transfer.dst, hback]
    exact hrank

/-- The rank that a transfer comes from sends it. -/
theorem Transfer.src_of_arrives (hrps : 0 < rps) (hrank : rank < pp * rps)
    (h : t.arrives pp (rank / rps) = true) :
    t.src rps rank < pp * rps ∧ t.leaves pp (t.src rps rank / rps) = true ∧
      t.dst rps (t.src rps rank) = rank := by
  cases t with
  | activation =>
    have hle := (stage_pos_iff hrps).mp (of_decide_eq_true h)
    have hback : rank - rps + rps = rank := Nat.sub_add_cancel hle
    refine ⟨(Nat.sub_le _ _).trans_lt hrank,
      decide_eq_true ((stage_succ_lt_iff hrps).mpr ?_), hback⟩
    rw [Transfer.src, hback]
    exact hrank
  | grad =>
    have hle := (stage_succ_lt_iff hrps).mp (of_decide_eq_true h)
    refine ⟨hle, decide_eq_true ((stage_pos_iff hrps).mpr ?_), Nat.add_sub_cancel _ _⟩
    exact Nat.le_add_left _ _

/-- Activations and gradients come from different ranks. -/
theorem Transfer.src_inj {t' : Transfer} (hrps : 0 < rps) (h : t.src rps rank = t'.src rps rank) :
    t = t' := by
  have hle : rank - rps ≤ rank := Nat.sub_le _ _
  cases t <;> cases t' <;> simp only [src, reduceCtorEq] at * <;> omega

/-- Activations and gradients go to different ranks. -/
theorem Transfer.dst_inj {t' : Transfer} (hrps : 0 < rps) (h : t.dst rps rank = t'.dst rps rank) :
    t = t' := by
  have hle : rank - rps ≤ rank := Nat.sub_le _ _
  cases t <;> cases t' <;> simp only [dst, reduceCtorEq] at * <;> omega

end Neighbours

/-- The number of nodes that do what one transfer does. -/
theorem countP_op_eq_one {G : Generator} {g : RankGroups} {rank stage : ℕ} {c : Cursor}
    {name : NodeName} (h : Sound G g rank c)
    (hnames : transferNames c.nodes = G.stageTransfers stage)
    (hmem : name ∈ G.stageTransfers stage)
    (huniq : ∀ name' ∈ G.stageTransfers stage, G.opOf g rank name' = G.opOf g rank name →
      name' = name)
    (htransfer : ∀ name', G.opOf g rank name' = G.opOf g rank name → name'.part.isTransfer = true) :
    c.nodes.countP (fun n => n.op = G.opOf g rank name) = 1 := by
  have hcount : c.nodes.countP (fun n => n.op = G.opOf g rank name) =
      (transferNames c.nodes).countP (fun name' => G.opOf g rank name' = G.opOf g rank name) := by
    rw [transferNames, List.countP_filter, List.countP_map]
    apply List.countP_congr
    intro n hn
    simp only [Function.comp_apply, decide_eq_true_eq, Bool.and_eq_true, h.op n hn]
    exact ⟨fun heq => ⟨heq, htransfer _ heq⟩, fun heq => heq.1⟩
  rw [hcount, hnames]
  have hone : (G.stageTransfers stage).countP
      (fun name' => G.opOf g rank name' = G.opOf g rank name) =
      (G.stageTransfers stage).count name := by
    apply List.countP_congr
    intro name' hname'
    rw [decide_eq_true_eq, beq_iff_eq]
    exact ⟨huniq name' hname', fun heq => by rw [heq]⟩
  rw [hone]
  exact List.count_eq_one_of_mem (nodup_stageTransfers G stage) hmem

/-- **Transfers are matched**: a send has one receive at its destination, and a receive one send at
its source. -/
structure WellMatched (traces : List (List SweepNode)) : Prop where
  recv_of_send : ∀ rank, ∀ n ∈ traces.getD rank [], ∀ src dst size tag,
    n.op = .send src dst size tag → src = rank ∧ dst < traces.length ∧
      (traces.getD dst []).countP (fun m => m.op = .recv src dst size tag) = 1
  send_of_recv : ∀ rank, ∀ n ∈ traces.getD rank [], ∀ src dst size tag,
    n.op = .recv src dst size tag → dst = rank ∧ src < traces.length ∧
      (traces.getD src []).countP (fun m => m.op = .send src dst size tag) = 1

section Matched

variable {cfg : SweepConfig} {epSize rank : ℕ} {G : Generator} {g g' : RankGroups}
  {traces : List (List SweepNode)} {t : Transfer} {mb : ℕ} {name : NodeName}

/-- There are no nodes beyond the last rank. -/
theorem lt_of_mem_getD {n : SweepNode} (hn : n ∈ traces.getD rank []) : rank < traces.length := by
  by_contra hle
  rw [List.getD_eq_getElem?_getD, List.getElem?_eq_none (not_lt.mp hle)] at hn
  exact absurd hn List.not_mem_nil

/-- What a send does tells its name. -/
theorem part_of_opOf_send {src dst size tag : ℕ}
    (h : G.opOf g rank name = .send src dst size tag) :
    ∃ t, name.part = .ppSend t ∧ src = rank ∧ dst = t.dst G.shape.rps rank ∧
      size = G.shape.commSize ∧ tag = G.tag t name.mb rank := by
  obtain ⟨mb, layer, part⟩ := name
  cases part with
  | ppSend t =>
    obtain ⟨rfl, rfl, rfl, rfl⟩ := SweepOp.send.inj h
    exact ⟨t, rfl, rfl, rfl, rfl, rfl⟩
  | epDispatchFwd => simp only [Generator.opOf] at h; split at h <;> cases h
  | epCombineFwd => simp only [Generator.opOf] at h; split at h <;> cases h
  | epCombineBwd => simp only [Generator.opOf] at h; split at h <;> cases h
  | epDispatchBwd => simp only [Generator.opOf] at h; split at h <;> cases h
  | _ => cases h

/-- What a receive does tells its name. -/
theorem part_of_opOf_recv {src dst size tag : ℕ}
    (h : G.opOf g rank name = .recv src dst size tag) :
    ∃ t, name.part = .ppRecv t ∧ src = t.src G.shape.rps rank ∧ dst = rank ∧
      size = G.shape.commSize ∧ tag = G.tag t name.mb src := by
  obtain ⟨mb, layer, part⟩ := name
  cases part with
  | ppRecv t =>
    obtain ⟨rfl, rfl, rfl, rfl⟩ := SweepOp.recv.inj h
    exact ⟨t, rfl, rfl, rfl, rfl, rfl⟩
  | epDispatchFwd => simp only [Generator.opOf] at h; split at h <;> cases h
  | epCombineFwd => simp only [Generator.opOf] at h; split at h <;> cases h
  | epCombineBwd => simp only [Generator.opOf] at h; split at h <;> cases h
  | epDispatchBwd => simp only [Generator.opOf] at h; split at h <;> cases h
  | _ => cases h

/-- The tag of a transfer between two ranks tells its microbatch. -/
theorem Generator.tag_inj {mb mb' src : ℕ} (htotal : 0 < G.shape.total)
    (h : G.tag t mb src = G.tag t mb' src) : mb = mb' := by
  simp only [Generator.tag, Nat.add_right_cancel_iff, Nat.add_left_cancel_iff] at h
  exact Nat.eq_of_mul_eq_mul_right htotal h

/-- A transfer node of a trace is one of those of its stage. -/
theorem name_mem_stageTransfers {c : Cursor} {stage : ℕ} {n : SweepNode}
    (hnames : transferNames c.nodes = G.stageTransfers stage) (hn : n ∈ c.nodes)
    (hpart : n.name.part.isTransfer = true) : n.name ∈ G.stageTransfers stage := by
  rw [← hnames]
  exact List.mem_filter.mpr ⟨List.mem_map_of_mem hn, hpart⟩

theorem recv_mem_stageTransfers {stage : ℕ} (h : name ∈ G.stageTransfers stage)
    (hpart : name.part = .ppRecv t) :
    t.arrives G.shape.pp stage = true ∧ name.mb < G.shape.microbatches ∧
      name = recvName t name.mb := by
  obtain ⟨t', mb, hmb, ⟨hs, rfl⟩ | ⟨-, rfl⟩⟩ := mem_stageTransfers.mp h
  · cases hpart
    exact ⟨hs, hmb, rfl⟩
  · cases hpart

theorem send_mem_stageTransfers {stage : ℕ} (h : name ∈ G.stageTransfers stage)
    (hpart : name.part = .ppSend t) :
    t.leaves G.shape.pp stage = true ∧ name.mb < G.shape.microbatches ∧
      name = sendName t name.mb := by
  obtain ⟨t', mb, hmb, ⟨-, rfl⟩ | ⟨hs, rfl⟩⟩ := mem_stageTransfers.mp h
  · cases hpart
  · cases hpart
    exact ⟨hs, hmb, rfl⟩

/-- A receive of a stage has one node. -/
theorem countP_recv {c : Cursor} {stage : ℕ} (hrps : 0 < G.shape.rps) (htotal : 0 < G.shape.total)
    (h : Sound G g rank c) (hnames : transferNames c.nodes = G.stageTransfers stage)
    (hmb : mb < G.shape.microbatches) (harr : t.arrives G.shape.pp stage = true) :
    c.nodes.countP (fun n => n.op = G.opOf g rank (recvName t mb)) = 1 := by
  apply countP_op_eq_one h hnames (mem_stageTransfers.mpr ⟨t, mb, hmb, .inl ⟨harr, rfl⟩⟩)
  · intro name hname heq
    obtain ⟨t', hpart, hsrc, -, -, htag⟩ := part_of_opOf_recv heq
    obtain ⟨-, -, hself⟩ := recv_mem_stageTransfers hname hpart
    obtain rfl := Transfer.src_inj hrps hsrc
    have hmb' : mb = name.mb := Generator.tag_inj htotal htag
    rw [hself, ← hmb']
  · intro name heq
    obtain ⟨t', hpart, -⟩ := part_of_opOf_recv heq
    rw [hpart]
    rfl

/-- A send of a stage has one node. -/
theorem countP_send {c : Cursor} {stage : ℕ} (hrps : 0 < G.shape.rps) (htotal : 0 < G.shape.total)
    (h : Sound G g rank c) (hnames : transferNames c.nodes = G.stageTransfers stage)
    (hmb : mb < G.shape.microbatches) (hleaves : t.leaves G.shape.pp stage = true) :
    c.nodes.countP (fun n => n.op = G.opOf g rank (sendName t mb)) = 1 := by
  apply countP_op_eq_one h hnames (mem_stageTransfers.mpr ⟨t, mb, hmb, .inr ⟨hleaves, rfl⟩⟩)
  · intro name hname heq
    obtain ⟨t', hpart, -, hdst, -, htag⟩ := part_of_opOf_send heq
    obtain ⟨-, -, hself⟩ := send_mem_stageTransfers hname hpart
    obtain rfl := Transfer.dst_inj hrps hdst
    have hmb' : mb = name.mb := Generator.tag_inj htotal htag
    rw [hself, ← hmb']
  · intro name heq
    obtain ⟨t', hpart, -⟩ := part_of_opOf_send heq
    rw [hpart]
    rfl

/-- The trace of a rank is sound and has the transfers of its stage. -/
theorem WrittenBy.sound (hw : WrittenBy cfg epSize G traces) (hrank : rank < cfg.totalGpus) :
    ∃ c, c.nodes = traces.getD rank [] ∧
      Sound G (G.rankGroups (epGroupOf cfg epSize rank) rank) rank c ∧
      transferNames c.nodes = G.stageTransfers (rank / G.shape.rps) := by
  rw [hw.trace rank hrank]
  exact sound_rankTrace G _ rank

theorem WrittenBy.lt_total (hw : WrittenBy cfg epSize G traces) {n : SweepNode}
    (hn : n ∈ traces.getD rank []) : rank < cfg.totalGpus :=
  hw.length ▸ lt_of_mem_getD hn

/-- **The other end of a transfer** has exactly one node for it. -/
theorem transfer_matched (h : cfg.Valid) (hep : epSize ∈ cfg.epSizes)
    (hw : WrittenBy cfg epSize G traces) : WellMatched traces := by
  have hrps : 0 < G.shape.rps := hw.rps ▸ ranksPerStage_pos h hep
  have htotal : G.shape.pp * G.shape.rps = cfg.totalGpus := by
    rw [hw.pp, hw.rps, h.total_eq]
  constructor
  · intro rank n hn src dst size tag hop
    have hrank := hw.lt_total hn
    have htotal' : 0 < G.shape.total := hw.total ▸ Nat.zero_lt_of_lt hrank
    obtain ⟨c, hc, hs, hnames⟩ := hw.sound hrank
    rw [← hc] at hn
    rw [hs.op n hn] at hop
    obtain ⟨t, hpart, rfl, rfl, rfl, rfl⟩ := part_of_opOf_send hop
    obtain ⟨hleaves, hmb, -⟩ := send_mem_stageTransfers
      (name_mem_stageTransfers hnames hn (by rw [hpart]; rfl)) hpart
    rw [← htotal] at hrank
    obtain ⟨hdst, harr, hback⟩ := Transfer.dst_of_leaves hrps hrank hleaves
    rw [htotal] at hdst
    refine ⟨rfl, hw.length.symm ▸ hdst, ?_⟩
    obtain ⟨c', hc', hs', hnames'⟩ := hw.sound hdst
    rw [← hc']
    have hcount := countP_recv hrps htotal' hs' hnames' hmb harr
    -- what the receive of the same transfer does at the destination
    have hrecv : G.opOf (G.rankGroups (epGroupOf cfg epSize (t.dst G.shape.rps src))
        (t.dst G.shape.rps src)) (t.dst G.shape.rps src) (recvName t n.name.mb) =
        .recv src (t.dst G.shape.rps src) G.shape.commSize (G.tag t n.name.mb src) := by
      show SweepOp.recv (t.src G.shape.rps (t.dst G.shape.rps src)) _ _ (G.tag t n.name.mb
        (t.src G.shape.rps (t.dst G.shape.rps src))) = _
      rw [hback]
    rwa [hrecv] at hcount
  · intro rank n hn src dst size tag hop
    have hrank := hw.lt_total hn
    have htotal' : 0 < G.shape.total := hw.total ▸ Nat.zero_lt_of_lt hrank
    obtain ⟨c, hc, hs, hnames⟩ := hw.sound hrank
    rw [← hc] at hn
    rw [hs.op n hn] at hop
    obtain ⟨t, hpart, rfl, rfl, rfl, rfl⟩ := part_of_opOf_recv hop
    obtain ⟨harr, hmb, -⟩ := recv_mem_stageTransfers
      (name_mem_stageTransfers hnames hn (by rw [hpart]; rfl)) hpart
    rw [← htotal] at hrank
    obtain ⟨hsrc, hleaves, hback⟩ := Transfer.src_of_arrives hrps hrank harr
    rw [htotal] at hsrc
    refine ⟨rfl, hw.length.symm ▸ hsrc, ?_⟩
    obtain ⟨c', hc', hs', hnames'⟩ := hw.sound hsrc
    rw [← hc']
    have hcount := countP_send hrps htotal' hs' hnames' hmb hleaves
    -- what the send of the same transfer does at the source
    have hsend : G.opOf (G.rankGroups (epGroupOf cfg epSize (t.src G.shape.rps dst))
        (t.src G.shape.rps dst)) (t.src G.shape.rps dst) (sendName t n.name.mb) =
        .send (t.src G.shape.rps dst) dst G.shape.commSize
          (G.tag t n.name.mb (t.src G.shape.rps dst)) := by
      show SweepOp.send _ (t.dst G.shape.rps (t.src G.shape.rps dst)) _
        (G.tag t n.name.mb (t.src G.shape.rps dst)) = _
      rw [hback]
    rwa [hsend] at hcount

end Matched

/-! ## Collectives -/

/-- The type and the size of a collective on the group. -/
def SweepOp.collOn (gid : ℕ) : SweepOp → Option (CollType × ℕ)
  | .coll type pg size _ _ => if pg = gid then some (type, size) else none
  | _ => none

/-- The collectives of a trace on the group, in their order. -/
def collectivesOn (nodes : List SweepNode) (gid : ℕ) : List SweepNode :=
  nodes.filter fun n => (n.op.collOn gid).isSome

/-- **Collectives are matched**: a rank issues collectives on its own groups, each of them after all
the ones before, and the members of a group issue the same collectives on it in the same order. -/
structure SameCollectives (groups : List (ℕ × List ℕ)) (traces : List (List SweepNode)) : Prop where
  member : ∀ rank, ∀ n ∈ traces.getD rank [], ∀ type gid size dim key,
    n.op = .coll type gid size dim key → ∃ members, (gid, members) ∈ groups ∧ rank ∈ members
  chain : ∀ rank gid, (collectivesOn (traces.getD rank []) gid).Pairwise fun m n =>
    TransGen (DependsOn (traces.getD rank [])) n.id m.id
  same : ∀ gid members, (gid, members) ∈ groups → ∀ rank ∈ members, ∀ rank' ∈ members,
    (collectivesOn (traces.getD rank []) gid).map (fun n => n.op.collOn gid) =
      (collectivesOn (traces.getD rank' []) gid).map fun n => n.op.collOn gid

section Collectives

variable {cfg : SweepConfig} {epSize gid rank rank' : ℕ} {G : Generator} {g g' : RankGroups}
  {traces : List (List SweepNode)} {members : List ℕ}

/-- What a node does on a group depends on the roles that the group has. -/
theorem collOn_opOf_congr (hdp : g.dpGroup = gid ↔ g'.dpGroup = gid)
    (htp : g.tpGroup = gid ↔ g'.tpGroup = gid) (hepg : g.epGroup = gid ↔ g'.epGroup = gid)
    (name : NodeName) :
    (G.opOf g rank name).collOn gid = (G.opOf g' rank' name).collOn gid := by
  have hcoll : ∀ (pg pg' : ℕ) (type : CollType) (size size' : ℕ) (dim key key' : Option ℕ),
      (pg = gid ↔ pg' = gid) → (pg = gid → pg' = gid → size = size') →
      (SweepOp.coll type pg size dim key).collOn gid =
        (SweepOp.coll type pg' size' dim key').collOn gid := by
    intro pg pg' type size size' dim key key' hiff hsize
    simp only [SweepOp.collOn]
    by_cases hpg : pg = gid
    · rw [if_pos hpg, if_pos (hiff.mp hpg), hsize hpg (hiff.mp hpg)]
    · rw [if_neg hpg, if_neg fun h => hpg (hiff.mpr h)]
  have hall : (if G.epSize = 1 then SweepOp.comp 0 none
      else .coll .allToAll g.epGroup (G.epCommSize g.epGroup) G.epDim
        (G.all2allvLoadKey g.epGroup)).collOn gid =
      (if G.epSize = 1 then SweepOp.comp 0 none
      else .coll .allToAll g'.epGroup (G.epCommSize g'.epGroup) G.epDim
        (G.all2allvLoadKey g'.epGroup)).collOn gid := by
    split
    · rfl
    · apply hcoll _ _ _ _ _ _ _ _ hepg
      intro h h'
      rw [h, h']
  obtain ⟨mb, layer, part⟩ := name
  cases part with
  | dpAgAttn => exact hcoll _ _ _ _ _ _ _ _ hdp fun _ _ => rfl
  | tpArFwd => exact hcoll _ _ _ _ _ _ _ _ htp fun _ _ => rfl
  | tpArBwd => exact hcoll _ _ _ _ _ _ _ _ htp fun _ _ => rfl
  | dpRsAttn => exact hcoll _ _ _ _ _ _ _ _ hdp fun _ _ => rfl
  | dpRsExpert => exact hcoll _ _ _ _ _ _ _ _ hdp fun _ _ => rfl
  | dpAgExpert => exact hcoll _ _ _ _ _ _ _ _ hdp fun _ _ => rfl
  | epDispatchFwd => exact hall
  | epCombineFwd => exact hall
  | epCombineBwd => exact hall
  | epDispatchBwd => exact hall
  | _ => rfl

/-- The groups that a generator takes are those of the rank. -/
theorem WrittenBy.rankGroups (hw : WrittenBy cfg epSize G traces) (rank : ℕ) :
    G.rankGroups (epGroupOf cfg epSize rank) rank =
      ⟨dpGroupOf cfg epSize rank, tpGroupOf cfg epSize rank, epGroupOf cfg epSize rank⟩ := by
  rw [Generator.rankGroups, hw.rps, hw.gpn, hw.tpGroupBase, hw.dpGroupBase]
  rfl

/-- What the members of a group do on it is told by the names of the nodes. -/
theorem WrittenBy.collOn_eq (hw : WrittenBy cfg epSize G traces) (h : cfg.Valid)
    (hep : epSize ∈ cfg.epSizes) (hg : (gid, members) ∈ generateCommGroups cfg epSize)
    (hr : rank ∈ members) (hr' : rank' ∈ members) {n : SweepNode}
    (hn : n ∈ traces.getD rank' []) :
    n.op.collOn gid =
      (G.opOf (G.rankGroups (epGroupOf cfg epSize rank) rank) rank n.name).collOn gid := by
  obtain ⟨c, hc, hs, -⟩ := hw.sound (lt_totalGpus_of_mem h hep hg hr')
  rw [← hc] at hn
  rw [hs.op n hn, hw.rankGroups, hw.rankGroups]
  obtain ⟨-, hdp, htp, hepg⟩ := groups_agree h hep hg hr' hr
  exact collOn_opOf_congr hdp htp hepg _

/-- **The members of a group write its collectives under the same ids and names.** -/
theorem plan_collectivesOn (h : cfg.Valid) (hep : epSize ∈ cfg.epSizes)
    (hw : WrittenBy cfg epSize G traces) (hg : (gid, members) ∈ generateCommGroups cfg epSize)
    (hr : rank ∈ members) (hr' : rank' ∈ members) :
    (collectivesOn (traces.getD rank []) gid).map SweepNode.plan =
      (collectivesOn (traces.getD rank' []) gid).map SweepNode.plan := by
  -- which nodes are collectives on the group is told by their plans
  have hfilter : ∀ rank'' ∈ members,
      (collectivesOn (traces.getD rank'' []) gid).map SweepNode.plan =
      ((traces.getD rank'' []).map SweepNode.plan).filter fun p =>
        ((G.opOf (G.rankGroups (epGroupOf cfg epSize rank) rank) rank p.2.1).collOn gid).isSome :=
    by
    intro rank'' hr''
    rw [List.filter_map, collectivesOn]
    congr 1
    apply List.filter_congr
    intro n hn
    rw [hw.collOn_eq h hep hg hr hr'' hn]
    rfl
  obtain ⟨hstage, -⟩ := groups_agree h hep hg hr hr'
  rw [hfilter rank hr, hfilter rank' hr', hw.trace rank (lt_totalGpus_of_mem h hep hg hr),
    hw.trace rank' (lt_totalGpus_of_mem h hep hg hr')]
  congr 1
  apply map_plan_rankTrace
  rw [hw.rps]
  exact hstage

theorem mem_collectivesOn {nodes : List SweepNode} {n : SweepNode} :
    n ∈ collectivesOn nodes gid ↔ n ∈ nodes ∧ (n.op.collOn gid).isSome = true :=
  List.mem_filter

theorem SweepOp.isColl_of_collOn {n : SweepNode} (h : (n.op.collOn gid).isSome = true) :
    n.isColl := by
  cases hop : n.op with
  | coll type pg size dim key => exact ⟨type, pg, size, dim, key, hop⟩
  | comp | send | recv =>
    rw [hop] at h
    cases h

theorem group_of_opOf_coll {name : NodeName} {type : CollType} {size : ℕ} {dim key : Option ℕ}
    (h : G.opOf g rank name = .coll type gid size dim key) :
    gid = g.dpGroup ∨ gid = g.tpGroup ∨ gid = g.epGroup := by
  have hall : (if G.epSize = 1 then SweepOp.comp 0 none
      else .coll .allToAll g.epGroup (G.epCommSize g.epGroup) G.epDim
        (G.all2allvLoadKey g.epGroup)) = .coll type gid size dim key →
      gid = g.dpGroup ∨ gid = g.tpGroup ∨ gid = g.epGroup := by
    intro h
    split at h
    · cases h
    · obtain ⟨-, rfl, -⟩ := SweepOp.coll.inj h
      exact .inr (.inr rfl)
  obtain ⟨mb, layer, part⟩ := name
  cases part with
  | dpAgAttn => exact .inl (SweepOp.coll.inj h).2.1.symm
  | tpArFwd => exact .inr (.inl (SweepOp.coll.inj h).2.1.symm)
  | tpArBwd => exact .inr (.inl (SweepOp.coll.inj h).2.1.symm)
  | dpRsAttn => exact .inl (SweepOp.coll.inj h).2.1.symm
  | dpRsExpert => exact .inl (SweepOp.coll.inj h).2.1.symm
  | dpAgExpert => exact .inl (SweepOp.coll.inj h).2.1.symm
  | epDispatchFwd => exact hall h
  | epCombineFwd => exact hall h
  | epCombineBwd => exact hall h
  | epDispatchBwd => exact hall h
  | _ => cases h

/-- **Collectives are matched.** -/
theorem same_collectives (h : cfg.Valid) (hep : epSize ∈ cfg.epSizes)
    (hw : WrittenBy cfg epSize G traces) :
    SameCollectives (generateCommGroups cfg epSize) traces := by
  constructor
  · intro rank n hn type gid size dim key hop
    have hrank := hw.lt_total hn
    obtain ⟨c, hc, hs, -⟩ := hw.sound hrank
    rw [← hc] at hn
    rw [hs.op n hn, hw.rankGroups] at hop
    obtain ⟨hepg, htp, hdp⟩ := mem_groups_of_rank h hep hrank
    rcases group_of_opOf_coll hop with rfl | rfl | rfl
    · exact hdp
    · exact htp
    · exact hepg
  · intro rank gid
    by_cases hrank : rank < cfg.totalGpus
    · obtain ⟨c, hc, hs, -⟩ := hw.sound hrank
      rw [← hc]
      have hids : c.nodes.Pairwise fun m n => m.id < n.id := by
        rw [← List.pairwise_map, hs.ids]
        exact List.pairwise_lt_range'
      apply (hids.filter _).imp_of_mem
      intro m n hm hn hlt
      obtain ⟨hm, hmcoll⟩ := mem_collectivesOn.mp hm
      obtain ⟨hn, hncoll⟩ := mem_collectivesOn.mp hn
      exact hs.chain m hm n hn (SweepOp.isColl_of_collOn hmcoll)
        (SweepOp.isColl_of_collOn hncoll) hlt
    · rw [List.getD_eq_getElem?_getD,
        List.getElem?_eq_none (hw.length.symm ▸ not_lt.mp hrank)]
      exact List.Pairwise.nil
  · intro gid members hg rank hr rank' hr'
    have hplan := plan_collectivesOn h hep hw hg hr hr'
    have hmap : ∀ rank'' ∈ members,
        (collectivesOn (traces.getD rank'' []) gid).map (fun n => n.op.collOn gid) =
        ((collectivesOn (traces.getD rank'' []) gid).map SweepNode.plan).map fun p =>
          (G.opOf (G.rankGroups (epGroupOf cfg epSize rank) rank) rank p.2.1).collOn gid := by
      intro rank'' hr''
      rw [List.map_map]
      apply List.map_congr_left
      intro n hn
      exact hw.collOn_eq h hep hg hr hr'' (mem_collectivesOn.mp hn).1
    rw [hmap rank hr, hmap rank' hr', hplan]

end Collectives

/-! ## Order of the nodes -/

/-- What has to happen before what: a node comes after what it depends on, and a receive after its
send. -/
inductive Precedes (traces : List (List SweepNode)) : ℕ × SweepNode → ℕ × SweepNode → Prop where
  | dep {rank : ℕ} {m n : SweepNode} (hm : m ∈ traces.getD rank []) (hn : n ∈ traces.getD rank [])
      (hdep : m.id ∈ n.dataDeps) : Precedes traces (rank, m) (rank, n)
  | transfer {src dst size tag : ℕ} {m n : SweepNode} (hm : m ∈ traces.getD src [])
      (hn : n ∈ traces.getD dst []) (hsend : m.op = .send src dst size tag)
      (hrecv : n.op = .recv src dst size tag) : Precedes traces (src, m) (dst, n)

/-- The `k`-th collective of a group is one event of all members. -/
def SameCollective (groups : List (ℕ × List ℕ)) (traces : List (List SweepNode))
    (x y : ℕ × SweepNode) : Prop :=
  ∃ (gid : ℕ) (members : List ℕ) (k : ℕ), (gid, members) ∈ groups ∧ x.1 ∈ members ∧ y.1 ∈ members ∧
    (collectivesOn (traces.getD x.1 []) gid)[k]? = some x.2 ∧
    (collectivesOn (traces.getD y.1 []) gid)[k]? = some y.2

/-- The turn of a node among those of its microbatch: a receive, which waits for its send only,
comes before all others. -/
def SweepNode.turn (n : SweepNode) : ℕ :=
  match n.name.part with
  | .ppRecv _ => 0
  | _ => n.id

/-- The transfers before a stage in a phase. -/
def hops (G : Generator) (rank phase : ℕ) : ℕ :=
  if phase = 0 then rank / G.shape.rps else G.shape.pp - 1 - rank / G.shape.rps

/-- The place of a node: its phase, the microbatches and transfers before it, and its turn. -/
def nodeKey (G : Generator) (x : ℕ × SweepNode) : ℕ ×ₗ ℕ ×ₗ ℕ :=
  let slot := ofLex (x.2.name.slot G.shape.microbatches)
  toLex (slot.1, toLex (slot.2 + hops G x.1 slot.1, x.2.turn))

section Acyclic

variable {cfg : SweepConfig} {epSize : ℕ} {G : Generator} {traces : List (List SweepNode)}
  {x y : ℕ × SweepNode}

/-- One event has one place. -/
theorem nodeKey_eq (h : cfg.Valid) (hep : epSize ∈ cfg.epSizes) (hw : WrittenBy cfg epSize G traces)
    (hxy : SameCollective (generateCommGroups cfg epSize) traces x y) :
    nodeKey G x = nodeKey G y := by
  obtain ⟨gid, members, k, hg, hx, hy, hkx, hky⟩ := hxy
  have hplan : x.2.plan = y.2.plan := by
    have hk := congrArg (·[k]?) (plan_collectivesOn h hep hw hg hx hy)
    simp only [List.getElem?_map, hkx, hky, Option.map_some] at hk
    exact Option.some.inj hk
  obtain ⟨hid, hrest⟩ := Prod.mk.inj hplan
  obtain ⟨hname, -⟩ := Prod.mk.inj hrest
  obtain ⟨hstage, -⟩ := groups_agree h hep hg hx hy
  rw [← hw.rps] at hstage
  rw [nodeKey, nodeKey]
  simp only [hops, SweepNode.turn, hid, hname, hstage]

theorem SweepNode.turn_le (n : SweepNode) : n.turn ≤ n.id := by
  unfold SweepNode.turn
  split
  · exact Nat.zero_le _
  · exact le_rfl

theorem SweepNode.turn_of_not_recv {n : SweepNode} (h : ∀ t, n.name.part ≠ .ppRecv t) :
    n.turn = n.id := by
  unfold SweepNode.turn
  split
  · next t hpart => exact absurd hpart (h t)
  · rfl

/-- A transfer moves one stage on. -/
theorem hops_dst {t : Transfer} {rank : ℕ} (hrps : 0 < G.shape.rps)
    (hrank : rank < G.shape.pp * G.shape.rps)
    (hleaves : t.leaves G.shape.pp (rank / G.shape.rps) = true) (mb mbs : ℕ) :
    hops G rank (ofLex ((sendName t mb).slot mbs)).1 <
      hops G (t.dst G.shape.rps rank) (ofLex ((recvName t mb).slot mbs)).1 := by
  cases t with
  | activation =>
    show rank / G.shape.rps < (rank + G.shape.rps) / G.shape.rps
    rw [Nat.add_div_right _ hrps]
    exact Nat.lt_succ_self _
  | grad =>
    have hstage : rank / G.shape.rps < G.shape.pp := (Nat.div_lt_iff_lt_mul hrps).mpr hrank
    have hle := (stage_pos_iff hrps).mp (of_decide_eq_true hleaves)
    have hback : rank / G.shape.rps = (rank - G.shape.rps) / G.shape.rps + 1 := by
      rw [← Nat.add_div_right _ hrps, Nat.sub_add_cancel hle]
    show G.shape.pp - 1 - rank / G.shape.rps <
      G.shape.pp - 1 - (rank - G.shape.rps) / G.shape.rps
    omega

/-- **What precedes a node has a smaller place.** -/
theorem nodeKey_lt (h : cfg.Valid) (hep : epSize ∈ cfg.epSizes) (hw : WrittenBy cfg epSize G traces)
    (hxy : Precedes traces x y) : nodeKey G x < nodeKey G y := by
  have hrps : 0 < G.shape.rps := hw.rps ▸ ranksPerStage_pos h hep
  have htotal : G.shape.pp * G.shape.rps = cfg.totalGpus := by
    rw [hw.pp, hw.rps, h.total_eq]
  cases hxy with
  | @dep rank m n hm hn hdep =>
    obtain ⟨c, hc, hs, -⟩ := hw.sound (hw.lt_total hm)
    rw [← hc] at hm hn
    obtain ⟨hlt, m', hm', hid, hslot⟩ := hs.deps n hn m.id hdep
    obtain rfl := hs.id_inj hm' hm hid
    -- a receive depends on nothing
    have hrecv : ∀ t, n.name.part ≠ .ppRecv t := by
      intro t ht
      rw [hs.recv n hn t ht] at hdep
      exact absurd hdep List.not_mem_nil
    have hturn : m'.turn < n.turn := by
      rw [SweepNode.turn_of_not_recv hrecv]
      exact m'.turn_le.trans_lt hlt
    rcases Prod.Lex.le_iff.mp hslot with hphase | ⟨hphase, hmb⟩
    · exact Prod.Lex.toLex_lt_toLex.mpr (.inl hphase)
    · refine Prod.Lex.toLex_lt_toLex.mpr (.inr ⟨hphase, Prod.Lex.toLex_lt_toLex.mpr ?_⟩)
      dsimp only
      rw [hphase]
      rcases hmb.lt_or_eq with hmb | hmb
      · exact .inl (Nat.add_lt_add_right hmb _)
      · exact .inr ⟨by rw [hmb], hturn⟩
  | @transfer src dst size tag m n hm hn hsend hrecv =>
    have hsrc := hw.lt_total hm
    have htotal' : 0 < G.shape.total := hw.total ▸ Nat.zero_lt_of_lt hsrc
    obtain ⟨c, hc, hs, hnames⟩ := hw.sound hsrc
    obtain ⟨c', hc', hs', hnames'⟩ := hw.sound (hw.lt_total hn)
    rw [← hc] at hm
    rw [← hc'] at hn
    rw [hs.op m hm] at hsend
    rw [hs'.op n hn] at hrecv
    obtain ⟨t, hpart, -, rfl, -, htag⟩ := part_of_opOf_send hsend
    obtain ⟨t', hpart', hsrc', -, -, htag'⟩ := part_of_opOf_recv hrecv
    obtain ⟨hleaves, -, hname⟩ := send_mem_stageTransfers
      (name_mem_stageTransfers hnames hm (by rw [hpart]; rfl)) hpart
    obtain ⟨-, -, hname'⟩ := recv_mem_stageTransfers
      (name_mem_stageTransfers hnames' hn (by rw [hpart']; rfl)) hpart'
    rw [← htotal] at hsrc
    -- both ends are of the same transfer of the same microbatch
    obtain ⟨-, -, hback⟩ := Transfer.dst_of_leaves hrps hsrc hleaves
    obtain rfl : t = t' := Transfer.src_inj hrps (hback.trans hsrc')
    have hmb : m.name.mb = n.name.mb := Generator.tag_inj htotal' (htag.symm.trans htag')
    have hhops := hops_dst hrps hsrc hleaves m.name.mb G.shape.microbatches
    have hslot : (sendName t m.name.mb).slot G.shape.microbatches =
        (recvName t m.name.mb).slot G.shape.microbatches := by
      cases t <;> rfl
    rw [nodeKey, nodeKey]
    dsimp only
    rw [hname, hname', ← hmb]
    rw [hslot] at hhops ⊢
    refine Prod.Lex.toLex_lt_toLex.mpr (.inr ⟨rfl, Prod.Lex.toLex_lt_toLex.mpr (.inl ?_)⟩)
    exact Nat.add_lt_add_left hhops _

end Acyclic

/-- **Generated workloads are matched and free of deadlock**: every transfer has its other end, the
members of a group issue the same collectives on it in the same order, and no node waits for itself
when the collectives of the members are one event. -/
theorem generateWorkload_matched {F : Floats} {cfg : SweepConfig} {epSize : ℕ} {variant : Variant}
    {traces : List (List SweepNode)} (hv : cfg.validateConfig = some [])
    (hep : epSize ∈ cfg.epSizes) (ht : generateWorkload F cfg epSize variant = some traces) :
    WellMatched traces ∧ SameCollectives (generateCommGroups cfg epSize) traces ∧
      AcyclicModulo (SameCollective (generateCommGroups cfg epSize) traces) (Precedes traces) := by
  have h := SweepConfig.valid_of_validateConfig hv
  obtain ⟨G, hw⟩ := writtenBy_generateWorkload h hep ht
  refine ⟨transfer_matched h hep hw, same_collectives h hep hw, ?_⟩
  apply acyclicModulo_of_key (nodeKey G)
  · exact fun x y => nodeKey_eq h hep hw
  · exact fun x y => nodeKey_lt h hep hw

/-- A throughput of 400 tera-operations per second; the routing is uniform. -/
def smallFloats : Floats where
  flopsToUs flops := some (max 1 (flops / 400000000))
  expertAt _ _ := 0
  roundDiv a b := (a + b / 2) / b

theorem generateWorkload_matched_smallSweep :
    ∃ traces, generateWorkload smallFloats (smallSweep 450 50) 6 .opusDiverge = some traces ∧
      WellMatched traces ∧ SameCollectives (generateCommGroups (smallSweep 450 50) 6) traces ∧
        AcyclicModulo (SameCollective (generateCommGroups (smallSweep 450 50) 6) traces)
          (Precedes traces) := by
  obtain ⟨traces, ht⟩ := Option.isSome_iff_exists.mp
    (show (generateWorkload smallFloats (smallSweep 450 50) 6 .opusDiverge).isSome = true by
      decide +kernel)
  exact ⟨traces, ht, generateWorkload_matched (validateConfig_smallSweep 450 50) (by decide) ht⟩

end Opus.Simulation
