import Mathlib.Data.Finset.Max
import Mathlib.Data.Set.Card
import Mathlib.Order.Interval.Set.OrdConnected
import Opus.Controller.ProcessLine

/-!
# The placement of a group

The message that completes a communicator classifies the nodes of its members. The controller
looks the addresses up in `server_ips`, sorts the indexes and compares each with the one before:
an index that differs adds a node and ends the common domain, and one that is not the successor
ends the contiguous range.

What the scan has seen is a prefix of a sorted list, so its four fields are facts about the set of
that prefix. Repetitions, and the order of arrival, do not matter.

## Main definitions

* `determineTopoPmIn`: `determine_topo_pm` on the maps of the controller
* `nodesOf`: the nodes of a group
* `NodeScan.Summary`: what the fields of the scan say about the indexes it has read

## Main results

* `summary_scanNodes`: the scan summarises the indexes of a group
* `determineTopoPmIn_known`, `determineTopoPmIn_unknown`: the classification of a group, when all
  addresses are known and when one is not
* `classifies_determineTopoPmIn`: every group is classified by the set of its nodes
-/

namespace Opus

/-! ## The classification on the maps -/

/-- The clients registered for a communicator. -/
def ControlMaps.clients (s : ControlMaps) (hexId : Text) : List Client :=
  (s.idToClients hexId).getD []

/-- The maps after `idToClients[hexId]` has been read: it makes an empty entry where there is
none. -/
def ControlMaps.withClients (s : ControlMaps) (hexId : Text) : ControlMaps :=
  { s with idToClients := Function.update s.idToClients hexId (some (s.clients hexId)) }

/-- `determine_topo_pm`: the domain it returns, the number of nodes it prints, and the maps it
leaves. The number is not printed for a group with an unknown client. -/
def determineTopoPmIn (cfg : CheckInConfig) (s : ControlMaps) (hexId : Text) (localRank : ℤ) :
    Except String (ℤ × Option ℕ × ControlMaps) :=
  let clients := s.clients hexId
  let s := s.withClients hexId
  match clients.mapM fun client => cfg.serverIps.idxOf? client.ip with
  | none => .ok (-1, none, s)
  | some clientIpIdxs =>
    let scan := scanNodes clientIpIdxs
    let domain := if scan.sameDomain then 1 else 0
    if localRank ≥ cfg.numRails then .error "localRank exceeds number of rails"
    else
      let topoClass := if scan.sequential then 1 else 2
      .ok (domain, some scan.numNode,
        { s with idToTopoId := Function.update s.idToTopoId hexId (some (topoClass, localRank)) })

/-- The entry it makes is that of `topoEntry`, the handler of a parsed line. -/
theorem topoEntry_eq_determineTopoPmIn (cfg : CheckInConfig) (s : ControlMaps) (hexId : Text)
    (localRank : ℤ) :
    (determineTopoPmIn cfg s hexId localRank).map (fun r => r.2.2.idToTopoId hexId) =
      (topoEntry cfg (s.clients hexId) localRank).map
        fun entry => entry.or (s.idToTopoId hexId) := by
  cases hidxs : (s.clients hexId).mapM fun client => cfg.serverIps.idxOf? client.ip with
  | none => simp [determineTopoPmIn, topoEntry, ControlMaps.withClients, hidxs, Except.map]
  | some clientIpIdxs =>
    by_cases hrank : localRank ≥ cfg.numRails
    · simp [determineTopoPmIn, topoEntry, hidxs, hrank, Except.map]
    · simp [determineTopoPmIn, topoEntry, ControlMaps.withClients, hidxs, hrank, Except.map]

/-- For a rank that is not negative, its domain is that of `determineTopoPm`. -/
theorem determineTopoPm_eq_determineTopoPmIn (cfg : CheckInConfig) (s : ControlMaps)
    (hexId : Text) (localRank : ℕ) :
    (determineTopoPmIn cfg s hexId localRank).map Prod.fst =
      (determineTopoPm cfg (s.clients hexId) localRank).map Prod.fst := by
  cases hidxs : (s.clients hexId).mapM fun client => cfg.serverIps.idxOf? client.ip with
  | none => simp [determineTopoPmIn, determineTopoPm, hidxs, Except.map]
  | some clientIpIdxs =>
    by_cases hrank : cfg.numRails ≤ localRank
    · simp [determineTopoPmIn, determineTopoPm, hidxs, hrank, Except.map]
    · simp [determineTopoPmIn, determineTopoPm, hidxs, hrank, Except.map]

/-! ## The scan -/

/-- What the fields of the scan say about the indexes read so far. -/
structure NodeScan.Summary (s : NodeScan) (idxs : List ℕ) : Prop where
  prevIdx : s.prevIdx = idxs.getLast?
  numNode : s.numNode = max 1 idxs.toFinset.card
  sameDomain : s.sameDomain = true ↔ ∀ i ∈ idxs, ∀ j ∈ idxs, i = j
  sequential : s.sequential = true ↔ Set.OrdConnected {i | i ∈ idxs}

/-- The successor of the largest index extends a range by one. -/
theorem ordConnected_append_succ {idxs : List ℕ} {prev : ℕ} (hprev : prev ∈ idxs)
    (hmax : ∀ i ∈ idxs, i ≤ prev) :
    Set.OrdConnected {i | i ∈ idxs ++ [prev + 1]} ↔ Set.OrdConnected {i | i ∈ idxs} := by
  refine ⟨fun hconn => ⟨?_⟩, fun hconn => ⟨?_⟩⟩
  · intro a ha b hb i hi
    have hmem := hconn.out (List.mem_append_left [prev + 1] ha)
      (List.mem_append_left [prev + 1] hb) hi
    rcases List.mem_append.mp hmem with hmem | hmem
    · exact hmem
    · have hb' := hmax b hb
      have hib := hi.2
      rw [List.mem_singleton] at hmem
      omega
  · intro a ha b hb i hi
    have hib : i ≤ prev + 1 := by
      refine hi.2.trans ?_
      rcases List.mem_append.mp hb with hb | hb
      · exact (hmax b hb).trans (Nat.le_succ prev)
      · exact (List.mem_singleton.mp hb).le
    rcases hib.lt_or_eq with hlt | rfl
    · -- everything up to the old end lies between old indexes
      have ha' : a ∈ idxs := by
        rcases List.mem_append.mp ha with ha | ha
        · exact ha
        · have hai := hi.1
          rw [List.mem_singleton] at ha
          omega
      exact List.mem_append_left _ (hconn.out ha' hprev ⟨hi.1, Nat.lt_succ_iff.mp hlt⟩)
    · exact List.mem_append_right _ (List.mem_singleton_self _)

/-- A larger index leaves a gap behind the largest one. -/
theorem not_ordConnected_append {idxs : List ℕ} {prev idx : ℕ} (hprev : prev ∈ idxs)
    (hmax : ∀ i ∈ idxs, i ≤ prev) (hlt : prev + 1 < idx) :
    ¬ Set.OrdConnected {i | i ∈ idxs ++ [idx]} := by
  intro hconn
  have hgap : prev + 1 ∈ idxs ++ [idx] :=
    hconn.out (List.mem_append_left _ hprev) (List.mem_append_right _ (List.mem_singleton_self idx))
      ⟨Nat.le_succ prev, hlt.le⟩
  rcases List.mem_append.mp hgap with hgap | hgap
  · have hle := hmax _ hgap
    omega
  · rw [List.mem_singleton] at hgap
    omega

theorem NodeScan.summary_initial : (⟨none, 1, true, true⟩ : NodeScan).Summary [] where
  prevIdx := rfl
  numNode := rfl
  sameDomain := by simp
  sequential := by simpa using Set.ordConnected_empty

/-- The next index of a sorted list. -/
theorem NodeScan.Summary.step {s : NodeScan} {idxs : List ℕ} {idx : ℕ} (hs : s.Summary idxs)
    (hsorted : (idxs ++ [idx]).Pairwise (· ≤ ·)) : (s.step idx).Summary (idxs ++ [idx]) := by
  rcases List.eq_nil_or_concat' idxs with rfl | ⟨front, prev, rfl⟩
  · -- the first index has no predecessor
    have hprev : s.prevIdx = none := hs.prevIdx
    refine ⟨?_, ?_, ?_, ?_⟩
    · simp [NodeScan.step, hprev]
    · simpa [NodeScan.step, hprev] using hs.numNode
    · simpa [NodeScan.step, hprev] using hs.sameDomain
    · have hone : s.sequential = true := hs.sequential.mpr (by simpa using Set.ordConnected_empty)
      simpa [NodeScan.step, hprev, hone] using Set.ordConnected_singleton
  · have hprev : s.prevIdx = some prev := by rw [hs.prevIdx]; simp
    -- the previous index is the largest one read so far
    have hle : prev ≤ idx := by
      apply (List.pairwise_append.mp hsorted).2.2 prev <;> simp
    have hmax : ∀ i ∈ front ++ [prev], i ≤ prev := by
      intro i hi
      rcases List.mem_append.mp hi with hi | hi
      · exact (List.pairwise_append.mp (List.pairwise_append.mp hsorted).1).2.2 i hi prev (by simp)
      · simp_all
    by_cases heq : idx = prev
    · -- a repetition changes neither the fields nor the set
      subst heq
      have hset : ∀ i, i ∈ (front ++ [idx]) ++ [idx] ↔ i ∈ front ++ [idx] := by simp
      have hstep : s.step idx = { s with prevIdx := some idx } := by simp [NodeScan.step, hprev]
      rw [hstep]
      refine ⟨by simp, ?_, ?_, ?_⟩
      · have hfin : ((front ++ [idx]) ++ [idx]).toFinset = (front ++ [idx]).toFinset := by
          ext i
          simp
        rw [hfin]
        exact hs.numNode
      · simp only [hset]
        exact hs.sameDomain
      · simp only [hset]
        exact hs.sequential
    · have hlt : prev < idx := lt_of_le_of_ne hle (Ne.symm heq)
      have hnew : idx ∉ front ++ [prev] := fun hmem => by
        have := hmax idx hmem
        omega
      have hpos : 0 < (front ++ [prev]).toFinset.card :=
        Finset.card_pos.mpr ⟨prev, by simp⟩
      have hstep : s.step idx = ⟨some idx, s.numNode + 1, false,
          if idx ≠ prev + 1 then false else s.sequential⟩ := by
        simp [NodeScan.step, hprev, heq]
      rw [hstep]
      refine ⟨by simp, ?_, ?_, ?_⟩
      · have hfin : ((front ++ [prev]) ++ [idx]).toFinset =
            insert idx (front ++ [prev]).toFinset := by
          ext i
          simp only [List.toFinset_append, Finset.mem_union, List.mem_toFinset, Finset.mem_insert,
            List.mem_singleton]
          tauto
        have hcount := hs.numNode
        rw [hfin, Finset.card_insert_of_notMem (by rwa [List.mem_toFinset])]
        show s.numNode + 1 = _
        omega
      · simp only [Bool.false_eq_true, false_iff]
        intro hall
        exact heq (hall idx (by simp) prev (by simp))
      · have hmem : prev ∈ front ++ [prev] := by simp
        by_cases hsucc : idx = prev + 1
        · subst hsucc
          rw [if_neg (by simp), hs.sequential]
          exact (ordConnected_append_succ hmem hmax).symm
        · rw [if_pos hsucc]
          simp only [Bool.false_eq_true, false_iff]
          exact not_ordConnected_append hmem hmax (by omega)

/-- The scan of a sorted list summarises it. -/
theorem NodeScan.summary_foldl (idxs : List ℕ) (hsorted : idxs.Pairwise (· ≤ ·)) :
    (idxs.foldl NodeScan.step ⟨none, 1, true, true⟩).Summary idxs := by
  induction idxs using List.reverseRecOn with
  | nil => exact NodeScan.summary_initial
  | append_singleton front idx ih =>
    rw [List.foldl_append]
    exact (ih (List.pairwise_append.mp hsorted).1).step hsorted

/-- The scan summarises the indexes of a group, whatever their order. -/
theorem summary_scanNodes {idxs : List ℕ} (hne : idxs ≠ []) :
    (scanNodes idxs).numNode = idxs.toFinset.card ∧
      ((scanNodes idxs).sameDomain = true ↔ ∀ i ∈ idxs, ∀ j ∈ idxs, i = j) ∧
      ((scanNodes idxs).sequential = true ↔ Set.OrdConnected {i | i ∈ idxs}) := by
  have hperm : (idxs.insertionSort (· ≤ ·)).Perm idxs := List.perm_insertionSort _ idxs
  have hs : (scanNodes idxs).Summary (idxs.insertionSort (· ≤ ·)) :=
    NodeScan.summary_foldl _ (List.pairwise_insertionSort _ _)
  have hmem : ∀ i, i ∈ idxs.insertionSort (· ≤ ·) ↔ i ∈ idxs := fun i => hperm.mem_iff
  refine ⟨?_, ?_, ?_⟩
  · have hpos : 0 < idxs.toFinset.card := Finset.card_pos.mpr (by simpa using hne)
    rw [hs.numNode, List.toFinset_eq_of_perm _ _ hperm]
    omega
  · rw [hs.sameDomain]
    simp only [hmem]
  · rw [hs.sequential]
    simp only [hmem]

/-- A nonempty set of the numbers in a list has no gaps exactly when it is an interval. -/
theorem ordConnected_iff_exists_Icc {idxs : List ℕ} (hne : idxs ≠ []) :
    Set.OrdConnected {i | i ∈ idxs} ↔ ∃ first last, {i | i ∈ idxs} = Set.Icc first last := by
  refine ⟨fun hconn => ?_, ?_⟩
  · have hnon : idxs.toFinset.Nonempty := by simpa using hne
    refine ⟨idxs.toFinset.min' hnon, idxs.toFinset.max' hnon, ?_⟩
    ext i
    refine ⟨fun hi => ?_, fun hi => ?_⟩
    · have hi' : i ∈ idxs.toFinset := List.mem_toFinset.mpr hi
      exact ⟨Finset.min'_le _ _ hi', Finset.le_max' _ _ hi'⟩
    · exact hconn.out (List.mem_toFinset.mp (Finset.min'_mem _ hnon))
        (List.mem_toFinset.mp (Finset.max'_mem _ hnon)) hi
  · rintro ⟨first, last, heq⟩
    rw [heq]
    exact Set.ordConnected_Icc

/-! ## The nodes of a group -/

/-- The nodes of the clients, by their position in `server_ips`. -/
def nodesOf (cfg : CheckInConfig) (clients : List Client) : Set ℕ :=
  {node | ∃ c ∈ clients, cfg.serverIps[node]? = some c.ip}

theorem mem_nodesOf {cfg : CheckInConfig} {clients : List Client} (hnodup : cfg.serverIps.Nodup)
    (hips : ∀ c ∈ clients, c.ip ∈ cfg.serverIps) (node : ℕ) :
    node ∈ nodesOf cfg clients ↔ node ∈ clients.map fun c => cfg.serverIps.idxOf c.ip := by
  rw [List.mem_map]
  refine ⟨?_, ?_⟩
  · rintro ⟨c, hc, hget⟩
    refine ⟨c, hc, ?_⟩
    obtain ⟨hlt, hget⟩ := List.getElem?_eq_some_iff.mp hget
    rw [← hget]
    exact hnodup.idxOf_getElem node hlt
  · rintro ⟨c, hc, rfl⟩
    exact ⟨c, hc, List.getElem?_idxOf (hips c hc)⟩

/-- All clients are on one node exactly when the group has a single node. -/
theorem nodesOf_eq_singleton_iff {cfg : CheckInConfig} {clients : List Client}
    (hnodup : cfg.serverIps.Nodup) (hne : clients ≠ [])
    (hips : ∀ c ∈ clients, c.ip ∈ cfg.serverIps) :
    (∃ node : ℕ, ∀ c ∈ clients, cfg.serverIps[node]? = some c.ip) ↔
      ∀ i ∈ clients.map fun c => cfg.serverIps.idxOf c.ip,
        ∀ j ∈ clients.map fun c => cfg.serverIps.idxOf c.ip, i = j := by
  refine ⟨?_, fun hall => ?_⟩
  · rintro ⟨node, hnode⟩
    have hidx : ∀ i ∈ clients.map fun c => cfg.serverIps.idxOf c.ip, i = node := by
      intro i hi
      obtain ⟨c, hc, rfl⟩ := List.mem_map.mp hi
      obtain ⟨hlt, hget⟩ := List.getElem?_eq_some_iff.mp (hnode c hc)
      rw [← hget]
      exact hnodup.idxOf_getElem node hlt
    intro i hi j hj
    rw [hidx i hi, hidx j hj]
  · obtain ⟨c₀, hc₀⟩ := List.exists_mem_of_ne_nil clients hne
    refine ⟨cfg.serverIps.idxOf c₀.ip, fun c hc => ?_⟩
    rw [hall _ (List.mem_map_of_mem hc₀) _ (List.mem_map_of_mem hc)]
    exact List.getElem?_idxOf (hips c hc)

/-! ## The classification -/

/-- The classification of a group whose addresses are all known. -/
theorem determineTopoPmIn_known {cfg : CheckInConfig} {s : ControlMaps} {hexId : Text}
    {localRank : ℤ} (hips : ∀ c ∈ s.clients hexId, c.ip ∈ cfg.serverIps)
    (hrank : localRank < cfg.numRails) :
    ∃ s', determineTopoPmIn cfg s hexId localRank =
        .ok (if (scanNodes ((s.clients hexId).map fun c => cfg.serverIps.idxOf c.ip)).sameDomain
            then 1 else 0,
          some (scanNodes ((s.clients hexId).map fun c => cfg.serverIps.idxOf c.ip)).numNode, s') ∧
      s'.idToTopoId = Function.update s.idToTopoId hexId
        (some (if (scanNodes ((s.clients hexId).map
            fun c => cfg.serverIps.idxOf c.ip)).sequential then 1 else 2, localRank)) := by
  refine ⟨{ s.withClients hexId with idToTopoId := _ }, ?_, rfl⟩
  simp only [determineTopoPmIn, mapM_idxOf? hips, ge_iff_le, not_le.mpr hrank, if_false]
  rfl

/-- A group with an unknown address gets the domain `-1` and no entry. -/
theorem determineTopoPmIn_unknown {cfg : CheckInConfig} {s : ControlMaps} {hexId : Text}
    (localRank : ℤ) (hip : ∃ c ∈ s.clients hexId, c.ip ∉ cfg.serverIps) :
    ∃ s', determineTopoPmIn cfg s hexId localRank = .ok (-1, none, s') ∧
      s'.idToTopoId = s.idToTopoId := by
  refine ⟨s.withClients hexId, ?_, rfl⟩
  simp only [determineTopoPmIn, mapM_idxOf?_eq_none_iff.mpr hip]

/-- What `determine_topo_pm` decides about a group, from the set of its nodes. -/
structure Classifies (cfg : CheckInConfig) (s : ControlMaps) (hexId : Text) (localRank : ℤ) :
    Prop where
  /-- The domain, the class and the number of nodes of a group on known nodes. -/
  known : (∀ c ∈ s.clients hexId, c.ip ∈ cfg.serverIps) →
    ∃ domain numNode topoClass s',
      determineTopoPmIn cfg s hexId localRank = .ok (domain, some numNode, s') ∧
        s'.idToTopoId = Function.update s.idToTopoId hexId (some (topoClass, localRank)) ∧
        (domain = 1 ↔ ∃ node : ℕ, ∀ c ∈ s.clients hexId, cfg.serverIps[node]? = some c.ip) ∧
        (topoClass = 1 ↔ ∃ first last, nodesOf cfg (s.clients hexId) = Set.Icc first last) ∧
        (topoClass = 2 ↔ ¬ ∃ first last, nodesOf cfg (s.clients hexId) = Set.Icc first last) ∧
        numNode = (nodesOf cfg (s.clients hexId)).ncard
  /-- A group with an unknown address keeps its entry. -/
  unknown : (∃ c ∈ s.clients hexId, c.ip ∉ cfg.serverIps) →
    ∃ s', determineTopoPmIn cfg s hexId localRank = .ok (-1, none, s') ∧
      s'.idToTopoId = s.idToTopoId

/-- **Every group is classified by the set of its nodes.** -/
theorem classifies_determineTopoPmIn {cfg : CheckInConfig} {s : ControlMaps} {hexId : Text}
    {localRank : ℤ} (hnodup : cfg.serverIps.Nodup) (hne : s.clients hexId ≠ [])
    (hrank : localRank < cfg.numRails) : Classifies cfg s hexId localRank where
  unknown := determineTopoPmIn_unknown localRank
  known := by
    intro hips
    obtain ⟨s', hres, htopo⟩ := determineTopoPmIn_known hips hrank
    obtain ⟨idxs, hidxs⟩ : ∃ idxs, idxs = (s.clients hexId).map fun c =>
      cfg.serverIps.idxOf c.ip := ⟨_, rfl⟩
    rw [← hidxs] at hres htopo
    have hidxs_ne : idxs ≠ [] := by simpa [hidxs] using hne
    have hnodes : nodesOf cfg (s.clients hexId) = {i | i ∈ idxs} := by
      ext node
      rw [hidxs]
      exact mem_nodesOf hnodup hips node
    obtain ⟨hnum, hsame, hseq⟩ := summary_scanNodes hidxs_ne
    rw [ordConnected_iff_exists_Icc hidxs_ne] at hseq
    refine ⟨_, _, _, s', hres, htopo, ?_, ?_, ?_, ?_⟩
    · rw [nodesOf_eq_singleton_iff hnodup hne hips, ← hidxs, ← hsame]
      cases (scanNodes idxs).sameDomain <;> simp
    · rw [hnodes, ← hseq]
      cases (scanNodes idxs).sequential <;> simp
    · rw [hnodes, ← hseq]
      cases (scanNodes idxs).sequential <;> simp
    · rw [hnum, hnodes, ← Set.ncard_coe_finset]
      congr 1
      ext i
      simp

/-- Four nodes, and a communicator whose clients are on the last two, one of them twice. -/
def fourNodes : CheckInConfig := ⟨["10.0.0.1", "10.0.0.2", "10.0.0.3", "10.0.0.4"], 2, none⟩

/-- The maps after the three clients have been registered. -/
def threeClientMaps : ControlMaps where
  idToCommSize := fun _ => some 3
  idToClients := fun _ => some [⟨7, "10.0.0.4"⟩, ⟨8, "10.0.0.3"⟩, ⟨9, "10.0.0.4"⟩]
  idToTopoId := fun _ => none
  readyCount := fun _ _ => 0
  topoIds := fun _ => 0

theorem classifies_threeClientMaps : Classifies fourNodes threeClientMaps "3".toList 1 :=
  classifies_determineTopoPmIn (by decide) (by decide) (by decide)

end Opus
