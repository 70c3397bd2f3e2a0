import Mathlib.Data.List.Chain
import Opus.Controller.AckSound
import Opus.Shim.Provisioning

/-!
# When provisioning requests match

The requests of a job match when peers end their stages of transfers alike: no rank goes from data
collectives to transfers, the last transfers of two neighbours are both within their pair or both
not, and the members of a data communicator enter it together. Otherwise a request is left over.

A request for a stage that begins with a transfer carries the pipeline stage on top of the group of
the pair, and it names the plain backend, so no other rank sends it. When the group is one of the
rank's own, the other end of the pair misses the request; when it is not, an interleaving in which
this request comes last leaves its count behind.

## Main definitions

* `ProvisionJob.EntersTransfers`: a rank goes from data collectives to transfers

## Main results

* `ProvisionJob.mem_requests`: the requests of a rank whose data collectives come last
* `ProvisionJob.complete_of_matched`: under the condition every rendezvous is complete
* `ProvisionJob.Complete.not_entersTransfers`: a request for a stage of transfers is left over
* `ProvisionJob.complete_iff_matched`: the condition is exact
-/

namespace Opus

open Transition

namespace ProvisionJob

variable {f : Fabric} {J : ProvisionJob f} {r r' b m : ℕ} {h : HexId} {c : Coll} {q : ConfigReq}

/-! ## Stages of transfers that come first -/

/-- The rank goes from a data collective to a transfer. -/
def EntersTransfers (J : ProvisionJob f) (r : ℕ) : Prop :=
  ∃ front s s' rest, J.stages r = front ++ s :: s' :: rest ∧
    (∀ c ∈ s.colls, (f.shim r).isPpBackend c.backendId = false) ∧
    ∀ c ∈ s'.colls, (f.shim r).isPpBackend c.backendId = true

/-- A stage is of one kind. -/
theorem exists_kind {s : Stage} (hs : s ∈ J.stages r) :
    ∃ pp, ∀ c ∈ s.colls, (f.shim r).isPpBackend c.backendId = pp := by
  obtain ⟨c₀, hc₀⟩ := List.exists_mem_of_ne_nil _ s.nonempty
  exact ⟨_, fun c hc => J.sameKind r s hs c hc c₀ hc₀⟩

/-- The next stage is of the other kind. -/
theorem kind_next {front rest : List Stage} {s s' : Stage} {pp : Bool}
    (hst : J.stages r = front ++ s :: s' :: rest)
    (hpp : ∀ c ∈ s.colls, (f.shim r).isPpBackend c.backendId = pp) :
    ∀ c ∈ s'.colls, (f.shim r).isPpBackend c.backendId = !pp := by
  intro c hc
  obtain ⟨c₀, hc₀⟩ := List.exists_mem_of_ne_nil _ s.nonempty
  have hne := List.isChain_iff_forall_rel_of_append_cons_cons.mp (J.maximal r) hst c₀ hc₀ c hc
  rw [hpp c₀ hc₀] at hne
  exact Bool.eq_not_of_ne hne.symm

/-- Otherwise it has at most one stage of transfers and then one of data collectives. -/
theorem stages_cases (hnot : ¬ J.EntersTransfers r) :
    J.stages r = [] ∨
      (∃ s pp, J.stages r = [s] ∧ ∀ c ∈ s.colls, (f.shim r).isPpBackend c.backendId = pp) ∨
      ∃ s s', J.stages r = [s, s'] ∧ (∀ c ∈ s.colls, (f.shim r).isPpBackend c.backendId = true) ∧
        ∀ c ∈ s'.colls, (f.shim r).isPpBackend c.backendId = false := by
  match hst : J.stages r with
  | [] => exact .inl rfl
  | [s] =>
    obtain ⟨pp, hpp⟩ := exists_kind (J := J) (r := r) (s := s) (by simp [hst])
    exact .inr (.inl ⟨s, pp, rfl, hpp⟩)
  | s :: s' :: rest =>
    obtain ⟨pp, hpp⟩ := exists_kind (J := J) (r := r) (s := s) (by simp [hst])
    -- transfers come first, and a third stage would bring them back
    have hst₀ : J.stages r = [] ++ s :: s' :: rest := hst
    have hpp' := kind_next hst₀ hpp
    cases pp with
    | false => exact absurd ⟨[], s, s', rest, hst, hpp, hpp'⟩ hnot
    | true =>
      cases rest with
      | nil => exact .inr (.inr ⟨s, s', rfl, hpp, hpp'⟩)
      | cons s'' rest =>
        have hst₁ : J.stages r = [s] ++ s' :: s'' :: rest := hst
        have hpp'' := kind_next hst₁ hpp'
        exact absurd ⟨[s], s', s'', rest, hst, hpp', hpp''⟩ hnot

/-- No transfer comes after a data collective exactly when the rank does not go from data
collectives to transfers. -/
theorem dataLast_iff : ((J.colls r).Pairwise fun c c' =>
      (f.shim r).isPpBackend c'.backendId = true → (f.shim r).isPpBackend c.backendId = true) ↔
    ¬ J.EntersTransfers r := by
  constructor
  · rintro hlast ⟨front, s, s', rest, hst, hdata, hpp⟩
    -- a collective of each of the two stages is a pair in the wrong order
    obtain ⟨c, hc⟩ := List.exists_mem_of_ne_nil _ s.nonempty
    obtain ⟨c', hc'⟩ := List.exists_mem_of_ne_nil _ s'.nonempty
    rw [colls, hst, stageColls_append, stageColls_cons, stageColls_cons, List.pairwise_append,
      List.pairwise_append] at hlast
    have htrue := hlast.2.1.2.2 c hc c' (List.mem_append_left _ hc') (hpp c' hc')
    rw [hdata c hc] at htrue
    cases htrue
  · intro hnot
    rcases stages_cases hnot with hst | ⟨s, pp, hst, hkind⟩ | ⟨s, s', hst, hpp, hdata⟩
    · simp [colls, hst, stageColls]
    · have hcolls : J.colls r = s.colls := by simp [colls, hst, stageColls]
      rw [hcolls]
      refine List.pairwise_of_forall_mem_list fun c hc c' hc' htrue => ?_
      rw [hkind c hc, ← hkind c' hc', htrue]
    · have hcolls : J.colls r = s.colls ++ s'.colls := by simp [colls, hst, stageColls]
      rw [hcolls, List.pairwise_append]
      refine ⟨List.pairwise_of_forall_mem_list fun c hc _ _ _ => hpp c hc,
        List.pairwise_of_forall_mem_list fun c hc c' hc' htrue => ?_, fun c hc _ _ _ => hpp c hc⟩
      rw [hdata c' hc'] at htrue
      cases htrue

/-! ## The requests of a rank whose data collectives come last -/

theorem topowrite_shim (J : ProvisionJob f) (r : ℕ) :
    topowrite (J.shim r) = topowrite (f.shim r) := rfl

/-- The request for the first data collective of a rank, sent after its last transfer. -/
def entry (J : ProvisionJob f) (r : ℕ) : List ConfigReq :=
  if J.transfers r = [] then []
  else ((J.dataColls r).head?.map fun c => ⟨(f.shim r).hexId c.backendId, c.backendId, 0⟩).toList

/-- After its last transfer a rank requests its first data collective with the counter 0. -/
theorem topoprovision_entry {s s' : Stage} (hst : J.stages r = [s, s'])
    (hs : ∀ c ∈ s.colls, (f.shim r).isPpBackend c.backendId = true)
    (hs' : ∀ c ∈ s'.colls, (f.shim r).isPpBackend c.backendId = false) :
    (topoprovision (J.shim r) 1 (s.colls.getLast s.nonempty).backendId).request? =
      s'.colls.head?.map fun c => ⟨(f.shim r).hexId c.backendId, c.backendId, 0⟩ := by
  obtain ⟨first, tail, hcolls⟩ := List.exists_cons_of_ne_nil s'.nonempty
  have hdata := hs' first (by simp [hcolls])
  have hmem : first ∈ J.colls r := by simp [colls, hst, hcolls]
  -- no collective of this backend has run yet
  have hnone : (stageColls ([] ++ [s])).filter (fun c => c.backendId = first.backendId) = [] := by
    rw [List.filter_eq_nil_iff]
    intro c hc heq
    have hc' : c ∈ s.colls := by simpa [stageColls] using hc
    rw [← of_decide_eq_true heq] at hdata
    exact Bool.false_ne_true (hdata.symm.trans (hs c hc'))
  have hcount : first.count (f.shim r) (countersAfter (f.shim r) noCounters
      (stageColls ([] ++ [s])) first.backendId) = 0 := by
    have hneither : first.op.direction ((f.shim r).rank first.backendId) = .neither := by
      obtain ⟨h, hr, hb, hop⟩ := J.runs r first hmem
      have hisPp : f.isPp h = false := by
        rw [← f.isPp_eq h r hr, ← hb]
        exact hdata
      rw [hisPp, if_neg Bool.false_ne_true] at hop
      exact direction_of_data hop _
    simp only [Coll.count, hneither, countersAfter_coll, hnone]
    rfl
  have hst' : J.stages r = [] ++ s :: s' :: [] := hst
  have hboundary := topoprovision_boundary hst' hcolls
  simp only [hcount, hdata, Bool.false_eq_true, if_false, List.length_nil, Nat.zero_add]
    at hboundary
  rw [hboundary, hcolls]
  rfl

/-- **The requests of a rank**: the next counter after every transfer but the last, and then the
first data collective. -/
theorem requests_eq (hnot : ¬ J.EntersTransfers r) :
    J.requests r =
      (keysFrom (f.shim r) noCounters (J.transfers r).dropLast).map
        (fun key => topowrite (f.shim r) key.1 (key.2 + 1)) ++ J.entry r := by
  have hd := J.describes r
  rw [requests_eq_stagesProvisioned]
  -- no stage, one stage, or transfers and then data
  rcases stages_cases hnot with hst | ⟨s, pp, hst, hkind⟩ | ⟨s, s', hst, hpp, hdata⟩
  · simp [hst, stagesProvisioned, transfers, entry, colls, stageColls, keysFrom]
  · rw [hst] at hd ⊢
    have hd₀ : Describes (J.shim r) ([] ++ s :: []) := hd
    have hreq := hd₀.request?_stage hkind
    have hnone : topoprovision (J.shim r) 1 (s.colls.getLast s.nonempty).backendId = .nothing :=
      hd₀.topoprovision_last _
    simp only [stageColls, List.flatMap_nil, countersAfter_nil, List.length_nil, Nat.zero_add,
      hnone] at hreq
    simp only [stagesProvisioned, List.append_nil, hreq]
    cases pp with
    | true =>
      have htransfers : J.transfers r = s.colls := by
        simpa [transfers, colls, hst, stageColls] using hkind
      have hdataColls : J.dataColls r = [] := by
        simpa [dataColls, colls, hst, stageColls] using hkind
      simp only [if_true, htransfers, entry, hdataColls, keysFrom_congr (J.shim r) (f.shim r) rfl]
      simp [Emitted.request?, topowrite_shim]
    | false =>
      have htransfers : J.transfers r = [] := by
        simpa [transfers, colls, hst, stageColls] using hkind
      simp [entry, htransfers, keysFrom, Emitted.request?]
  · rw [hst] at hd ⊢
    have hd₀ : Describes (J.shim r) ([] ++ s :: [s']) := hd
    have hd₁ : Describes (J.shim r) ([s] ++ s' :: []) := hd
    have hreq := hd₀.request?_stage hpp
    have hreq' := hd₁.request?_stage hdata
    have hnone : topoprovision (J.shim r) 2 (s'.colls.getLast s'.nonempty).backendId =
        .nothing := hd₁.topoprovision_last _
    simp only [stageColls, List.flatMap_nil, countersAfter_nil, List.length_nil, Nat.zero_add,
      topoprovision_entry hst hpp hdata, if_true] at hreq
    simp only [stageColls, List.flatMap_singleton, List.length_singleton, hnone,
      Bool.false_eq_true, if_false, List.nil_append] at hreq'
    -- the stages are the two parts of the collectives
    have htransfers : J.transfers r = s.colls := by
      have h₁ : s.colls.filter (fun c => (f.shim r).isPpBackend c.backendId) = s.colls := by
        simpa using hpp
      have h₂ : s'.colls.filter (fun c => (f.shim r).isPpBackend c.backendId) = [] := by
        simpa using hdata
      simp [transfers, colls, hst, stageColls, h₁, h₂]
    have hdataColls : J.dataColls r = s'.colls := by
      have h₁ : s.colls.filter (fun c => !(f.shim r).isPpBackend c.backendId) = [] := by
        simpa using hpp
      have h₂ : s'.colls.filter (fun c => !(f.shim r).isPpBackend c.backendId) = s'.colls := by
        simpa using hdata
      simp [dataColls, colls, hst, stageColls, h₁, h₂]
    rw [stagesProvisioned, stagesProvisioned, stagesProvisioned, List.append_nil, Nat.zero_add,
      List.filterMap_append, hreq, hreq', htransfers, entry, htransfers, if_neg s.nonempty,
      hdataColls, keysFrom_congr (J.shim r) (f.shim r) rfl]
    simp [Emitted.request?, topowrite_shim]

/-- The transfers of a member of a pipeline communicator are on it. -/
theorem transfers_spec (hr : r ∈ f.reg.clients h) (hpp : f.isPp h = true)
    (hc : c ∈ J.transfers r) :
    c.backendId = f.backendId h ∧ f.neighbours r h c.op = true := by
  obtain ⟨hmem, hisPp⟩ := List.mem_filter.mp hc
  have hb : c.backendId = f.backendId h := by
    simp only [Shim.isPpBackend, Bool.and_eq_true, beq_iff_eq] at hisPp
    rw [hisPp.2, Fabric.backendId_of_isPp hr hpp]
  exact ⟨hb, runs_of_isPp hmem hr hb hpp⟩

/-- A rank with a transfer is a member of a pipeline communicator. -/
theorem exists_isPp (hc : c ∈ J.transfers r) : ∃ h, r ∈ f.reg.clients h ∧ f.isPp h = true := by
  obtain ⟨hmem, hisPp⟩ := List.mem_filter.mp hc
  obtain ⟨h, hr, hb, -⟩ := J.runs r c hmem
  refine ⟨h, hr, ?_⟩
  rwa [hb, f.isPp_eq h r hr] at hisPp

/-- A counter of a transfer stays within the interval of its group, and so does the one after it. -/
theorem lt_interval {d : Direction} {i : ℕ} (hr : r ∈ f.reg.clients h) (hpp : f.isPp h = true)
    (hi : i < directionCount (f.rank r h) (J.transfers r).dropLast d) :
    i + 1 < PP_INTERVAL := by
  obtain ⟨c, hc, hdir⟩ := List.countP_pos_iff.mp (Nat.zero_lt_of_lt hi)
  have hd : d ≠ .neither := by
    rw [← of_decide_eq_true hdir]
    have hn := (transfers_spec hr hpp (List.mem_of_mem_dropLast hc)).2
    exact (Fabric.isTransfer_of_neighbours hn).direction_ne
  have hzero : (noCounters (f.backendId h)).get d = 0 := by cases d <;> rfl
  -- the transfers counted are among those that count for the direction
  have hle : directionCount (f.rank r h) (J.transfers r).dropLast d ≤
      (countersAfter (f.shim r) noCounters (J.colls r) (f.backendId h)).get d := by
    rw [countersAfter_get, hzero, Nat.zero_add]
    calc directionCount (f.rank r h) (J.transfers r).dropLast d
        ≤ (J.transfers r).countP fun c => c.backendId = f.backendId h ∧
            (d = .neither ∨ c.op.direction ((f.shim r).rank (f.backendId h)) = d) := by
          refine Nat.le_trans (List.dropLast_sublist _).countP_le (List.countP_mono_left ?_)
          intro c hc hdir
          exact decide_eq_true ⟨(transfers_spec hr hpp hc).1, .inr (of_decide_eq_true hdir)⟩
      _ ≤ _ := List.filter_sublist.countP_le
  exact Nat.lt_of_le_of_lt (Nat.le_trans hi hle) (counters_lt hr hpp hd)

/-- The counters of the transfers of a rank but its last. -/
theorem mem_keys_iff (hr : r ∈ f.reg.clients h) (hpp : f.isPp h = true) (m : ℕ) :
    (f.backendId h, m) ∈ keysFrom (f.shim r) noCounters (J.transfers r).dropLast ↔
      ∃ d ≠ Direction.neither, ∃ i < directionCount (f.rank r h) (J.transfers r).dropLast d,
        m = i + d.base (f.rank r h) * PP_INTERVAL := by
  have hmem : ∀ c ∈ (J.transfers r).dropLast,
      c.backendId = f.backendId h ∧ f.neighbours r h c.op = true := fun c hc =>
    transfers_spec hr hpp (List.mem_of_mem_dropLast hc)
  have hzero : ∀ d, (noCounters (f.backendId h)).get d = 0 := fun d => by cases d <;> rfl
  rw [mem_keysFrom_iff (fun c hc => (hmem c hc).1)
    (fun c hc => Fabric.adjacent_of_neighbours (hmem c hc).2)
    fun c hc => Fabric.isTransfer_of_neighbours (hmem c hc).2]
  simp only [hzero, Nat.zero_add]
  rfl

theorem mem_entry : q ∈ J.entry r ↔ ∃ h, r ∈ f.reg.clients h ∧ f.isPp h = false ∧
    J.Enters r h ∧ q = ⟨h, f.backendId h, 0⟩ := by
  unfold entry Enters
  by_cases hnil : J.transfers r = []
  · simp [hnil]
  cases hdata : J.dataColls r with
  | nil => simp [hnil]
  | cons c cs =>
    have hc : c ∈ J.dataColls r := by simp [hdata]
    obtain ⟨hmem, hisPp⟩ := List.mem_filter.mp hc
    obtain ⟨h, hr, hb, -⟩ := J.runs r c hmem
    have hpp : f.isPp h = false := by
      rw [hb, f.isPp_eq h r hr] at hisPp
      simpa using hisPp
    simp only [hnil, if_false, List.head?_cons, Option.map_some, Option.toList_some,
      List.mem_singleton, ne_eq, not_false_eq_true, true_and, Option.some.injEq]
    constructor
    · rintro rfl
      refine ⟨h, hr, hpp, hb, ?_⟩
      rw [hb, f.hexId_eq h r hr]
    -- a backend belongs to one communicator
    · rintro ⟨h', hr', -, hb', rfl⟩
      rw [hb', f.hexId_eq h' r hr']

theorem mem_keys (hkey : (b, m) ∈ keysFrom (f.shim r) noCounters (J.transfers r).dropLast) :
    ∃ h, r ∈ f.reg.clients h ∧ f.isPp h = true ∧ b = f.backendId h := by
  obtain ⟨j, hj⟩ := List.mem_iff_getElem?.mp hkey
  rw [getElem?_keysFrom, Option.map_eq_some_iff] at hj
  obtain ⟨c, hc, heq⟩ := hj
  have hmem := List.mem_of_mem_dropLast (List.mem_of_getElem? hc)
  obtain ⟨h, hr, hpp⟩ := exists_isPp hmem
  exact ⟨h, hr, hpp, (congrArg Prod.fst heq).symm.trans (transfers_spec hr hpp hmem).1⟩

/-- **The requests of a rank whose data collectives come last.** -/
theorem mem_requests (hnot : ¬ J.EntersTransfers r) :
    q ∈ J.requests r ↔
      (∃ h, r ∈ f.reg.clients h ∧ f.isPp h = true ∧ ∃ d ≠ Direction.neither,
        ∃ i < directionCount (f.rank r h) (J.transfers r).dropLast d,
          q = nextRequest h (d.base (f.rank r h)) i) ∨
      ∃ h, r ∈ f.reg.clients h ∧ f.isPp h = false ∧ J.Enters r h ∧ q = ⟨h, f.backendId h, 0⟩ := by
  rw [requests_eq hnot, List.mem_append, mem_entry]
  refine or_congr_left ?_
  rw [List.mem_map]
  constructor
  · rintro ⟨⟨b, m⟩, hkey, rfl⟩
    obtain ⟨h, hr, hpp, rfl⟩ := mem_keys hkey
    obtain ⟨d, hd, i, hi, rfl⟩ := (mem_keys_iff hr hpp m).mp hkey
    exact ⟨h, hr, hpp, d, hd, i, hi,
      topowrite_eq_nextRequest hr hpp (lt_interval hr hpp hi)⟩
  · rintro ⟨h, hr, hpp, d, hd, i, hi, rfl⟩
    refine ⟨(f.backendId h, i + d.base (f.rank r h) * PP_INTERVAL), ?_,
      topowrite_eq_nextRequest hr hpp (lt_interval hr hpp hi)⟩
    exact (mem_keys_iff hr hpp _).mpr ⟨d, hd, i, hi, rfl⟩

theorem keys_nodup (J : ProvisionJob f) (r : ℕ) :
    (keysFrom (f.shim r) noCounters (J.transfers r).dropLast).Nodup := by
  have hsub : (J.transfers r).dropLast.Sublist (J.colls r) :=
    (List.dropLast_sublist _).trans List.filter_sublist
  apply keysFrom_nodup
  · intro c hc
    exact J.adjacent (hsub.subset hc)
  · exact (J.withinInterval r).sublist hsub

/-- A rank whose data collectives come last sends no request twice. -/
theorem requests_nodup (hnot : ¬ J.EntersTransfers r) :
    (J.requests r).Nodup := by
  rw [requests_eq hnot, List.nodup_append]
  -- different keys lead to different counters
  refine ⟨?_, ?_, ?_⟩
  · refine List.Nodup.map_on ?_ (J.keys_nodup r)
    rintro ⟨b, m⟩ hkey ⟨b', m'⟩ hkey' heq
    obtain ⟨h, hr, hpp, rfl⟩ := mem_keys hkey
    obtain ⟨h', hr', hpp', rfl⟩ := mem_keys hkey'
    simp only [Fabric.topowrite_of_isPp hr hpp, Fabric.topowrite_of_isPp hr' hpp',
      ConfigReq.mk.injEq] at heq
    obtain ⟨rfl, -, hcounter⟩ := heq
    rw [Nat.succ_injective hcounter]
  · unfold entry
    split
    · exact List.nodup_nil
    · exact Option.toList_nodup _
  · -- the two kinds of requests are for different communicators
    intro q hq q' hq' heq
    subst heq
    obtain ⟨⟨b, m⟩, hkey, rfl⟩ := List.mem_map.mp hq
    obtain ⟨h, hr, hpp, rfl⟩ := mem_keys hkey
    obtain ⟨h', hr', hpp', -, heq⟩ := mem_entry.mp hq'
    simp only [Fabric.topowrite_of_isPp hr hpp, ConfigReq.mk.injEq] at heq
    rw [heq.1, hpp'] at hpp
    cases hpp

/-! ## Requests that are left over -/

/-- No look-up fails unless a rank goes from data collectives to transfers. -/
theorem outOfRange_notMem (hnot : ¬ J.EntersTransfers r) (index : ℕ) :
    Emitted.outOfRange index ∉ J.emitted r := by
  intro he
  obtain ⟨front, s, rest, hst, ⟨key, -, heq⟩ | heq⟩ := mem_emitted.mp he
  · split at heq
    · cases heq
    · cases heq
  · cases rest with
    | nil =>
      have hd : Describes (J.shim r) (front ++ s :: []) := hst ▸ J.describes r
      rw [hd.topoprovision_last] at heq
      cases heq
    | cons s' rest =>
      obtain ⟨first, tail, hfirst⟩ := List.exists_cons_of_ne_nil s'.nonempty
      -- only a boundary to transfers can look up a backend that does not exist
      obtain ⟨pp, hpp⟩ := exists_kind (J := J) (r := r) (s := s) (by simp [hst])
      have hpp' := kind_next hst hpp
      cases pp with
      | false => exact hnot ⟨front, s, s', rest, hst, hpp, hpp'⟩
      | true =>
        rw [topoprovision_boundary hst hfirst, hpp' first (by simp [hfirst])] at heq
        cases heq

/-- The request at a boundary is sent. -/
theorem mem_requests_of_boundary {front rest : List Stage} {s : Stage}
    (hst : J.stages r = front ++ s :: rest)
    (hout : topoprovision (J.shim r) (front.length + 1) (s.colls.getLast s.nonempty).backendId =
      .request q) : q ∈ J.requests r :=
  List.mem_filterMap.mpr ⟨.request q, mem_emitted.mpr ⟨front, s, rest, hst, .inr hout.symm⟩, rfl⟩

theorem requests_idle (J : ProvisionJob f) (hr : J.ranks ≤ r) : J.requests r = [] := by
  rw [requests_eq_stagesProvisioned, J.idle r hr]
  rfl

/-- The communicator of a request has members. -/
theorem mem_clients_of_mem_requests (hq : q ∈ J.requests r) : r ∈ f.reg.clients q.hexId := by
  obtain ⟨h, hr, -, n, -, rfl⟩ | ⟨h, hr, -, group, i, -, -, -, -, rfl | rfl⟩ := request_cases hq
  · exact hr
  · exact hr
  · exact hr

/-- The topology of a request exists. -/
theorem determineRuntimeTopo_ne_error (hq : q ∈ J.requests r) (topoId : TopoId)
    (message : String) : determineRuntimeTopo topoId q.backend q.counter ≠ .error message := by
  obtain ⟨h, -, -, n, -, rfl⟩ | ⟨h, -, -, group, i, hi, hpos, -, -, rfl | rfl⟩ := request_cases hq
  · have hlt := f.backendId_lt h
    simp only [hexIdMapSize] at hlt
    exact Fabric.determineRuntimeTopo_ne_error_of_le (by simp only; omega) topoId message
  · exact Fabric.determineRuntimeTopo_ne_error_of_group hpos (nextRequest_div h group hi) topoId
      message
  · exact Fabric.determineRuntimeTopo_ne_error_of_le (by simp [stageRequest]) topoId message

/-- **Who else requests the counter of a stage request**: a rank after a transfer, for the group that
the counter names. -/
theorem request_cases_of_stageRequest {group i : ℕ} (hr : r ∈ f.reg.clients h)
    (hpp : f.isPp h = true) (hi : i + 1 < PP_INTERVAL)
    (hrank : f.rank r h = group ∨ f.rank r h + 1 = group) (hq : q ∈ J.requests r')
    (hhex : q.hexId = h) (hcounter : q.counter = (stageRequest f r h group i).counter) :
    (r' = r ∧ q = stageRequest f r h group i) ∨
      PP_BACKEND_INTERVAL < q.backend ∧ group + f.rank r h < f.size h ∧
        (f.rank r' h = group + f.rank r h ∨ f.rank r' h + 1 = group + f.rank r h) := by
  have hdiv := stageRequest_div (f := f) r h group hi
  rw [← hcounter] at hdiv
  obtain ⟨h', -, hdata, n, -, rfl⟩ | ⟨h', hr', -, group', i', hi', hpos, hlt, hrank', rfl | rfl⟩ :=
    request_cases hq
  · obtain rfl : h' = h := hhex
    rw [hpp] at hdata
    cases hdata
  · obtain rfl : h' = h := hhex
    rw [nextRequest_div h' group' hi'] at hdiv
    -- a request after a transfer carries the group in its backend
    subst hdiv
    refine .inr ⟨?_, hlt, hrank'⟩
    simp only [nextRequest, PP_BACKEND_INTERVAL]
    omega
  · -- the stage is the same, and so is the rank
    obtain rfl : h' = h := hhex
    rw [stageRequest_div r' h' group' hi'] at hdiv
    obtain rfl : r' = r := Fabric.rank_inj hr' hr (by omega)
    obtain rfl : group' = group := Nat.add_right_cancel hdiv
    exact .inl ⟨rfl, congrArg (ConfigReq.mk h' 1) hcounter⟩

/-- Requests of transfers for one counter leave at most one of them waiting. -/
theorem foldl_countNext_le {size cnt : ℕ} (hcnt : cnt ≤ 1) (qs : List ConfigReq)
    (hqs : ∀ q ∈ qs, PP_BACKEND_INTERVAL < q.backend) :
    qs.foldl (countNext size) cnt ≤ 1 := by
  induction qs generalizing cnt with
  | nil => exact hcnt
  -- the second request erases the count of the first
  | cons q qs ih =>
    refine ih ?_ fun q' hq' => hqs q' (List.mem_cons_of_mem q hq')
    rw [countNext, allArrive, if_pos (hqs q List.mem_cons_self)]
    split
    · exact Nat.zero_le 1
    · rename_i hlt
      simpa using hlt

/-- They do not complete a group that waits for all members when another request comes. -/
theorem foldl_countNext_lt {size : ℕ} (hsize : 2 ≤ size) (qs : List ConfigReq)
    (hqs : ∀ q ∈ qs, PP_BACKEND_INTERVAL < q.backend ∧ 2 < size) :
    qs.foldl (countNext size) 0 + 1 < size := by
  cases qs with
  | nil => exact hsize
  | cons q qs =>
    have hle : (q :: qs).foldl (countNext size) 0 ≤ 1 :=
      foldl_countNext_le (Nat.zero_le 1) _ fun q' hq' => (hqs q' hq').1
    have hlt := (hqs q List.mem_cons_self).2
    omega

theorem countNext_ne_zero {size cnt : ℕ} (hback : q.backend = 1) (hlt : cnt + 1 < size) :
    countNext size cnt q ≠ 0 := by
  have hwait : ¬ allArrive q.backend (cnt + 1) size = true := by
    simpa [allArrive, hback, PP_BACKEND_INTERVAL] using hlt
  rw [countNext, if_neg hwait]
  exact Nat.succ_ne_zero cnt

/-- A stage request is the only one of its rank for its counter, when the group that the counter names
is none of the rank's own. -/
theorem filter_requests_eq {group i : ℕ} (hr : r ∈ f.reg.clients h) (hpp : f.isPp h = true)
    (hi : i + 1 < PP_INTERVAL) (hpos : 1 ≤ group)
    (hrank : f.rank r h = group ∨ f.rank r h + 1 = group)
    (hown : ¬ (group = 1 ∧ f.rank r h + 1 < f.size h))
    (hq : stageRequest f r h group i ∈ J.requests r) :
    ((J.requests r).filter fun q =>
      q.hexId = h ∧ q.counter = (stageRequest f r h group i).counter) =
        [stageRequest f r h group i] := by
  have heq : ∀ q ∈ J.requests r, q.hexId = h →
      q.counter = (stageRequest f r h group i).counter → q = stageRequest f r h group i := by
    intro q hq hhex hcounter
    obtain ⟨-, heq⟩ | ⟨-, hlt, hgroup⟩ :=
      request_cases_of_stageRequest hr hpp hi hrank hq hhex hcounter
    · exact heq
    · exact absurd ⟨by omega, by omega⟩ hown
  have hfilter : ((J.requests r).filter fun q =>
      q.hexId = h ∧ q.counter = (stageRequest f r h group i).counter) =
        ((J.requests r).filter fun q => q.backend = 1).filter fun q =>
          q.hexId = h ∧ q.counter = (stageRequest f r h group i).counter := by
    rw [List.filter_filter]
    refine List.filter_congr fun q hq => ?_
    rw [eq_comm, Bool.and_eq_left_iff_imp]
    intro hkey
    obtain ⟨hhex, hcounter⟩ := of_decide_eq_true hkey
    rw [heq q hq hhex hcounter]
    rfl
  -- one occurrence, since a stage request is not sent twice
  rw [← List.perm_singleton, List.perm_ext_iff_of_nodup _ (List.nodup_singleton _)]
  · intro q
    rw [List.mem_filter, List.mem_singleton, decide_eq_true_eq]
    constructor
    · rintro ⟨hq, hhex, hcounter⟩
      exact heq q hq hhex hcounter
    · rintro rfl
      exact ⟨hq, rfl, rfl⟩
  · rw [hfilter]
    exact (J.stageRequests_nodup r).filter _

/-- When the group that its counter names is the rank's own, the other end misses the request. -/
theorem Complete.not_own {group i : ℕ} (hJ : J.Complete) (hr : r ∈ f.reg.clients h)
    (hpp : f.isPp h = true) (hi : i + 1 < PP_INTERVAL)
    (hrank : f.rank r h = group ∨ f.rank r h + 1 = group)
    (hq : stageRequest f r h group i ∈ J.requests r) :
    ¬ (group = 1 ∧ f.rank r h + 1 < f.size h) := by
  rintro ⟨rfl, hlt⟩
  obtain ⟨r', hr', hrank'⟩ := f.exists_rank hlt
  have hdiv := stageRequest_div (f := f) r h 1 hi
  have hmem : stageRequest f r h 1 i ∈ (J.requests r').filter fun q =>
      q.hexId = h ∧ q.counter / PP_INTERVAL = f.rank r' h := by
    rw [← (hJ.pair h hpp r hr r' hr' hrank').mem_iff, List.mem_filter, decide_eq_true_eq]
    exact ⟨hq, rfl, by omega⟩
  -- the other end could only have sent it with the group in the backend
  obtain ⟨rfl, -⟩ | ⟨hback, -⟩ := request_cases_of_stageRequest hr hpp hi hrank
    (List.mem_filter.mp hmem).1 rfl rfl
  · omega
  · simp [stageRequest, PP_BACKEND_INTERVAL] at hback

/-- **A request for a stage of transfers is left over**: when all other ranks have come to their end
before the rank begins, the request finds no complete group. -/
theorem Complete.not_entersTransfers (hJ : J.Complete) (r : ℕ) : ¬ J.EntersTransfers r := by
  rintro ⟨front, s₁, s₂, rest, hst, -, hpp⟩
  obtain ⟨h, hr, hisPp, group, i, hi, hpos, hlt, hrank, ⟨index, hout⟩ | hout⟩ :=
    topoprovision_isPp hst hpp
  · exact hJ.defined r index (mem_emitted.mpr ⟨front, s₁, s₂ :: rest, hst, .inr hout.symm⟩)
  have hq := mem_requests_of_boundary hst hout
  have hown := hJ.not_own hr hisPp hi hrank hq
  set q := stageRequest f r h group i
  set others := (List.range J.ranks).erase r
  have hothers : r ∉ others := List.nodup_range.not_mem_erase
  -- the rank takes the last turn
  obtain ⟨s, hreach, hterm, hready⟩ := exists_terminal_last f.reg (fun _ hr => J.requests_idle hr)
    (fun _ _ hq => List.ne_nil_of_mem (mem_clients_of_mem_requests hq))
    (fun _ _ hq => determineRuntimeTopo_ne_error hq) 0 r
  have hzero := (hready h q.counter).symm.trans (hJ.counted 0 s hreach hterm h q.counter)
  rw [countAfter, List.filter_append, filter_requests_eq hr hisPp hi hpos hrank hown hq,
    List.foldl_append, List.foldl_cons, List.foldl_nil] at hzero
  -- what the others request for the counter comes from transfers of a longer pipeline
  have hkeys : ∀ q' ∈ (others.flatMap J.requests).filter
      (fun q' => q'.hexId = h ∧ q'.counter = q.counter),
        PP_BACKEND_INTERVAL < q'.backend ∧ 2 < f.size h := by
    intro q' hq'
    obtain ⟨hmem, hkey⟩ := List.mem_filter.mp hq'
    obtain ⟨r', hr', hq'⟩ := List.mem_flatMap.mp hmem
    obtain ⟨hhex, hcounter⟩ := of_decide_eq_true hkey
    obtain ⟨rfl, -⟩ | ⟨hback, hsize, -⟩ :=
      request_cases_of_stageRequest hr hisPp hi hrank hq' hhex hcounter
    · exact absurd hr' hothers
    · exact ⟨hback, by omega⟩
  -- at most one of these waits, and the request waits for all members
  exact countNext_ne_zero rfl (foldl_countNext_lt (by omega) _ hkeys) hzero

/-! ## Matching requests -/

theorem countP_dropLast_add {α : Type*} (p : α → Bool) (l : List α) :
    l.dropLast.countP p + (if l.getLast?.any p then 1 else 0) = l.countP p := by
  rcases List.eq_nil_or_concat' l with rfl | ⟨init, last, rfl⟩
  · rfl
  · rw [List.dropLast_concat, List.getLast?_concat, List.countP_append, List.countP_singleton,
      Option.any_some]

theorem eq_iff_of_add_ite {p p' : Prop} [Decidable p] [Decidable p'] {n n' : ℕ}
    (h : n + (if p then 1 else 0) = n' + if p' then 1 else 0) : n = n' ↔ (p ↔ p') := by
  by_cases hp : p
  · by_cases hp' : p'
    · rw [if_pos hp, if_pos hp'] at h
      exact iff_of_true (Nat.add_right_cancel h) (iff_of_true hp hp')
    · rw [if_pos hp, if_neg hp'] at h
      exact iff_of_false (by omega) fun hiff => hp' (hiff.mp hp)
  · by_cases hp' : p'
    · rw [if_neg hp, if_pos hp'] at h
      exact iff_of_false (by omega) fun hiff => hp (hiff.mpr hp')
    · rw [if_neg hp, if_neg hp'] at h
      exact iff_of_true h (iff_of_false hp hp')

section Peers

variable {d : Direction} {peer : ℕ} (hdir : ∀ c ∈ J.transfers r,
  (c.op.direction (f.rank r h) = d ↔ c.op.peer? = some peer))

include hdir

theorem countP_direction (hr : r ∈ f.reg.clients h) (hpp : f.isPp h = true) :
    (J.transfers r).countP (fun c => c.op.direction (f.rank r h) = d) =
      ((J.colls r).filter fun c =>
        c.backendId = f.backendId h ∧ c.op.peer? = some peer).length := by
  rw [List.countP_eq_length_filter]
  have hpeer : (J.transfers r).filter (fun c => c.op.direction (f.rank r h) = d) =
      (J.transfers r).filter fun c => c.op.peer? = some peer :=
    List.filter_congr fun c hc => decide_eq_decide.mpr (hdir c hc)
  -- the transfers with the peer are the collectives of the communicator with the peer
  rw [hpeer, transfers, List.filter_filter]
  congr 1
  refine List.filter_congr fun c hc => ?_
  have hiff : (f.shim r).isPpBackend c.backendId = true ↔ c.backendId = f.backendId h := by
    constructor
    · intro hisPp
      exact (transfers_spec hr hpp (List.mem_filter.mpr ⟨hc, hisPp⟩)).1
    · intro hb
      rw [hb, f.isPp_eq h r hr, hpp]
  rw [Bool.eq_iff_iff, Bool.and_eq_true, hiff, decide_eq_true_eq, decide_eq_true_eq, and_comm]

theorem getLast?_direction :
    (J.transfers r).getLast?.any (fun c => c.op.direction (f.rank r h) = d) = true ↔
      (J.transfers r).getLast?.bind (fun c => c.op.peer?) = some peer := by
  cases hl : (J.transfers r).getLast? with
  | none => simp
  | some c => simpa using hdir c (List.mem_of_getLast? hl)

end Peers

/-- Below its last transfer, the lower end of a pair has as many transfers with the upper end as the
upper end has with it, exactly when both last transfers are within the pair or both are not. -/
theorem directionCount_eq_iff (J : ProvisionJob f) (hpp : f.isPp h = true)
    (hr : r ∈ f.reg.clients h) (hr' : r' ∈ f.reg.clients h)
    (hrank : f.rank r' h = f.rank r h + 1) :
    directionCount (f.rank r h) (J.transfers r).dropLast .up =
        directionCount (f.rank r' h) (J.transfers r').dropLast .down ↔
      ((J.transfers r).getLast?.bind (fun c => c.op.peer?) = some (f.rank r' h) ↔
        (J.transfers r').getLast?.bind (fun c => c.op.peer?) = some (f.rank r h)) := by
  have hup : ∀ c ∈ J.transfers r, (c.op.direction (f.rank r h) = .up ↔
      c.op.peer? = some (f.rank r' h)) := by
    intro c hc
    rw [hrank]
    exact Fabric.direction_up_iff (transfers_spec hr hpp hc).2
  have hdown : ∀ c ∈ J.transfers r', (c.op.direction (f.rank r' h) = .down ↔
      c.op.peer? = some (f.rank r h)) := fun c hc =>
    Fabric.direction_down_iff (transfers_spec hr' hpp hc).2 hrank
  -- the pair runs the same transfers at both ends
  have hcount : (J.transfers r).countP (fun c => c.op.direction (f.rank r h) = .up) =
      (J.transfers r').countP fun c => c.op.direction (f.rank r' h) = .down := by
    have hlen := congrArg List.length (J.transfers_eq h hpp r hr r' hr' hrank)
    rw [List.length_map] at hlen
    rw [countP_direction hup hr hpp, countP_direction hdown hr' hpp]
    exact hlen
  -- leaving out the last transfer takes away one where it is within the pair
  rw [← countP_dropLast_add, ← countP_dropLast_add _ (J.transfers r')] at hcount
  rw [← getLast?_direction hup, ← getLast?_direction hdown, directionCount, directionCount]
  exact eq_iff_of_add_ite hcount

/-- Below their last transfers the two ends of a pair have as many transfers with each other. -/
theorem Matched.directionCount_eq (hJ : J.Matched) (hpp : f.isPp h = true)
    (hr : r ∈ f.reg.clients h) (hr' : r' ∈ f.reg.clients h)
    (hrank : f.rank r' h = f.rank r h + 1) :
    directionCount (f.rank r h) (J.transfers r).dropLast .up =
      directionCount (f.rank r' h) (J.transfers r').dropLast .down :=
  (J.directionCount_eq_iff hpp hr hr' hrank).mpr (hJ.lastTransfer h hpp r hr r' hr' hrank)

theorem Matched.not_entersTransfers (hJ : J.Matched) (r : ℕ) : ¬ J.EntersTransfers r :=
  dataLast_iff.mp (hJ.dataLast r)

/-- A rank with a transfer in a direction has a neighbour there. -/
theorem base_of_directionCount {d : Direction} {i : ℕ} (hr : r ∈ f.reg.clients h)
    (hpp : f.isPp h = true) (hi : i < directionCount (f.rank r h) (J.transfers r).dropLast d) :
    1 ≤ d.base (f.rank r h) ∧ d.base (f.rank r h) < f.size h ∧
      (f.rank r h = d.base (f.rank r h) ∨ f.rank r h + 1 = d.base (f.rank r h)) := by
  obtain ⟨c, hc, hd⟩ := List.countP_pos_iff.mp (Nat.zero_lt_of_lt hi)
  obtain rfl := of_decide_eq_true hd
  exact base_of_neighbours hr (transfers_spec hr hpp (List.mem_of_mem_dropLast hc)).2 rfl

/-- The shape of a request. -/
theorem Matched.forms (hJ : J.Matched) (hq : q ∈ J.requests r) : f.Forms q.hexId q := by
  rcases (mem_requests (hJ.not_entersTransfers r)).mp hq with
    ⟨h, hr, hpp, d, -, i, hi, rfl⟩ | ⟨h, hr, hpp, -, rfl⟩
  · obtain ⟨hpos, hlt, -⟩ := base_of_directionCount hr hpp hi
    have hdiv := nextRequest_div h (d.base (f.rank r h)) (lt_interval hr hpp hi)
    refine ⟨rfl, ?_, fun _ => ?_⟩
    · rw [hdiv]
      simp only [nextRequest, hpp, if_true, Fabric.backendId_of_isPp hr hpp]
    · simp only [nextRequest]
      omega
  · exact ⟨rfl, by simp [hpp], fun hpp' => absurd (hpp'.symm.trans hpp) (by simp)⟩

/-- Every counter that is requested is a C `int`. -/
theorem Matched.counter_lt (hJ : J.Matched) (hq : q ∈ J.requests r) : q.counter < 2 ^ 31 := by
  rcases (mem_requests (hJ.not_entersTransfers r)).mp hq with
    ⟨h, hr, hpp, d, -, i, hi, rfl⟩ | ⟨h, hr, hpp, -, rfl⟩
  · obtain ⟨-, hlt, -⟩ := base_of_directionCount hr hpp hi
    have hwithin := lt_interval hr hpp hi
    refine Nat.lt_of_le_of_lt ?_ (J.intRange h hpp)
    simp only [nextRequest, PP_INTERVAL] at hwithin ⊢
    omega
  · exact Nat.zero_lt_succ _

/-- What one end of a pair requests, the other end requests. -/
theorem Matched.peers (hJ : J.Matched) (hq : q ∈ J.requests r)
    (hr' : r' ∈ f.peers q.hexId q.counter) : q ∈ J.requests r' := by
  have hmem' := Fabric.mem_clients_of_mem_peers hr'
  rcases (mem_requests (hJ.not_entersTransfers r)).mp hq with
    ⟨h, hr, hpp, d, hd, i, hi, rfl⟩ | ⟨h, hr, hpp, henters, rfl⟩
  · have hdiv := nextRequest_div h (d.base (f.rank r h)) (lt_interval hr hpp hi)
    rw [Fabric.peers, hdiv] at hr'
    simp only [nextRequest, hpp, if_true] at hr' hmem'
    have hcases := of_decide_eq_true (List.mem_filter.mp hr').2
    apply (mem_requests (hJ.not_entersTransfers r')).mpr
    refine .inl ⟨h, hmem', hpp, ?_⟩
    -- the other end counts the same transfers in the opposite direction
    cases d with
    | neither => exact absurd rfl hd
    | up =>
      -- the peer is the upper end, or the rank itself
      rcases hcases with hrank | hrank
      · have hrank' : f.rank r' h = f.rank r h + 1 := hrank
        refine ⟨.down, by simp, i, ?_, ?_⟩
        · rwa [← hJ.directionCount_eq hpp hr hmem' hrank']
        · simp only [Direction.base, hrank']
      · obtain rfl : r' = r := Fabric.rank_inj hmem' hr (Nat.succ_injective hrank)
        exact ⟨.up, hd, i, hi, rfl⟩
    | down =>
      -- the peer is the rank itself, or the lower end
      rcases hcases with hrank | hrank
      · obtain rfl : r' = r := Fabric.rank_inj hmem' hr hrank
        exact ⟨.down, hd, i, hi, rfl⟩
      · have hrank' : f.rank r h = f.rank r' h + 1 := hrank.symm
        refine ⟨.up, by simp, i, ?_, ?_⟩
        · rwa [hJ.directionCount_eq hpp hmem' hr hrank']
        · simp only [Direction.base, hrank']
  · exact (mem_requests (hJ.not_entersTransfers r')).mpr
      (.inr ⟨h, hmem', hpp, (hJ.enters h hpp r hr r' hmem').mp henters, rfl⟩)

/-- **The requests of the job match.** -/
theorem Matched.matched (hJ : J.Matched) : f.Matched J.ranks J.requests where
  idle := fun _ hr => J.requests_idle hr
  nodup := fun r => requests_nodup (hJ.not_entersTransfers r)
  forms := fun _ _ hq => hJ.forms hq
  group := by
    intro r q hq hpp
    rcases (mem_requests (hJ.not_entersTransfers r)).mp hq with
      ⟨h, hr, hpp', d, -, i, hi, rfl⟩ | ⟨h, hr, hpp', -, rfl⟩
    · obtain ⟨hpos, hlt, -⟩ := base_of_directionCount hr hpp' hi
      rw [nextRequest_div _ _ (lt_interval hr hpp' hi)]
      exact ⟨hpos, hlt⟩
    · exact absurd (hpp.symm.trans hpp') (by simp)
  mem_peers := by
    intro r q hq
    rcases (mem_requests (hJ.not_entersTransfers r)).mp hq with
      ⟨h, hr, hpp, d, -, i, hi, rfl⟩ | ⟨h, hr, hpp, -, rfl⟩
    · obtain ⟨-, -, hrank⟩ := base_of_directionCount hr hpp hi
      rw [Fabric.peers, nextRequest_div _ _ (lt_interval hr hpp hi)]
      simp only [nextRequest, hpp, if_true]
      exact List.mem_filter.mpr ⟨hr, decide_eq_true hrank⟩
    · simpa [Fabric.peers, hpp] using hr
  peers := fun _ _ hq _ hr' => hJ.peers hq hr'

/-- **Under the condition every rendezvous of the job is complete.** -/
theorem complete_of_matched (hJ : J.Matched) : J.Complete where
  defined := fun r index => outOfRange_notMem (hJ.not_entersTransfers r) index
  inRange := fun _ _ hq => hJ.counter_lt hq
  pair := by
    intro h hpp r hr r' hr' hrank
    rw [List.perm_ext_iff_of_nodup ((requests_nodup (hJ.not_entersTransfers r)).filter _)
      ((requests_nodup (hJ.not_entersTransfers r')).filter _)]
    intro q
    simp only [List.mem_filter, decide_eq_true_eq, and_congr_left_iff]
    rintro ⟨rfl, hgroup⟩
    have hpeer : r ∈ f.peers q.hexId q.counter ∧ r' ∈ f.peers q.hexId q.counter := by
      simp [Fabric.peers, hpp, hr, hr', hgroup, hrank]
    exact ⟨fun hq => hJ.peers hq hpeer.2, fun hq => hJ.peers hq hpeer.1⟩
  data := by
    intro h hpp r hr r' hr'
    rw [List.perm_ext_iff_of_nodup ((requests_nodup (hJ.not_entersTransfers r)).filter _)
      ((requests_nodup (hJ.not_entersTransfers r')).filter _)]
    intro q
    simp only [List.mem_filter, decide_eq_true_eq, and_congr_left_iff]
    rintro rfl
    have hpeers : f.peers q.hexId q.counter = f.reg.clients q.hexId := by
      simp [Fabric.peers, hpp]
    exact ⟨fun hq => hJ.peers hq (hpeers ▸ hr'), fun hq => hJ.peers hq (hpeers ▸ hr)⟩
  counted := fun _ _ hreach hterm => (terminal_complete hJ.matched.wellMatched hreach hterm).1


/-! ## The condition is exact -/

/-- The two directions of a rank have different groups. -/
theorem base_inj {d d' : Direction} {rank : ℕ} (hd : d ≠ .neither)
    (hd' : d' ≠ .neither) (h : d.base rank = d'.base rank) : d = d' := by
  cases d with
  | neither => exact absurd rfl hd
  | up =>
    cases d' with
    | neither => exact absurd rfl hd'
    | up => rfl
    | down => exact absurd h (Nat.succ_ne_self rank)
  | down =>
    cases d' with
    | neither => exact absurd rfl hd'
    | up => exact absurd h.symm (Nat.succ_ne_self rank)
    | down => rfl

/-- The requests of a rank for the group of a pair count its transfers in that direction. -/
theorem nextRequest_mem_requests {d : Direction} {i : ℕ} (hnot : ¬ J.EntersTransfers r)
    (hr : r ∈ f.reg.clients h) (hpp : f.isPp h = true) (hd : d ≠ .neither) :
    nextRequest h (d.base (f.rank r h)) i ∈ J.requests r ↔
      i < directionCount (f.rank r h) (J.transfers r).dropLast d := by
  rw [mem_requests hnot]
  constructor
  · rintro (⟨h', -, -, d', hd', i', hi', heq⟩ | ⟨h', -, hdata, -, heq⟩)
    · simp only [nextRequest, PP_BACKEND_INTERVAL, ConfigReq.mk.injEq] at heq
      obtain ⟨rfl, hback, hcounter⟩ := heq
      -- the backend gives the group, and the counter the number of the transfer
      have hbase : d.base (f.rank r h) = d'.base (f.rank r h) := by omega
      obtain rfl : d = d' := base_inj hd hd' hbase
      obtain rfl : i = i' := by omega
      exact hi'
    · obtain rfl : h = h' := congrArg ConfigReq.hexId heq
      rw [hpp] at hdata
      cases hdata
  · intro hi
    exact .inl ⟨h, hr, hpp, d, hd, i, hi, rfl⟩

/-- When every rendezvous is complete, the last transfers of the two ends of a pair are both within
the pair or both not. -/
theorem Complete.lastTransfer (hJ : J.Complete) (hpp : f.isPp h = true)
    (hr : r ∈ f.reg.clients h) (hr' : r' ∈ f.reg.clients h)
    (hrank : f.rank r' h = f.rank r h + 1) :
    (J.transfers r).getLast?.bind (fun c => c.op.peer?) = some (f.rank r' h) ↔
      (J.transfers r').getLast?.bind (fun c => c.op.peer?) = some (f.rank r h) := by
  rw [← J.directionCount_eq_iff hpp hr hr' hrank]
  have hup : Direction.up.base (f.rank r h) = f.rank r' h := hrank.symm
  have hdown : Direction.down.base (f.rank r' h) = f.rank r' h := rfl
  have hiff : ∀ i, i + 1 < PP_INTERVAL →
      (i < directionCount (f.rank r h) (J.transfers r).dropLast .up ↔
        i < directionCount (f.rank r' h) (J.transfers r').dropLast .down) := by
    intro i hi
    have hhex : (nextRequest h (f.rank r' h) i).hexId = h := rfl
    have hgroup := nextRequest_div h (f.rank r' h) hi
    have hmem := (hJ.pair h hpp r hr r' hr' hrank).mem_iff (a := nextRequest h (f.rank r' h) i)
    simp only [List.mem_filter, hhex, hgroup, and_self, decide_true, and_true] at hmem
    rw [← nextRequest_mem_requests (hJ.not_entersTransfers r) hr hpp (by simp),
      ← nextRequest_mem_requests (hJ.not_entersTransfers r') hr' hpp (by simp), hup, hdown]
    exact hmem
  -- both numbers are below the interval, where the requests can be compared
  refine eq_of_forall_lt_iff fun i => ⟨fun hi => ?_, fun hi => ?_⟩
  · exact (hiff i (lt_interval hr hpp hi)).mp hi
  · exact (hiff i (lt_interval hr' hpp hi)).mpr hi

theorem matched_of_complete (hJ : J.Complete) : J.Matched where
  dataLast := fun r => dataLast_iff.mpr (hJ.not_entersTransfers r)
  lastTransfer := fun _ hpp _ hr _ hr' hrank => hJ.lastTransfer hpp hr hr' hrank
  enters := by
    intro h hpp r hr r' hr'
    have hentry : ∀ {r}, r ∈ f.reg.clients h →
        ((⟨h, f.backendId h, 0⟩ : ConfigReq) ∈ J.requests r ↔ J.Enters r h) := by
      intro r hr
      rw [mem_requests (hJ.not_entersTransfers r)]
      constructor
      · rintro (⟨h', -, hpp', d, -, i, -, heq⟩ | ⟨h', -, -, henters, heq⟩)
        · obtain rfl : h = h' := congrArg ConfigReq.hexId heq
          rw [hpp] at hpp'
          cases hpp'
        · obtain rfl : h = h' := congrArg ConfigReq.hexId heq
          exact henters
      · intro henters
        exact .inr ⟨h, hr, hpp, henters, rfl⟩
    have hmem := (hJ.data h hpp r hr r' hr').mem_iff (a := ⟨h, f.backendId h, 0⟩)
    simpa [List.mem_filter, hentry hr, hentry hr'] using hmem

/-- **Every rendezvous of a job is complete exactly when** no rank goes from data collectives to
transfers, the last transfers of neighbours are within their pair alike, and the members of a data
communicator enter it alike. -/
theorem complete_iff_matched (J : ProvisionJob f) : J.Complete ↔ J.Matched :=
  ⟨matched_of_complete, complete_of_matched⟩

end ProvisionJob

/-! ## Two jobs -/

/-- Two transfers with the other end. -/
def twoTransfers (op : Op) : Stage := ⟨[⟨1, 1, op⟩, ⟨1, 1, op⟩], false, by simp⟩

/-- Connection 0 sends twice to connection 2. -/
def pairJob : ProvisionJob threeRanks where
  ranks := 3
  intRange := by
    intro h hpp
    obtain rfl : h = 7 := of_decide_eq_true hpp
    decide
  ppStage := by
    intro h hpp r hr
    obtain rfl : h = 7 := of_decide_eq_true hpp
    rfl
  stages := fun r =>
    if r = 0 then [twoTransfers (.send 1)] else if r = 2 then [twoTransfers (.recv 0)] else []
  idle := by
    intro r hr
    rw [if_neg (by omega), if_neg (by omega)]
  runs := by
    intro r c hc
    by_cases h0 : r = 0
    · subst h0
      rcases List.mem_pair.mp hc with rfl | rfl <;> exact ⟨7, by decide⟩
    · by_cases h2 : r = 2
      · subst h2
        rcases List.mem_pair.mp hc with rfl | rfl <;> exact ⟨7, by decide⟩
      · simp [h0, h2, stageColls] at hc
  scaleOut := fun _ _ _ => rfl
  sameKind := by
    intro r s hs c hc c' hc'
    by_cases h0 : r = 0
    · subst h0
      obtain rfl := List.mem_singleton.mp hs
      rcases List.mem_pair.mp hc with rfl | rfl <;> rcases List.mem_pair.mp hc' with rfl | rfl <;>
        rfl
    · by_cases h2 : r = 2
      · subst h2
        obtain rfl := List.mem_singleton.mp hs
        rcases List.mem_pair.mp hc with rfl | rfl <;>
          rcases List.mem_pair.mp hc' with rfl | rfl <;> rfl
      · simp [h0, h2] at hs
  maximal := by
    intro r
    split_ifs <;> simp
  few := by
    intro r b
    refine Nat.lt_of_le_of_lt (List.length_filter_le _ _) ?_
    split_ifs <;> decide
  within := by
    intro h hpp r hr peer
    refine Nat.lt_of_le_of_lt (List.length_filter_le _ _) ?_
    split_ifs <;> decide
  transfers_eq := by
    intro h hpp r hr r' hr' hrank
    rcases threeRanks_cases hr with ⟨rfl, rfl | rfl⟩ | ⟨rfl, -⟩
    · rcases threeRanks_cases hr' with ⟨-, rfl | rfl⟩ | ⟨h8, -⟩
      · cases hrank
      · decide
      · cases h8
    · rcases threeRanks_cases hr' with ⟨-, rfl | rfl⟩ | ⟨h8, -⟩
      · cases hrank
      · cases hrank
      · cases h8
    · cases hpp
  data_eq := by
    intro h hpp r hr r' hr'
    rcases threeRanks_cases hr with ⟨rfl, -⟩ | ⟨rfl, rfl | rfl⟩
    · cases hpp
    · rcases threeRanks_cases hr' with ⟨h7, -⟩ | ⟨-, rfl | rfl⟩
      · cases h7
      · rfl
      · decide
    · rcases threeRanks_cases hr' with ⟨h7, -⟩ | ⟨-, rfl | rfl⟩
      · cases h7
      · decide
      · rfl

theorem matched_pairJob : pairJob.Matched where
  dataLast := by
    intro r
    by_cases h0 : r = 0
    · subst h0
      decide
    · by_cases h2 : r = 2
      · subst h2
        decide
      · simp [ProvisionJob.colls, pairJob, h0, h2, stageColls]
  lastTransfer := by
    intro h hpp r hr r' hr' hrank
    rcases threeRanks_cases hr with ⟨rfl, rfl | rfl⟩ | ⟨rfl, -⟩
    · rcases threeRanks_cases hr' with ⟨-, rfl | rfl⟩ | ⟨h8, -⟩
      · cases hrank
      · decide
      · cases h8
    · rcases threeRanks_cases hr' with ⟨-, rfl | rfl⟩ | ⟨h8, -⟩
      · cases hrank
      · cases hrank
      · cases h8
    · cases hpp
  enters := by
    intro h hpp r hr r' hr'
    have hnone : ∀ r, ¬ pairJob.Enters r h := by
      intro r
      by_cases h0 : r = 0
      · subst h0
        exact fun henters => by cases henters.2
      · by_cases h2 : r = 2
        · subst h2
          exact fun henters => by cases henters.2
        · simp [ProvisionJob.Enters, ProvisionJob.transfers, ProvisionJob.colls, pairJob, h0, h2,
            stageColls]
    exact iff_of_false (hnone r) (hnone r')

theorem complete_pairJob : pairJob.requests 0 = [⟨7, 11, 1000001⟩] ∧
    pairJob.requests 2 = [⟨7, 11, 1000001⟩] ∧ pairJob.Matched ∧ pairJob.Complete :=
  ⟨by decide, by decide, matched_pairJob,
    (ProvisionJob.complete_iff_matched pairJob).mpr matched_pairJob⟩

/-- The transfers of the stages of a pipeline of three: the first sends to the second, which sends
to the third. -/
def relayStages : ℕ → List Stage
  | 0 => [⟨[⟨1, 1, .send 1⟩], false, by simp⟩]
  | 1 => [⟨[⟨1, 1, .recv 0⟩, ⟨1, 1, .send 2⟩], false, by simp⟩]
  | 2 => [⟨[⟨1, 1, .recv 1⟩], false, by simp⟩]
  | _ => []

theorem threeStages_cases {h r : ℕ} (hr : r ∈ threeStages.reg.clients h) :
    h = 7 ∧ (r = 0 ∨ r = 1 ∨ r = 2) := by
  by_cases hh : h = 7
  · exact ⟨hh, by simpa [threeStages, hh] using hr⟩
  · simp [threeStages, hh] at hr

theorem relayStages_runs : ∀ r, ∀ c ∈ stageColls (relayStages r), ∃ h,
    r ∈ threeStages.reg.clients h ∧ c.backendId = threeStages.backendId h ∧
      if threeStages.isPp h then threeStages.neighbours r h c.op = true
      else c.op = .allreduce ∨ c.op = .collective := by
  rintro (_ | _ | _ | r) c hc
  · obtain rfl := List.mem_singleton.mp hc
    exact ⟨7, by decide⟩
  · rcases List.mem_pair.mp hc with rfl | rfl <;> exact ⟨7, by decide⟩
  · obtain rfl := List.mem_singleton.mp hc
    exact ⟨7, by decide⟩
  · cases hc

theorem relayStages_idle (r : ℕ) (hr : 3 ≤ r) : relayStages r = [] := by
  rcases r with _ | _ | _ | r
  · omega
  · omega
  · omega
  · rfl

theorem relayStages_length (r : ℕ) : (stageColls (relayStages r)).length ≤ 2 := by
  rcases r with _ | _ | _ | r
  · decide
  · decide
  · decide
  · exact Nat.zero_le 2

/-- All transfers of the relay are on the pipeline backend. -/
theorem relayStages_sameKind (r : ℕ) : ∀ s ∈ relayStages r, ∀ c ∈ s.colls, ∀ c' ∈ s.colls,
    (threeStages.shim r).isPpBackend c.backendId =
      (threeStages.shim r).isPpBackend c'.backendId := by
  intro s hs c hc c' hc'
  have hpp : ∀ c ∈ s.colls, c.backendId = 1 := by
    intro c hc
    obtain ⟨h, -, hb, -⟩ := relayStages_runs r c (List.mem_flatMap_of_mem hs hc)
    exact hb
  rw [hpp c hc, hpp c' hc']

theorem relayStages_maximal (r : ℕ) : (relayStages r).IsChain fun s s' => ∀ c ∈ s.colls,
    ∀ c' ∈ s'.colls, (threeStages.shim r).isPpBackend c.backendId ≠
      (threeStages.shim r).isPpBackend c'.backendId := by
  rcases r with _ | _ | _ | r
  · exact .singleton _
  · exact .singleton _
  · exact .singleton _
  · exact .nil

theorem relayStages_transfers (h : HexId) (_ : threeStages.isPp h = true) :
    ∀ r ∈ threeStages.reg.clients h, ∀ r' ∈ threeStages.reg.clients h,
      threeStages.rank r' h = threeStages.rank r h + 1 →
        ((stageColls (relayStages r)).filter fun c => c.backendId = threeStages.backendId h ∧
            c.op.peer? = some (threeStages.rank r' h)).map (Coll.mirror (threeStages.rank r h)) =
          (stageColls (relayStages r')).filter fun c => c.backendId = threeStages.backendId h ∧
            c.op.peer? = some (threeStages.rank r h) := by
  intro r hr r' hr' hrank
  obtain ⟨rfl, hcase⟩ := threeStages_cases hr
  obtain ⟨-, hcase'⟩ := threeStages_cases hr'
  obtain rfl : r' = r + 1 := hrank
  rcases hcase with rfl | rfl | rfl
  · decide
  · decide
  · omega

/-- The job of this pipeline. -/
def relayJob : ProvisionJob threeStages where
  ranks := 3
  intRange := by
    intro h _
    by_cases hh : h = 7
    · subst hh
      decide
    · simp [Fabric.size, threeStages, hh]
  ppStage := fun _ _ _ _ => rfl
  stages := relayStages
  idle := relayStages_idle
  runs := relayStages_runs
  scaleOut := fun _ _ _ => rfl
  sameKind := relayStages_sameKind
  maximal := relayStages_maximal
  few := fun r _ => Nat.lt_of_le_of_lt ((List.length_filter_le _ _).trans (relayStages_length r))
    (by decide)
  within := fun _ _ r _ _ => Nat.lt_of_le_of_lt
    ((List.length_filter_le _ _).trans (relayStages_length r)) (by decide)
  transfers_eq := relayStages_transfers
  data_eq := fun _ hpp => absurd hpp.symm Bool.false_ne_true

/-- The second stage requests the counter after its transfer with the first stage, whose only
transfer this was. -/
theorem not_complete_relayJob : relayJob.requests 0 = [] ∧
    relayJob.requests 1 = [⟨7, 11, 1000001⟩] ∧ ¬ relayJob.Complete := by
  refine ⟨by decide, by decide, fun hcomplete => ?_⟩
  have hperm := hcomplete.pair 7 rfl 0 (by decide) 1 (by decide) rfl
  revert hperm
  decide

end Opus
