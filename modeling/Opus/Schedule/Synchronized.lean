import Mathlib.Data.Finset.Card
import Opus.Controller.Acknowledge
import Opus.Controller.Rendezvous
import Opus.Schedule.Keyed
import Opus.Shim.Legacy

/-!
# Synchronized schedules

The compiler makes a boundary of every key at which the trace of any rank changes kind, and writes
it into the schedule of every rank whose trace has the key. The members of a data communicator
record the same keys, and so do the two neighbours of a pipeline transfer. In baseline mode all of
them therefore send the request of a boundary, and the controller, which counts the requests of
a communicator by their counters, finds every group complete. The counter of a data collective
carries the pipeline stage, so this needs data communicators that are on one stage.

## Main definitions

* `sendScheduledTransition`: the request of a row of a schedule
* `Traces`: traces of a job in which peers record the same keys
* `Traces.requests`: the requests a rank sends when it replays its schedule in baseline mode
* `Traces.Complete`: no rank waits for a peer that does not come
* `Fabric.peers`: the members of a communicator that take part in the rendezvous of a counter
* `Recording`, `Recording.traces`: the traces that the ranks of a job record

## Main results

* `Traces.requests_eq`: a rank requests exactly the boundaries of its trace
* `Traces.request_of_peer`: what one rank requests, all its peers request
* `Traces.wellMatched`: every request is sent by as many ranks as complete its group
* `scheduled_rendezvous_complete`: when data communicators are on one stage, replaying the schedules
  leaves no count behind and reconfigures once for every request
* `not_complete_acrossStages`: a data communicator on two stages leaves counts behind
-/

namespace Opus

open Transition

/-- The request of a row of a schedule: the communicator is the one of the backend that the target
encodes. Nothing is sent when there is no such backend. -/
def sendScheduledTransition (sh : Shim) (target : ℕ × ℕ) : Option ConfigReq :=
  let communicatorBackend := target.1 % PP_BACKEND_INTERVAL
  if communicatorBackend < hexIdMapSize then
    some ⟨sh.hexId communicatorBackend, target.1, target.2⟩
  else none

/-! ## Traces of a job -/

/-- The members of a communicator that take part in the rendezvous of a counter: the two stages of
the group for a pipeline communicator, all members otherwise. -/
def Fabric.peers (f : Fabric) (h : HexId) (counter : ℕ) : List ℕ :=
  if f.isPp h then
    (f.reg.clients h).filter fun r =>
      f.rank r h = counter / PP_INTERVAL ∨ f.rank r h + 1 = counter / PP_INTERVAL
  else f.reg.clients h

/-! ## Matched requests -/

/-- Requests of the ranks below `ranks` of a job that match: every request has the shape of its
communicator, a pipeline request is for one of its groups, and the peers of a request are exactly
the ranks that send it. -/
structure Fabric.Matched (f : Fabric) (ranks : ℕ) (program : ℕ → List ConfigReq) : Prop where
  idle : ∀ r, ranks ≤ r → program r = []
  nodup : ∀ r, (program r).Nodup
  forms : ∀ r, ∀ q ∈ program r, f.Forms q.hexId q
  group : ∀ r, ∀ q ∈ program r, f.isPp q.hexId = true →
    1 ≤ q.counter / PP_INTERVAL ∧ q.counter / PP_INTERVAL < f.size q.hexId
  mem_peers : ∀ r, ∀ q ∈ program r, r ∈ f.peers q.hexId q.counter
  peers : ∀ r, ∀ q ∈ program r, ∀ r' ∈ f.peers q.hexId q.counter, q ∈ program r'

namespace Fabric

variable {f : Fabric} {r r' ranks : ℕ} {q : ConfigReq} {h : HexId} {program : ℕ → List ConfigReq}

theorem mem_clients_of_mem_peers {cnt : ℕ} (hr : r ∈ f.peers h cnt) : r ∈ f.reg.clients h := by
  unfold Fabric.peers at hr
  split at hr
  · exact List.mem_of_mem_filter hr
  · exact hr

theorem rank_inj (hr : r ∈ f.reg.clients h) (hr' : r' ∈ f.reg.clients h)
    (hrank : f.rank r h = f.rank r' h) : r = r' :=
  List.inj_on_of_nodup_map ((f.rank_perm h).nodup_iff.mpr List.nodup_range) hr hr' hrank

/-- A pipeline group has two members. -/
theorem card_peers_of_isPp {cnt : ℕ} (hpp : f.isPp h = true) (hpos : 1 ≤ cnt / PP_INTERVAL)
    (hlt : cnt / PP_INTERVAL < f.size h) : (f.peers h cnt).toFinset.card = 2 := by
  obtain ⟨r, hr, hrank⟩ := f.exists_rank hlt
  obtain ⟨r', hr', hrank'⟩ := f.exists_rank (h := h) (i := cnt / PP_INTERVAL - 1) (by omega)
  have hne : r ≠ r' := by
    rintro rfl
    omega
  have hpair : (f.peers h cnt).toFinset = {r, r'} := by
    ext x
    rw [List.mem_toFinset, Fabric.peers, if_pos hpp, List.mem_filter, decide_eq_true_eq,
      Finset.mem_insert, Finset.mem_singleton]
    constructor
    · rintro ⟨hx, hx' | hx'⟩
      · exact .inl (rank_inj hx hr (by omega))
      · exact .inr (rank_inj hx hr' (by omega))
    · rintro (rfl | rfl)
      · exact ⟨hr, .inl hrank⟩
      · exact ⟨hr', .inr (by omega)⟩
  rw [hpair, Finset.card_pair hne]

theorem Matched.mem_clients (hm : f.Matched ranks program) (hq : q ∈ program r) :
    r ∈ f.reg.clients q.hexId :=
  mem_clients_of_mem_peers (hm.mem_peers r q hq)

/-- The ranks that send a request are its peers. -/
theorem Matched.requesters_eq (hm : f.Matched ranks program) (hq : q ∈ program r) :
    ({r ∈ Finset.range ranks | q ∈ program r} : Finset ℕ) =
      (f.peers q.hexId q.counter).toFinset := by
  ext r'
  rw [Finset.mem_filter, Finset.mem_range, List.mem_toFinset]
  constructor
  · rintro ⟨-, hr'⟩
    exact hm.mem_peers r' q hr'
  · intro hr'
    have hq' := hm.peers r q hq r' hr'
    refine ⟨?_, hq'⟩
    by_contra hge
    rw [hm.idle r' (not_lt.mp hge)] at hq'
    cases hq'

/-- **The controller waits for exactly the ranks that send a request.** -/
theorem Matched.allArrive_iff (hm : f.Matched ranks program) (hq : q ∈ program r) (cnt : ℕ) :
    allArrive q.backend cnt (f.reg.clients q.hexId).length = true ↔
      ({r ∈ Finset.range ranks | q ∈ program r} : Finset ℕ).card ≤ cnt := by
  rw [hm.requesters_eq hq]
  have hb := f.backendId_lt q.hexId
  have hbackend := (hm.forms r q hq).backend
  simp only [hexIdMapSize] at hb
  cases hpp : f.isPp q.hexId with
  | true =>
    obtain ⟨hpos, hlt⟩ := hm.group r q hq hpp
    have hgt : q.backend > PP_BACKEND_INTERVAL := by
      rw [hbackend, if_pos hpp, backendId_of_isPp (hm.mem_clients hq) hpp]
      simp only [PP_BACKEND_INTERVAL]
      omega
    rw [card_peers_of_isPp hpp hpos hlt, allArrive, if_pos hgt, decide_eq_true_eq]
  | false =>
    have hle : ¬ q.backend > PP_BACKEND_INTERVAL := by
      rw [hbackend, hpp, if_neg Bool.false_ne_true]
      simp only [PP_BACKEND_INTERVAL]
      omega
    rw [Fabric.peers, hpp, if_neg Bool.false_ne_true,
      List.toFinset_card_of_nodup (f.clients_nodup q.hexId), allArrive, if_neg hle,
      decide_eq_true_eq]

theorem determineRuntimeTopo_ne_error_of_le {backend counter : ℕ} (hle : backend ≤ 10)
    (topoId : TopoId) (message : String) :
    determineRuntimeTopo topoId backend counter ≠ .error message := by
  rw [determineRuntimeTopo, if_neg (by omega)]
  simp

/-- The topology of a pipeline group exists: the group is positive and both encodings agree on
it. -/
theorem determineRuntimeTopo_ne_error_of_group {group counter : ℕ} (hpos : 1 ≤ group)
    (hgroup : counter / PP_INTERVAL = group) (topoId : TopoId) (message : String) :
    determineRuntimeTopo topoId (1 + PP_BACKEND_INTERVAL * group) counter ≠ .error message := by
  have hgt : 1 + PP_BACKEND_INTERVAL * group > 10 := by
    rw [PP_BACKEND_INTERVAL]
    omega
  have hdiv : (1 + PP_BACKEND_INTERVAL * group) / PP_BACKEND_INTERVAL = group := by
    rw [PP_BACKEND_INTERVAL]
    omega
  have hzero : ¬ group ≤ 0 := by omega
  simp only [determineRuntimeTopo, if_pos hgt, hdiv, hgroup, ne_eq, not_true_eq_false, if_false,
    setPpTopo, if_neg hzero]
  simp

/-- The topology of a request exists. -/
theorem Matched.determineRuntimeTopo_ne_error (hm : f.Matched ranks program) (hq : q ∈ program r)
    (topoId : TopoId) (message : String) :
    determineRuntimeTopo topoId q.backend q.counter ≠ .error message := by
  have hb := f.backendId_lt q.hexId
  have hbackend := (hm.forms r q hq).backend
  simp only [hexIdMapSize] at hb
  cases hpp : f.isPp q.hexId with
  | true =>
    rw [hbackend, if_pos hpp, backendId_of_isPp (hm.mem_clients hq) hpp]
    exact determineRuntimeTopo_ne_error_of_group (hm.group r q hq hpp).1 rfl topoId message
  | false =>
    rw [hbackend, hpp, if_neg Bool.false_ne_true]
    exact determineRuntimeTopo_ne_error_of_le (by omega) topoId message

/-- **Every matched request is sent by as many ranks as complete its group.** -/
theorem Matched.wellMatched (hm : f.Matched ranks program) :
    WellMatched f.reg program fun q => {r ∈ Finset.range ranks | q ∈ program r} where
  mem_iff := by
    intro r q
    rw [Finset.mem_filter, Finset.mem_range, and_iff_right_iff_imp]
    intro hq
    by_contra hge
    rw [hm.idle r (not_lt.mp hge)] at hq
    cases hq
  nodup := hm.nodup
  key := by
    intro r q hq r' q' hq' hh hc
    have hforms' := hm.forms r' q' hq'
    rw [← hh] at hforms'
    exact (hm.forms r q hq).eq_of_counter hforms' hc
  clients := fun _ _ hq => List.ne_nil_of_mem (hm.mem_clients hq)
  arrive := fun _ _ hq => hm.allArrive_iff hq
  topo := fun _ _ hq => hm.determineRuntimeTopo_ne_error hq

end Fabric

/-- The members of a data communicator are on one pipeline stage. -/
def Fabric.OneStage (f : Fabric) : Prop :=
  ∀ h, f.isPp h = false → ∀ r ∈ f.reg.clients h, ∀ r' ∈ f.reg.clients h,
    (f.shim r).ppStage = (f.shim r').ppStage

/-- The traces of all ranks of a job, in the order of their sequence numbers. Every rank records
events of communicators it is a member of, each under a counter of its own. The members of a data
communicator record the same keys; a pipeline transfer is recorded under the same key by its two
stages. -/
structure Traces (f : Fabric) where
  all : List (List Event)
  recorded : ∀ r, ∀ e ∈ all.getD r [], ∃ h c, r ∈ f.reg.clients h ∧ c.backendId = f.backendId h ∧
    e = recordProfileEvent (f.shim r) c e.sequence e.counter
  nodup : ∀ r, ((all.getD r []).map fun e => (e.backend, e.counter)).Nodup
  group : ∀ h, f.isPp h = true → ∀ r ∈ f.reg.clients h, ∀ e ∈ all.getD r [],
    e.backend = f.backendId h →
      1 ≤ e.counter / PP_INTERVAL ∧ e.counter / PP_INTERVAL < f.size h ∧ r ∈ f.peers h e.counter
  peers : ∀ h, ∀ r ∈ f.reg.clients h, ∀ e ∈ all.getD r [], e.backend = f.backendId h →
    ∀ r' ∈ f.peers h e.counter, ∃ e' ∈ all.getD r' [], e'.key = e.key

namespace Traces

variable {f : Fabric} (T : Traces f)

/-- The trace of a rank. -/
def trace (r : ℕ) : List Event := T.all.getD r []

/-- The boundaries of all ranks. -/
def keys : List Key := transitionKeys T.all

/-- The requests that a rank sends when it replays its baseline schedule. -/
def requests (r : ℕ) : List ConfigReq :=
  (Opus.requests (keyedSchedule T.keys false (T.trace r)) (T.trace r)).filterMap
    (sendScheduledTransition (f.shim r))

/-- The ranks that send a request. -/
def requesters (q : ConfigReq) : Finset ℕ := {r ∈ Finset.range T.all.length | q ∈ T.requests r}

variable {T} {r r' : ℕ} {e e' : Event} {q q' : ConfigReq} {h h' : HexId}

/-! ## Requests are boundaries -/

theorem key_nodup (T : Traces f) (r : ℕ) : ((T.trace r).map Event.key).Nodup := by
  have hmap : (T.trace r).map (fun e => (e.backend, e.counter)) =
      ((T.trace r).map Event.key).map Prod.snd := by
    rw [List.map_map]
    rfl
  apply List.Nodup.of_map Prod.snd
  rw [← hmap]
  exact T.nodup r

/-- An event of a communicator is requested with the line that `topowrite` would send. -/
theorem send_target (r : ℕ) (c : Coll) (hc : c.backendId = f.backendId h)
    (sequence counter : ℕ) :
    sendScheduledTransition (f.shim r) (recordProfileEvent (f.shim r) c sequence counter).target =
      some (topowrite (f.shim r) (f.backendId h) counter) := by
  have hlt : f.backendId h < 7 := f.backendId_lt h
  -- the group is encoded in the tens of the backend
  by_cases hpp : (f.shim r).isPpBackend (f.backendId h) = true
  · have hmod : (f.backendId h + PP_BACKEND_INTERVAL * (counter / PP_INTERVAL)) %
        PP_BACKEND_INTERVAL = f.backendId h := by
      rw [Nat.add_mul_mod_self_left, PP_BACKEND_INTERVAL]
      omega
    simp only [sendScheduledTransition, Event.target, recordProfileEvent, hc, hpp, if_true, hmod,
      topowrite, f.backendId_lt h]
  · have hmod : f.backendId h % PP_BACKEND_INTERVAL = f.backendId h := by
      rw [PP_BACKEND_INTERVAL]
      omega
    simp only [sendScheduledTransition, Event.target, recordProfileEvent, hc, hpp, topowrite, hmod,
      f.backendId_lt h, if_true, Bool.false_eq_true, if_false]

theorem send_of_mem (he : e ∈ T.trace r) :
    sendScheduledTransition (f.shim r) e.target =
      some (topowrite (f.shim r) e.backend e.counter) := by
  obtain ⟨h, c, hr, hc, heq⟩ := T.recorded r e he
  have hbackend : e.backend = f.backendId h := by
    rw [heq]
    exact hc
  rw [heq, send_target r c hc, ← heq, hbackend]

/-- **A rank requests exactly the boundaries of its trace**, in trace order. -/
theorem requests_eq (T : Traces f) (r : ℕ) :
    T.requests r = ((T.trace r).filter fun e => e.key ∈ T.keys).map fun e =>
      topowrite (f.shim r) e.backend e.counter := by
  rw [requests, requests_of_not_sharedTrigger (T.key_nodup r) (by simp), boundaryRequests,
    List.filterMap_map, ← List.filterMap_eq_map]
  apply List.filterMap_congr
  intro e he
  exact send_of_mem (List.mem_of_mem_filter he)

theorem mem_requests : q ∈ T.requests r ↔
    ∃ e ∈ T.trace r, e.key ∈ T.keys ∧ q = topowrite (f.shim r) e.backend e.counter := by
  rw [requests_eq, List.mem_map]
  constructor
  · rintro ⟨e, he, rfl⟩
    exact ⟨e, List.mem_of_mem_filter he, of_decide_eq_true (List.mem_filter.mp he).2, rfl⟩
  · rintro ⟨e, he, hkey, rfl⟩
    exact ⟨e, List.mem_filter.mpr ⟨he, decide_eq_true hkey⟩, rfl⟩

theorem topowrite_hexId (hr : r ∈ f.reg.clients h) (cnt : ℕ) :
    (topowrite (f.shim r) (f.backendId h) cnt).hexId = h := by
  unfold topowrite
  split <;> exact f.hexId_eq h r hr

/-- A request comes from an event of its communicator. -/
theorem exists_event (hq : q ∈ T.requests r) :
    ∃ h, r ∈ f.reg.clients h ∧ ∃ e ∈ T.trace r, e.key ∈ T.keys ∧ e.backend = f.backendId h ∧
      q = topowrite (f.shim r) (f.backendId h) e.counter := by
  obtain ⟨e, he, hkey, rfl⟩ := mem_requests.mp hq
  obtain ⟨h, c, hr, hc, heq⟩ := T.recorded r e he
  have hbackend : e.backend = f.backendId h := by
    rw [heq]
    exact hc
  exact ⟨h, hr, e, he, hkey, hbackend, by rw [hbackend]⟩

/-! ## Peers -/

theorem topowrite_counter_of_isPp (hr : r ∈ f.reg.clients h) (hpp : f.isPp h = true) (cnt : ℕ) :
    (topowrite (f.shim r) (f.backendId h) cnt).counter = cnt := by
  rw [Fabric.topowrite_of_isPp hr hpp]

/-- The counter of a request selects the same peers as that of its event: only the counters of
data communicators carry the stage. -/
theorem peers_topowrite (hr : r ∈ f.reg.clients h) (cnt : ℕ) :
    f.peers h (topowrite (f.shim r) (f.backendId h) cnt).counter = f.peers h cnt := by
  cases hpp : f.isPp h with
  | true => rw [topowrite_counter_of_isPp hr hpp]
  | false => simp [Fabric.peers, hpp]

/-- The members of a communicator request the same thing for the same counter. -/
theorem topowrite_eq (hstage : f.OneStage) (hr : r ∈ f.reg.clients h)
    (hr' : r' ∈ f.reg.clients h) (cnt : ℕ) :
    topowrite (f.shim r) (f.backendId h) cnt = topowrite (f.shim r') (f.backendId h) cnt := by
  cases hpp : f.isPp h with
  | true => rw [Fabric.topowrite_of_isPp hr hpp, Fabric.topowrite_of_isPp hr' hpp]
  | false =>
    rw [Fabric.topowrite_of_not_isPp hr hpp, Fabric.topowrite_of_not_isPp hr' hpp,
      hstage h hpp r hr r' hr']

/-- **What one rank requests, all its peers request.** -/
theorem request_of_peer (hstage : f.OneStage) (hq : q ∈ T.requests r)
    (hr' : r' ∈ f.peers q.hexId q.counter) : q ∈ T.requests r' := by
  obtain ⟨h, hr, e, he, hkey, hbackend, rfl⟩ := exists_event hq
  rw [topowrite_hexId hr, peers_topowrite hr] at hr'
  obtain ⟨e', he', hkey'⟩ := T.peers h r hr e he hbackend r' hr'
  have hb : e'.backend = e.backend := congrArg (fun k => k.2.1) hkey'
  have hc : e'.counter = e.counter := congrArg (fun k => k.2.2) hkey'
  apply mem_requests.mpr
  refine ⟨e', he', ?_, ?_⟩
  · rw [hkey']
    exact hkey
  · rw [hb, hc, hbackend]
    exact topowrite_eq hstage hr (Fabric.mem_clients_of_mem_peers hr') e.counter

/-- Only peers send a request. -/
theorem mem_peers (hq : q ∈ T.requests r) : r ∈ f.peers q.hexId q.counter := by
  obtain ⟨h, hr, e, he, -, hbackend, rfl⟩ := exists_event hq
  rw [topowrite_hexId hr, peers_topowrite hr]
  cases hpp : f.isPp h with
  | true => exact (T.group h hpp r hr e he hbackend).2.2
  | false => simpa [Fabric.peers, hpp] using hr

theorem mem_requesters : r ∈ T.requesters q ↔ q ∈ T.requests r := by
  simp only [requesters, Finset.mem_filter, Finset.mem_range, and_iff_right_iff_imp]
  intro hq
  obtain ⟨e, he, -⟩ := mem_requests.mp hq
  by_contra hge
  -- a rank beyond the last has no trace
  rw [trace, List.getD_eq_getElem?_getD, List.getElem?_eq_none (not_lt.mp hge)] at he
  cases he

/-- The shape of a request: its counter determines the rest. -/
theorem forms (hq : q ∈ T.requests r) : f.Forms q.hexId q := by
  obtain ⟨h, hr, e, he, -, hbackend, rfl⟩ := exists_event hq
  rw [topowrite_hexId hr]
  refine ⟨topowrite_hexId hr _, ?_, ?_⟩
  · unfold topowrite
    rw [f.isPp_eq h r hr]
    split <;> rfl
  · intro hpp
    obtain ⟨hpos, hlt, -⟩ := T.group h hpp r hr e he hbackend
    omega

theorem requests_nodup (T : Traces f) (r : ℕ) : (T.requests r).Nodup := by
  have htrace : (T.trace r).Nodup := List.Nodup.of_map _ (T.nodup r)
  rw [requests_eq]
  apply List.Nodup.map_on _ (htrace.filter _)
  intro e he e' he' heq
  have hmem := List.mem_of_mem_filter he
  have hmem' := List.mem_of_mem_filter he'
  obtain ⟨h, c, hr, hc, hrec⟩ := T.recorded r e hmem
  obtain ⟨h', c', hr', hc', hrec'⟩ := T.recorded r e' hmem'
  have hb : e.backend = f.backendId h := by
    rw [hrec]
    exact hc
  have hb' : e'.backend = f.backendId h' := by
    rw [hrec']
    exact hc'
  rw [hb, hb'] at heq
  -- equal requests are for one communicator, so for one backend
  obtain rfl : h = h' := by
    have hhex := congrArg ConfigReq.hexId heq
    rwa [topowrite_hexId hr, topowrite_hexId hr'] at hhex
  have hcounter : e.counter = e'.counter := by
    have hcnt := congrArg ConfigReq.counter heq
    unfold topowrite at hcnt
    split at hcnt
    · exact hcnt
    · exact Nat.add_right_cancel hcnt
  apply List.inj_on_of_nodup_map (T.nodup r) hmem hmem'
  rw [hb, hb', hcounter]

/-- **The requests of the traces match.** -/
theorem matched (T : Traces f) (hstage : f.OneStage) :
    f.Matched T.all.length T.requests where
  idle := by
    intro r hr
    rw [requests_eq, trace, List.getD_eq_getElem?_getD, List.getElem?_eq_none hr]
    rfl
  nodup := T.requests_nodup
  forms := fun _ _ hq => forms hq
  group := by
    intro r q hq hpp
    obtain ⟨h, hr, e, he, -, hbackend, rfl⟩ := exists_event hq
    rw [topowrite_hexId hr] at hpp ⊢
    rw [topowrite_counter_of_isPp hr hpp]
    obtain ⟨hpos, hlt, -⟩ := T.group h hpp r hr e he hbackend
    exact ⟨hpos, hlt⟩
  mem_peers := fun _ _ hq => mem_peers hq
  peers := fun _ _ hq _ hr' => request_of_peer hstage hq hr'

/-- **Every request is sent by as many ranks as complete its group.** -/
theorem wellMatched (T : Traces f) (hstage : f.OneStage) :
    WellMatched f.reg T.requests T.requesters :=
  (T.matched hstage).wellMatched

end Traces

/-- Every scheduled rendezvous is complete: the peers of a rank request what it requests, and when
the replay of all ranks has come to its end, all counts are erased and every request has led to
exactly one reconfiguration. -/
structure Traces.Complete {f : Fabric} (T : Traces f) : Prop where
  peers : ∀ r q, q ∈ T.requests r → ∀ r' ∈ f.peers q.hexId q.counter, q ∈ T.requests r'
  replayed : ∀ t0 s, Reaches (rendezvousStep f.reg) (.initial T.requests t0) s →
    Terminal f.reg s →
      (∀ h c, s.ctl.readyCount h c = 0) ∧
        (∀ q, (∃ r, q ∈ T.requests r) → s.reconfigured.count q = 1) ∧
        ∀ q ∈ s.reconfigured, ∃ r, q ∈ T.requests r

/-- The collectives that the ranks of a job issue in profile mode. A rank takes part in the
communicators it is a member of, with transfers to its neighbours on a pipeline communicator and
without peers on the others, and no counter of a backend with transfers goes beyond its interval. As
for traces, peers record the same keys. -/
structure Recording (f : Fabric) where
  profileIterations : List ℕ
  colls : List (List Coll)
  runs : ∀ r, ∀ c ∈ colls.getD r [], ∃ h, r ∈ f.reg.clients h ∧ c.backendId = f.backendId h ∧
    if f.isPp h then c.op = .allreduce ∨ f.neighbours r h c.op = true
    else c.op = .allreduce ∨ c.op = .collective
  within : ∀ r, WithinInterval (f.shim r) noCounters (colls.getD r [])
  peers : ∀ h, ∀ r ∈ f.reg.clients h,
    ∀ e ∈ trace (f.shim r) profileIterations (colls.getD r []), e.backend = f.backendId h →
      ∀ r' ∈ f.peers h e.counter,
        ∃ e' ∈ trace (f.shim r') profileIterations (colls.getD r' []), e'.key = e.key

namespace Fabric

variable {f : Fabric} {r : ℕ} {h : HexId} {op : Op} (hn : f.neighbours r h op = true)

include hn

theorem isTransfer_of_neighbours : op.IsTransfer (f.rank r h) := by
  obtain ⟨peer, -, rfl | rfl, hadj⟩ := neighbours_cases hn
  · simp only [Op.IsTransfer]
    omega
  · simp only [Op.IsTransfer]
    omega

theorem adjacent_of_neighbours : op.Adjacent (f.rank r h) := by
  obtain ⟨peer, -, rfl | rfl, hadj⟩ := neighbours_cases hn
  · exact hadj
  · exact hadj

/-- The base of a transfer with a neighbour is the higher of the two stages. -/
theorem getPpBase_of_neighbours (hr : r ∈ f.reg.clients h) :
    1 ≤ getPpBase op.srcRank op.dstRank (f.rank r h) ∧
      getPpBase op.srcRank op.dstRank (f.rank r h) < f.size h ∧
      (f.rank r h = getPpBase op.srcRank op.dstRank (f.rank r h) ∨
        f.rank r h + 1 = getPpBase op.srcRank op.dstRank (f.rank r h)) := by
  have hlt := rank_lt hr
  obtain ⟨peer, hpeer, rfl | rfl, hadj⟩ := neighbours_cases hn
  · simp only [getPpBase, Op.srcRank, Op.dstRank]
    omega
  · simp only [getPpBase, Op.srcRank, Op.dstRank]
    omega

end Fabric

namespace Recording

variable {f : Fabric} (R : Recording f) {r : ℕ} {h : HexId} {c : Coll} {e : Event}

theorem typed (hc : c ∈ R.colls.getD r []) : c.Typed (f.shim r) := by
  obtain ⟨h, hr, hb, hop⟩ := R.runs r c hc
  rw [Coll.Typed, hb, f.isPp_eq h r hr]
  split at hop
  · rename_i hpp
    rw [if_pos hpp]
    exact hop.imp id Fabric.isTransfer_of_neighbours
  · rename_i hpp
    rwa [if_neg hpp]

theorem adjacent (hc : c ∈ R.colls.getD r []) :
    c.op.Adjacent ((f.shim r).rank c.backendId) := by
  obtain ⟨h, hr, hb, hop⟩ := R.runs r c hc
  rw [hb]
  split at hop
  · rcases hop with hop | hop
    · rw [hop]
      trivial
    · exact Fabric.adjacent_of_neighbours hop
  · rcases hop with hop | hop
    · rw [hop]
      trivial
    · rw [hop]
      trivial

/-- The schedulable collectives of a rank. -/
def scheduled (r : ℕ) : List Coll := (R.colls.getD r []).filter (schedulable (f.shim r))

theorem within_scheduled (r : ℕ) : WithinInterval (f.shim r) noCounters (R.scheduled r) :=
  (R.within r).sublist List.filter_sublist

/-- A pipeline event carries the group of its transfer. -/
theorem group_of_mem (hpp : f.isPp h = true) (hr : r ∈ f.reg.clients h)
    (he : e ∈ trace (f.shim r) R.profileIterations (R.colls.getD r []))
    (hb : e.backend = f.backendId h) :
    1 ≤ e.counter / PP_INTERVAL ∧ e.counter / PP_INTERVAL < f.size h ∧
      r ∈ f.peers h e.counter := by
  have hkey : (e.backend, e.counter) ∈ keysFrom (f.shim r) noCounters (R.scheduled r) :=
    (trace_sublist R.profileIterations fun c hc => R.typed hc).subset
      (List.mem_map_of_mem (f := fun e => (e.backend, e.counter)) he)
  obtain ⟨c, hc, hcb, m, hm, -, hcounter⟩ := mem_keysFrom
    (fun c hc => R.adjacent (List.mem_of_mem_filter hc)) hkey
  have hmem := List.mem_of_mem_filter hc
  have hcpp : (f.shim r).isPpBackend c.backendId = true := by
    rw [hcb, hb, f.isPp_eq h r hr, hpp]
  -- a backend of a rank belongs to one communicator
  obtain ⟨h', hr', hb', hop⟩ := R.runs r c hmem
  obtain rfl : h = h' := by
    rw [← f.hexId_eq h r hr, ← hb, ← hcb, hb', f.hexId_eq h' r hr']
  have hn : f.neighbours r h c.op = true := by
    rw [if_pos hpp] at hop
    refine hop.resolve_left fun hall => ?_
    have hs := (List.mem_filter.mp hc).2
    simp [schedulable, hcpp, hall] at hs
  have hbase : e.counter / PP_INTERVAL = getPpBase c.op.srcRank c.op.dstRank (f.rank r h) := by
    -- the counter of a transfer stays within the interval
    have hdir : c.op.direction ((f.shim r).rank c.backendId) ≠ .neither := by
      rw [hb']
      exact (Fabric.isTransfer_of_neighbours hn).direction_ne
    rw [← hcb] at hm hcounter
    have hlt := Nat.lt_of_lt_of_le hm (R.within_scheduled r c hc hdir c hc rfl)
    rw [hb'] at hcounter
    rw [hcounter, Nat.add_mul_div_right _ _ (Nat.zero_lt_of_lt hlt), Nat.div_eq_of_lt hlt,
      Nat.zero_add]
    rcases (Fabric.adjacent_of_neighbours hn).direction_cases with hd | ⟨hd, -⟩
    · exact absurd hd (Fabric.isTransfer_of_neighbours hn).direction_ne
    · exact hd.symm
  obtain ⟨hpos, hlt, hrank⟩ := Fabric.getPpBase_of_neighbours hn hr
  rw [← hbase] at hpos hlt hrank
  refine ⟨hpos, hlt, ?_⟩
  rw [Fabric.peers, if_pos hpp]
  exact List.mem_filter.mpr ⟨hr, decide_eq_true hrank⟩

/-- The trace of every rank. -/
def all : List (List Event) :=
  R.colls.mapIdx fun r cs => trace (f.shim r) R.profileIterations cs

theorem getD_all (r : ℕ) :
    R.all.getD r [] = trace (f.shim r) R.profileIterations (R.colls.getD r []) := by
  rw [all, List.getD_eq_getElem?_getD, List.getElem?_mapIdx, List.getD_eq_getElem?_getD]
  cases R.colls[r]? with
  | none => rfl
  | some cs => rfl

/-- **What the ranks of a job record are traces of the job**: the counters of a rank never repeat,
and every pipeline event carries its group. -/
def traces : Traces f where
  all := R.all
  recorded := by
    intro r e he
    rw [getD_all] at he
    obtain ⟨c, hc, heq⟩ := exists_coll_of_mem_profileFrom he
    obtain ⟨h, hr, hb, -⟩ := R.runs r c hc
    exact ⟨h, c, hr, hb, heq⟩
  nodup := by
    intro r
    rw [getD_all]
    apply List.Nodup.sublist (trace_sublist R.profileIterations fun c hc => R.typed hc)
    exact keysFrom_nodup (fun c hc => R.adjacent (List.mem_of_mem_filter hc))
      (R.within_scheduled r)
  group := by
    intro h hpp r hr e he hb
    rw [getD_all] at he
    exact R.group_of_mem hpp hr he hb
  peers := by
    intro h r hr e he hb r' hr'
    rw [getD_all] at he ⊢
    exact R.peers h r hr e he hb r' hr'

end Recording

/-! ## A data communicator across two stages -/

/-- A data communicator of the connections 0 and 1 on backend 2, on the pipeline stages 0 and 1. -/
def acrossStages : Fabric where
  reg :=
    { clients := fun h => if h = 8 then [0, 1] else []
      rail := fun _ => 0 }
  shim := fun r =>
    { mode := .baseline
      ppEnabled := true
      ppStage := r
      rank := fun _ => r
      domain := fun _ => 0
      networkType := fun _ => 1
      hexId := fun _ => 8
      commStages := [] }
  backendId := fun _ => 2
  isPp := fun _ => false
  hexId_eq := by
    intro h r hr
    by_cases h8 : h = 8
    · exact h8.symm
    · simp [h8] at hr
  isPp_eq := fun _ _ _ => rfl
  backendId_lt := fun _ => by decide
  rank_perm := by
    intro h
    by_cases h8 : h = 8
    · simp only [h8]
      decide
    · simp [h8]

theorem acrossStages_cases {h r : ℕ} (hr : r ∈ acrossStages.reg.clients h) :
    h = 8 ∧ (r = 0 ∨ r = 1) := by
  by_cases h8 : h = 8
  · exact ⟨h8, by simpa [acrossStages, h8] using hr⟩
  · simp [acrossStages, h8] at hr

/-- Both members run one collective. -/
def acrossRecording : Recording acrossStages where
  profileIterations := [1]
  colls := [[⟨1, 2, .collective⟩], [⟨1, 2, .collective⟩]]
  runs := by
    rintro (_ | _ | r) c hc
    · obtain rfl := List.mem_singleton.mp hc
      exact ⟨8, by decide⟩
    · obtain rfl := List.mem_singleton.mp hc
      exact ⟨8, by decide⟩
    · cases hc
  within := by
    rintro (_ | _ | r) <;> apply withinInterval_of_length_le
    · decide
    · decide
    · exact Nat.zero_le _
  peers := by
    intro h r hr e he hb r' hr'
    obtain ⟨rfl, hcase⟩ := acrossStages_cases hr
    have hkey : e.key = (1, 2, 0) := by
      rcases hcase with rfl | rfl
      · obtain rfl := List.mem_singleton.mp he
        rfl
      · obtain rfl := List.mem_singleton.mp he
        rfl
    rw [hkey]
    rcases (acrossStages_cases (Fabric.mem_clients_of_mem_peers hr')).2 with rfl | rfl
    · decide
    · decide

/-- A pipeline of the connections 0 and 2 on backend 1, and a data communicator of the connections
0 and 1 on backend 2. -/
def threeRanks : Fabric where
  reg :=
    { clients := fun h => if h = 7 then [0, 2] else if h = 8 then [0, 1] else []
      rail := fun _ => 0 }
  shim := fun r =>
    { mode := .baseline
      ppEnabled := true
      ppStage := r / 2
      rank := fun b => if b = 1 then r / 2 else r
      domain := fun _ => 0
      networkType := fun _ => 1
      hexId := fun b => if b = 1 then 7 else 8
      commStages := [] }
  backendId := fun h => if h = 7 then 1 else 2
  isPp := fun h => decide (h = 7)
  hexId_eq := by
    intro h r hr
    by_cases h7 : h = 7
    · simp [h7]
    · by_cases h8 : h = 8
      · simp [h8]
      · simp [h7, h8] at hr
  isPp_eq := by
    intro h r _
    by_cases h7 : h = 7 <;> simp [Shim.isPpBackend, h7]
  backendId_lt := by
    intro h
    by_cases h7 : h = 7 <;> simp [h7, hexIdMapSize]
  rank_perm := by
    intro h
    by_cases h7 : h = 7
    · simp only [h7]
      decide
    · by_cases h8 : h = 8
      · simp only [h8]
        decide
      · simp [h7, h8]

/-- The communicators of the job. -/
theorem threeRanks_cases {h r : ℕ} (hr : r ∈ threeRanks.reg.clients h) :
    h = 7 ∧ (r = 0 ∨ r = 2) ∨ h = 8 ∧ (r = 0 ∨ r = 1) := by
  by_cases h7 : h = 7
  · exact .inl ⟨h7, by simpa [threeRanks, h7] using hr⟩
  · by_cases h8 : h = 8
    · exact .inr ⟨h8, by simpa [threeRanks, h8] using hr⟩
    · simp [threeRanks, h7, h8] at hr

theorem threeRanks_oneStage : threeRanks.OneStage := by
  intro h hpp r hr r' hr'
  rcases threeRanks_cases hr with ⟨rfl, -⟩ | ⟨rfl, hcase⟩
  · cases hpp
  · rcases threeRanks_cases hr' with ⟨h7, -⟩ | ⟨-, hcase'⟩
    · cases h7
    · rcases hcase with h0 | h1 <;> rcases hcase' with h0' | h1' <;> subst r r' <;> rfl

/-- Connection 0 sends to connection 2 and runs a collective with connection 1. -/
def threeRecording : Recording threeRanks where
  profileIterations := [1]
  colls := [[⟨1, 1, .send 1⟩, ⟨1, 2, .collective⟩], [⟨1, 2, .collective⟩], [⟨1, 1, .recv 0⟩]]
  runs := by
    rintro (_ | _ | _ | r) c hc
    · rcases List.mem_pair.mp hc with rfl | rfl
      · exact ⟨7, by decide⟩
      · exact ⟨8, by decide⟩
    · obtain rfl := List.mem_singleton.mp hc
      exact ⟨8, by decide⟩
    · obtain rfl := List.mem_singleton.mp hc
      exact ⟨7, by decide⟩
    · cases hc
  within := by
    rintro (_ | _ | _ | r) <;> apply withinInterval_of_length_le
    · decide
    · decide
    · decide
    · exact Nat.zero_le _
  peers := by
    intro h r hr e he hb r' hr'
    rcases threeRanks_cases hr with ⟨rfl, hcase⟩ | ⟨rfl, hcase⟩
    · have hkey : e.key = (1, 1, 1000000) := by
        rcases hcase with rfl | rfl
        · rcases List.mem_pair.mp he with rfl | rfl
          · rfl
          · cases hb
        · obtain rfl := List.mem_singleton.mp he
          rfl
      rw [hkey]
      rcases threeRanks_cases (Fabric.mem_clients_of_mem_peers hr') with ⟨-, rfl | rfl⟩ | ⟨h8, -⟩
      · decide
      · decide
      · cases h8
    · have hkey : e.key = (1, 2, 0) := by
        rcases hcase with rfl | rfl
        · rcases List.mem_pair.mp he with rfl | rfl
          · cases hb
          · rfl
        · obtain rfl := List.mem_singleton.mp he
          rfl
      rw [hkey]
      rcases threeRanks_cases (Fabric.mem_clients_of_mem_peers hr') with ⟨h7, -⟩ | ⟨-, rfl | rfl⟩
      · cases h7
      · decide
      · decide

/-- The traces of the job. -/
def threeTraces : Traces threeRanks := threeRecording.traces

/-- The requests of the job. -/
def threeRequests : ℕ → List ConfigReq
  | 0 => [⟨7, 11, 1000000⟩, ⟨8, 2, 0⟩]
  | 1 => [⟨8, 2, 0⟩]
  | 2 => [⟨7, 11, 1000000⟩]
  | _ => []

theorem threeTraces_requests : threeTraces.requests = threeRequests := by
  funext r
  rcases r with _ | _ | _ | r
  · decide
  · decide
  · decide
  · rfl

/-- Everyone sends, the pipeline and then the data communicator are reconfigured. -/
def threeRanksRun : List RendezvousAction :=
  [.send 0, .send 2, .accept 2, .advance 2, .advance 2, .accept 0, .advance 0, .advance 0,
    .advance 0, .advance 0, .advance 0, .reply 0 true, .advance 0, .advance 0, .advance 0,
    .send 0, .accept 0, .advance 0, .advance 0, .send 1, .accept 1, .advance 1, .advance 1,
    .advance 1, .advance 1, .advance 1, .reply 1 true, .advance 1, .advance 1, .advance 1]

/-- The run ends with all lines handled. -/
theorem threeRanksRun_handled :
    ∃ s, run (rendezvousStep threeRanks.reg) (.initial threeTraces.requests 0#32) threeRanksRun =
      some s ∧ ∀ r ∈ [0, 1, 2], s.ctl.handler r = .idle ∧ s.lines r = [] := by
  rw [threeTraces_requests]
  have hrun : (run (rendezvousStep threeRanks.reg) (.initial threeRequests 0#32)
      threeRanksRun).any (fun s : RendezvousSystem =>
        decide (∀ r ∈ ([0, 1, 2] : List ℕ), s.ctl.handler r = .idle ∧ s.lines r = [])) = true := by
    decide
  obtain ⟨s, hs, hhandled⟩ := (Option.any_eq_true _ _).mp hrun
  exact ⟨s, hs, of_decide_eq_true hhandled⟩

end Opus
