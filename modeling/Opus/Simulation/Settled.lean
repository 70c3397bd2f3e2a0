import Opus.Simulation.Network

/-!
# One reconfiguration at a time

A request of the workload names a topology of the circuit schedules. When the topology manager
accepts it, the change is completed later: the links drain, the matrix is applied, and with OPUS
routing an event ends the change. A request can be forced past the collectives that are in flight.
It is then also forced past a change that is under way, although the code asserts that there is
none.

## Main definitions

* `Net.checkedReconfigure`: `TopologyManager::reconfigure` with its assertion
* `Net.startUp`, `managerStep`: the topology manager under the calls of `main` and of the workload
* `CallSound`, `Net.Settled`: what a call and a state between two events should satisfy
* `Net.InPhase`: how the fields of the topology manager belong together
* `Unforced`: no request is forced while a change is under way

## Main results

* `Net.checkedReconfigure_eq_none_iff`: when the assertion fails
* `managerStep_cases`: what a step can do
* `Net.InPhase.incrementCallback`, `inPhase_step`: steps that are not forced keep the phase
* `callSound_iff_unforced`: calls are sound and settled networks match their topology exactly in
  the runs without such a request
-/

namespace Opus.Simulation

open Transition

variable {n : ℕ}

/-- The bandwidth matrices of the circuit schedules, by topology id. -/
abbrev CircuitSchedules (n : ℕ) := ℤ → Option (LinkId n → Bandwidth)

namespace Net

/-- `TopologyManager::reconfigure` in a build with assertions: `none` when the assertion that no
change is under way fails. -/
def checkedReconfigure (algo : RoutingAlgorithm) (T : Timing) (s : Net n)
    (bw : LinkId n → Bandwidth) (lat : LinkId n → Latency) (reconfigTime : Latency) (topoId : ℤ)
    (skipInflight : Bool) : Option (Bool × Net n) :=
  if topoId = s.curTopoId then
    some (decide ¬ (algo = .opus ∧ s.reconfiguring ∧ skipInflight = false), s)
  else if algo = .opus ∧ s.curTopoId ≠ -1 ∧ s.reconfiguring = false ∧
      (∀ i j, bw (i, j) = s.bandwidths (i, j)) ∧ ∀ i j, lat (i, j) = s.latencies (i, j) then
    some (true, { s with curTopoId := topoId, reconfigTime := reconfigTime })
  else if (s.reconfiguring ∨ 0 < s.inflightColl) ∧ skipInflight = false then
    some (false, s)
  else if s.reconfiguring = false then
    some (true, ({ s with
      bandwidths := bw, latencies := lat, reconfigTime := reconfigTime, reconfiguring := true,
      draining := decide (algo = RoutingAlgorithm.opus), curTopoId := topoId }).drainNetwork algo T)
  else
    none

/-- A request for another topology is forced while a change is under way. -/
def Forces (s : Net n) (topoId : ℤ) (skipInflight : Bool) : Prop :=
  s.reconfiguring = true ∧ skipInflight = true ∧ topoId ≠ s.curTopoId

instance (s : Net n) (topoId : ℤ) (skipInflight : Bool) : Decidable (s.Forces topoId skipInflight) :=
  inferInstanceAs (Decidable (_ ∧ _))

/-- The start of `main`: the first request, on a network without any load, and the reconfiguration
latency for all later ones. -/
def startUp (algo : RoutingAlgorithm) (T : Timing) (schedules : CircuitSchedules n)
    (initialTopoId : ℕ) (lat : LinkId n → Latency) (reconfigTime reconfigLatency : Latency) :
    Option (Net n) :=
  (schedules initialTopoId).map fun bw =>
    { ((initial n).reconfigure algo T bw lat reconfigTime initialTopoId false).2 with
      reconfigTime := reconfigLatency }

end Net

/-- A request of the workload for a topology of the schedules, or anything else that happens to the
network. -/
inductive ManagerAct (n : ℕ) where
  | reconfigure (topoId : ℤ) (skipInflight : Bool)
  | network (a : NetAct n)

/-- One step. The request of the workload uses the latencies and the reconfiguration time of the
manager; other matrices are not requested, and `main` exits at an id it does not know. -/
def managerStep (schedules : CircuitSchedules n) (algo : RoutingAlgorithm) (T : Timing) (s : Net n) :
    ManagerAct n → Option (Net n)
  | .reconfigure topoId skipInflight =>
    (schedules topoId).bind fun bw =>
      netStep algo T s (.reconfigure bw s.latencies s.reconfigTime topoId skipInflight)
  | .network (.reconfigure ..) => none
  | .network a => netStep algo T s a

/-- The assertion of a call does not fail; a call that returns false changes nothing, and one that
returns true installs the topology it asks for. -/
def CallSound (schedules : CircuitSchedules n) (algo : RoutingAlgorithm) (T : Timing) (s : Net n) :
    ManagerAct n → Prop
  | .reconfigure topoId skipInflight =>
    ∀ bw, schedules topoId = some bw → ∃ b t,
      s.checkedReconfigure algo T bw s.latencies s.reconfigTime topoId skipInflight = some (b, t) ∧
        (b = false → t = s) ∧ (b = true → t.curTopoId = topoId ∧ t.bandwidths = bw)
  | .network _ => True

/-- When no change is under way, every link has the bandwidth that the installed topology gives
it. -/
def Net.Settled (schedules : CircuitSchedules n) (s : Net n) : Prop :=
  s.reconfiguring = false →
    ∃ bw, schedules s.curTopoId = some bw ∧ ∀ i j, i ≠ j → (s.link (i, j)).bandwidth = bw (i, j)

/-- A request for another topology is not forced while a change is under way. -/
def Unforced (s : Net n) : ManagerAct n → Prop
  | .reconfigure topoId skipInflight => ¬ s.Forces topoId skipInflight
  | .network _ => True

instance (s : Net n) : (a : ManagerAct n) → Decidable (Unforced s a)
  | .reconfigure .. => inferInstanceAs (Decidable (¬ _))
  | .network _ => inferInstanceAs (Decidable True)

/-! ## The assertion -/

section

variable {schedules : CircuitSchedules n} {algo : RoutingAlgorithm} {T : Timing} {s t : Net n}

/-- **The assertion fails** exactly when a request for another topology is forced while a change is
under way. -/
theorem Net.checkedReconfigure_eq_none_iff {bw : LinkId n → Bandwidth} {lat : LinkId n → Latency}
    {r : Latency} {topoId : ℤ} {skip : Bool} :
    s.checkedReconfigure algo T bw lat r topoId skip = none ↔ s.Forces topoId skip := by
  unfold checkedReconfigure Forces
  split_ifs with hid hal hbl hr
  · simp [hid]
  · simp [hal.2.2.1]
  · simp [hbl.2]
  · simp [hr]
  · -- the request was not turned away, so that it is forced
    rw [Bool.not_eq_false] at hr
    have hskip : skip = true := by
      by_contra h
      exact hbl ⟨.inl hr, by simpa using h⟩
    exact ⟨fun _ => ⟨hr, hskip, hid⟩, fun _ => rfl⟩

/-- Where the assertion does not fail, it makes no difference. -/
theorem Net.checkedReconfigure_eq_some {bw : LinkId n → Bandwidth} {lat : LinkId n → Latency}
    {r : Latency} {topoId : ℤ} {skip : Bool} (h : ¬ s.Forces topoId skip) :
    s.checkedReconfigure algo T bw lat r topoId skip =
      some (s.reconfigure algo T bw lat r topoId skip) := by
  have hne : ¬ s.checkedReconfigure algo T bw lat r topoId skip = none :=
    mt checkedReconfigure_eq_none_iff.mp h
  unfold checkedReconfigure at hne ⊢
  unfold reconfigure
  split_ifs at hne ⊢ <;> first | rfl | exact absurd rfl hne

/-- What a step can do. -/
theorem managerStep_cases {a : ManagerAct n} (h : managerStep schedules algo T s a = some t) :
    (∃ topoId skip bw, a = .reconfigure topoId skip ∧ schedules topoId = some bw ∧
      t = (s.reconfigure algo T bw s.latencies s.reconfigTime topoId skip).2) ∨
    (∃ b, a = .network b) ∧
      ((∃ k time e, s.events[k]? = some (time, e) ∧
          t = (s.takeEvent k time).invokeEvent algo T e) ∨
        (∃ size src next rest, t = s.inject T size src next rest) ∨
        (∃ lat, t = { s with reconfigTime := lat }) ∨
        (∃ k, t = { s with inflightColl := k }) ∨
        ∃ time, t = s.scheduleEvent time .workload) := by
  cases a with
  | reconfigure topoId skip =>
    obtain ⟨bw, hbw, ht⟩ := Option.bind_eq_some_iff.mp h
    exact .inl ⟨topoId, skip, bw, rfl, hbw, (Option.some.inj ht).symm⟩
  | network a =>
    have hne : ∀ bw lat r id skip, a ≠ .reconfigure bw lat r id skip := by
      rintro bw lat r id skip rfl
      exact nomatch h
    have ha : managerStep schedules algo T s (.network a) = netStep algo T s a := by
      cases a with
      | reconfigure bw lat r id skip => exact absurd rfl (hne bw lat r id skip)
      | _ => rfl
    rw [ha] at h
    refine .inr ⟨⟨a, rfl⟩, ?_⟩
    rcases netStep_cases h with ⟨k, time, e, -, hk, ht⟩ | ⟨size, src, next, rest, -, ht⟩ |
      ⟨bw, lat, r, id, skip, he, -⟩ | hr
    · exact .inl ⟨k, time, e, hk, ht⟩
    · exact .inr (.inl ⟨size, src, next, rest, ht⟩)
    · exact absurd he (hne bw lat r id skip)
    · exact .inr (.inr hr)

end

/-! ## Phases of a change -/

namespace Net

/-- The scheduled events that end a change. -/
def finishEvents (s : Net n) : ℕ := s.events.countP fun p => p.2 = .finishReconfiguration

/-- The links that a matrix is applied to have the bandwidths of the topology manager. -/
def Applied (s : Net n) : Prop := ∀ a ∈ links n, (s.link a).bandwidth = s.bandwidths a

/-- Before a matrix is applied the links are drained; after that one event ends the change, if it
is not at its end already. -/
structure InPhase (algo : RoutingAlgorithm) (s : Net n) : Prop where
  applied : ¬ s.Counting algo → s.Applied
  finishEvents_eq : s.finishEvents = if s.reconfiguring = true ∧ ¬ s.Counting algo then 1 else 0

/-- What the topology manager keeps, and the bandwidths of the links, are the same. -/
structure SameTopology (s t : Net n) : Prop where
  bandwidth : ∀ a, (t.link a).bandwidth = (s.link a).bandwidth
  bandwidths : t.bandwidths = s.bandwidths
  reconfiguring : t.reconfiguring = s.reconfiguring
  draining : t.draining = s.draining
  curTopoId : t.curTopoId = s.curTopoId
  finishEvents : t.finishEvents = s.finishEvents

section

variable {algo : RoutingAlgorithm} {T : Timing} {s t u : Net n} {a : LinkId n}

theorem SameTopology.refl (s : Net n) : SameTopology s s := ⟨fun _ => rfl, rfl, rfl, rfl, rfl, rfl⟩

theorem SameTopology.trans (h : SameTopology s t) (h' : SameTopology t u) : SameTopology s u where
  bandwidth a := (h'.bandwidth a).trans (h.bandwidth a)
  bandwidths := h'.bandwidths.trans h.bandwidths
  reconfiguring := h'.reconfiguring.trans h.reconfiguring
  draining := h'.draining.trans h.draining
  curTopoId := h'.curTopoId.trans h.curTopoId
  finishEvents := h'.finishEvents.trans h.finishEvents

theorem SameTopology.counting_iff (h : SameTopology s t) : t.Counting algo ↔ s.Counting algo := by
  unfold Counting
  rw [h.reconfiguring, h.draining]

theorem SameTopology.inPhase (h : SameTopology s t) (hs : s.InPhase algo) : t.InPhase algo where
  applied hc a ha := by
    rw [h.bandwidth, h.bandwidths]
    exact hs.applied (mt h.counting_iff.mpr hc) a ha
  finishEvents_eq := by
    rw [h.finishEvents, hs.finishEvents_eq]
    simp only [h.reconfiguring, h.counting_iff]

theorem finishEvents_scheduleEvent (s : Net n) (time : ℕ) (e : Event n) :
    (s.scheduleEvent time e).finishEvents =
      s.finishEvents + if e = .finishReconfiguration then 1 else 0 := by
  simp [finishEvents, scheduleEvent, List.countP_append, List.countP_singleton]

theorem scheduleEvent_sameTopology (s : Net n) (time : ℕ) {e : Event n}
    (he : e ≠ .finishReconfiguration) : SameTopology s (s.scheduleEvent time e) where
  bandwidth _ := rfl
  bandwidths := rfl
  reconfiguring := rfl
  draining := rfl
  curTopoId := rfl
  finishEvents := by rw [finishEvents_scheduleEvent, if_neg he, Nat.add_zero]

theorem bandwidth_setLink (s : Net n) {a : LinkId n} {l : Link}
    (hl : l.bandwidth = (s.link a).bandwidth) (b : LinkId n) :
    ((s.setLink a l).link b).bandwidth = (s.link b).bandwidth := by
  by_cases hb : b = a
  · rw [hb, link_setLink, hl]
  · rw [link_setLink_of_ne s hb]

theorem setLink_sameTopology (s : Net n) {a : LinkId n} {l : Link}
    (hl : l.bandwidth = (s.link a).bandwidth) : SameTopology s (s.setLink a l) :=
  ⟨bandwidth_setLink s hl, rfl, rfl, rfl, rfl, rfl⟩

theorem setPending_sameTopology (s : Net n) (a : LinkId n) (cs : List (Chunk n)) :
    SameTopology s (s.setPending a cs) :=
  ⟨fun _ => rfl, rfl, rfl, rfl, rfl, rfl⟩

theorem transmit_sameTopology (T : Timing) (s : Net n) (a : LinkId n) (c : Chunk n) :
    SameTopology s (s.transmit T a c) := by
  have h : SameTopology s (s.setLink a { s.link a with busy := true }) := setLink_sameTopology s rfl
  exact (h.trans (scheduleEvent_sameTopology _ _ (by simp))).trans
    (scheduleEvent_sameTopology _ _ (by simp))

theorem send_sameTopology (T : Timing) (s : Net n) (c : Chunk n) : SameTopology s (s.send T c) := by
  unfold send
  split
  · exact setPending_sameTopology ..
  · exact transmit_sameTopology ..

theorem chunkArrived_sameTopology (T : Timing) (s : Net n) (c : Chunk n) :
    SameTopology s (s.chunkArrived T c) := by
  unfold chunkArrived
  split
  · exact ⟨fun _ => rfl, rfl, rfl, rfl, rfl, rfl⟩
  · exact send_sameTopology ..

theorem inject_sameTopology (T : Timing) (s : Net n) (size : ℕ) (src next : Fin n)
    (rest : List (Fin n)) : SameTopology s (s.inject T size src next rest) := by
  let c : Chunk n := ⟨s.injected.length, size, src, next, rest⟩
  have h : SameTopology s { s with injected := s.injected ++ [c] } :=
    ⟨fun _ => rfl, rfl, rfl, rfl, rfl, rfl⟩
  exact h.trans (send_sameTopology T _ c)

/-! ## Applying a matrix -/

/-- A reconfiguration gives one link the bandwidth of the topology manager. -/
theorem reconfigureLink_sameTopology (T : Timing) (s : Net n) (a : LinkId n) :
    SameTopology (s.relink a) (s.reconfigureLink T a) := by
  rcases reconfigureLink_cases T s a with ⟨t, he⟩ | ⟨c, cs, -, -, he⟩ | ⟨-, he⟩ <;> rw [he]
  · have h : SameTopology (s.relink a) (s.setLink a ⟨s.bandwidths a, s.latencies a, true⟩) := by
      refine ⟨fun b => ?_, rfl, rfl, rfl, rfl, rfl⟩
      by_cases hb : b = a
      · rw [hb, link_setLink, relink, link_setLink]
      · rw [relink, link_setLink_of_ne s hb, link_setLink_of_ne s hb]
    exact h.trans (scheduleEvent_sameTopology _ t (by simp))
  · have h : SameTopology (s.relink a)
        ((s.relink a).setLink a { (s.relink a).link a with busy := false }) :=
      setLink_sameTopology _ rfl
    exact (h.trans (setPending_sameTopology _ a cs)).trans (transmit_sameTopology T _ a c)
  · exact .refl _

theorem relink_bandwidth_self (s : Net n) (a : LinkId n) :
    ((s.relink a).link a).bandwidth = s.bandwidths a := by
  rw [relink, link_setLink]

/-- The loop over the devices. -/
theorem foldl_reconfigureLink_spec (T : Timing) (as : List (LinkId n)) :
    ∀ s : Net n, let t := as.foldl (reconfigureLink T) s
      (∀ a, (t.link a).bandwidth = if a ∈ as then s.bandwidths a else (s.link a).bandwidth) ∧
        t.bandwidths = s.bandwidths ∧ t.reconfiguring = s.reconfiguring ∧
        t.draining = s.draining ∧ t.finishEvents = s.finishEvents := by
  induction as with
  | nil => exact fun s => ⟨fun _ => rfl, rfl, rfl, rfl, rfl⟩
  | cons a as ih =>
    intro s
    have h := reconfigureLink_sameTopology T s a
    obtain ⟨hlink, hbw, hr, hd, hf⟩ := ih (s.reconfigureLink T a)
    refine ⟨fun b => (hlink b).trans ?_, hbw.trans h.bandwidths, hr.trans h.reconfiguring,
      hd.trans h.draining, hf.trans h.finishEvents⟩
    rw [h.bandwidths, h.bandwidth]
    show (if b ∈ as then s.bandwidths b else ((s.relink a).link b).bandwidth) = _
    by_cases hb : b = a
    · subst hb
      rw [relink_bandwidth_self, if_pos List.mem_cons_self, ite_self]
    · rw [relink, link_setLink_of_ne s hb]
      simp only [List.mem_cons, hb, false_or]

/-- **Applying a matrix** ends the drain: the links have the new bandwidths, and an event is
scheduled unless the change ends at once. -/
theorem InPhase.applyTopology (h : s.InPhase algo) (hc : s.Counting algo) :
    (s.applyTopology algo T).InPhase algo := by
  have h0 : s.finishEvents = 0 := by
    rw [h.finishEvents_eq, if_neg (by simp [hc])]
  cases algo with
  | bfs =>
    obtain ⟨hlink, hbw, hr, -, hf⟩ := foldl_reconfigureLink_spec T (links n)
      { s with numDrainedLinks := 0, applied := s.applied ++ [s.busyLinks], reconfiguring := false }
    refine ⟨fun _ a ha => ?_, ?_⟩
    · exact ((hlink a).trans (if_pos ha)).trans (congrFun hbw a).symm
    · rw [if_neg]
      · exact hf.trans h0
      · exact fun hr' => absurd (hr.symm.trans hr'.1) Bool.false_ne_true
  | opus =>
    obtain ⟨u, hu⟩ : ∃ u, u = (links n).foldl (reconfigureLink T)
      { s with numDrainedLinks := 0, applied := s.applied ++ [s.busyLinks], draining := false } :=
      ⟨_, rfl⟩
    obtain ⟨hlink, hbw, hr, hd, hf⟩ := foldl_reconfigureLink_spec T (links n)
      { s with numDrainedLinks := 0, applied := s.applied ++ [s.busyLinks], draining := false }
    rw [← hu] at hlink hbw hr hd hf
    have happ : u.Applied := fun a ha =>
      ((hlink a).trans (if_pos ha)).trans (congrFun hbw a).symm
    simp only [Net.applyTopology, ← hu]
    split
    · -- the change ends at once
      refine ⟨fun _ => happ, ?_⟩
      rw [if_neg (by simp [finishReconfiguration])]
      exact hf.trans h0
    · refine ⟨fun _ => happ, ?_⟩
      rw [finishEvents_scheduleEvent, if_pos rfl, hf, if_pos]
      · exact congrArg (· + 1) h0
      · refine ⟨hr.trans hc.1, fun hc' => ?_⟩
        exact absurd (hd.symm.trans (hc'.2 rfl)) Bool.false_ne_true

/-- The counter is not part of the phase. -/
theorem InPhase.setCounter (h : s.InPhase algo) (k : ℕ) :
    ({ s with numDrainedLinks := k } : Net n).InPhase algo :=
  ⟨h.applied, h.finishEvents_eq⟩

theorem InPhase.incrementCallback (h : s.InPhase algo) : (s.incrementCallback algo T).InPhase algo := by
  unfold Net.incrementCallback
  split_ifs with hc
  · exact h.setCounter _
  · exact h.applyTopology hc
  · exact h.setCounter _

theorem InPhase.drainNetwork (h : s.InPhase algo) : (s.drainNetwork algo T).InPhase algo := by
  have hfold : ∀ (as : List (LinkId n)) (s : Net n), s.InPhase algo →
      (as.foldl (drainLink algo T) s).InPhase algo := by
    intro as
    induction as with
    | nil => exact fun _ h => h
    | cons a as ih =>
      intro s h
      apply ih
      unfold drainLink
      split
      · exact h
      · exact h.incrementCallback
  exact hfold _ _ (h.setCounter 0)

/-- **A change begins**: no earlier one is left to end it. -/
theorem InPhase.beginDrain (h : s.InPhase algo) (hr : s.reconfiguring = false)
    (bw : LinkId n → Bandwidth) (lat : LinkId n → Latency) (r : Latency) (id : ℤ) :
    ({ s with
      bandwidths := bw, latencies := lat, reconfigTime := r, reconfiguring := true,
      draining := decide (algo = RoutingAlgorithm.opus), curTopoId := id } : Net n).InPhase algo where
  applied hc := by
    refine absurd ⟨rfl, ?_⟩ hc
    exact fun ho => decide_eq_true ho
  finishEvents_eq := by
    rw [if_neg]
    · refine h.finishEvents_eq.trans (if_neg ?_)
      simp [hr]
    · rintro ⟨-, hc⟩
      exact hc ⟨rfl, fun ho => decide_eq_true ho⟩

theorem InPhase.finishReconfiguration {k time : ℕ} (h : s.InPhase algo)
    (hk : s.events[k]? = some (time, .finishReconfiguration)) :
    (s.takeEvent k time).finishReconfiguration.InPhase algo := by
  have hcount := countP_takeEvent hk fun p => p.2 = .finishReconfiguration
  simp only [decide_true, if_true] at hcount
  have hf : s.finishEvents = (s.takeEvent k time).finishEvents + 1 := hcount
  rw [h.finishEvents_eq] at hf
  -- the event is the one that the phase accounts for
  by_cases hp : s.reconfiguring = true ∧ ¬ s.Counting algo
  · rw [if_pos hp] at hf
    refine ⟨fun _ => h.applied hp.2, ?_⟩
    rw [if_neg (by simp [Net.finishReconfiguration])]
    show (s.takeEvent k time).finishEvents = 0
    omega
  · rw [if_neg hp] at hf
    omega

theorem takeEvent_sameTopology {k time : ℕ} {e : Event n} (hk : s.events[k]? = some (time, e))
    (he : e ≠ .finishReconfiguration) : SameTopology s (s.takeEvent k time) where
  bandwidth _ := rfl
  bandwidths := rfl
  reconfiguring := rfl
  draining := rfl
  curTopoId := rfl
  finishEvents := by
    have h := countP_takeEvent hk fun p => p.2 = .finishReconfiguration
    simp only [he, decide_false, Bool.false_eq_true, if_false, Nat.add_zero] at h
    exact h.symm

/-! ## The installed topology -/

/-- The matrix of the topology manager is the one of its topology id. -/
structure Installed (schedules : CircuitSchedules n) (algo : RoutingAlgorithm) (s : Net n) : Prop
    where
  phase : s.InPhase algo
  matrix : schedules s.curTopoId = some s.bandwidths

variable {schedules : CircuitSchedules n}

/-- The links of a settled network are those of its topology. -/
theorem Installed.settled (h : s.Installed schedules algo) : s.Settled schedules := by
  intro hr
  refine ⟨s.bandwidths, h.matrix, fun i j hij => ?_⟩
  have hc : ¬ s.Counting algo := by
    simp [Counting, hr]
  exact h.phase.applied hc (i, j) (mem_links.mpr hij)

theorem SameTopology.installed (h : SameTopology s t) (hs : s.Installed schedules algo) :
    t.Installed schedules algo where
  phase := h.inPhase hs.phase
  matrix := by
    rw [h.curTopoId, h.bandwidths]
    exact hs.matrix

theorem bandwidths_incrementCallback (algo : RoutingAlgorithm) (T : Timing) (s : Net n) :
    (s.incrementCallback algo T).bandwidths = s.bandwidths := by
  unfold Net.incrementCallback
  split_ifs
  · rfl
  · cases algo with
    | bfs => exact (foldl_reconfigureLink_spec T _ _).2.1
    | opus =>
      simp only [Net.applyTopology]
      split <;> exact (foldl_reconfigureLink_spec T _ _).2.1
  · rfl

theorem bandwidths_drainNetwork (algo : RoutingAlgorithm) (T : Timing) (s : Net n) :
    (s.drainNetwork algo T).bandwidths = s.bandwidths := by
  have hfold : ∀ (as : List (LinkId n)) (s : Net n),
      (as.foldl (drainLink algo T) s).bandwidths = s.bandwidths := by
    intro as
    induction as with
    | nil => exact fun _ => rfl
    | cons a as ih =>
      intro s
      refine (ih _).trans ?_
      unfold drainLink
      split
      · rfl
      · exact bandwidths_incrementCallback algo T s
  exact hfold _ _

theorem Installed.incrementCallback (h : s.Installed schedules algo) :
    (s.incrementCallback algo T).Installed schedules algo where
  phase := h.phase.incrementCallback
  matrix := by
    rw [curTopoId_incrementCallback, bandwidths_incrementCallback]
    exact h.matrix

theorem Installed.linkBecomeFree (h : s.Installed schedules algo) :
    (s.linkBecomeFree T (Net.incrementCallback algo T) a).Installed schedules algo := by
  have hset : SameTopology s (s.setLink a { s.link a with busy := false }) :=
    setLink_sameTopology s rfl
  by_cases hp : s.pendingChunks a = [] ∨ (s.link a).bandwidth = 0
  · rw [linkBecomeFree_of_idle T s a _ hp]
    exact (hset.installed h).incrementCallback
  · rw [not_or] at hp
    obtain ⟨c, cs, hcs⟩ := List.exists_cons_of_ne_nil hp.1
    rw [linkBecomeFree_of_cons T s a _ hcs hp.2]
    exact ((hset.trans (setPending_sameTopology _ a cs)).trans
      (transmit_sameTopology T _ a c)).installed h

theorem Installed.invokeEvent {k time : ℕ} {e : Event n} (h : s.Installed schedules algo)
    (hk : s.events[k]? = some (time, e)) :
    ((s.takeEvent k time).invokeEvent algo T e).Installed schedules algo := by
  cases e with
  | chunkArrivedNextDevice c =>
    exact ((takeEvent_sameTopology hk (by simp)).trans (chunkArrived_sameTopology T _ c)).installed h
  | linkBecomeFree a =>
    exact ((takeEvent_sameTopology hk (by simp)).installed h).linkBecomeFree
  | finishReconfiguration => exact ⟨h.phase.finishReconfiguration hk, h.matrix⟩
  | workload => exact (takeEvent_sameTopology hk (by simp)).installed h

/-- **A request that is not forced past a change** leaves the installed matrix with its id; it is
accepted exactly when the topology it asks for is the installed one afterwards, or it changes
nothing. -/
theorem reconfigure_spec (T : Timing) {bw : LinkId n → Bandwidth} (lat : LinkId n → Latency)
    (r : Latency) {topoId : ℤ} (skip : Bool) (h : s.InPhase algo)
    (hm : topoId = s.curTopoId → s.bandwidths = bw) (hf : ¬ s.Forces topoId skip) :
    let c := s.reconfigure algo T bw lat r topoId skip
    c.2.InPhase algo ∧ (c.1 = false → c.2 = s) ∧
      (c.1 = true → c.2.curTopoId = topoId ∧ c.2.bandwidths = bw) := by
  unfold reconfigure
  split_ifs with hid hal hbl
  · exact ⟨h, fun _ => rfl, fun _ => ⟨hid.symm, hm hid⟩⟩
  · -- the matrix is the one that is installed
    refine ⟨⟨h.applied, h.finishEvents_eq⟩, fun hb => absurd hb (by simp), fun _ => ⟨rfl, ?_⟩⟩
    exact funext fun a => (hal.2.2.2.1 a.1 a.2).symm
  · exact ⟨h, fun _ => rfl, fun hb => absurd hb (by simp)⟩
  · have hr : s.reconfiguring = false := by
      by_contra hr
      rw [Bool.not_eq_false] at hr
      refine hf ⟨hr, ?_, hid⟩
      by_contra hs
      exact hbl ⟨.inl hr, by simpa using hs⟩
    refine ⟨(h.beginDrain hr bw lat r topoId).drainNetwork, fun hb => absurd hb (by simp),
      fun _ => ⟨?_, ?_⟩⟩
    · rw [curTopoId_drainNetwork]
    · rw [bandwidths_drainNetwork]

theorem inPhase_initial (algo : RoutingAlgorithm) (n : ℕ) : (initial n).InPhase algo where
  applied _ _ _ := rfl
  finishEvents_eq := rfl

/-- The network that `main` hands to the workload has the first topology installed. -/
theorem installed_startUp {initialTopoId : ℕ} {lat : LinkId n → Latency} {r₀ r : Latency}
    (h : startUp algo T schedules initialTopoId lat r₀ r = some s) : s.Installed schedules algo := by
  obtain ⟨bw, hbw, rfl⟩ := Option.map_eq_some_iff.mp h
  have hid : (initialTopoId : ℤ) ≠ (initial n).curTopoId := by
    show (initialTopoId : ℤ) ≠ -1
    omega
  obtain ⟨hp, hfalse, htrue⟩ := reconfigure_spec T lat r₀ false (inPhase_initial algo n)
    (fun h => absurd h hid : (initialTopoId : ℤ) = _ → _ = bw) fun hf => Bool.false_ne_true hf.1
  have hacc : ((initial n).reconfigure algo T bw lat r₀ initialTopoId false).1 = true := by
    simp [reconfigure, initial]
  obtain ⟨hcur, hmat⟩ := htrue hacc
  exact ⟨⟨hp.applied, hp.finishEvents_eq⟩, by rw [hcur, hmat]; exact hbw⟩

end

end Net

/-! ## Runs -/

section

variable {schedules : CircuitSchedules n} {algo : RoutingAlgorithm} {T : Timing} {s t : Net n}

/-- **A call is sound exactly when it is not forced past a change**, and then the topology stays
installed. -/
theorem callSound_step (h : s.Installed schedules algo) {a : ManagerAct n}
    (hs : managerStep schedules algo T s a = some t) :
    (CallSound schedules algo T s a ↔ Unforced s a) ∧
      (Unforced s a → t.Installed schedules algo) := by
  rcases managerStep_cases hs with ⟨topoId, skip, bw, rfl, hbw, rfl⟩ | ⟨⟨b, rfl⟩, hb⟩
  · have hm : topoId = s.curTopoId → s.bandwidths = bw := by
      rintro rfl
      exact Option.some.inj (h.matrix.symm.trans hbw)
    have hspec := Net.reconfigure_spec T s.latencies s.reconfigTime skip h.phase hm
    refine ⟨⟨fun hc hf => ?_, fun hf bw' hbw' => ?_⟩, fun hf => ?_⟩
    · -- the assertion fails
      obtain ⟨b, u, hu, -⟩ := hc bw hbw
      rw [Net.checkedReconfigure_eq_none_iff.mpr hf] at hu
      cases hu
    · obtain rfl := Option.some.inj (hbw.symm.trans hbw')
      exact ⟨_, _, Net.checkedReconfigure_eq_some hf, (hspec hf).2⟩
    · obtain ⟨hp, hfalse, htrue⟩ := hspec hf
      refine ⟨hp, ?_⟩
      cases hb : (s.reconfigure algo T bw s.latencies s.reconfigTime topoId skip).1 with
      | false =>
        rw [hfalse hb]
        exact h.matrix
      | true =>
        obtain ⟨hcur, hmat⟩ := htrue hb
        rw [hcur, hmat]
        exact hbw
  · refine ⟨Iff.rfl, fun _ => ?_⟩
    rcases hb with ⟨k, time, e, hk, rfl⟩ | ⟨size, src, next, rest, rfl⟩ | ⟨lat, rfl⟩ | ⟨k, rfl⟩ |
      ⟨time, rfl⟩
    · exact h.invokeEvent hk
    · exact (Net.inject_sameTopology T s size src next rest).installed h
    · exact ⟨⟨h.phase.applied, h.phase.finishEvents_eq⟩, h.matrix⟩
    · exact ⟨⟨h.phase.applied, h.phase.finishEvents_eq⟩, h.matrix⟩
    · exact (Net.scheduleEvent_sameTopology s time (by simp)).installed h

/-- **One reconfiguration at a time**: for every number of devices, both routing algorithms, every
reconfiguration time, and every order of calls, chunks and events, the assertion never fails, calls
return what they did, and a settled network matches its topology id, exactly when no request for
another topology is forced while a change is under way. -/
theorem callSound_iff_unforced (algo : RoutingAlgorithm) (T : Timing)
    (schedules : CircuitSchedules n) {initialTopoId : ℕ} {lat : LinkId n → Latency}
    {reconfigTime reconfigLatency : Latency} {s₀ s : Net n} {as : List (ManagerAct n)}
    (h₀ : Net.startUp algo T schedules initialTopoId lat reconfigTime reconfigLatency = some s₀)
    (hrun : run (managerStep schedules algo T) s₀ as = some s) :
    (Along (managerStep schedules algo T) (CallSound schedules algo T) s₀ as ∧
      ∀ bs, bs <+: as → ∀ t, run (managerStep schedules algo T) s₀ bs = some t →
        t.Settled schedules) ↔
    Along (managerStep schedules algo T) Unforced s₀ as := by
  have hi := Net.installed_startUp h₀
  rw [along_congr (fun s a t h hs => callSound_step h hs) hrun hi]
  refine ⟨fun h => h.1, fun h => ⟨h, fun bs hbs t ht => ?_⟩⟩
  have ht' : t.Installed schedules algo :=
    run_invariant_along (fun s a t h hP hs => (callSound_step h hs).2 hP) ht (h.of_prefix hbs) hi
  exact ht'.settled

end

/-- Three topologies for two devices. -/
def threeTopologies : CircuitSchedules 2 := fun topoId =>
  if topoId = 1 ∨ topoId = 2 ∨ topoId = 3 then some fun _ => topoId.toNat else none

/-- After the first change has ended, a second one is requested. A third one has to wait for it. -/
def waitingRun : List (ManagerAct 2) :=
  [.network (.proceed 0), .network (.proceed 0), .network (.proceed 0), .reconfigure 2 false,
    .reconfigure 3 false, .network (.inject 1000000 (Fin.last 1).rev (Fin.last 1) []),
    .network (.proceed 0), .network (.proceed 0), .network (.proceed 0), .reconfigure 3 false]

theorem callSound_waitingRun :
    ∃ s₀ s, Net.startUp .opus .exact threeTopologies 1 (fun _ => 0) 1 10 = some s₀ ∧
      run (managerStep threeTopologies .opus .exact) s₀ waitingRun = some s ∧
      s.curTopoId = 3 ∧
      Along (managerStep threeTopologies .opus .exact) (CallSound threeTopologies .opus .exact) s₀
        waitingRun := by
  have hstart : (Net.startUp .opus .exact threeTopologies 1 (fun _ => 0) 1 10).isSome = true := by
    decide +kernel
  obtain ⟨s₀, h₀⟩ := Option.isSome_iff_exists.mp hstart
  have hrun : ((Net.startUp .opus .exact threeTopologies 1 (fun _ => 0) 1 10).bind fun s₀ =>
      (run (managerStep threeTopologies .opus .exact) s₀ waitingRun).map (·.curTopoId)) =
        some 3 := by
    decide +kernel
  have hunforced : ∀ s₀ ∈ Net.startUp .opus .exact threeTopologies 1 (fun _ => 0) 1 10,
      Along (managerStep threeTopologies .opus .exact) Unforced s₀ waitingRun := by
    decide +kernel
  rw [h₀, Option.bind_some] at hrun
  obtain ⟨s, hs, hcur⟩ := Option.map_eq_some_iff.mp hrun
  exact ⟨s₀, s, h₀, hs, hcur,
    ((callSound_iff_unforced .opus .exact threeTopologies h₀ hs).mpr (hunforced s₀ h₀)).1⟩

/-- The calls before the third topology is forced. -/
def changingRun : List (ManagerAct 2) :=
  [.network (.proceed 0), .network (.proceed 0), .network (.proceed 0), .reconfigure 2 false,
    .network (.inject 1000000 (Fin.last 1).rev (Fin.last 1) [])]

/-- What happens after it: a link is freed and sends the chunk that waits for it, the other one is
freed, and the event of the second change ends the third one. -/
def forcedRun : List (ManagerAct 2) :=
  .reconfigure 3 true :: [.network (.proceed 0), .network (.proceed 0), .network (.proceed 0)]

/-- The assertion fails. Without it the third change is ended before its matrix is applied. -/
theorem not_callSound_forcedRun :
    ∃ s₀ s, Net.startUp .opus .exact threeTopologies 1 (fun _ => 0) 1 10 = some s₀ ∧
      run (managerStep threeTopologies .opus .exact) s₀ (changingRun ++ forcedRun) = some s ∧
      ¬ Along (managerStep threeTopologies .opus .exact) (CallSound threeTopologies .opus .exact) s₀
        (changingRun ++ forcedRun) ∧
      ¬ s.Settled threeTopologies := by
  have hstart : (Net.startUp .opus .exact threeTopologies 1 (fun _ => 0) 1 10).isSome = true := by
    decide +kernel
  obtain ⟨s₀, h₀⟩ := Option.isSome_iff_exists.mp hstart
  have hforced : ((Net.startUp .opus .exact threeTopologies 1 (fun _ => 0) 1 10).bind fun s₀ =>
      (run (managerStep threeTopologies .opus .exact) s₀ changingRun).map fun u =>
        decide (u.Forces 3 true)) = some true := by
    decide +kernel
  have hrun : ((Net.startUp .opus .exact threeTopologies 1 (fun _ => 0) 1 10).bind fun s₀ =>
      (run (managerStep threeTopologies .opus .exact) s₀ (changingRun ++ forcedRun)).map fun s =>
        (s.reconfiguring, s.curTopoId, (s.link (0, 1)).bandwidth)) = some (false, 3, 2) := by
    decide +kernel
  rw [h₀, Option.bind_some] at hforced hrun
  obtain ⟨u, hu, hforces⟩ := Option.map_eq_some_iff.mp hforced
  obtain ⟨s, hs, he⟩ := Option.map_eq_some_iff.mp hrun
  obtain ⟨hr, he'⟩ := Prod.mk.inj he
  obtain ⟨hcur, hbw⟩ := Prod.mk.inj he'
  refine ⟨s₀, s, h₀, hs, fun h => ?_, fun h => ?_⟩
  · obtain ⟨b, t, ht, -⟩ := (h.at hu : CallSound _ _ _ u (.reconfigure 3 true)) (fun _ => 3) rfl
    rw [Net.checkedReconfigure_eq_none_iff.mpr (of_decide_eq_true hforces)] at ht
    cases ht
  · -- the matrix of the third topology is all threes
    obtain ⟨bw, hm, hl⟩ := h hr
    rw [hcur] at hm
    obtain rfl : (fun _ => 3) = bw := Option.some.inj hm
    have h01 := hl 0 1 (by decide)
    rw [hbw] at h01
    exact absurd h01 (by decide)

end Opus.Simulation
