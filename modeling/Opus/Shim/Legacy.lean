import Mathlib.Data.List.Basic
import Opus.Schedule.Event
import Opus.Shim.Replay

/-!
# Profiling, compiling and replaying stages

In profile mode the issuing thread records every scale-out collective of the profiled iterations.
The legacy compiler collapses the trace into stages, and the callbacks replay the same collectives
against these stages.

The compiler stores the counter of a pipeline event without its base, because the base is meant
for controller requests only. The callbacks compare the counter with its base, which is positive
for every transfer, so a stage that begins or ends with a pipeline event is never recognised.

## Main definitions

* `profileFrom`, `trace`: the events of a run, one entry for each schedulable collective
* `legacyCommStages`: the stage file compiled from a trace
* `RoundTrip`: the replay recognises the first and the last event of every run

## Main results

* `profileFrom_keys`: the callbacks see the counters that were recorded
* `isCommChangeBefore_legacy_pp`: no transfer begins a compiled stage
* `roundTrip_iff`: the round trip succeeds exactly when no pipeline event was recorded
-/

namespace Opus

/-! ## Profile mode -/

/-- The collective runs its callbacks and is recorded in profile mode. -/
def schedulable (sh : Shim) (c : Coll) : Bool :=
  sh.networkType c.backendId != 0 && sh.domain c.backendId == 0 &&
    !(sh.isPpBackend c.backendId && c.op == .allreduce)

/-- The counters of the issuing thread after a collective: only a pipeline backend counts its
directions. -/
def advanceMain (sh : Shim) (ks : ℕ → Counters) (c : Coll) : ℕ → Counters :=
  let k := ks c.backendId
  Function.update ks c.backendId
    (if sh.isPpBackend c.backendId then k.advance (c.op.direction (sh.rank c.backendId))
    else { k with coll := k.coll + 1 })

/-- The event of a collective. -/
def recordProfileEvent (sh : Shim) (c : Coll) (sequence counter : ℕ) : Event where
  iteration := c.iteration
  sequence := sequence
  backend := c.backendId
  counter := counter
  kind := if sh.isPpBackend c.backendId then .PP else .DP
  controllerBackend :=
    if sh.isPpBackend c.backendId then c.backendId + PP_BACKEND_INTERVAL * (counter / PP_INTERVAL)
    else c.backendId
  controllerCounter :=
    if sh.isPpBackend c.backendId then counter else counter + sh.ppStage * PP_INTERVAL

/-- One entry for each schedulable collective: its event, or nothing when its iteration is not
profiled. -/
def profileFrom (sh : Shim) (profileIterations : List ℕ) :
    (ℕ → Counters) → ℕ → List Coll → List (Option Event)
  | _, _, [] => []
  | ks, sequence, c :: cs =>
    let counter := c.count sh (ks c.backendId)
    let ks' := advanceMain sh ks c
    if schedulable sh c then
      if c.iteration ∈ profileIterations then
        some (recordProfileEvent sh c sequence counter) ::
          profileFrom sh profileIterations ks' (sequence + 1) cs
      else none :: profileFrom sh profileIterations ks' sequence cs
    else profileFrom sh profileIterations ks' sequence cs

/-- The entries of a run. -/
def profile (sh : Shim) (profileIterations : List ℕ) (cs : List Coll) : List (Option Event) :=
  profileFrom sh profileIterations noCounters 0 cs

/-- The trace file of a run. -/
def trace (sh : Shim) (profileIterations : List ℕ) (cs : List Coll) : List Event :=
  (profile sh profileIterations cs).filterMap id

/-- The stage file compiled from a trace, as it is read back. -/
def legacyCommStages (events : List Event) : List CommStage :=
  (legacyStages (readEvents events)).map fun row =>
    ⟨row.1.backend, legacyCounter row.1, row.2.backend, legacyCounter row.2⟩

/-- The process that replays the run against its own compiled stages. -/
def Shim.compiled (sh : Shim) (profileIterations : List ℕ) (cs : List Coll) (mode : Mode) : Shim :=
  { sh with mode := mode, commStages := legacyCommStages (trace sh profileIterations cs) }

/-- The entry is an event that begins a run of one kind. -/
def BeginsRun (entries : List (Option Event)) (i : ℕ) : Prop :=
  ∃ e, entries[i]? = some (some e) ∧
    changed ((entries.take i).filterMap id).getLast? e = true

/-- The entry is an event that ends a run of one kind. -/
def EndsRun (entries : List (Option Event)) (i : ℕ) : Prop :=
  ∃ e, entries[i]? = some (some e) ∧
    ∀ e', ((entries.drop (i + 1)).filterMap id).head? = some e' → e'.kind ≠ e.kind

/-- Replaying the collectives recognises exactly the first and the last event of every run, and
both stage indexes end at the number of stages. -/
def RoundTrip (sh : Shim) (profileIterations : List ℕ) (cs : List Coll) (mode : Mode) : Prop :=
  let sh' := sh.compiled profileIterations cs mode
  let entries := profile sh profileIterations cs
  ∃ p out, replay sh' .initial (cs.filter (schedulable sh)) = some (p, out) ∧
    p.curCommStageIdx = sh'.commStages.length ∧ p.curCommStageIdxPost = sh'.commStages.length ∧
    ∀ i r, out[i]? = some r →
      (r.commChangeBefore = true ↔ BeginsRun entries i) ∧
      (r.commChangeAfter = true ↔ EndsRun entries i) ∧
      (r.commChangeAfterPost = true ↔ EndsRun entries i)

/-- Pipeline backends carry transfers with other ranks, the other backends collectives. -/
def Coll.Typed (sh : Shim) (c : Coll) : Prop :=
  if sh.isPpBackend c.backendId then
    c.op = .allreduce ∨ c.op.IsTransfer (sh.rank c.backendId)
  else c.op = .allreduce ∨ c.op = .collective

variable {sh : Shim}

/-! ## The callbacks see the recorded counters -/

/-- The counters of the issuing thread and of a callback agree where a schedulable collective of
the backend reads them. -/
def MainAgrees (sh : Shim) (ks main : ℕ → Counters) : Prop :=
  ∀ b, sh.networkType b ≠ 0 → sh.domain b = 0 →
    if sh.isPpBackend b then (ks b).up = (main b).up ∧ (ks b).down = (main b).down
    else (ks b).coll = (main b).coll

theorem Coll.Typed.direction_neither {c : Coll} (ht : c.Typed sh)
    (hpp : sh.isPpBackend c.backendId = false) :
    c.op.direction (sh.rank c.backendId) = .neither := by
  rw [Coll.Typed, hpp] at ht
  have hr : ¬ ((-1 : ℤ) > (sh.rank c.backendId : ℤ)) := by omega
  rcases ht with h | h <;> simp [h, Op.direction, Op.srcRank, Op.dstRank, hr]

theorem Coll.Typed.isTransfer {c : Coll} (ht : c.Typed sh) (hs : schedulable sh c = true)
    (hpp : sh.isPpBackend c.backendId = true) : c.op.IsTransfer (sh.rank c.backendId) := by
  rw [Coll.Typed, hpp] at ht
  refine ht.resolve_left fun hop => ?_
  simp [schedulable, hpp, hop] at hs

theorem schedulable_backend {c : Coll} (hs : schedulable sh c = true) :
    sh.networkType c.backendId ≠ 0 ∧ sh.domain c.backendId = 0 := by
  simp only [schedulable, Bool.and_eq_true, bne_iff_ne, ne_eq, beq_iff_eq] at hs
  exact hs.1

theorem MainAgrees.count_eq {ks main : ℕ → Counters} (hm : MainAgrees sh ks main) {c : Coll}
    (hs : schedulable sh c = true) (ht : c.Typed sh) :
    c.count sh (main c.backendId) = c.count sh (ks c.backendId) := by
  have hb := hm c.backendId (schedulable_backend hs).1 (schedulable_backend hs).2
  unfold Coll.count
  cases hpp : sh.isPpBackend c.backendId with
  | true =>
    rw [hpp, if_pos rfl] at hb
    have hne := (ht.isTransfer hs hpp).direction_ne
    cases hd : c.op.direction (sh.rank c.backendId) with
    | up => simp only [hb.1]
    | down => simp only [hb.2]
    | neither => exact absurd hd hne
  | false =>
    rw [hpp, if_neg (by simp)] at hb
    simp only [ht.direction_neither hpp, hb]

/-- A schedulable collective advances both. -/
theorem MainAgrees.advance {ks main : ℕ → Counters} (hm : MainAgrees sh ks main) (c : Coll) :
    MainAgrees sh (advanceAt sh ks c) (advanceMain sh main c) := by
  intro b hn hdom
  have hb := hm b hn hdom
  by_cases hc : b = c.backendId
  · subst hc
    cases hpp : sh.isPpBackend c.backendId with
    | true =>
      rw [hpp, if_pos rfl] at hb
      cases hd : c.op.direction (sh.rank c.backendId) <;>
        simp [advanceMain, hpp, hd, Counters.advance, hb]
    | false =>
      rw [hpp, if_neg (by simp)] at hb
      simp [advanceMain, hpp, hb]
  · simpa [advanceMain, hc] using hb

/-- Another collective advances only the issuing thread, and nothing that is read. -/
theorem MainAgrees.skip {ks main : ℕ → Counters} (hm : MainAgrees sh ks main) {c : Coll}
    (hs : schedulable sh c = false) : MainAgrees sh ks (advanceMain sh main c) := by
  intro b hn hdom
  have hb := hm b hn hdom
  by_cases hc : b = c.backendId
  · subst hc
    have hpp : sh.isPpBackend c.backendId = true ∧ c.op = .allreduce := by
      simpa [schedulable, hn, hdom] using hs
    have hdir : c.op.direction (sh.rank c.backendId) = .neither := by
      have hr : ¬ ((-1 : ℤ) > (sh.rank c.backendId : ℤ)) := by omega
      simp [hpp.2, Op.direction, Op.srcRank, Op.dstRank, hr]
    simpa [advanceMain, hpp.1, hdir, Counters.advance] using hb
  · simpa [advanceMain, hc] using hb

theorem profileFrom_length (iters : List ℕ) (cs : List Coll) (main : ℕ → Counters) (seq : ℕ) :
    (profileFrom sh iters main seq cs).length = (cs.filter (schedulable sh)).length := by
  induction cs generalizing main seq with
  | nil => rfl
  | cons c cs ih =>
    by_cases hs : schedulable sh c = true
    · by_cases hi : c.iteration ∈ iters <;> simp [profileFrom, hs, hi, ih]
    · simp [profileFrom, hs, ih]

/-- The callbacks see the counters that were recorded. -/
theorem profileFrom_keys (iters : List ℕ) (cs : List Coll) {ks main : ℕ → Counters} (seq : ℕ)
    (hm : MainAgrees sh ks main) (ht : ∀ c ∈ cs, c.Typed sh) {i : ℕ} {e : Event}
    (h : (profileFrom sh iters main seq cs)[i]? = some (some e)) :
    (keysFrom sh ks (cs.filter (schedulable sh)))[i]? = some (e.backend, e.counter) ∧
      e.kind = if sh.isPpBackend e.backend then .PP else .DP := by
  induction cs generalizing ks main seq i with
  | nil => simp [profileFrom] at h
  | cons c cs ih =>
    have htc : c.Typed sh := ht c (by simp)
    have htcs : ∀ c ∈ cs, c.Typed sh := fun c' hc' => ht c' (by simp [hc'])
    by_cases hs : schedulable sh c = true
    · have hkeys : keysFrom sh ks ((c :: cs).filter (schedulable sh)) =
          (c.backendId, c.count sh (ks c.backendId)) ::
            keysFrom sh (advanceAt sh ks c) (cs.filter (schedulable sh)) := by
        simp [hs, keysFrom]
      rw [hkeys]
      by_cases hi : c.iteration ∈ iters
      · simp only [profileFrom, hs, hi, if_true] at h
        cases i with
        | zero =>
          simp only [List.getElem?_cons_zero, Option.some.injEq] at h
          subst h
          simp [recordProfileEvent, hm.count_eq hs htc]
        | succ i => exact ih (seq + 1) (hm.advance c) htcs (by simpa using h)
      · simp only [profileFrom, hs, hi, if_true, if_false] at h
        cases i with
        | zero => simp at h
        | succ i => exact ih seq (hm.advance c) htcs (by simpa using h)
    · rw [Bool.not_eq_true] at hs
      simp only [profileFrom, hs, Bool.false_eq_true, if_false] at h
      simpa [hs] using ih seq (hm.skip hs) htcs h

/-- The events carry increasing sequence numbers. -/
theorem profileFrom_sequence (iters : List ℕ) (cs : List Coll) (main : ℕ → Counters) (seq : ℕ) :
    (∀ e ∈ (profileFrom sh iters main seq cs).filterMap id, seq ≤ e.sequence) ∧
      ((profileFrom sh iters main seq cs).filterMap id).Pairwise
        fun e f => e.sequence ≤ f.sequence := by
  induction cs generalizing main seq with
  | nil => simp [profileFrom]
  | cons c cs ih =>
    have hrest := ih (advanceMain sh main c) seq
    obtain ⟨hle', hpw'⟩ := ih (advanceMain sh main c) (seq + 1)
    by_cases hs : schedulable sh c = true
    · by_cases hi : c.iteration ∈ iters
      · simp only [profileFrom, hs, hi, if_true, List.filterMap_cons, id_eq, List.mem_cons,
          List.pairwise_cons]
        refine ⟨?_, ?_, hpw'⟩
        · rintro e (rfl | he)
          · exact Nat.le_refl _
          · exact Nat.le_of_succ_le (hle' e he)
        · intro e he
          exact Nat.le_of_succ_le (hle' e he)
      · simpa [profileFrom, hs, hi] using hrest
    · simpa [profileFrom, hs] using hrest

/-- The compiler reads a trace in the order in which it was recorded. -/
theorem readEvents_trace (iters : List ℕ) (cs : List Coll) :
    readEvents (trace sh iters cs) = trace sh iters cs := by
  refine List.mergeSort_of_pairwise ?_
  simpa [trace, profile] using (profileFrom_sequence iters cs noCounters 0).2

theorem mainAgrees_noCounters : MainAgrees sh noCounters noCounters := by
  intro b _ _
  cases sh.isPpBackend b <;> simp

theorem profile_keys {iters : List ℕ} {cs : List Coll} (ht : ∀ c ∈ cs, c.Typed sh) {i : ℕ}
    {e : Event} (h : (profile sh iters cs)[i]? = some (some e)) :
    (keysFrom sh noCounters (cs.filter (schedulable sh)))[i]? = some (e.backend, e.counter) ∧
      e.kind = if sh.isPpBackend e.backend then .PP else .DP :=
  profileFrom_keys iters cs 0 mainAgrees_noCounters ht h

/-- The keys of the events are among those of the schedulable collectives, in their order. -/
theorem profileFrom_sublist (iters : List ℕ) (cs : List Coll) {ks main : ℕ → Counters} (seq : ℕ)
    (hm : MainAgrees sh ks main) (ht : ∀ c ∈ cs, c.Typed sh) :
    (((profileFrom sh iters main seq cs).filterMap id).map fun e => (e.backend, e.counter)).Sublist
      (keysFrom sh ks (cs.filter (schedulable sh))) := by
  induction cs generalizing ks main seq with
  | nil => exact List.Sublist.refl _
  | cons c cs ih =>
    have htc : c.Typed sh := ht c (by simp)
    have htcs : ∀ c ∈ cs, c.Typed sh := fun c' hc' => ht c' (by simp [hc'])
    by_cases hs : schedulable sh c = true
    · rw [List.filter_cons_of_pos hs, keysFrom, ← hm.count_eq hs htc]
      by_cases hi : c.iteration ∈ iters
      · simpa [profileFrom, hs, hi, recordProfileEvent] using ih (seq + 1) (hm.advance c) htcs
      · simpa [profileFrom, hs, hi] using (ih seq (hm.advance c) htcs).cons _
    · rw [List.filter_cons_of_neg hs]
      rw [Bool.not_eq_true] at hs
      simpa [profileFrom, hs] using ih seq (hm.skip hs) htcs

theorem trace_sublist (iters : List ℕ) {cs : List Coll} (ht : ∀ c ∈ cs, c.Typed sh) :
    ((trace sh iters cs).map fun e => (e.backend, e.counter)).Sublist
      (keysFrom sh noCounters (cs.filter (schedulable sh))) :=
  profileFrom_sublist iters cs 0 mainAgrees_noCounters ht

/-- An event of a trace is that of a collective. -/
theorem exists_coll_of_mem_profileFrom {iters : List ℕ} {cs : List Coll} {main : ℕ → Counters}
    {seq : ℕ} {e : Event} (he : e ∈ (profileFrom sh iters main seq cs).filterMap id) :
    ∃ c ∈ cs, e = recordProfileEvent sh c e.sequence e.counter := by
  induction cs generalizing main seq with
  | nil => cases he
  | cons c cs ih =>
    have htail : ∀ {seq : ℕ},
        e ∈ (profileFrom sh iters (advanceMain sh main c) seq cs).filterMap id →
          ∃ c' ∈ c :: cs, e = recordProfileEvent sh c' e.sequence e.counter := by
      intro seq he
      obtain ⟨c', hc', heq⟩ := ih he
      exact ⟨c', List.mem_cons_of_mem c hc', heq⟩
    by_cases hs : schedulable sh c = true
    · by_cases hi : c.iteration ∈ iters
      · simp only [profileFrom, hs, hi, if_true, List.filterMap_cons, id_eq] at he
        rcases List.mem_cons.mp he with rfl | he
        · exact ⟨c, List.mem_cons_self, rfl⟩
        · exact htail he
      · simp only [profileFrom, hs, hi, if_true, if_false, List.filterMap_cons, id_eq] at he
        exact htail he
    · simp only [profileFrom, hs] at he
      exact htail he

theorem profile_backend {iters : List ℕ} {cs : List Coll} (ht : ∀ c ∈ cs, c.Typed sh) {i : ℕ}
    {e : Event} (h : (profile sh iters cs)[i]? = some (some e)) :
    ∃ c ∈ cs, c.backendId = e.backend := by
  have hkey := (profile_keys ht h).1
  rw [getElem?_keysFrom, Option.map_eq_some_iff] at hkey
  obtain ⟨c, hc, heq⟩ := hkey
  exact ⟨c, List.mem_of_mem_filter (List.mem_of_getElem? hc), congrArg Prod.fst heq⟩

theorem exists_getElem?_of_mem_trace {iters : List ℕ} {cs : List Coll} {e : Event}
    (h : e ∈ trace sh iters cs) : ∃ i : ℕ, (profile sh iters cs)[i]? = some (some e) := by
  simp only [trace, List.mem_filterMap, id_eq, exists_eq_right] at h
  exact List.mem_iff_getElem?.1 h

/-! ## Pipeline events -/

theorem legacyStagesFrom_mem {start previous : Event} {events : List Event} {row : Event × Event}
    (h : row ∈ legacyStagesFrom start previous events) :
    (row.1 = start ∨ row.1 ∈ events) ∧ (row.2 = previous ∨ row.2 ∈ events) := by
  induction events generalizing start previous with
  | nil => simp_all [legacyStagesFrom]
  | cons e es ih =>
    simp only [legacyStagesFrom] at h
    split at h
    · rcases List.mem_cons.1 h with rfl | h
      · simp
      · obtain ⟨h₁ | h₁, h₂ | h₂⟩ := ih h <;> simp [h₁, h₂]
    · obtain ⟨h₁ | h₁, h₂ | h₂⟩ := ih h <;> simp [h₁, h₂]

theorem legacyStages_mem {events : List Event} {row : Event × Event}
    (h : row ∈ legacyStages events) : row.1 ∈ events ∧ row.2 ∈ events := by
  cases events with
  | nil => simp [legacyStages] at h
  | cons e es =>
    obtain ⟨h₁, h₂⟩ := legacyStagesFrom_mem h
    exact ⟨List.mem_cons.2 h₁, List.mem_cons.2 h₂⟩

/-- The stored counter of a pipeline event lies below the first interval. -/
theorem legacyCounter_lt {e : Event} (h : e.kind = .PP) : legacyCounter e < PP_INTERVAL := by
  rw [legacyCounter, if_pos h]
  exact Nat.mod_lt _ (by decide)

/-- No transfer begins a compiled stage. -/
theorem isCommChangeBefore_legacy_pp {iters : List ℕ} {cs : List Coll} (mode : Mode)
    (ht : ∀ c ∈ cs, c.Typed sh) (hlt : ∀ c ∈ cs, c.backendId < hexIdMapSize) {b cnt : ℕ}
    (hpp : sh.isPpBackend b = true) (hcnt : PP_INTERVAL ≤ cnt) (stage : ℕ) :
    isCommChangeBefore (sh.compiled iters cs mode) b cnt stage = false := by
  rw [isCommChangeBefore]
  split
  · rfl
  · rename_i st hst
    rw [Bool.eq_false_iff]
    intro hmatch
    simp only [Bool.and_eq_true, beq_iff_eq] at hmatch
    obtain ⟨row, hrow, rfl⟩ : ∃ row ∈ legacyStages (trace sh iters cs),
        (⟨row.1.backend, legacyCounter row.1, row.2.backend, legacyCounter row.2⟩ : CommStage) =
          st := by
      have hmem := List.mem_of_getElem? hst
      simpa [Shim.compiled, legacyCommStages, readEvents_trace] using hmem
    obtain ⟨i, hi⟩ := exists_getElem?_of_mem_trace (legacyStages_mem hrow).1
    obtain ⟨hkey, hkind⟩ := profile_keys ht hi
    -- the stage begins with an event of the same backend, so of the same kind
    obtain ⟨c, hc, hback⟩ := profile_backend ht hi
    have hback : row.1.backend < 7 := hback ▸ hlt c hc
    have hb : b = row.1.backend := by
      rw [hmatch.1]
      simp only [PP_BACKEND_INTERVAL]
      omega
    rw [← hb, hpp, if_pos rfl] at hkind
    exact absurd (hmatch.2 ▸ legacyCounter_lt hkind) (Nat.not_lt.2 hcnt)

/-- The first pipeline event begins a run. -/
theorem exists_beginsRun_pp {entries : List (Option Event)} {e : Event}
    (he : some e ∈ entries) (hpp : e.kind = .PP) :
    ∃ (i : ℕ) (e' : Event), entries[i]? = some (some e') ∧ e'.kind = .PP ∧
      BeginsRun entries i := by
  classical
  have hex : ∃ i : ℕ, ∃ e' : Event, entries[i]? = some (some e') ∧ e'.kind = .PP := by
    obtain ⟨i, hi⟩ := List.mem_iff_getElem?.1 he
    exact ⟨i, e, hi, hpp⟩
  obtain ⟨e', he', hpp'⟩ := Nat.find_spec hex
  refine ⟨Nat.find hex, e', he', hpp', e', he', ?_⟩
  cases hlast : ((entries.take (Nat.find hex)).filterMap id).getLast? with
  | none => rfl
  | some q =>
    -- an earlier event is of the other kind, since the first pipeline event comes later
    have hmem := List.mem_of_getLast? hlast
    simp only [List.mem_filterMap, id_eq, exists_eq_right] at hmem
    obtain ⟨j, hj⟩ := List.mem_iff_getElem?.1 hmem
    rw [List.getElem?_take] at hj
    split at hj
    · rename_i hjlt
      have hq : q.kind ≠ .PP := fun hq => Nat.find_min hex hjlt ⟨q, hj, hq⟩
      simp [changed, hpp', Ne.symm hq]
    · cases hj

theorem not_roundTrip_of_pp {iters : List ℕ} {cs : List Coll} {mode : Mode}
    (ht : ∀ c ∈ cs, c.Typed sh) (hlt : ∀ c ∈ cs, c.backendId < hexIdMapSize) {e : Event}
    (he : e ∈ trace sh iters cs) (hpp : e.kind = .PP) : ¬ RoundTrip sh iters cs mode := by
  rintro ⟨p, out, hreplay, -, -, hflags⟩
  have hmem : some e ∈ profile sh iters cs := by simpa [trace] using he
  obtain ⟨i, e', hi, hpp', hbegins⟩ := exists_beginsRun_pp hmem hpp
  obtain ⟨hlen, hflag⟩ := replay_commChangeBefore hreplay
  have hilt : i < out.length := by
    rw [hlen, ← profileFrom_length iters cs noCounters 0]
    exact (List.getElem?_eq_some_iff.1 hi).1
  obtain ⟨c, q, hc, hbefore⟩ := hflag i _ (List.getElem?_eq_getElem hilt)
  have htrue := (hflags i _ (List.getElem?_eq_getElem hilt)).1.2 hbegins
  -- the collective is a transfer, which no compiled stage begins with
  obtain ⟨hkey, hkind⟩ := profile_keys ht hi
  rw [getElem?_keysFrom, hc, Option.map_some, Option.some.injEq] at hkey
  have hback : c.backendId = e'.backend := congrArg Prod.fst hkey
  have hcpp : sh.isPpBackend c.backendId = true := by
    rw [hback]
    by_contra hne
    rw [if_neg hne, hpp'] at hkind
    cases hkind
  have hcmem := List.mem_filter.1 (List.mem_of_getElem? hc)
  have hge : PP_INTERVAL ≤ c.count (sh.compiled iters cs mode) (q.pre c.backendId) :=
    Coll.le_count (sh.compiled iters cs mode) ((ht c hcmem.1).isTransfer hcmem.2 hcpp) _
  rw [hbefore, isCommChangeBefore_legacy_pp mode ht hlt hcpp hge] at htrue
  cases htrue

/-! ## Data events -/

/-- The counters of a backend without transfers increase. -/
theorem keysFrom_coll_le {cs : List Coll} (ht : ∀ c ∈ cs, c.Typed sh) (ks : ℕ → Counters) :
    ∀ key ∈ keysFrom sh ks cs, sh.isPpBackend key.1 = false → (ks key.1).coll ≤ key.2 := by
  induction cs generalizing ks with
  | nil => simp [keysFrom]
  | cons c cs ih =>
    intro key hkey hpp
    rcases List.mem_cons.1 hkey with rfl | hkey
    · simp [Coll.count, (ht c (by simp)).direction_neither hpp]
    · have hle := ih (fun c' hc' => ht c' (by simp [hc'])) (advanceAt sh ks c) key hkey hpp
      by_cases hc : key.1 = c.backendId
      · rw [hc, advanceAt_self, Counters.advance_coll] at hle
        rw [hc]
        omega
      · rwa [advanceAt_of_ne ks hc] at hle

theorem keysFrom_pairwise {cs : List Coll} (ht : ∀ c ∈ cs, c.Typed sh) (ks : ℕ → Counters) :
    (keysFrom sh ks cs).Pairwise fun key key' =>
      sh.isPpBackend key.1 = false → key ≠ key' := by
  induction cs generalizing ks with
  | nil => simp [keysFrom]
  | cons c cs ih =>
    have htcs : ∀ c' ∈ cs, c'.Typed sh := fun c' hc' => ht c' (by simp [hc'])
    rw [keysFrom, List.pairwise_cons]
    refine ⟨?_, ih htcs _⟩
    rintro key hkey hpp rfl
    have hle := keysFrom_coll_le htcs (advanceAt sh ks c) _ hkey hpp
    simp only [advanceAt_self, Counters.advance_coll, Coll.count,
      (ht c (by simp)).direction_neither hpp] at hle
    omega

/-- The key of a data event occurs once. -/
theorem getElem?_keysFrom_inj {cs : List Coll} (ht : ∀ c ∈ cs, c.Typed sh) {ks : ℕ → Counters}
    {i j : ℕ} {key : ℕ × ℕ} (hpp : sh.isPpBackend key.1 = false)
    (hi : (keysFrom sh ks cs)[i]? = some key) (hj : (keysFrom sh ks cs)[j]? = some key) :
    i = j := by
  obtain ⟨hi', hki⟩ := List.getElem?_eq_some_iff.1 hi
  obtain ⟨hj', hkj⟩ := List.getElem?_eq_some_iff.1 hj
  have hpw := List.pairwise_iff_getElem.1 (keysFrom_pairwise ht ks)
  rcases Nat.lt_trichotomy i j with h | h | h
  · exact absurd (hki.trans hkj.symm) (hpw i j hi' hj' h (hki ▸ hpp))
  · exact h
  · exact absurd (hkj.trans hki.symm) (hpw j i hj' hi' h (hkj ▸ hpp))

/-- Events of one kind form one stage. -/
theorem legacyStagesFrom_of_kind {start previous : Event} {events : List Event}
    (h : ∀ e ∈ events, e.kind = previous.kind) :
    legacyStagesFrom start previous events = [(start, events.getLastD previous)] := by
  induction events generalizing previous with
  | nil => rfl
  | cons e es ih =>
    have he : e.kind = previous.kind := h e (by simp)
    rw [legacyStagesFrom, if_neg (by simp [he]), ih fun e' he' => by simp [h e', he', he]]
    cases es <;> simp [List.getLastD]

/-- With events of one kind, the first of them begins the only run. -/
theorem beginsRun_iff {before after : List (Option Event)} {first : Event}
    (hbefore : ∀ x ∈ before, x = none)
    (hkind : ∀ e ∈ (before ++ some first :: after).filterMap id, e.kind = .DP) (i : ℕ) :
    BeginsRun (before ++ some first :: after) i ↔ i = before.length := by
  constructor
  · rintro ⟨e, he, hchanged⟩
    rcases Nat.lt_trichotomy i before.length with hlt | heq | hgt
    · rw [List.getElem?_append_left hlt] at he
      cases hbefore _ (List.mem_of_getElem? he)
    · exact heq
    · -- an event of the same kind comes earlier
      exfalso
      have hmem : first ∈ ((before ++ some first :: after).take i).filterMap id := by
        rw [List.mem_filterMap]
        refine ⟨some first, ?_, rfl⟩
        rw [List.mem_iff_getElem?]
        exact ⟨before.length, by simp [hgt]⟩
      cases hlast : (((before ++ some first :: after).take i).filterMap id).getLast? with
      | none =>
        rw [List.getLast?_eq_none_iff.1 hlast] at hmem
        cases hmem
      | some q =>
        have hq : q.kind = .DP := by
          refine hkind q ?_
          obtain ⟨x, hx, hxq⟩ := List.mem_filterMap.1 (List.mem_of_getLast? hlast)
          exact List.mem_filterMap.2 ⟨x, List.mem_of_mem_take hx, hxq⟩
        have hek : e.kind = .DP :=
          hkind e (List.mem_filterMap.2 ⟨some e, List.mem_of_getElem? he, rfl⟩)
        rw [hlast] at hchanged
        simp [changed, hq, hek] at hchanged
  · rintro rfl
    refine ⟨first, by simp, ?_⟩
    have hnil : before.filterMap id = [] := by
      rw [List.filterMap_eq_nil_iff]
      exact hbefore
    rw [List.take_left, hnil]
    rfl

/-- With events of one kind, the last of them ends the only run. -/
theorem endsRun_iff {before after : List (Option Event)} {last : Event}
    (hafter : ∀ x ∈ after, x = none)
    (hkind : ∀ e ∈ (before ++ some last :: after).filterMap id, e.kind = .DP) (i : ℕ) :
    EndsRun (before ++ some last :: after) i ↔ i = before.length := by
  constructor
  · rintro ⟨e, he, hnext⟩
    rcases Nat.lt_trichotomy i before.length with hlt | heq | hgt
    · exfalso
      have hmem : last ∈ ((before ++ some last :: after).drop (i + 1)).filterMap id := by
        rw [List.mem_filterMap]
        refine ⟨some last, ?_, rfl⟩
        rw [List.drop_append_of_le_length (by omega)]
        simp
      cases hhead : (((before ++ some last :: after).drop (i + 1)).filterMap id).head? with
      | none =>
        rw [List.head?_eq_none_iff.1 hhead] at hmem
        cases hmem
      | some q =>
        have hq : q.kind = .DP := by
          refine hkind q ?_
          obtain ⟨x, hx, hxq⟩ := List.mem_filterMap.1 (List.mem_of_head? hhead)
          exact List.mem_filterMap.2 ⟨x, List.mem_of_mem_drop hx, hxq⟩
        have hek : e.kind = .DP :=
          hkind e (List.mem_filterMap.2 ⟨some e, List.mem_of_getElem? he, rfl⟩)
        exact hnext q hhead (hq.trans hek.symm)
    · exact heq
    · rw [List.getElem?_append_right (by omega)] at he
      obtain ⟨n, hn⟩ : ∃ n, i - before.length = n + 1 := ⟨i - before.length - 1, by omega⟩
      rw [hn, List.getElem?_cons_succ] at he
      cases hafter _ (List.mem_of_getElem? he)
  · rintro rfl
    refine ⟨last, by simp, ?_⟩
    intro e' he'
    have hnil : after.filterMap id = [] := by
      rw [List.filterMap_eq_nil_iff]
      exact hafter
    have hdrop : (before ++ some last :: after).drop (before.length + 1) = after := by simp
    rw [hdrop, hnil] at he'
    cases he'

/-- Beyond the last stage nothing is recognised. -/
theorem isCommChange_of_none {stage : ℕ} (h : sh.commStages[stage]? = none) (b cnt : ℕ) :
    isCommChangeBefore sh b cnt stage = false ∧ isCommChangeAfter sh b cnt stage = false := by
  simp [isCommChangeBefore, isCommChangeAfter, h]

/-- The replay of a single stage that ends with the collective `c`. -/
theorem replay_single {ks : ℕ → Counters} {pre post : List Coll} {c : Coll}
    (hlen : sh.commStages.length = 1)
    (hpre : ∀ key ∈ keysFrom sh ks pre, isCommChangeAfter sh key.1 key.2 0 = false)
    (hc : isCommChangeAfter sh c.backendId
      (c.count sh (countersAfter sh ks pre c.backendId)) 0 = true) :
    ∃ ks' out, replay sh (.between 0 ks) (pre ++ c :: post) = some (.between 1 ks', out) ∧
      ∀ (i : ℕ) (r : Replayed), out[i]? = some r →
        ∃ key, (keysFrom sh ks (pre ++ c :: post))[i]? = some key ∧
          (r.commChangeBefore = true ↔
            i ≤ pre.length ∧ isCommChangeBefore sh key.1 key.2 0 = true) ∧
          (r.commChangeAfter = true ↔ i = pre.length) ∧
          (r.commChangeAfterPost = true ↔ i = pre.length) := by
  obtain ⟨out₁, hout₁, hdec₁⟩ := replay_of_not_after 0 pre ks hpre
  obtain ⟨r, hr, hrb, hra, hrp, -⟩ :=
    replayColl_between 0 (countersAfter sh ks pre) c
  have hnone : sh.commStages[1]? = none := by simp [hlen]
  obtain ⟨out₂, hout₂, hdec₂⟩ := replay_of_not_after 1 post
    (advanceAt sh (countersAfter sh ks pre) c) fun key _ => (isCommChange_of_none hnone _ _).2
  rw [hc] at hr hra hrp
  refine ⟨countersAfter sh (advanceAt sh (countersAfter sh ks pre) c) post, out₁ ++ r :: out₂,
    ?_, ?_⟩
  · rw [replay_append, hout₁]
    simp only [Option.bind_some, replay, hr, if_true, Nat.zero_add, hout₂, Option.map_some]
  · intro i r' hr'
    have hlen₁ : out₁.length = pre.length := by rw [hdec₁.length_eq, keysFrom_length]
    rw [keysFrom_append]
    rcases Nat.lt_trichotomy i pre.length with hlt | heq | hgt
    · rw [List.getElem?_append_left (by omega)] at hr'
      rw [List.getElem?_append_left (by rw [keysFrom_length]; exact hlt)]
      obtain ⟨key, hkey, hb, ha, hp⟩ := hdec₁.getElem? hr'
      rw [hpre key (List.mem_of_getElem? hkey)] at ha hp
      exact ⟨key, hkey, by rw [hb]; simp [hlt.le], by simp [ha, hlt.ne], by simp [hp, hlt.ne]⟩
    · subst heq
      rw [List.getElem?_append_right (by omega), hlen₁] at hr'
      simp only [Nat.sub_self, List.getElem?_cons_zero, Option.some.injEq] at hr'
      subst hr'
      refine ⟨(c.backendId, c.count sh (countersAfter sh ks pre c.backendId)), ?_, ?_,
        by simp [hra], by simp [hrp]⟩
      · rw [List.getElem?_append_right (by simp), keysFrom_length, Nat.sub_self]
        rfl
      · rw [hrb]
        simp
    · obtain ⟨n, rfl⟩ : ∃ n, i = pre.length + (n + 1) := ⟨i - pre.length - 1, by omega⟩
      rw [List.getElem?_append_right (by omega), hlen₁, Nat.add_sub_cancel_left,
        List.getElem?_cons_succ] at hr'
      obtain ⟨key, hkey, hb, ha, hp⟩ := hdec₂.getElem? hr'
      obtain ⟨hb', ha'⟩ := isCommChange_of_none hnone key.1 key.2
      rw [hb'] at hb
      rw [ha'] at ha hp
      refine ⟨key, ?_, ?_, ?_, ?_⟩
      · rw [List.getElem?_append_right (by simp), keysFrom_length, Nat.add_sub_cancel_left]
        simpa [keysFrom] using hkey
      · simp only [hb, Bool.false_eq_true, false_iff]
        omega
      · simp only [ha, Bool.false_eq_true, false_iff]
        omega
      · simp only [hp, Bool.false_eq_true, false_iff]
        omega

/-- A trace of data events compiles to one line. -/
theorem legacyStages_of_dp {events init : List Event} {first last : Event}
    (hdp : ∀ e ∈ first :: events, e.kind = .DP) (hlast : first :: events = init ++ [last]) :
    (legacyStages (first :: events)).map (fun row =>
        (⟨row.1.backend, legacyCounter row.1, row.2.backend, legacyCounter row.2⟩ : CommStage)) =
      [⟨first.backend, first.counter, last.backend, last.counter⟩] := by
  have hl : events.getLastD first = last := by
    have := congrArg List.getLast? hlast
    rw [List.getLast?_cons, List.getLast?_concat] at this
    rw [← Option.some.inj this]
    simp [List.getLastD_eq_getLast?]
  have hfirst : first.kind = .DP := hdp first (by simp)
  have hlastdp : last.kind = .DP := hdp last (by simp [hlast])
  rw [legacyStages, legacyStagesFrom_of_kind fun e he => (hdp e (by simp [he])).trans hfirst.symm,
    hl]
  simp [legacyCounter, hfirst, hlastdp]

/-- The keys that a single line recognises. -/
theorem isCommChange_singleton {first last : ℕ × ℕ}
    (hst : sh.commStages = [⟨first.1, first.2, last.1, last.2⟩]) (hf : first.1 < hexIdMapSize)
    (hl : last.1 < hexIdMapSize) (key : ℕ × ℕ) :
    (isCommChangeBefore sh key.1 key.2 0 = true ↔ key = first) ∧
      (isCommChangeAfter sh key.1 key.2 0 = true ↔ key = last) := by
  have hf' : first.1 % PP_BACKEND_INTERVAL = first.1 :=
    Nat.mod_eq_of_lt (Nat.lt_trans hf (by decide))
  have hl' : last.1 % PP_BACKEND_INTERVAL = last.1 :=
    Nat.mod_eq_of_lt (Nat.lt_trans hl (by decide))
  simp [isCommChangeBefore, isCommChangeAfter, hst, hf', hl', Prod.ext_iff]

/-- Data events form one run, from the first event to the last. -/
theorem exists_run_bounds {entries : List (Option Event)} (hne : entries.filterMap id ≠ [])
    (hdp : ∀ e ∈ entries.filterMap id, e.kind = .DP) :
    ∃ (m n : ℕ) (first last : Event),
      entries[m]? = some (some first) ∧ entries[n]? = some (some last) ∧ m ≤ n ∧
      (∀ i, BeginsRun entries i ↔ i = m) ∧ (∀ i, EndsRun entries i ↔ i = n) ∧
      (legacyStages (entries.filterMap id)).map (fun row =>
          (⟨row.1.backend, legacyCounter row.1, row.2.backend, legacyCounter row.2⟩ :
            CommStage)) =
        [⟨first.backend, first.counter, last.backend, last.counter⟩] := by
  obtain ⟨first, events, htrace⟩ := List.exists_cons_of_ne_nil hne
  obtain ⟨front, x, back, hfront, hnone, hx, -⟩ := List.filterMap_eq_cons_iff.1 htrace
  obtain rfl : x = some first := hx
  obtain ⟨init, last, hinit⟩ :=
    (List.eq_nil_or_concat' (first :: events)).resolve_left (by simp)
  obtain ⟨l₁, l₂, hl, -, hl₂⟩ := List.filterMap_eq_append_iff.1 (htrace.trans hinit)
  obtain ⟨m₁, y, m₂, rfl, -, hy, hm₂⟩ := List.filterMap_eq_cons_iff.1 hl₂
  obtain rfl : y = some last := hy
  have hnone' : ∀ x ∈ m₂, x = none := List.filterMap_eq_nil_iff.1 hm₂
  rw [← List.append_assoc] at hl
  have hfirst : entries[front.length]? = some (some first) := by simp [hfront]
  have hlast : entries[(l₁ ++ m₁).length]? = some (some last) := by simp [hl]
  refine ⟨front.length, (l₁ ++ m₁).length, first, last, hfirst, hlast, ?_, ?_, ?_, ?_⟩
  · -- after the last event there is none
    by_contra hgt
    obtain ⟨n, hn⟩ : ∃ n, front.length - (l₁ ++ m₁).length = n + 1 :=
      ⟨front.length - (l₁ ++ m₁).length - 1, by omega⟩
    rw [hl, List.getElem?_append_right (by omega), hn, List.getElem?_cons_succ] at hfirst
    cases hnone' _ (List.mem_of_getElem? hfirst)
  · intro i
    have hbegins := beginsRun_iff hnone (by rw [← hfront]; exact hdp) i
    rwa [← hfront] at hbegins
  · intro i
    have hends := endsRun_iff hnone' (by rw [← hl]; exact hdp) i
    rwa [← hl] at hends
  · rw [htrace] at hdp ⊢
    exact legacyStages_of_dp hdp hinit

/-- Without events there is no stage, and nothing is recognised. -/
theorem roundTrip_of_trace_nil {iters : List ℕ} {cs : List Coll} {mode : Mode}
    (htrace : trace sh iters cs = []) : RoundTrip sh iters cs mode := by
  set sh' := sh.compiled iters cs mode with hsh'
  have hempty : sh'.commStages = [] := by
    rw [hsh', Shim.compiled, legacyCommStages, readEvents_trace, htrace]
    rfl
  have hnone : sh'.commStages[0]? = none := by simp [hempty]
  obtain ⟨out, hout, hdec⟩ := replay_of_not_after 0 (cs.filter (schedulable sh))
    noCounters fun key _ => (isCommChange_of_none hnone _ _).2
  have hno : ∀ (i : ℕ) (e : Event), (profile sh iters cs)[i]? ≠ some (some e) := by
    intro i e hi
    have hmem : e ∈ trace sh iters cs :=
      List.mem_filterMap.2 ⟨some e, List.mem_of_getElem? hi, rfl⟩
    rw [htrace] at hmem
    cases hmem
  refine ⟨_, out, hout, by simp [Process.between, ← hsh', hempty],
    by simp [Process.between, ← hsh', hempty], ?_⟩
  intro i r hr
  obtain ⟨key, -, hb, ha, hp⟩ := hdec.getElem? hr
  rw [(isCommChange_of_none hnone _ _).1] at hb
  rw [(isCommChange_of_none hnone _ _).2] at ha hp
  refine ⟨?_, ?_, ?_⟩
  · simpa [hb, BeginsRun] using fun e he => absurd he (hno i e)
  · simpa [ha, EndsRun] using fun e he => absurd he (hno i e)
  · simpa [hp, EndsRun] using fun e he => absurd he (hno i e)

theorem not_isPpBackend_of_dp {iters : List ℕ} {cs : List Coll} (ht : ∀ c ∈ cs, c.Typed sh)
    {i : ℕ} {e : Event} (hi : (profile sh iters cs)[i]? = some (some e)) (he : e.kind = .DP) :
    sh.isPpBackend e.backend = false := by
  have hkind := (profile_keys ht hi).2
  by_contra hne
  simp [hne, he] at hkind

/-- A trace of data events is one stage, which the replay recognises. -/
theorem roundTrip_of_dp {iters : List ℕ} {cs : List Coll} {mode : Mode}
    (ht : ∀ c ∈ cs, c.Typed sh) (hlt : ∀ c ∈ cs, c.backendId < hexIdMapSize)
    (hdp : ∀ e ∈ trace sh iters cs, e.kind = .DP) : RoundTrip sh iters cs mode := by
  by_cases hne : trace sh iters cs = []
  · exact roundTrip_of_trace_nil hne
  obtain ⟨m, n, first, last, hm, hn, hle, hbegins, hends, hline⟩ := exists_run_bounds hne hdp
  set sh' := sh.compiled iters cs mode with hsh'
  set scs := cs.filter (schedulable sh) with hscs
  have hkeys : ∀ ks ds, keysFrom sh' ks ds = keysFrom sh ks ds := fun ks ds =>
    keysFrom_congr sh' sh rfl ks ds
  have hstages : sh'.commStages = [⟨first.backend, first.counter, last.backend, last.counter⟩] := by
    rw [hsh', Shim.compiled, legacyCommStages, readEvents_trace]
    exact hline
  have htscs : ∀ c ∈ scs, c.Typed sh := fun c hc => ht c (List.mem_of_mem_filter hc)
  have hkm := (profile_keys ht hm).1
  have hkn := (profile_keys ht hn).1
  have hmpp := not_isPpBackend_of_dp ht hm
    (hdp first (List.mem_filterMap.2 ⟨_, List.mem_of_getElem? hm, rfl⟩))
  have hnpp := not_isPpBackend_of_dp ht hn
    (hdp last (List.mem_filterMap.2 ⟨_, List.mem_of_getElem? hn, rfl⟩))
  have hrec : ∀ key : ℕ × ℕ,
      (isCommChangeBefore sh' key.1 key.2 0 = true ↔ key = (first.backend, first.counter)) ∧
        (isCommChangeAfter sh' key.1 key.2 0 = true ↔ key = (last.backend, last.counter)) := by
    obtain ⟨cm, hcm, hbm⟩ := profile_backend ht hm
    obtain ⟨cn, hcn, hbn⟩ := profile_backend ht hn
    exact isCommChange_singleton hstages (hbm ▸ hlt cm hcm) (hbn ▸ hlt cn hcn)
  -- the collectives before the last event, that event's, and the rest
  obtain ⟨pre, c, post, hsplit, rfl⟩ : ∃ pre c post, scs = pre ++ c :: post ∧ pre.length = n := by
    have hnlt : n < scs.length := by
      rw [hscs, ← profileFrom_length iters cs noCounters 0]
      exact (List.getElem?_eq_some_iff.1 hn).1
    exact ⟨scs.take n, scs[n], scs.drop (n + 1),
      by rw [← List.drop_eq_getElem_cons hnlt, List.take_append_drop],
      List.length_take_of_le hnlt.le⟩
  have hpre : ∀ key ∈ keysFrom sh' noCounters pre,
      isCommChangeAfter sh' key.1 key.2 0 = false := by
    intro key hkey
    rw [Bool.eq_false_iff, Ne, (hrec key).2]
    rintro rfl
    rw [hkeys] at hkey
    obtain ⟨j, hj⟩ := List.mem_iff_getElem?.1 hkey
    have hjlt : j < pre.length := by
      simpa using (List.getElem?_eq_some_iff.1 hj).1
    have hj' : (keysFrom sh noCounters scs)[j]? = some (last.backend, last.counter) := by
      rw [hsplit, keysFrom_append, List.getElem?_append_left (by simpa using hjlt), hj]
    have := getElem?_keysFrom_inj htscs hnpp hj' hkn
    omega
  have hc : isCommChangeAfter sh' c.backendId
      (c.count sh' (countersAfter sh' noCounters pre c.backendId)) 0 = true := by
    refine (hrec (c.backendId, c.count sh' (countersAfter sh' noCounters pre c.backendId))).2.2 ?_
    rw [← hkeys, ← hscs, hsplit, keysFrom_append, List.getElem?_append_right (by simp),
      keysFrom_length, Nat.sub_self] at hkn
    exact Option.some.inj hkn
  obtain ⟨ks', out, hout, hflags⟩ := replay_single
    (by rw [hstages]; rfl) hpre hc
  rw [← hsplit] at hout hflags
  refine ⟨_, out, hout, by rw [hstages]; rfl, by rw [hstages]; rfl, ?_⟩
  intro i r hr
  obtain ⟨key, hkey, hb, ha, hp⟩ := hflags i r hr
  rw [hkeys] at hkey
  refine ⟨?_, ?_, ?_⟩
  · rw [hb, hbegins, (hrec key).1]
    constructor
    · rintro ⟨-, rfl⟩
      exact getElem?_keysFrom_inj htscs hmpp hkey hkm
    · rintro rfl
      exact ⟨hle, Option.some.inj (hkey.symm.trans hkm)⟩
  · rw [ha, hends]
  · rw [hp, hends]

/-- **The round trip through the legacy format succeeds exactly when no pipeline event was
recorded.** -/
theorem roundTrip_iff (iters : List ℕ) {cs : List Coll} (mode : Mode)
    (ht : ∀ c ∈ cs, c.Typed sh) (hlt : ∀ c ∈ cs, c.backendId < hexIdMapSize) :
    RoundTrip sh iters cs mode ↔ ∀ e ∈ trace sh iters cs, e.kind = .DP := by
  refine ⟨fun hrt e he => ?_, roundTrip_of_dp ht hlt⟩
  cases hk : e.kind with
  | DP => rfl
  | PP => exact absurd hrt (not_roundTrip_of_pp ht hlt he hk)

/-- A run with a collective on two data backends. -/
def dataColls : List Coll := [⟨1, 2, .collective⟩, ⟨1, 5, .collective⟩]

/-- A run with one transfer to the next rank. -/
def sendColls : List Coll := [⟨1, 1, .send 1⟩]

theorem roundTrip_dataColls : RoundTrip (pipelineShim 0) [1, 2, 3] dataColls .baseline :=
  (roundTrip_iff [1, 2, 3] .baseline
    (by simp [dataColls, Coll.Typed, Shim.isPpBackend, pipelineShim]) (by decide)).2 (by decide)

theorem typed_sendColls : ∀ c ∈ sendColls, c.Typed (pipelineShim 0) := by
  simp [sendColls, Coll.Typed, Shim.isPpBackend, pipelineShim, Op.IsTransfer]

theorem compiled_sendColls :
    (pipelineShim 0).compiled [1, 2, 3] sendColls .baseline =
      { pipelineShim 0 with commStages := [⟨1, 0, 1, 0⟩] } := by
  rw [Shim.compiled, legacyCommStages, readEvents_trace]
  rfl

/-- A single transfer is recorded with the counter 1000000, stored with the counter 0 and replayed
with the counter 1000000: its stage is never entered. -/
theorem not_roundTrip_sendColls :
    (trace (pipelineShim 0) [1, 2, 3] sendColls).map Event.counter = [1000000] ∧
      ((pipelineShim 0).compiled [1, 2, 3] sendColls .baseline).commStages = [⟨1, 0, 1, 0⟩] ∧
      (replay ((pipelineShim 0).compiled [1, 2, 3] sendColls .baseline) .initial sendColls).map
        (fun r => (r.1.curCommStageIdx, r.2.map Replayed.commChangeBefore)) =
          some (0, [false]) ∧
      ¬ RoundTrip (pipelineShim 0) [1, 2, 3] sendColls .baseline := by
  refine ⟨by decide, by rw [compiled_sendColls], by rw [compiled_sendColls]; decide, ?_⟩
  exact not_roundTrip_of_pp typed_sendColls (by decide)
    (e := ⟨1, 0, 1, 1000000, .PP, 11, 1000000⟩) (by decide) rfl

end Opus
