import Mathlib.Data.List.Find
import Opus.Schedule.Event

/-!
# Replaying a keyed schedule

In keyed mode a rank looks up every event it issues in the schedule compiled for it and sends
the request of the first row that the event triggers. In baseline mode every row is triggered
by its own target. In provision mode a row is triggered by the previous event of the same
iteration, so the first two boundaries of an iteration can share a trigger, and the look-up
returns only the first of the two rows.

## Main definitions

* `keyedSchedule`, `scheduledTransition`: the rows written for a rank and their look-up
* `requests`: the requests a rank sends when it replays its own trace
* `SharedTrigger`: an iteration starts with two boundaries

## Main results

* `firstRow_head`, `replay_cons`: which row an event triggers
* `requests_eq_iff`: the replay sends exactly the boundaries of the trace, in trace order, unless
  an iteration starts with two boundaries in provision mode
-/

namespace Opus

/-- A row of a schedule file. -/
structure ScheduleEntry where
  iteration : ℕ
  triggerBackend : ℕ
  triggerCounter : ℕ
  targetBackend : ℕ
  targetCounter : ℕ
  deriving DecidableEq, Repr

/-- The row written for a pair of trigger and target. -/
def scheduleEntry (row : Event × Event) : ScheduleEntry where
  iteration := row.2.iteration
  triggerBackend := row.1.backend
  triggerCounter := row.1.counter
  targetBackend := row.2.controllerBackend
  targetCounter := row.2.controllerCounter

/-- The schedule file of a rank with trace `events`. -/
def keyedSchedule (keys : List Key) (provision : Bool) (events : List Event) :
    List ScheduleEntry :=
  (synchronizedTransitions keys provision events).map scheduleEntry

/-- The target of the first row whose iteration, trigger backend and trigger counter match. -/
def scheduledTransition (replaySchedule : List ScheduleEntry) (iteration backend counter : ℕ) :
    Option (ℕ × ℕ) :=
  (replaySchedule.find? fun entry =>
    entry.iteration == iteration && entry.triggerBackend == backend &&
      entry.triggerCounter == counter).map fun entry => (entry.targetBackend, entry.targetCounter)

/-- The requests sent by a rank that replays `events` against `replaySchedule`. -/
def requests (replaySchedule : List ScheduleEntry) (events : List Event) : List (ℕ × ℕ) :=
  events.filterMap fun e => scheduledTransition replaySchedule e.iteration e.backend e.counter

/-- The events of `events` whose key is a boundary, as the requests they stand for. -/
def boundaryRequests (keys : List Key) (events : List Event) : List (ℕ × ℕ) :=
  (events.filter fun e => e.key ∈ keys).map Event.target

/-- An iteration of the trace starts with two boundaries: the first event of an iteration and its
successor in that iteration both have boundary keys. -/
def SharedTrigger (keys : List Key) (events : List Event) : Prop :=
  ∃ pre e e' post, events = pre ++ e :: e' :: post ∧
    (∀ p ∈ pre.getLast?, p.iteration ≠ e.iteration) ∧ e'.iteration = e.iteration ∧
    e.key ∈ keys ∧ e'.key ∈ keys

/-! ## The row an event triggers -/

/-- The first row triggered by the event `e`. -/
def firstRow (rows : List (Event × Event)) (e : Event) : Option (Event × Event) :=
  rows.find? fun row => row.1.key = e.key

theorem scheduledTransition_map {rows : List (Event × Event)}
    (h : ∀ row ∈ rows, row.1.iteration = row.2.iteration) (e : Event) :
    scheduledTransition (rows.map scheduleEntry) e.iteration e.backend e.counter =
      (firstRow rows e).map fun row => row.2.target := by
  rw [scheduledTransition, firstRow, List.find?_map, Option.map_map]
  have hfind : rows.find? ((fun entry : ScheduleEntry => entry.iteration == e.iteration &&
      entry.triggerBackend == e.backend && entry.triggerCounter == e.counter) ∘ scheduleEntry) =
      rows.find? fun row => row.1.key = e.key := by
    refine List.find?_congr fun row hrow => ?_
    rw [Bool.eq_iff_iff]
    simp [scheduleEntry, Event.key, ← h row hrow, and_assoc]
  rw [hfind]
  rfl

variable {keys : List Key} {provision : Bool} {previous : Option Event} {e e' : Event}
  {events es : List Event}

/-- The keys of the previous event and of the events still to come are distinct. -/
def Fresh (previous : Option Event) (events : List Event) : Prop :=
  ((previous.toList ++ events).map Event.key).Nodup

theorem Fresh.tail (h : Fresh previous (e :: es)) : Fresh (some e) es := by
  refine h.sublist (List.Sublist.map _ ?_)
  simp only [Option.toList_some, List.singleton_append]
  exact List.sublist_append_right _ _

theorem Fresh.key_ne (h : Fresh previous (e :: es)) {x t : Event} (hx : x ∈ es)
    (ht : t = e ∨ previous = some t) : t.key ≠ x.key := by
  unfold Fresh at h
  rcases ht with rfl | rfl
  · have htail := h.tail
    simp only [List.map_append, List.map_cons, List.nodup_append, List.nodup_cons] at h
    exact fun heq => h.2.1.1 (heq ▸ List.mem_map_of_mem hx)
  · simp only [Option.toList_some, List.singleton_append, List.map_cons, List.nodup_cons,
      List.mem_cons, not_or] at h
    exact fun heq => h.1.2 (heq ▸ List.mem_map_of_mem hx)

theorem Fresh.ne (h : Fresh (some e) (e' :: es)) : e ≠ e' := by
  rintro rfl
  simp [Fresh] at h

/-- Events after the first do not trigger the row of the first. -/
theorem firstRow_of_mem_tail (h : Fresh previous (e :: es)) {x : Event} (hx : x ∈ es) :
    firstRow (synchronizedTransitionsFrom keys provision previous (e :: es)) x =
      firstRow (synchronizedTransitionsFrom keys provision (some e) es) x := by
  simp only [synchronizedTransitionsFrom]
  split
  · have hne := h.key_ne hx (trigger_mem provision previous e)
    simp [firstRow, hne]
  · rfl

/-- The row of `e` is triggered by `e` itself. -/
def SelfTriggered (keys : List Key) (provision : Bool) (previous : Option Event) (e : Event) :
    Prop :=
  e.key ∈ keys ∧ trigger provision previous e = e

/-- The row of `e'` is triggered by its predecessor `e`. -/
def Provisioned (keys : List Key) (provision : Bool) (e e' : Event) : Prop :=
  e'.key ∈ keys ∧ trigger provision (some e) e' = e

instance : Decidable (SelfTriggered keys provision previous e) :=
  inferInstanceAs (Decidable (_ ∧ _))

instance : Decidable (Provisioned keys provision e e') :=
  inferInstanceAs (Decidable (_ ∧ _))

/-- An event triggers its own row, or else the row of its successor. -/
theorem firstRow_head (h : Fresh previous (e :: es)) :
    firstRow (synchronizedTransitionsFrom keys provision previous (e :: es)) e =
      if SelfTriggered keys provision previous e then some (e, e)
      else (es.head?.filter fun e' => Provisioned keys provision e e').map fun e' => (e, e') := by
  have hnext : firstRow (synchronizedTransitionsFrom keys provision (some e) es) e =
      (es.head?.filter fun e' => Provisioned keys provision e e').map fun e' => (e, e') := by
    cases es with
    | nil => rfl
    | cons e' es =>
      have hlater : firstRow (synchronizedTransitionsFrom keys provision (some e') es) e =
          none := by
        rw [firstRow, List.find?_eq_none]
        intro row hrow
        have hmem : row.1 ∈ e' :: es := by
          rcases (synchronizedTransitionsFrom_mem hrow).1 with heq | hmem
          · exact Option.some.inj heq ▸ List.mem_cons_self
          · exact List.mem_cons_of_mem e' hmem
        simpa using (h.key_ne hmem (.inl rfl)).symm
      simp only [synchronizedTransitionsFrom]
      by_cases hkey : e'.key ∈ keys
      · rcases trigger_mem provision (some e) e' with hself | hprev
        · have hne : e'.key ≠ e.key := (h.key_ne List.mem_cons_self (.inl rfl)).symm
          have hne' : e' ≠ e := fun heq => hne (congrArg Event.key heq)
          have hskip : firstRow
              ((e', e') :: synchronizedTransitionsFrom keys provision (some e') es) e = none := by
            rw [← hlater]
            simp [firstRow, hne]
          simp [hkey, hself, Provisioned, hne', hskip]
        · have htrig : trigger provision (some e) e' = e := (Option.some.inj hprev).symm
          simp [hkey, htrig, Provisioned, firstRow]
      · simpa [hkey, Provisioned, Option.filter_some] using hlater
  by_cases hkey : e.key ∈ keys
  · rcases trigger_mem provision previous e with hself | hprev
    · simp [synchronizedTransitionsFrom, hkey, hself, SelfTriggered, firstRow]
    · have hne : trigger provision previous e ≠ e := (hprev ▸ h : Fresh (some _) _).ne
      have hne' : (trigger provision previous e).key ≠ e.key := by
        intro heq
        rw [Fresh, hprev] at h
        simp [heq] at h
      rw [if_neg fun hs => hne hs.2, ← hnext]
      simp [synchronizedTransitionsFrom, hkey, firstRow, hne']
  · rw [if_neg fun hs => hkey hs.1, ← hnext]
    simp [synchronizedTransitionsFrom, hkey]

/-- The row that an event in the middle of a trace triggers. -/
theorem firstRow_of_split (keys : List Key) (provision : Bool) (pre : List Event)
    (h : Fresh previous (pre ++ e :: es)) :
    firstRow (synchronizedTransitionsFrom keys provision previous (pre ++ e :: es)) e =
      if SelfTriggered keys provision (pre.getLast?.or previous) e then some (e, e)
      else (es.head?.filter fun e' => Provisioned keys provision e e').map fun e' => (e, e') := by
  induction pre generalizing previous with
  | nil => exact firstRow_head h
  | cons p pre ih =>
    have hlast : (p :: pre).getLast?.or previous = pre.getLast?.or (some p) := by
      cases hp : pre.getLast? <;> simp [List.getLast?_cons, hp]
    have hmem : e ∈ pre ++ e :: es := by simp
    rw [List.cons_append] at h ⊢
    rw [firstRow_of_mem_tail h hmem, ih h.tail, hlast]

/-- The rows triggered along a trace: those of the first event, then those of the rest. -/
theorem replay_cons (h : Fresh previous (e :: es)) :
    (e :: es).filterMap (firstRow (synchronizedTransitionsFrom keys provision previous (e :: es))) =
      (if SelfTriggered keys provision previous e then some (e, e)
        else (es.head?.filter fun e' => Provisioned keys provision e e').map
          fun e' => (e, e')).toList ++
      es.filterMap (firstRow (synchronizedTransitionsFrom keys provision (some e) es)) := by
  rw [List.filterMap_cons, firstRow_head h,
    List.filterMap_congr fun x hx => firstRow_of_mem_tail h hx]
  split <;> simp_all

/-! ## The requests of a replay -/

/-- The targets of the rows triggered along the events after `previous`. -/
def sentTargets (keys : List Key) (provision : Bool) (previous : Option Event)
    (events : List Event) : List Event :=
  (events.filterMap (firstRow (synchronizedTransitionsFrom keys provision previous events))).map
    Prod.snd

theorem requests_keyedSchedule (keys : List Key) (provision : Bool) (events : List Event) :
    requests (keyedSchedule keys provision events) events =
      (sentTargets keys provision none events).map Event.target := by
  have hlookup : ∀ e : Event, scheduledTransition (keyedSchedule keys provision events)
      e.iteration e.backend e.counter =
      (firstRow (synchronizedTransitions keys provision events) e).map fun row => row.2.target :=
    scheduledTransition_map fun row hrow => (synchronizedTransitionsFrom_mem hrow).2.2.2
  simp only [requests, hlookup, sentTargets, synchronizedTransitions, List.map_filterMap,
    Option.map_map]
  rfl

/-- A self-triggered event whose successor is provisioned by it. -/
def Collision (keys : List Key) (provision : Bool) : Option Event → List Event → Prop
  | previous, e :: e' :: es =>
    (SelfTriggered keys provision previous e ∧ Provisioned keys provision e e') ∨
      Collision keys provision (some e) (e' :: es)
  | _, _ => False

/-- The boundaries whose rows are triggered from `e` on: that of `e` only when `e` triggers it. -/
def pending (keys : List Key) (provision : Bool) (previous : Option Event) (e : Event)
    (es : List Event) : List Event :=
  (if SelfTriggered keys provision previous e then e :: es else es).filter fun x => x.key ∈ keys

theorem pending_of_selfTriggered (hs : SelfTriggered keys provision previous e) :
    pending keys provision previous e es = e :: es.filter fun x => x.key ∈ keys := by
  simp [pending, hs, hs.1]

theorem pending_of_not_selfTriggered (hs : ¬ SelfTriggered keys provision previous e) :
    pending keys provision previous e es = es.filter fun x => x.key ∈ keys := by
  simp [pending, hs]

/-- A boundary is triggered either by its predecessor or by itself. -/
theorem filter_eq_append_pending (keys : List Key) (provision : Bool)
    (h : Fresh (some e) (e' :: es)) :
    ((e' :: es).filter fun x => x.key ∈ keys) =
      (if Provisioned keys provision e e' then [e'] else []) ++
        pending keys provision (some e) e' es := by
  have hne : e ≠ e' := h.ne
  by_cases hkey : e'.key ∈ keys
  · rcases trigger_mem provision (some e) e' with hself | hprev
    · simp [pending, Provisioned, SelfTriggered, hkey, hself, hne.symm]
    · have htrig : trigger provision (some e) e' = e := (Option.some.inj hprev).symm
      simp [pending, Provisioned, SelfTriggered, hkey, htrig, hne]
  · simp [pending, Provisioned, SelfTriggered, hkey]

theorem sentTargets_cons_cons (h : Fresh previous (e :: e' :: es)) :
    sentTargets keys provision previous (e :: e' :: es) =
      (if SelfTriggered keys provision previous e then [e]
        else if Provisioned keys provision e e' then [e'] else []) ++
      sentTargets keys provision (some e) (e' :: es) := by
  rw [sentTargets, replay_cons h, List.map_append, sentTargets]
  by_cases hs : SelfTriggered keys provision previous e
  · simp [hs]
  · by_cases hp : Provisioned keys provision e e' <;> simp [hs, hp, Option.filter_some]

theorem sentTargets_singleton (h : Fresh previous [e]) :
    sentTargets keys provision previous [e] = pending keys provision previous e [] := by
  rw [sentTargets, replay_cons h]
  by_cases hs : SelfTriggered keys provision previous e
  · simp [hs, pending, hs.1]
  · simp [hs, pending]

/-- Without a collision every boundary is sent, in trace order. -/
theorem sentTargets_of_not_collision (h : Fresh previous (e :: es))
    (hc : ¬ Collision keys provision previous (e :: es)) :
    sentTargets keys provision previous (e :: es) = pending keys provision previous e es := by
  induction es generalizing previous e with
  | nil => exact sentTargets_singleton h
  | cons e' es ih =>
    simp only [Collision, not_or, not_and] at hc
    have hfilter := filter_eq_append_pending keys provision h.tail
    rw [sentTargets_cons_cons h, ih h.tail hc.2]
    by_cases hs : SelfTriggered keys provision previous e
    · rw [if_neg (hc.1 hs), List.nil_append] at hfilter
      rw [if_pos hs, pending_of_selfTriggered hs, hfilter]
      rfl
    · rw [if_neg hs, pending_of_not_selfTriggered hs, hfilter]

theorem length_sentTargets_le (keys : List Key) (provision : Bool)
    (h : Fresh previous (e :: es)) :
    (sentTargets keys provision previous (e :: es)).length ≤
      (pending keys provision previous e es).length := by
  induction es generalizing previous e with
  | nil => rw [sentTargets_singleton h]
  | cons e' es ih =>
    have hfilter := congrArg List.length
      (filter_eq_append_pending keys provision h.tail)
    have hrest := ih h.tail
    rw [sentTargets_cons_cons h]
    by_cases hs : SelfTriggered keys provision previous e
    · rw [pending_of_selfTriggered hs, if_pos hs]
      simp only [List.length_append, List.length_cons, List.length_nil] at hfilter ⊢
      omega
    · rw [pending_of_not_selfTriggered hs, if_neg hs]
      simp only [List.length_append] at hfilter ⊢
      omega

/-- A collision loses a request. -/
theorem length_sentTargets_lt (h : Fresh previous (e :: es))
    (hc : Collision keys provision previous (e :: es)) :
    (sentTargets keys provision previous (e :: es)).length <
      (pending keys provision previous e es).length := by
  induction es generalizing previous e with
  | nil => simp [Collision] at hc
  | cons e' es ih =>
    have hfilter := congrArg List.length
      (filter_eq_append_pending keys provision h.tail)
    have hle := length_sentTargets_le keys provision h.tail
    rw [sentTargets_cons_cons h]
    rcases hc with ⟨hs, hp⟩ | hc
    · rw [pending_of_selfTriggered hs, if_pos hs]
      simp only [hp, if_true, List.length_append, List.length_cons, List.length_nil] at hfilter ⊢
      omega
    · have hrest := ih h.tail hc
      by_cases hs : SelfTriggered keys provision previous e
      · rw [pending_of_selfTriggered hs, if_pos hs]
        simp only [List.length_append, List.length_cons, List.length_nil] at hfilter ⊢
        omega
      · rw [pending_of_not_selfTriggered hs, if_neg hs]
        simp only [List.length_append] at hfilter ⊢
        omega

/-- Collisions are the iterations that start with two boundaries, in provision mode. -/
theorem collision_iff (keys : List Key) (provision : Bool) (h : Fresh previous events) :
    Collision keys provision previous events ↔ provision = true ∧
      ∃ pre e e' post, events = pre ++ e :: e' :: post ∧
        (∀ p ∈ pre.getLast?.or previous, p.iteration ≠ e.iteration) ∧
        e'.iteration = e.iteration ∧ e.key ∈ keys ∧ e'.key ∈ keys := by
  induction events generalizing previous with
  | nil => simp [Collision]
  | cons e es ih =>
    cases es with
    | nil =>
      simp only [Collision, false_iff, not_and, not_exists]
      rintro - pre a b post hsplit
      have hlen := congrArg List.length hsplit
      simp only [List.length_append, List.length_cons, List.length_nil] at hlen
      omega
    | cons e' es =>
      have hpair : (SelfTriggered keys provision previous e ∧ Provisioned keys provision e e') ↔
          provision = true ∧ (∀ p ∈ previous, p.iteration ≠ e.iteration) ∧
            e'.iteration = e.iteration ∧ e.key ∈ keys ∧ e'.key ∈ keys := by
        have hne : e ≠ e' := h.tail.ne
        cases provision with
        | false => simp [Provisioned, hne.symm]
        | true =>
          have hprev : trigger true previous e = e ↔
              ∀ p ∈ previous, p.iteration ≠ e.iteration := by
            cases previous with
            | none => simp
            | some p =>
              have hpe : p ≠ e := h.ne
              rw [trigger_provision]
              by_cases hi : p.iteration = e.iteration <;> simp [hi, hpe]
          have hnext : trigger true (some e) e' = e ↔ e'.iteration = e.iteration := by
            rw [trigger_provision]
            by_cases hi : e.iteration = e'.iteration
            · simp [hi]
            · simp [hi, Ne.symm hi, hne.symm]
          simp only [SelfTriggered, Provisioned, hprev, hnext]
          tauto
      simp only [Collision, hpair, ih h.tail]
      constructor
      · rintro (⟨hp, hi⟩ | ⟨hp, pre, a, b, post, hsplit, ha, hrest⟩)
        · exact ⟨hp, [], e, e', es, rfl, by simpa using hi⟩
        · refine ⟨hp, e :: pre, a, b, post, by rw [hsplit]; rfl, ?_, hrest⟩
          cases hl : pre.getLast? <;> simp_all [List.getLast?_cons]
      · rintro ⟨hp, pre, a, b, post, hsplit, ha, hrest⟩
        cases pre with
        | nil =>
          obtain ⟨rfl, hes⟩ := List.cons.inj hsplit
          obtain ⟨rfl, rfl⟩ := List.cons.inj hes
          exact .inl ⟨hp, by simpa using ha, hrest⟩
        | cons p pre =>
          obtain ⟨rfl, hes⟩ := List.cons.inj hsplit
          refine .inr ⟨hp, pre, a, b, post, hes, ?_, hrest⟩
          cases hl : pre.getLast? <;> simp_all [List.getLast?_cons]

theorem pending_none (keys : List Key) (provision : Bool) (e : Event) (es : List Event) :
    pending keys provision none e es = (e :: es).filter fun x => x.key ∈ keys := by
  by_cases hkey : e.key ∈ keys <;> simp [pending, SelfTriggered, hkey]

/-- A trace in which no two rows share a trigger is replayed completely. -/
theorem requests_of_not_sharedTrigger (hkeys : (events.map Event.key).Nodup)
    (hshared : ¬ (provision = true ∧ SharedTrigger keys events)) :
    requests (keyedSchedule keys provision events) events = boundaryRequests keys events := by
  rw [requests_keyedSchedule, boundaryRequests]
  cases events with
  | nil => rfl
  | cons e es =>
    have h : Fresh none (e :: es) := by simpa [Fresh] using hkeys
    have hcollision := collision_iff keys provision h
    simp only [Option.or_none] at hcollision
    rw [SharedTrigger, ← hcollision] at hshared
    rw [sentTargets_of_not_collision h hshared, pending_none]

/-- **No transition is lost**, exactly when no iteration starts with two boundaries in provision
mode: the requests of the replay are the boundaries of the trace, each once, in trace order. -/
theorem requests_eq_iff (allEvents : List (List Event)) (provision : Bool) (events : List Event)
    (hkeys : (events.map Event.key).Nodup) :
    requests (keyedSchedule (transitionKeys allEvents) provision events) events =
        boundaryRequests (transitionKeys allEvents) events ↔
      ¬ (provision = true ∧ SharedTrigger (transitionKeys allEvents) events) := by
  refine ⟨fun heq hshared => ?_, requests_of_not_sharedTrigger hkeys⟩
  rw [requests_keyedSchedule, boundaryRequests] at heq
  cases events with
  | nil => simp [SharedTrigger] at hshared
  | cons e es =>
    have h : Fresh none (e :: es) := by simpa [Fresh] using hkeys
    have hcollision := collision_iff (transitionKeys allEvents) provision h
    simp only [Option.or_none] at hcollision
    rw [SharedTrigger, ← hcollision] at hshared
    have hlt := length_sentTargets_lt h hshared
    have hlen := congrArg List.length heq
    simp only [List.length_map, ← pending_none _ provision] at hlen
    omega

/-- A rank whose first iteration starts with one pipeline transfer and goes on with one
data-parallel collective. -/
def pipelineThenData : List Event :=
  [⟨1, 0, 1, 1000000, .PP, 11, 1000000⟩, ⟨1, 1, 5, 0, .DP, 5, 0⟩]

theorem requests_eq_iff_pipelineThenData : (pipelineThenData.map Event.key).Nodup ∧
    requests (keyedSchedule (transitionKeys [pipelineThenData]) false pipelineThenData)
      pipelineThenData = [(11, 1000000), (5, 0)] :=
  ⟨by decide, (requests_eq_iff [pipelineThenData] false pipelineThenData (by decide)).mpr
    fun h => Bool.false_ne_true h.1⟩

/-- In provision mode both rows of `pipelineThenData` are triggered by its first event, so the
request for the data-parallel collective is never sent. -/
theorem requests_pipelineThenData_lost : (pipelineThenData.map Event.key).Nodup ∧
    requests (keyedSchedule (transitionKeys [pipelineThenData]) true pipelineThenData)
      pipelineThenData ≠ boundaryRequests (transitionKeys [pipelineThenData]) pipelineThenData := by
  decide

end Opus
