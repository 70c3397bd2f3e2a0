import Opus.Library.Agenda
import Opus.Library.Run
import Opus.Simulation.WakeUp

/-!
# The event queue

The queue of the simulator is a list of event lists, one for each time. `proceed` takes the front
list out of the queue and invokes its events one after the other; an invoked event can schedule
others, also for the current time. Those go into a new list for the current time, because the list
that is being invoked is a copy.

## Main definitions

* `EventList`, `EventQueue`: the state of `EventList.cpp` and `EventQueue.cpp`
* `queueStep`: an event is scheduled, the front list is taken, or its next event is invoked
* `EventQueue.pending`: the events that are waiting, in the order of the lists

## Main results

* `pending_scheduleEvent`: scheduling an event is an insertion into the flat queue
* `queueStep_inv`: the invariant of the queue
* `invoked_append_pending`: the events are invoked in the order of their times, and at each time in
  the order in which they were scheduled
-/

namespace Opus.Simulation

/-! ## The lists -/

structure EventList (α : Type) where
  eventTime : ℕ
  events : List α
  deriving DecidableEq, Repr

/-- The queue, what is left of the list that is being invoked, and as a record the events that have
been scheduled and those that have been invoked. -/
structure EventQueue (α : Type) where
  currentTime : ℕ
  eventQueue : List (EventList α)
  currentEventList : List α
  scheduled : List (ℕ × α)
  invoked : List (ℕ × α)
  deriving DecidableEq, Repr

variable {α : Type}

/-- The entry for a time is found, or it is inserted in front of the first later one; the event goes
to the end of its list. -/
def addEvent (time : ℕ) (event : α) : List (EventList α) → List (EventList α)
  | [] => [⟨time, [event]⟩]
  | l :: ls =>
    if l.eventTime < time then l :: addEvent time event ls
    else if time < l.eventTime then ⟨time, [event]⟩ :: l :: ls
    else { l with events := l.events ++ [event] } :: ls

namespace EventQueue

def initial : EventQueue α := ⟨0, [], [], [], []⟩

/-- `EventQueue::schedule_event`. -/
def scheduleEvent (q : EventQueue α) (time : ℕ) (event : α) : EventQueue α :=
  { q with
    eventQueue := addEvent time event q.eventQueue
    scheduled := q.scheduled ++ [(time, event)] }

/-- `EventQueue::finished`. -/
def finished (q : EventQueue α) : Bool := q.eventQueue.isEmpty

end EventQueue

/-- What happens to the queue. -/
inductive QueueAct (α : Type) where
  /-- a callback or the caller of the loop schedules an event -/
  | schedule (time : ℕ) (event : α)
  /-- `proceed` takes the front list -/
  | proceed
  /-- the next event of that list is invoked -/
  | invoke
  deriving DecidableEq, Repr

/-- One step. No event is scheduled for the past, and `proceed` is not called inside a callback. -/
def queueStep (q : EventQueue α) : QueueAct α → Option (EventQueue α)
  | .schedule time event => if q.currentTime ≤ time then some (q.scheduleEvent time event) else none
  | .proceed =>
    match q.currentEventList, q.eventQueue with
    | [], l :: ls =>
      some { q with currentTime := l.eventTime, eventQueue := ls, currentEventList := l.events }
    | _, _ => none
  | .invoke =>
    match q.currentEventList with
    | [] => none
    | event :: events =>
      some { q with
        currentEventList := events
        invoked := q.invoked ++ [(q.currentTime, event)] }

/-! ## The flat queue -/

/-- The events of lists, with their times. -/
def flatten (lists : List (EventList α)) : List (ℕ × α) :=
  lists.flatMap fun l => l.events.map fun event => (l.eventTime, event)

/-- The events that are waiting. -/
def EventQueue.pending (q : EventQueue α) : List (ℕ × α) :=
  q.currentEventList.map (fun event => (q.currentTime, event)) ++ flatten q.eventQueue

theorem eventTime_of_mem_flatten {lists : List (EventList α)} {e : ℕ × α} (h : e ∈ flatten lists) :
    ∃ l ∈ lists, e.1 = l.eventTime := by
  obtain ⟨l, hl, he⟩ := List.mem_flatMap.mp h
  obtain ⟨event, -, rfl⟩ := List.mem_map.mp he
  exact ⟨l, hl, rfl⟩

theorem flatten_addEvent {lists : List (EventList α)}
    (h : lists.Pairwise fun l l' => l.eventTime < l'.eventTime) (time : ℕ) (event : α) :
    flatten (addEvent time event lists) = Agenda.insert (flatten lists) time event := by
  induction lists with
  | nil => rfl
  | cons l ls ih =>
    obtain ⟨hl, hls⟩ := List.pairwise_cons.mp h
    have hfront : ∀ time', l.eventTime ≤ time' →
        ∀ e ∈ l.events.map (fun event => (l.eventTime, event)), e.1 ≤ time' := by
      intro time' hle e he
      obtain ⟨event, -, rfl⟩ := List.mem_map.mp he
      exact hle
    have hcons : ∀ (l : EventList α) ls, flatten (l :: ls) =
        l.events.map (fun event => (l.eventTime, event)) ++ flatten ls := fun _ _ => rfl
    rw [addEvent]
    split
    · next hlt => rw [hcons, hcons, ih hls, Agenda.insert_append (hfront time hlt.le)]
    · split
      · next hlt =>
        rw [hcons, Agenda.insert_of_lt]
        · rfl
        · intro e he
          obtain ⟨l', hl', htime⟩ := eventTime_of_mem_flatten he
          rcases List.mem_cons.mp hl' with rfl | hl'
          · exact htime ▸ hlt
          · exact htime ▸ hlt.trans (hl l' hl')
      · next hge hle =>
        obtain rfl : l.eventTime = time := by omega
        rw [hcons, hcons, Agenda.insert_append (hfront _ le_rfl), Agenda.insert_of_lt]
        · simp
        · intro e he
          obtain ⟨l', hl', htime⟩ := eventTime_of_mem_flatten he
          exact htime ▸ hl l' hl'

/-! ## The invariant -/

/-- The lists are in the order of their times and not empty, nothing waits for the past, and the
events invoked and waiting are those scheduled in the order of an agenda. -/
structure EventQueue.Inv (q : EventQueue α) : Prop where
  times : q.eventQueue.Pairwise fun l l' => l.eventTime < l'.eventTime
  nonempty : ∀ l ∈ q.eventQueue, l.events ≠ []
  future : ∀ l ∈ q.eventQueue, q.currentTime ≤ l.eventTime
  past : ∀ e ∈ q.invoked, e.1 ≤ q.currentTime
  sorts : Agenda.Sorts (q.invoked ++ q.pending) q.scheduled

/-- A list after an event has been added: a list that was there, perhaps with the event at its end,
or a new one. -/
theorem mem_addEvent {time : ℕ} {event : α} {lists : List (EventList α)} {l : EventList α}
    (h : l ∈ addEvent time event lists) :
    l ∈ lists ∨ (l.eventTime = time ∧ l.events ≠ []) := by
  induction lists with
  | nil =>
    rw [List.mem_singleton.mp h]
    exact .inr ⟨rfl, by simp⟩
  | cons l' ls ih =>
    rw [addEvent] at h
    split at h
    · rcases List.mem_cons.mp h with rfl | h
      · exact .inl List.mem_cons_self
      · exact (ih h).imp_left (List.mem_cons_of_mem l')
    · split at h
      · rcases List.mem_cons.mp h with rfl | h
        · exact .inr ⟨rfl, by simp⟩
        · exact .inl h
      · rcases List.mem_cons.mp h with rfl | h
        · exact .inr ⟨show l'.eventTime = time by omega, by simp⟩
        · exact .inl (List.mem_cons_of_mem l' h)

/-- The lists stay in the order of their times. -/
theorem pairwise_addEvent {lists : List (EventList α)}
    (h : lists.Pairwise fun l l' => l.eventTime < l'.eventTime) (time : ℕ) (event : α) :
    (addEvent time event lists).Pairwise fun l l' => l.eventTime < l'.eventTime := by
  induction lists with
  | nil => exact List.pairwise_singleton _ _
  | cons l ls ih =>
    obtain ⟨hl, hls⟩ := List.pairwise_cons.mp h
    rw [addEvent]
    split
    · next hlt =>
      refine List.pairwise_cons.mpr ⟨fun l' hl' => ?_, ih hls⟩
      rcases mem_addEvent hl' with hl' | ⟨htime, -⟩
      · exact hl l' hl'
      · exact htime ▸ hlt
    · split
      · next hlt =>
        refine List.pairwise_cons.mpr ⟨fun l' hl' => ?_, h⟩
        rcases List.mem_cons.mp hl' with rfl | hl'
        · exact hlt
        · exact hlt.trans (hl l' hl')
      · exact List.pairwise_cons.mpr ⟨hl, hls⟩

variable {q q' : EventQueue α}

theorem EventQueue.inv_initial : (initial : EventQueue α).Inv where
  times := List.Pairwise.nil
  nonempty := by simp [initial]
  future := by simp [initial]
  past := by simp [initial]
  sorts := ⟨List.Pairwise.nil, fun _ => rfl⟩

/-- Nothing waits for the past. -/
theorem EventQueue.Inv.le_of_mem_pending (h : q.Inv) {e : ℕ × α} (he : e ∈ q.pending) :
    q.currentTime ≤ e.1 := by
  rcases List.mem_append.mp he with he | he
  · obtain ⟨event, -, rfl⟩ := List.mem_map.mp he
    exact le_rfl
  · obtain ⟨l, hl, htime⟩ := eventTime_of_mem_flatten he
    exact htime ▸ h.future l hl

/-- **Scheduling is an insertion into the flat queue.** -/
theorem pending_scheduleEvent (h : q.Inv) {time : ℕ} (hle : q.currentTime ≤ time) (event : α) :
    (q.scheduleEvent time event).pending = Agenda.insert q.pending time event := by
  rw [EventQueue.pending, EventQueue.pending, Agenda.insert_append, ← flatten_addEvent h.times]
  · rfl
  · intro e he
    obtain ⟨event, -, rfl⟩ := List.mem_map.mp he
    exact hle

/-- **A step keeps the invariant.** -/
theorem queueStep_inv {act : QueueAct α} (h : q.Inv) (hs : queueStep q act = some q') : q'.Inv := by
  cases act with
  | schedule time event =>
    simp only [queueStep] at hs
    split at hs
    · next hle =>
      cases hs
      refine ⟨pairwise_addEvent h.times time event, fun l hl => ?_, fun l hl => ?_, h.past, ?_⟩
      · exact (mem_addEvent hl).elim (h.nonempty l) And.right
      · rcases mem_addEvent hl with hl | ⟨htime, -⟩
        · exact h.future l hl
        · exact htime ▸ hle
      · -- the events invoked are not later, so the insertion is one into the whole history
        have hpast : ∀ e ∈ q.invoked, e.1 ≤ time := fun e he => (h.past e he).trans hle
        have hsorts := h.sorts.insert time event
        rw [Agenda.insert_append hpast, ← pending_scheduleEvent h hle] at hsorts
        exact hsorts
    · cases hs
  | proceed =>
    obtain ⟨now, queue, current, scheduled, invoked⟩ := q
    cases current with
    | cons event events => simp [queueStep] at hs
    | nil =>
      cases queue with
      | nil => simp [queueStep] at hs
      | cons l ls =>
        cases hs
        obtain ⟨hl, hls⟩ := List.pairwise_cons.mp h.times
        obtain ⟨hnow, -⟩ := List.forall_mem_cons.mp h.future
        refine ⟨hls, fun l' hl' => h.nonempty l' (List.mem_cons_of_mem l hl'),
          fun l' hl' => (hl l' hl').le, fun e he => (h.past e he).trans hnow, h.sorts⟩
  | invoke =>
    obtain ⟨now, queue, current, scheduled, invoked⟩ := q
    cases current with
    | nil => simp [queueStep] at hs
    | cons event events =>
      cases hs
      refine ⟨h.times, h.nonempty, h.future, fun e he => ?_, ?_⟩
      · rcases List.mem_append.mp he with he | he
        · exact h.past e he
        · rw [List.mem_singleton.mp he]
      · have hsorts := h.sorts
        simp only [EventQueue.pending, List.map_cons, List.cons_append] at hsorts
        rw [← List.singleton_append, ← List.append_assoc] at hsorts
        exact hsorts

/-- **The queue of lists does what the flat queue of the wake-ups does**: an event is inserted, the
first event is taken, and taking a list changes nothing. -/
theorem pending_queueStep {q q' : EventQueue QueueEvent} {act : QueueAct QueueEvent} (h : q.Inv)
    (hs : queueStep q act = some q') :
    (∃ time event, act = .schedule time event ∧
      q'.pending = Simulation.scheduleEvent q.pending time event) ∨
    (act = .proceed ∧ q'.pending = q.pending) ∨
    ∃ event, act = .invoke ∧ q.pending = (q.currentTime, event) :: q'.pending := by
  cases act with
  | schedule time event =>
    simp only [queueStep] at hs
    split at hs
    · next hle =>
      cases hs
      exact .inl ⟨time, event, rfl, pending_scheduleEvent h hle event⟩
    · cases hs
  | proceed =>
    obtain ⟨now, queue, current, scheduled, invoked⟩ := q
    cases current with
    | cons event events => simp [queueStep] at hs
    | nil =>
      cases queue with
      | nil => simp [queueStep] at hs
      | cons l ls =>
        cases hs
        exact .inr (.inl ⟨rfl, rfl⟩)
  | invoke =>
    obtain ⟨now, queue, current, scheduled, invoked⟩ := q
    cases current with
    | nil => simp [queueStep] at hs
    | cons event events =>
      cases hs
      exact .inr (.inr ⟨event, rfl, rfl⟩)

/-- **Events are invoked in the order of their times**, and at each time in the order in which they
were scheduled: in every state that can be reached, those invoked and then those waiting are the
scheduled events in this order, and the clock is between the two. -/
theorem invoked_append_pending (h : Transition.Reaches queueStep .initial q) :
    (q.invoked ++ q.pending = q.scheduled.mergeSort fun e f => e.1 ≤ f.1) ∧
      (∀ e ∈ q.invoked, e.1 ≤ q.currentTime) ∧ (∀ e ∈ q.pending, q.currentTime ≤ e.1) ∧
      (q.pending = [] ↔ q.finished = true ∧ q.currentEventList = []) := by
  have hinv : q.Inv := h.invariant (fun _ _ _ hi hs => queueStep_inv hi hs) EventQueue.inv_initial
  refine ⟨Agenda.sorts_iff.mp hinv.sorts, hinv.past, fun e he => hinv.le_of_mem_pending he, ?_⟩
  rw [EventQueue.pending, List.append_eq_nil_iff, List.map_eq_nil_iff, and_comm]
  refine and_congr_left fun _ => ?_
  rw [EventQueue.finished, List.isEmpty_iff]
  constructor
  · intro hflat
    -- no list is empty
    by_contra hne
    obtain ⟨l, ls, heq⟩ := List.exists_cons_of_ne_nil hne
    have hl : l ∈ q.eventQueue := heq ▸ List.mem_cons_self
    have hnil : l.events.map (fun event => (l.eventTime, event)) = [] := by
      rw [heq] at hflat
      exact (List.append_eq_nil_iff.mp hflat).1
    exact hinv.nonempty l hl (List.map_eq_nil_iff.mp hnil)
  · intro heq
    rw [heq]
    rfl

/-- An event schedules another one for its own time, in front of which an earlier one waits. -/
def threeEvents : List (QueueAct Char) :=
  [.schedule 4 'a', .schedule 2 'b', .schedule 4 'c', .proceed, .invoke, .proceed, .invoke,
    .schedule 4 'd', .invoke, .proceed]

theorem invoked_append_pending_threeEvents : ∃ q, Transition.Reaches queueStep .initial q ∧
    q.invoked = [(2, 'b'), (4, 'a'), (4, 'c')] ∧ q.pending = [(4, 'd')] ∧
      (q.invoked ++ q.pending = q.scheduled.mergeSort fun e f => e.1 ≤ f.1) := by
  have h : Transition.Reaches queueStep .initial (⟨4, [], ['d'],
      [(4, 'a'), (2, 'b'), (4, 'c'), (4, 'd')], [(2, 'b'), (4, 'a'), (4, 'c')]⟩ : EventQueue Char) :=
    ⟨threeEvents, by decide⟩
  exact ⟨_, h, rfl, rfl, (invoked_append_pending h).1⟩

end Opus.Simulation
