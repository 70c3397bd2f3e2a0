import Mathlib.Data.List.Sort
import Mathlib.Data.List.Nodup
import Opus.Basic

/-!
# Event traces and their compilation

A rank in profile mode writes one event for each scale-out collective it issues. The schedule
compiler `compile_opus_schedule.py` reads the traces of all ranks and writes, for each rank,
either the legacy stages (maximal runs of one kind) or the keyed schedule: one row for each
boundary that any rank observed and that occurs in this rank's trace.

## Main definitions

* `Event`, `Event.key`: an event of a trace and its key `(iteration, backend, counter)`
* `readEvents`: a trace in the order of its sequence numbers
* `transitionKeys`: the boundaries observed by any rank
* `synchronizedTransitions`: the rows `(trigger, target)` of one rank's keyed schedule
* `legacyStages`, `legacyCounter`: the stages of the legacy format and the counters it stores

## Main results

* `mem_transitionKeys`: a key is a boundary when some trace changes kind at it
* `synchronizedTransitions_target_mem`: a row's target is an event of the trace with a boundary key
-/

namespace Opus

/-- One row of a trace. -/
structure Event where
  iteration : ℕ
  sequence : ℕ
  backend : ℕ
  counter : ℕ
  kind : Kind
  controllerBackend : ℕ
  controllerCounter : ℕ
  deriving DecidableEq, Repr

/-- An event is identified within its rank by iteration, backend and counter. -/
abbrev Key := ℕ × ℕ × ℕ

instance Key.instDecidableMem (key : Key) (keys : List Key) : Decidable (key ∈ keys) :=
  inferInstance

/-- The key of an event. -/
def Event.key (e : Event) : Key := (e.iteration, e.backend, e.counter)

/-- The controller backend and counter that a request for the event carries. -/
def Event.target (e : Event) : ℕ × ℕ := (e.controllerBackend, e.controllerCounter)

/-- A trace file is read in the order of its sequence numbers. -/
def readEvents (rows : List Event) : List Event :=
  rows.mergeSort fun e f => e.sequence ≤ f.sequence

/-! ## The boundaries of all traces -/

/-- The event starts a run: there is no previous event, or it is of the other kind. -/
def changed (previous : Option Event) (event : Event) : Bool :=
  match previous with
  | none => true
  | some p => event.kind != p.kind

/-- The boundary keys of one trace after `previous`. -/
def boundaryKeys : Option Event → List Event → List Key
  | _, [] => []
  | previous, event :: events =>
    if changed previous event then event.key :: boundaryKeys (some event) events
    else boundaryKeys (some event) events

/-- The union of the boundaries observed by any participating rank. -/
def transitionKeys (allEvents : List (List Event)) : List Key :=
  allEvents.flatMap (boundaryKeys none)

theorem mem_boundaryKeys {k : Key} {previous : Option Event} {events : List Event} :
    k ∈ boundaryKeys previous events ↔ ∃ pre event post,
      events = pre ++ event :: post ∧ event.key = k ∧
        changed (pre.getLast?.or previous) event = true := by
  induction events generalizing previous with
  | nil => simp [boundaryKeys]
  | cons e es ih =>
    have hstep : k ∈ boundaryKeys previous (e :: es) ↔
        (changed previous e = true ∧ e.key = k) ∨ k ∈ boundaryKeys (some e) es := by
      by_cases h : changed previous e = true <;> simp [boundaryKeys, h, eq_comm]
    rw [hstep, ih]
    constructor
    · rintro (⟨h, rfl⟩ | ⟨pre, event, post, rfl, rfl, h⟩)
      · exact ⟨[], e, es, rfl, rfl, by simpa using h⟩
      · refine ⟨e :: pre, event, post, rfl, rfl, ?_⟩
        cases hp : pre.getLast? <;> simp_all [List.getLast?_cons]
    · rintro ⟨pre, event, post, hsplit, rfl, h⟩
      cases pre with
      | nil =>
        obtain ⟨rfl, rfl⟩ := List.cons.inj hsplit
        exact .inl ⟨by simpa using h, rfl⟩
      | cons p pre =>
        obtain ⟨rfl, rfl⟩ := List.cons.inj hsplit
        refine .inr ⟨pre, event, post, rfl, rfl, ?_⟩
        cases hp : pre.getLast? <;> simp_all [List.getLast?_cons]

/-- A key is a boundary when some trace changes kind at an event of that key. -/
theorem mem_transitionKeys {k : Key} {allEvents : List (List Event)} :
    k ∈ transitionKeys allEvents ↔ ∃ events ∈ allEvents, ∃ pre event post,
      events = pre ++ event :: post ∧ event.key = k ∧ changed pre.getLast? event = true := by
  simp [transitionKeys, mem_boundaryKeys]

/-! ## The rows of one rank's keyed schedule -/

/-- The event whose issue triggers the request for `event`: in provision mode the previous
event, but never one of another iteration. -/
def trigger (provision : Bool) (previous : Option Event) (event : Event) : Event :=
  let trigger := if provision then previous.getD event else event
  if trigger.iteration ≠ event.iteration then event else trigger

/-- The rows `(trigger, target)` of the events after `previous`. -/
def synchronizedTransitionsFrom (keys : List Key) (provision : Bool) :
    Option Event → List Event → List (Event × Event)
  | _, [] => []
  | previous, event :: events =>
    if event.key ∈ keys then
      (trigger provision previous event, event) ::
        synchronizedTransitionsFrom keys provision (some event) events
    else synchronizedTransitionsFrom keys provision (some event) events

/-- Every global boundary present in this rank's event stream. -/
def synchronizedTransitions (keys : List Key) (provision : Bool) (events : List Event) :
    List (Event × Event) :=
  synchronizedTransitionsFrom keys provision none events

theorem trigger_iteration (provision : Bool) (previous : Option Event) (event : Event) :
    (trigger provision previous event).iteration = event.iteration := by
  by_cases h : (if provision then previous.getD event else event).iteration = event.iteration <;>
    simp [trigger, h]

@[simp] theorem trigger_baseline (previous : Option Event) (event : Event) :
    trigger false previous event = event := by simp [trigger]

@[simp] theorem trigger_none (provision : Bool) (event : Event) :
    trigger provision none event = event := by simp [trigger]

theorem trigger_provision (previous event : Event) :
    trigger true (some previous) event =
      if previous.iteration = event.iteration then previous else event := by
  by_cases h : previous.iteration = event.iteration <;> simp [trigger, h]

theorem trigger_mem (provision : Bool) (previous : Option Event) (event : Event) :
    trigger provision previous event = event ∨
      previous = some (trigger provision previous event) := by
  cases previous with
  | none => simp
  | some p =>
    cases provision with
    | false => simp
    | true =>
      rw [trigger_provision]
      by_cases h : p.iteration = event.iteration <;> simp [h]

/-- Every row is triggered by the previous event or by an event of the trace, and targets an event
of the trace with a boundary key. -/
theorem synchronizedTransitionsFrom_mem {keys : List Key} {provision : Bool}
    {previous : Option Event} {events : List Event} {row : Event × Event}
    (h : row ∈ synchronizedTransitionsFrom keys provision previous events) :
    (previous = some row.1 ∨ row.1 ∈ events) ∧ row.2 ∈ events ∧ row.2.key ∈ keys ∧
      row.1.iteration = row.2.iteration := by
  induction events generalizing previous with
  | nil => simp [synchronizedTransitionsFrom] at h
  | cons e es ih =>
    have hrest : ∀ r, r ∈ synchronizedTransitionsFrom keys provision (some e) es → r = row →
        (previous = some row.1 ∨ row.1 ∈ e :: es) ∧ row.2 ∈ e :: es ∧ row.2.key ∈ keys ∧
          row.1.iteration = row.2.iteration := by
      rintro r hr rfl
      obtain ⟨htrigger, htarget, hkey, hiter⟩ := ih hr
      refine ⟨.inr ?_, List.mem_cons_of_mem e htarget, hkey, hiter⟩
      rcases htrigger with heq | hmem
      · rw [← Option.some.inj heq]
        exact List.mem_cons_self
      · exact List.mem_cons_of_mem e hmem
    simp only [synchronizedTransitionsFrom] at h
    split at h
    · rename_i hkey
      rcases List.mem_cons.mp h with rfl | h
      · refine ⟨?_, List.mem_cons_self, hkey, trigger_iteration ..⟩
        rcases trigger_mem provision previous e with heq | hprev
        · exact .inr (by rw [heq]; exact List.mem_cons_self)
        · exact .inl hprev
      · exact hrest row h rfl
    · exact hrest row h rfl

theorem synchronizedTransitions_target_mem {keys : List Key} {provision : Bool}
    {events : List Event} {row : Event × Event}
    (h : row ∈ synchronizedTransitions keys provision events) :
    row.2 ∈ events ∧ row.2.key ∈ keys :=
  ⟨(synchronizedTransitionsFrom_mem h).2.1, (synchronizedTransitionsFrom_mem h).2.2.1⟩

/-! ## The legacy format -/

/-- The stages of the legacy format: the first and the last event of every maximal run of one
kind, given the first event and the latest event of the run so far. -/
def legacyStagesFrom : Event → Event → List Event → List (Event × Event)
  | start, previous, [] => [(start, previous)]
  | start, previous, event :: events =>
    if event.kind ≠ previous.kind then (start, previous) :: legacyStagesFrom event event events
    else legacyStagesFrom start event events

/-- The stages of a trace. -/
def legacyStages : List Event → List (Event × Event)
  | [] => []
  | event :: events => legacyStagesFrom event event events

/-- The counter a stage file stores: the per-direction counter of a pipeline event, without the
offset that identifies its peer. -/
def legacyCounter (event : Event) : ℕ :=
  if event.kind = .PP then event.counter % PP_INTERVAL else event.counter

end Opus
