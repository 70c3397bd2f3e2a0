import Opus.Library.Agenda
import Opus.Simulation.IssueOnce

/-!
# Wake-ups

A refused node schedules a `CallEvents` event for its rank, and so do the votes of the other members
of a group and the end of its round. The event calls what the rank has registered in its event table
for that tick; it does not call the issue loop. A registered callback does so when it ends a node.

The simulator is the machine of the issue loops under the clock: the queue of events, the event
tables of the ranks and the main loop, which calls all ranks when the queue is empty. The network
and the collective algorithms are not followed: they can schedule events, register callbacks and end
awaited nodes.

## Main definitions

* `Simulator`, `simulatorStep`: the state with the clock, and one step
* `Simulator.Retried`: every processed wake-up of a rank with a refused node has seen its loop run
* `wakesLoop`: the condition on a step

## Main results

* `simStep_runs`: loops are only added, and the end of a node adds one
* `wakeSound_step`: while callbacks are called, the loop has run exactly when one has ended a node
* `retried_step_iff`: a step keeps wake-ups retried exactly when it meets the condition
* `retried_iff_wakesLoop`: for runs
* `not_retried_debounced`: a refused computation that its wake-up does not try again
-/

namespace Opus.Simulation

open Transition

/-! ## State -/

/-- A callable in the event table of a rank: one whose call ends a node of the workload, or one of
the layers below that does not. -/
inductive Callback where
  | call (n : ℕ)
  | internal
  deriving DecidableEq, Repr

/-- An event of the queue: `CallEvents` for a rank, or one of the network. A wake-up that is
scheduled while the rank has a refused node carries the number of its issue loops until then. -/
inductive QueueEvent where
  | callEvents (r : ℕ) (stamp : Option ℕ)
  | network
  deriving DecidableEq, Repr

/-- The event that is being processed: `Sys::call_events` of a rank with the index of the next
callback, the stamp of the event and the number of issue loops when it started. -/
inductive Handler where
  | idle
  | callEvents (r i : ℕ) (stamp : Option ℕ) (runs : ℕ)
  | network
  deriving DecidableEq, Repr

/-- A processed wake-up, with the numbers of issue loops of the rank when it was scheduled and when
it has been processed. -/
structure Retry where
  rank : ℕ
  scheduled : ℕ
  runs : ℕ
  deriving DecidableEq, Repr

/-- The simulator. `calls` are the ranks that `main` still has to call. -/
structure Simulator where
  sim : SimState
  now : ℕ
  queue : List (ℕ × QueueEvent)
  eventQueue : ℕ → ℕ → Option (List Callback)
  handler : Handler
  calls : List ℕ
  proceeded : Bool
  retries : List Retry

/-- `EventQueue::schedule_event`: after the events of the same time. -/
def scheduleEvent (queue : List (ℕ × QueueEvent)) (time : ℕ) (event : QueueEvent) :
    List (ℕ × QueueEvent) :=
  Agenda.insert queue time event

namespace Simulator

/-- The workloads are fired first. -/
def initial (S : SimConfig) (scheduler : SchedulerState) : Simulator where
  sim := .initial S scheduler
  now := 0
  queue := []
  eventQueue _ _ := none
  handler := .idle
  calls := List.range S.npus
  proceeded := false
  retries := []

/-- What a rank has registered for the current tick. -/
def callbacks (s : Simulator) (r : ℕ) : List Callback := (s.eventQueue r s.now).getD []

def setEvents (s : Simulator) (r time : ℕ) (events : Option (List Callback)) : Simulator :=
  { s with
    eventQueue :=
      Function.update s.eventQueue r (Function.update (s.eventQueue r) time events) }

/-- `Sys::try_register_event`: only the first callback of a tick schedules an event. -/
def registerEvent (s : Simulator) (r delta : ℕ) (callback : Callback) : Simulator :=
  match s.eventQueue r (s.now + delta) with
  | none =>
    { s.setEvents r (s.now + delta) (some [callback]) with
      queue := scheduleEvent s.queue (s.now + delta) (.callEvents r none) }
  | some callbacks => s.setEvents r (s.now + delta) (some (callbacks ++ [callback]))

/-- What a step of the workloads schedules. -/
def absorb (s : Simulator) : Effect → Simulator
  | .wakeUp r delta =>
    { s with
      queue := scheduleEvent s.queue (s.now + delta)
        (.callEvents r (if s.sim.refused r = [] then none else some (s.sim.runs r))) }
  | .register r n delta => s.registerEvent r delta (.call n)

/-- The workloads have made a step. -/
def onSim (s : Simulator) (t : SimState) : Simulator :=
  t.effects.foldl absorb { s with sim := t }

/-- A call is active, in which the network and the collectives can act. -/
def busy (s : Simulator) : Bool := s.handler ≠ .idle || s.sim.stack ≠ []

/-- `Sys::handleEvent`, or a handler of the network. -/
def handle (s : Simulator) : QueueEvent → Simulator
  | .callEvents r stamp => { s with handler := .callEvents r 0 stamp (s.sim.runs r) }
  | .network => { s with handler := .network }

/-- `Sys::call_events` ends. -/
def endCallEvents (s : Simulator) (r : ℕ) (stamp : Option ℕ) : Simulator :=
  { s.setEvents r s.now none with
    handler := .idle
    retries := s.retries ++ (stamp.map fun k => ⟨r, k, s.sim.runs r⟩).toList }

/-- Every processed wake-up of a rank with a refused node has seen the issue loop of the rank run
since it was scheduled. -/
def Retried (s : Simulator) : Prop := ∀ e ∈ s.retries, e.scheduled < e.runs

end Simulator

/-! ## Steps -/

/-- A call by `main`, the next event, all ranks once more when there is none, the next callback of a
rank, one step of the innermost call of the workloads, the end of a node in a handler of the
network, the end of that handler, and what the network and the collectives schedule. -/
inductive SimulatorAct where
  | callRank
  | proceed
  | retry
  | callNext (gate : Gate)
  | resume (gate : Gate)
  | deliver (gate : Gate) (r n : ℕ)
  | returnHandler
  | register (r delta : ℕ) (callback : Callback)
  | schedule (delta : ℕ)

def simulatorStep (S : SimConfig) (s : Simulator) (act : SimulatorAct) : Option Simulator :=
  if s.sim.fault.isSome then none
  else
    match act with
    | .callRank =>
      match s.handler, s.calls with
      | .idle, r :: calls =>
        (simStep S s.sim (.issueDepFreeNodes r)).map ({ s with calls := calls } : Simulator).onSim
      | _, _ => none
    | .proceed =>
      match s.handler, s.calls, s.sim.stack, s.queue with
      | .idle, [], [], (time, event) :: queue =>
        some (({ s with now := time, queue := queue, proceeded := true } : Simulator).handle event)
      | _, _, _, _ => none
    | .retry =>
      if s.handler = .idle ∧ s.calls = [] ∧ s.sim.stack = [] ∧ s.queue = [] ∧ s.proceeded then
        some { s with calls := List.range S.npus ++ List.range S.npus, proceeded := false }
      else none
    | .callNext gate =>
      match s.handler, s.sim.stack with
      | .callEvents r i stamp runs, [] =>
        let next : Simulator := { s with handler := .callEvents r (i + 1) stamp runs }
        match (s.callbacks r)[i]? with
        | some (.call n) => (simStep S s.sim (.finished gate s.now r n)).map next.onSim
        | some .internal => some next
        | none => some (s.endCallEvents r stamp)
      | _, _ => none
    | .resume gate => (simStep S s.sim (.resume gate s.now)).map s.onSim
    | .deliver gate r n =>
      if s.handler = .network then (simStep S s.sim (.finished gate s.now r n)).map s.onSim
      else none
    | .returnHandler =>
      if s.handler = .network ∧ s.sim.stack = [] then some { s with handler := .idle } else none
    | .register r delta callback =>
      if s.busy then some (s.registerEvent r delta callback) else none
    | .schedule delta =>
      if s.busy then some { s with queue := scheduleEvent s.queue (s.now + delta) .network }
      else none

/-- The condition on a step: when a wake-up of a rank with a refused node ends, one of the callbacks
it has called ends a node of the rank, or the issue loop has run before it was processed. -/
def wakesLoop (s : Simulator) : SimulatorAct → Bool
  | .callNext _ =>
    match s.handler with
    | .callEvents r i (some k) runs =>
      i < (s.callbacks r).length || k < runs ||
        (s.callbacks r).any fun
          | .call _ => true
          | .internal => false
    | _ => true
  | _ => true

/-! ## Issue loops -/

section Runs

variable {S : SimConfig} {gate : Gate} {now : ℕ} {s t : SimState} {r n : ℕ} {node : Node}

theorem SimState.onRank_runs (s : SimState) (r : ℕ) (f : RankState → Except Fault RankState) :
    (s.onRank r f).runs = s.runs := by
  rw [SimState.onRank]
  split <;> rfl

theorem issueCollComm_runs (h : issueCollComm S gate now s r node = some t) : t.runs = s.runs := by
  unfold issueCollComm at h
  split at h
  · cases h
    rfl
  · obtain ⟨⟨granted, scheduler⟩, -, heq⟩ := Option.map_eq_some_iff.mp h
    dsimp only at heq
    split at heq
    · subst heq
      exact SimState.onRank_runs ..
    · subst heq
      rfl
    · split at heq <;> subst heq <;> rfl

theorem issueSendComm_runs (h : issueSendComm S gate now s r node = some t) : t.runs = s.runs := by
  unfold issueSendComm at h
  obtain ⟨⟨granted, scheduler⟩, -, heq⟩ := Option.map_eq_some_iff.mp h
  dsimp only at heq
  split at heq
  · subst heq
    rfl
  · subst heq
    exact SimState.onRank_runs ..

theorem issueTaken_runs (h : issueTaken S gate now s r node = some t) : t.runs = s.runs := by
  unfold issueTaken at h
  split at h
  · cases h
    rfl
  · split at h
    · cases h
      rfl
    · cases h
      rfl
    · split at h
      · split at h <;> cases h
        · exact SimState.onRank_runs ..
        · rfl
      · cases h
        rfl
    · split at h
      · cases h
      · exact issueCollComm_runs h
    · split at h
      · cases h
      · exact issueSendComm_runs h
    · split at h <;> cases h
      rfl
    · cases h
      exact SimState.onRank_runs ..
    · cases h
      exact SimState.onRank_runs ..

/-- Issuing a node calls no loop; the leader leaves the calls to the stack. -/
theorem issue_runs (h : issue S gate now s r node = some t) : t.runs = s.runs := by
  obtain ⟨⟨canConfig, u⟩, hu, ht⟩ := Option.bind_eq_some_iff.mp h
  have hsame : u.runs = s.runs := by
    simp only [issueReconfig] at hu
    obtain ⟨⟨b, scheduler⟩, -, heq⟩ := Option.map_eq_some_iff.mp hu
    dsimp only at heq
    split at heq <;> cases heq <;> rfl
  dsimp only at ht
  split at ht
  · split at ht
    · cases ht
      rw [SimState.onRank_runs, hsame]
    · rw [issueTaken_runs ht, SimState.onRank_runs, hsame]
  · cases ht
    exact hsame

theorem finishComm_runs (h : finishComm S gate now s r node = some t) : t.runs = s.runs := by
  have hprovision : ∀ {u : SimState} {cur : ℤ}, u.runs = s.runs →
      provisionNext S gate now u r cur = some t → t.runs = s.runs := by
    intro u cur hruns hu
    unfold provisionNext at hu
    split at hu
    · cases hu
      exact hruns
    · obtain ⟨scheduler, -, rfl⟩ := Option.map_eq_some_iff.mp hu
      exact hruns
  have hround : (finishRound S s r node.group).runs = s.runs := by
    simp only [finishRound]
    split <;> rfl
  unfold finishComm at h
  split at h
  · split at h
    · exact hprovision (by rfl) h
    · exact hprovision hround h
  · exact hprovision (by rfl) h
  · exact hprovision (by rfl) h
  · cases h
    rfl

theorem SimState.enter_runs (s : SimState) (r r' : ℕ) :
    (s.enter r).runs r' = if r' = r then s.runs r + 1 else s.runs r' := by
  by_cases hr : r' = r
  · subst hr
    simp [SimState.enter]
  · simp [SimState.enter, hr]

theorem SimState.le_enter_runs (s : SimState) (r r' : ℕ) : s.runs r' ≤ (s.enter r).runs r' := by
  rw [SimState.enter_runs]
  split
  · next hr => exact hr ▸ Nat.le_succ _
  · exact le_rfl

/-- The end of a node calls the loop of its rank. -/
theorem callFinished_runs (h : callFinished S gate now s r node = some t) :
    (∀ r', s.runs r' ≤ t.runs r') ∧ (t.fault = none → s.runs r < t.runs r) := by
  obtain ⟨u, hu, rfl⟩ := Option.map_eq_some_iff.mp h
  have hsame : (u.onRank r fun x => x.complete node).runs = s.runs := by
    rw [SimState.onRank_runs]
    split at hu
    · cases hu
      rfl
    · exact finishComm_runs hu
  dsimp only
  split
  · next hfault =>
    rw [hsame]
    refine ⟨fun _ => le_rfl, fun hnone => ?_⟩
    rw [hnone] at hfault
    cases hfault
  · refine ⟨fun r' => ?_, fun _ => ?_⟩
    · exact (congrFun hsame r').symm.le.trans (SimState.le_enter_runs _ r r')
    · rw [SimState.enter_runs, if_pos rfl, hsame]
      exact Nat.lt_succ_self _

/-- **Loops are only added**, and the end of a node adds one of its rank. -/
theorem simStep_runs {act : SimAct} (h : simStep S s act = some t) :
    (∀ r', s.runs r' ≤ t.runs r') ∧ ∀ gate now r n, act = .finished gate now r n →
      t.fault = none → s.runs r < t.runs r := by
  unfold simStep at h
  split at h
  · cases h
  · dsimp only at h
    split at h
    · split at h
      · cases h
        refine ⟨fun r' => ?_, fun _ _ _ _ hact => by cases hact⟩
        exact SimState.le_enter_runs { s with effects := [] } _ r'
      · cases h
    · split at h
      · obtain ⟨node, -, hcall⟩ := Option.bind_eq_some_iff.mp h
        obtain ⟨hle, hlt⟩ := callFinished_runs hcall
        refine ⟨hle, fun _ _ _ _ hact => ?_⟩
        cases hact
        exact hlt
      · cases h
    · obtain ⟨node, -, hissue⟩ := Option.bind_eq_some_iff.mp h
      refine ⟨fun r' => ?_, fun _ _ _ _ hact => by cases hact⟩
      split at hissue
      · rw [issue_runs hissue]
      · cases hissue
        exact le_rfl
    · cases h
      exact ⟨fun _ => le_rfl, fun _ _ _ _ hact => by cases hact⟩
    · cases h
      refine ⟨fun r' => ?_, fun _ _ _ _ hact => by cases hact⟩
      exact SimState.le_enter_runs { s with stack := _, effects := [] } _ r'
    · cases h
      exact ⟨fun _ => le_rfl, fun _ _ _ _ hact => by cases hact⟩
    · cases h
      exact ⟨fun _ => le_rfl, fun _ _ _ _ hact => by cases hact⟩
    · cases h
      exact ⟨fun _ => le_rfl, fun _ _ _ _ hact => by cases hact⟩
    · cases h

end Runs

/-! ## The invariant -/

/-- A callback that ends a node has been called or will be. -/
def EndsNode (callbacks : List Callback) : Prop := ∃ n, .call n ∈ callbacks

/-- What is known while the callbacks of a rank are called: the loop has run exactly when one of the
first `i` callbacks has ended a node. -/
structure CallingSound (s : Simulator) (r i : ℕ) (stamp : Option ℕ) (runs : ℕ) : Prop where
  le_length : i ≤ (s.callbacks r).length
  le_stamp : ∀ k, stamp = some k → k ≤ runs
  le_runs : runs ≤ s.sim.runs r
  ran_iff : runs < s.sim.runs r ↔ EndsNode ((s.callbacks r).take i)
  stack : s.sim.stack ≠ [] → EndsNode ((s.callbacks r).take i)

/-- The invariant of the simulator. -/
structure WakeSound (s : Simulator) : Prop where
  stamps : ∀ time r k, (time, .callEvents r (some k)) ∈ s.queue → k ≤ s.sim.runs r
  calling : ∀ r i stamp runs, s.handler = .callEvents r i stamp runs →
    CallingSound s r i stamp runs

section Extends

/-- `t` is `s` after events have been scheduled and callbacks registered. -/
structure Extends (s t : Simulator) : Prop where
  sim : t.sim = s.sim
  now : t.now = s.now
  handler : t.handler = s.handler
  retries : t.retries = s.retries
  callbacks : ∀ r, s.callbacks r <+: t.callbacks r
  queue : ∀ time r k, (time, .callEvents r (some k)) ∈ t.queue →
    (time, .callEvents r (some k)) ∈ s.queue ∨ k = s.sim.runs r

variable {s t u : Simulator} {r i : ℕ} {stamp : Option ℕ} {runs : ℕ}

theorem Extends.refl (s : Simulator) : Extends s s :=
  ⟨rfl, rfl, rfl, rfl, fun _ => List.prefix_rfl, fun _ _ _ h => .inl h⟩

theorem Extends.trans (h : Extends s t) (h' : Extends t u) : Extends s u where
  sim := h'.sim.trans h.sim
  now := h'.now.trans h.now
  handler := h'.handler.trans h.handler
  retries := h'.retries.trans h.retries
  callbacks r := (h.callbacks r).trans (h'.callbacks r)
  queue time r k hmem := by
    rcases h'.queue time r k hmem with hmem | hk
    · exact h.queue time r k hmem
    · right
      rw [hk, h.sim]

theorem mem_scheduleEvent {queue : List (ℕ × QueueEvent)} {time : ℕ} {event : QueueEvent}
    {e : ℕ × QueueEvent} :
    e ∈ scheduleEvent queue time event ↔ e = (time, event) ∨ e ∈ queue :=
  Agenda.mem_insert

theorem callbacks_setEvents (s : Simulator) (r time : ℕ) (events : Option (List Callback))
    (r' : ℕ) :
    (s.setEvents r time events).callbacks r' =
      if r' = r ∧ s.now = time then events.getD [] else s.callbacks r' := by
  simp only [Simulator.callbacks, Simulator.setEvents]
  by_cases hr : r' = r
  · subst hr
    rw [Function.update_self]
    by_cases ht : s.now = time
    · subst ht
      rw [Function.update_self, if_pos ⟨rfl, rfl⟩]
    · rw [Function.update_of_ne ht, if_neg fun h => ht h.2]
  · rw [Function.update_of_ne hr, if_neg fun h => hr h.1]

theorem extends_registerEvent (s : Simulator) (r delta : ℕ) (callback : Callback) :
    Extends s (s.registerEvent r delta callback) := by
  have hprefix : ∀ callbacks, s.eventQueue r (s.now + delta) = callbacks → ∀ r',
      s.callbacks r' <+: (s.setEvents r (s.now + delta)
        (some (callbacks.getD [] ++ [callback]))).callbacks r' := by
    intro callbacks hcallbacks r'
    rw [callbacks_setEvents]
    split
    · next hr =>
      obtain ⟨rfl, hnow⟩ := hr
      rw [Simulator.callbacks, hnow, hcallbacks]
      exact List.prefix_append _ _
    · exact List.prefix_rfl
  rw [Simulator.registerEvent]
  split
  · next hnone =>
    refine ⟨rfl, rfl, rfl, rfl, hprefix none hnone, fun time r' k hmem => ?_⟩
    rcases mem_scheduleEvent.mp hmem with heq | hmem
    · cases heq
    · exact .inl hmem
  · next callbacks hsome =>
    exact ⟨rfl, rfl, rfl, rfl, hprefix (some callbacks) hsome, fun _ _ _ hmem => .inl hmem⟩

theorem extends_absorb (s : Simulator) (effect : Effect) : Extends s (s.absorb effect) := by
  cases effect with
  | wakeUp r delta =>
    refine ⟨rfl, rfl, rfl, rfl, fun _ => List.prefix_rfl, fun time r' k hmem => ?_⟩
    rcases mem_scheduleEvent.mp hmem with heq | hmem
    · -- a stamp is the number of loops at that time
      right
      obtain ⟨-, heq⟩ := Prod.mk.inj heq
      obtain ⟨rfl, hstamp⟩ := QueueEvent.callEvents.inj heq
      split at hstamp
      · cases hstamp
      · exact Option.some.inj hstamp
    · exact .inl hmem
  | register r n delta => exact extends_registerEvent s r delta (.call n)

theorem extends_onSim (s : Simulator) (t : SimState) : Extends { s with sim := t } (s.onSim t) := by
  have hfold : ∀ (effects : List Effect) (u : Simulator),
      Extends u (effects.foldl Simulator.absorb u) := by
    intro effects
    induction effects with
    | nil => exact Extends.refl
    | cons effect effects ih =>
      exact fun u => (extends_absorb u effect).trans (ih (u.absorb effect))
  exact hfold t.effects { s with sim := t }

/-- Callbacks registered later come after those that have been called. -/
theorem CallingSound.of_extends (h : CallingSound s r i stamp runs) (hext : Extends s t) :
    CallingSound t r i stamp runs := by
  have htake : (t.callbacks r).take i = (s.callbacks r).take i := by
    obtain ⟨l, hl⟩ := hext.callbacks r
    rw [← hl, List.take_append_of_le_length h.le_length]
  exact ⟨h.le_length.trans (hext.callbacks r).length_le, h.le_stamp, hext.sim ▸ h.le_runs,
    by rw [hext.sim, htake]; exact h.ran_iff, by rw [hext.sim, htake]; exact h.stack⟩

theorem WakeSound.of_extends (h : WakeSound s) (hext : Extends s t) : WakeSound t where
  stamps time r k hmem := by
    rw [hext.sim]
    rcases hext.queue time r k hmem with hmem | rfl
    · exact h.stamps time r k hmem
    · exact le_rfl
  calling r i stamp runs hh := (h.calling r i stamp runs (hext.handler ▸ hh)).of_extends hext

end Extends

section Step

variable {S : SimConfig} {s t : Simulator} {act : SimulatorAct} {u : SimState} {r i : ℕ}
  {stamp : Option ℕ} {runs : ℕ}

/-- A step of the workloads, while `s` processes an event. -/
theorem WakeSound.onSim (h : WakeSound s) (hruns : ∀ r, s.sim.runs r ≤ u.runs r)
    (hcalling : ∀ r i stamp runs, s.handler = .callEvents r i stamp runs →
      CallingSound { s with sim := u } r i stamp runs) : WakeSound (s.onSim u) := by
  apply WakeSound.of_extends _ (extends_onSim s u)
  exact ⟨fun time r k hmem => (h.stamps time r k hmem).trans (hruns r), hcalling⟩

/-- Between two calls no rank has callbacks called. -/
theorem WakeSound.idle (h : WakeSound s) {handler : Handler}
    (hhandler : ∀ r i stamp runs, handler ≠ .callEvents r i stamp runs)
    (hsim : t.sim = s.sim) (hqueue : t.queue = s.queue) (ht : t.handler = handler) :
    WakeSound t where
  stamps := by
    rw [hsim, hqueue]
    exact h.stamps
  calling r i stamp runs hh := absurd (ht.symm.trans hh) (hhandler r i stamp runs)

/-- The next event. -/
theorem WakeSound.handle (h : WakeSound s) {time : ℕ} {event : QueueEvent}
    {queue : List (ℕ × QueueEvent)} (hqueue : s.queue = (time, event) :: queue)
    (hstack : s.sim.stack = []) :
    WakeSound (({ s with now := time, queue := queue, proceeded := true } : Simulator).handle
      event) := by
  have hstamps : ∀ time' r k, (time', .callEvents r (some k)) ∈ queue → k ≤ s.sim.runs r :=
    fun time' r k hmem => h.stamps time' r k (hqueue ▸ List.mem_cons_of_mem _ hmem)
  cases event with
  | network => exact ⟨hstamps, fun _ _ _ _ hh => by cases hh⟩
  | callEvents r stamp =>
    refine ⟨hstamps, fun r' i' stamp' runs' hh => ?_⟩
    cases hh
    have hstamp : ∀ k, stamp = some k → k ≤ s.sim.runs r := by
      rintro k rfl
      exact h.stamps time r k (hqueue ▸ List.mem_cons_self)
    refine ⟨Nat.zero_le _, hstamp, le_rfl, ?_, fun hne => absurd hstack hne⟩
    constructor
    · exact fun hlt => absurd hlt (lt_irrefl _)
    · rintro ⟨n, hn⟩
      cases hn

/-- A callback that ends a node has been called. -/
theorem CallingSound.call (h : CallingSound s r i stamp runs) {n : ℕ}
    (hn : (s.callbacks r)[i]? = some (.call n)) (hlt : s.sim.runs r < u.runs r) :
    CallingSound { s with sim := u, handler := .callEvents r (i + 1) stamp runs } r (i + 1) stamp
      runs := by
  obtain ⟨hi, heq⟩ := List.getElem?_eq_some_iff.mp hn
  have hends : EndsNode ((s.callbacks r).take (i + 1)) := by
    refine ⟨n, ?_⟩
    rw [List.take_add_one, hn]
    exact List.mem_append_right _ List.mem_cons_self
  have hran : runs < u.runs r := h.le_runs.trans_lt hlt
  exact ⟨hi, h.le_stamp, hran.le, iff_of_true hran hends, fun _ => hends⟩

/-- A callback that ends none has been called. -/
theorem CallingSound.internal (h : CallingSound s r i stamp runs)
    (hn : (s.callbacks r)[i]? = some .internal) :
    CallingSound { s with handler := .callEvents r (i + 1) stamp runs } r (i + 1) stamp runs := by
  obtain ⟨hi, heq⟩ := List.getElem?_eq_some_iff.mp hn
  have hends : EndsNode ((s.callbacks r).take (i + 1)) ↔ EndsNode ((s.callbacks r).take i) := by
    rw [List.take_add_one, hn]
    simp [EndsNode]
  exact ⟨hi, h.le_stamp, h.le_runs, h.ran_iff.trans hends.symm, fun hne => hends.mpr (h.stack hne)⟩

/-- One of the calls has been made by a callback. -/
theorem CallingSound.resume (h : CallingSound s r i stamp runs) (hstack : s.sim.stack ≠ [])
    (hle : s.sim.runs r ≤ u.runs r) : CallingSound { s with sim := u } r i stamp runs := by
  have hends := h.stack hstack
  have hran : runs < u.runs r := (h.ran_iff.mpr hends).trans_le hle
  exact ⟨h.le_length, h.le_stamp, hran.le, iff_of_true hran hends, fun _ => hends⟩

theorem stack_ne_nil_of_resume {gate : Gate} {now : ℕ} {v : SimState}
    (h : simStep S v (.resume gate now) = some u) : v.stack ≠ [] := by
  intro hnil
  unfold simStep at h
  split at h
  · cases h
  · simp [hnil] at h

/-- **While callbacks are called**, the loop has run exactly when one of them has ended a node. -/
theorem wakeSound_step (h : s.sim.fault = none → WakeSound s)
    (ht : simulatorStep S s act = some t) : t.sim.fault = none → WakeSound t := by
  intro hfault
  unfold simulatorStep at ht
  split at ht
  · cases ht
  next hrunning =>
  replace h : WakeSound s := h (by simpa using hrunning)
  cases act with
  | callRank =>
    dsimp only at ht
    split at ht
    · next r calls hh _ =>
      obtain ⟨u, hu, rfl⟩ := Option.map_eq_some_iff.mp ht
      have hidle : WakeSound { s with calls := calls } :=
        h.idle (fun _ _ _ _ => by rw [hh]; exact Handler.noConfusion) rfl rfl rfl
      apply hidle.onSim (simStep_runs hu).1
      intro r' i stamp runs hcall
      exact absurd (hh.symm.trans hcall) Handler.noConfusion
    · cases ht
  | proceed =>
    dsimp only at ht
    split at ht
    · next hstack hqueue =>
      cases ht
      exact h.handle hqueue hstack
    · cases ht
  | retry =>
    dsimp only at ht
    split at ht
    · next hidle =>
      cases ht
      exact h.idle (fun _ _ _ _ => by rw [hidle.1]; exact Handler.noConfusion) rfl rfl rfl
    · cases ht
  | callNext gate =>
    dsimp only at ht
    split at ht
    · next r i stamp runs hh hstack =>
      have hcalling := h.calling r i stamp runs hh
      split at ht
      · next n hn =>
        obtain ⟨u, hu, rfl⟩ := Option.map_eq_some_iff.mp ht
        obtain ⟨hle, hlt⟩ := simStep_runs hu
        have hext := extends_onSim { s with handler := .callEvents r (i + 1) stamp runs } u
        apply WakeSound.of_extends _ hext
        refine ⟨fun time r' k hmem => (h.stamps time r' k hmem).trans (hle r'), ?_⟩
        intro r' i' stamp' runs' hcall
        cases hcall
        have hnone : u.fault = none := (congrArg SimState.fault hext.sim).symm.trans hfault
        exact hcalling.call hn (hlt _ _ _ _ rfl hnone)
      · next hn =>
        cases ht
        refine ⟨h.stamps, fun r' i' stamp' runs' hcall => ?_⟩
        cases hcall
        exact hcalling.internal hn
      · cases ht
        exact ⟨h.stamps, fun _ _ _ _ hcall => by cases hcall⟩
    · cases ht
  | resume gate =>
    obtain ⟨u, hu, rfl⟩ := Option.map_eq_some_iff.mp ht
    have hle := (simStep_runs hu).1
    apply h.onSim hle
    intro r i stamp runs hh
    exact (h.calling r i stamp runs hh).resume (stack_ne_nil_of_resume hu) (hle r)
  | deliver gate r n =>
    dsimp only at ht
    split at ht
    · next hh =>
      obtain ⟨u, hu, rfl⟩ := Option.map_eq_some_iff.mp ht
      apply h.onSim (simStep_runs hu).1
      intro r' i stamp runs hcall
      exact absurd (hh.symm.trans hcall) Handler.noConfusion
    · cases ht
  | returnHandler =>
    dsimp only at ht
    split at ht
    · cases ht
      exact ⟨h.stamps, fun _ _ _ _ hcall => by cases hcall⟩
    · cases ht
  | register r delta callback =>
    dsimp only at ht
    split at ht
    · cases ht
      exact h.of_extends (extends_registerEvent s r delta callback)
    · cases ht
  | schedule delta =>
    dsimp only at ht
    split at ht
    · cases ht
      refine h.of_extends ⟨rfl, rfl, rfl, rfl, fun _ => List.prefix_rfl, fun time r k hmem => ?_⟩
      rcases mem_scheduleEvent.mp hmem with heq | hmem
      · cases heq
      · exact .inl hmem
    · cases ht

/-- Only the end of `call_events` records a wake-up. -/
theorem simulatorStep_retries (ht : simulatorStep S s act = some t) :
    (t.retries = s.retries ∧ wakesLoop s act = true) ∨
    ∃ gate r i stamp runs, act = .callNext gate ∧ s.handler = .callEvents r i stamp runs ∧
      (s.callbacks r).length ≤ i ∧ t = s.endCallEvents r stamp := by
  unfold simulatorStep at ht
  split at ht
  · cases ht
  cases act with
  | callNext gate =>
    dsimp only at ht
    split at ht
    · next r i stamp runs hh hstack =>
      have hahead : i < (s.callbacks r).length → wakesLoop s (.callNext gate) = true := by
        intro hi
        cases stamp <;> simp [wakesLoop, hh, hi]
      split at ht
      · next n hn =>
        obtain ⟨u, hu, rfl⟩ := Option.map_eq_some_iff.mp ht
        left
        exact ⟨(extends_onSim { s with handler := .callEvents r (i + 1) stamp runs } u).retries,
          hahead (List.getElem?_eq_some_iff.mp hn).1⟩
      · next hn =>
        cases ht
        left
        exact ⟨rfl, hahead (List.getElem?_eq_some_iff.mp hn).1⟩
      · next hn =>
        cases ht
        right
        exact ⟨gate, r, i, stamp, runs, rfl, hh, List.getElem?_eq_none_iff.mp hn, rfl⟩
    · cases ht
  | callRank =>
    left
    dsimp only at ht
    split at ht
    · obtain ⟨u, hu, rfl⟩ := Option.map_eq_some_iff.mp ht
      exact ⟨(extends_onSim _ u).retries, rfl⟩
    · cases ht
  | proceed =>
    left
    dsimp only at ht
    split at ht
    · next event _ _ _ _ _ =>
      cases ht
      cases event <;> exact ⟨rfl, rfl⟩
    · cases ht
  | resume gate =>
    left
    obtain ⟨u, hu, rfl⟩ := Option.map_eq_some_iff.mp ht
    exact ⟨(extends_onSim s u).retries, rfl⟩
  | deliver gate r n =>
    left
    dsimp only at ht
    split at ht
    · obtain ⟨u, hu, rfl⟩ := Option.map_eq_some_iff.mp ht
      exact ⟨(extends_onSim s u).retries, rfl⟩
    · cases ht
  | register r delta callback =>
    left
    dsimp only at ht
    split at ht
    · cases ht
      exact ⟨(extends_registerEvent s r delta callback).retries, rfl⟩
    · cases ht
  | retry | returnHandler | schedule delta =>
    left
    dsimp only at ht
    split at ht
    · cases ht
      exact ⟨rfl, rfl⟩
    · cases ht

/-- **A step keeps wake-ups retried** exactly when it meets the condition. -/
theorem retried_step_iff (h : WakeSound s) (hretried : s.Retried)
    (ht : simulatorStep S s act = some t) : t.Retried ↔ wakesLoop s act = true := by
  rcases simulatorStep_retries ht with ⟨hsame, hwakes⟩ | ⟨gate, r, i, stamp, runs, rfl, hh, hi, rfl⟩
  · rw [Simulator.Retried, hsame]
    exact iff_of_true hretried hwakes
  · have hcalling := h.calling r i stamp runs hh
    have hran := hcalling.ran_iff
    rw [List.take_of_length_le hi] at hran
    cases stamp with
    | none =>
      refine iff_of_true (fun e he => hretried e ?_) (by simp [wakesLoop, hh])
      simpa [Simulator.endCallEvents] using he
    | some k =>
      have hstamp : k ≤ runs := hcalling.le_stamp k rfl
      have hle := hcalling.le_runs
      have hany : ((s.callbacks r).any fun
          | .call _ => true
          | .internal => false) = true ↔ EndsNode (s.callbacks r) := by
        rw [List.any_eq_true]
        constructor
        · rintro ⟨c, hc, heq⟩
          cases c with
          | call n => exact ⟨n, hc⟩
          | internal => cases heq
        · rintro ⟨n, hn⟩
          exact ⟨.call n, hn, rfl⟩
      have hlast : (s.endCallEvents r (some k)).Retried ↔ k < s.sim.runs r := by
        constructor
        · intro hall
          exact hall ⟨r, k, s.sim.runs r⟩ (List.mem_append_right _ List.mem_cons_self)
        · intro hlt e he
          rcases List.mem_append.mp he with he | he
          · exact hretried e he
          · rw [List.mem_singleton.mp he]
            exact hlt
      have hwakes : wakesLoop s (.callNext gate) = true ↔
          k < runs ∨ EndsNode (s.callbacks r) := by
        simp only [wakesLoop, hh, Bool.or_eq_true, hany, decide_eq_true_eq, not_lt.mpr hi,
          false_or]
      rw [hlast, hwakes, ← hran]
      omega

end Step

/-! ## Runs -/

theorem wakeSound_initial (S : SimConfig) (scheduler : SchedulerState) :
    WakeSound (.initial S scheduler) :=
  ⟨fun _ _ _ hmem => absurd hmem List.not_mem_nil, fun _ _ _ _ hh => by cases hh⟩

/-- **The wake-ups of a run are retried exactly when** all its steps meet the condition. -/
theorem retried_iff_wakesLoop (S : SimConfig) (scheduler : SchedulerState)
    {acts : List SimulatorAct} {s : Simulator}
    (hrun : run (simulatorStep S) (.initial S scheduler) acts = some s) :
    (∀ bs, bs <+: acts → ∀ t, run (simulatorStep S) (.initial S scheduler) bs = some t →
      t.Retried) ↔
      Along (simulatorStep S) (fun s act => wakesLoop s act = true) (.initial S scheduler)
        acts := by
  have hinitial : (Simulator.initial S scheduler).Retried := fun e he => absurd he List.not_mem_nil
  apply @forall_prefix_iff_along _ _ _ Simulator.Retried
    (fun s => s.sim.fault = none → WakeSound s) _ _ _ _ _ hrun hinitial
  · exact fun _ => wakeSound_initial S scheduler
  · intro s act t hretried hsound ht
    refine ⟨wakeSound_step hsound ht, ?_⟩
    apply retried_step_iff _ hretried ht
    apply hsound
    unfold simulatorStep at ht
    split at ht
    · cases ht
    · next hrunning => simpa using hrunning

/-! ## A refused computation -/

/-- A computation on the cpu of `runtime` µs, and one on the gpu that needs the third dimension. -/
def debouncedTrace (runtime : ℕ) : Trace where
  nodes := [{ plainNode 0 .comp [] 0 0 with isCpuOp := true, runtime := runtime },
    { plainNode 1 .comp [] 0 0 with reconfigDim := some 3 }]
  nodup := by simp [plainNode]
  deps_mem := by simp [plainNode]

/-- One rank; the request for the dimension is batched first. -/
def debounced (runtime : ℕ) : SimConfig where
  stages := ⟨true, 1, [1, 3], by decide, fun _ => []⟩
  npus := 1
  trace := fun _ => debouncedTrace runtime
  group := fun _ => ⟨[0], by decide⟩
  commToTopo := fun _ => []
  replayOnly := false
  rooflineEnabled := false
  compTime := fun _ => 1

/-- The computation on the gpu is refused, and its wake-up is processed. -/
def wakeUpRun : List SimulatorAct :=
  [.callRank, .resume idleGate, .resume idleGate, .resume idleGate, .proceed, .callNext idleGate]

/-- When the computation on the cpu ends at the time of the wake-up, its end calls the loop. -/
def completionRun : List SimulatorAct :=
  wakeUpRun ++ [.resume idleGate, .resume idleGate, .callNext idleGate, .proceed,
    .callNext idleGate]

theorem retried_completionRun :
    ∃ s, run (simulatorStep (debounced 100))
      (.initial (debounced 100) (.initial (debounced 100).stages)) completionRun = some s ∧
      s.retries = [⟨0, 1, 2⟩] ∧ s.Retried := by
  have hrun : (run (simulatorStep (debounced 100))
      (.initial (debounced 100) (.initial (debounced 100).stages)) completionRun).map
        Simulator.retries = some [⟨0, 1, 2⟩] := by
    decide +kernel
  obtain ⟨s, hs, hretries⟩ := Option.map_eq_some_iff.mp hrun
  refine ⟨s, hs, hretries, ?_⟩
  exact (retried_iff_wakesLoop (debounced 100) _ hs).mpr (by decide +kernel) _ List.prefix_rfl s hs

/-- **A wake-up that tries nothing**: the refused computation waits until the other one ends. -/
theorem not_retried_debounced :
    ∃ s, run (simulatorStep (debounced 200))
      (.initial (debounced 200) (.initial (debounced 200).stages)) wakeUpRun = some s ∧
      s.now = 100000 ∧ s.queue = [(200000, .callEvents 0 none)] ∧ s.sim.refused 0 = [1] ∧
      s.retries = [⟨0, 1, 1⟩] ∧ ¬ s.Retried := by
  have hrun : (run (simulatorStep (debounced 200))
      (.initial (debounced 200) (.initial (debounced 200).stages)) wakeUpRun).map
        (fun s => (s.now, s.queue, s.sim.refused 0, s.retries)) =
        some (100000, [(200000, .callEvents 0 none)], [1], [⟨0, 1, 1⟩]) := by
    decide +kernel
  obtain ⟨s, hs, heq⟩ := Option.map_eq_some_iff.mp hrun
  simp only [Prod.mk.injEq] at heq
  obtain ⟨hnow, hqueue, hrefused, hretries⟩ := heq
  refine ⟨s, hs, hnow, hqueue, hrefused, hretries, fun h => ?_⟩
  have hlt := h ⟨0, 1, 1⟩ (by rw [hretries]; exact List.mem_cons_self)
  exact absurd hlt (lt_irrefl 1)

end Opus.Simulation
