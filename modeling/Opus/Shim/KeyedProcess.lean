import Mathlib.Data.List.Basic
import Mathlib.Logic.Function.Basic
import Opus.Library.Run
import Opus.Schedule.Keyed
import Opus.Shim.Legacy

/-!
# Scheduled requests and running collectives

With a keyed schedule no callback runs before a collective. The issuing thread looks up every
collective before it launches it. In baseline mode it sends the request itself and waits for the
acknowledgement; in provision mode it hands the request to the queue of the backend and launches
the collective, and the thread of the queue sends the request and signals that the topology is
ready. Neither path waits for the streams, so a request can be sent while every collective issued
so far is still running, and even before the triggering collective has been launched.

The rank issues every scale-out collective, but its trace, and so its schedule, holds only those of
the profiled iterations. The others trigger nothing, and still have to complete.

## Main definitions

* `profiled`: the trace of the events that a rank issues
* `KeyedProcess`, `keyedStep`: the issuing thread, the queue threads and the streams
* `sends`: the schedule row whose request a step sends
* `SafeSend`: every collective issued before the target of the row has completed
* `OnlyFirst`: no boundary but the first event of the trace is requested

## Main results

* `profiled_issuedEvents`: the trace of a run
* `exists_run_issued`: every event can be reached with no collective completed
* `sendsAfterCompletion_iff_fired`: the requests are safe exactly when every row that fires targets
  the first event the rank issues
* `sendsAfterCompletion_iff`: the requests are safe exactly when the trace has no boundary, or the
  first event that is issued is profiled and only that event is requested
-/

namespace Opus

open Transition

/-! ## Issued and recorded events -/

/-- The trace of a rank that issues these events: `record_profile_event` records those of the
profiled iterations. -/
def profiled (profileIterations : List ℕ) (issued : List Event) : List Event :=
  issued.filter fun e => e.iteration ∈ profileIterations

section Profiled

variable {profileIterations : List ℕ} {e : Event} {es : List Event}

@[simp] theorem mem_profiled :
    e ∈ profiled profileIterations es ↔ e ∈ es ∧ e.iteration ∈ profileIterations := by
  simp [profiled]

theorem profiled_cons_of_mem (h : e.iteration ∈ profileIterations) :
    profiled profileIterations (e :: es) = e :: profiled profileIterations es :=
  List.filter_cons_of_pos (decide_eq_true h)

theorem profiled_cons_of_notMem (h : e.iteration ∉ profileIterations) :
    profiled profileIterations (e :: es) = profiled profileIterations es :=
  List.filter_cons_of_neg (by simpa using h)

end Profiled

/-- The event of every scale-out collective of a run, recorded or not. -/
def issuedEvents (sh : Shim) (cs : List Coll) : List Event := trace sh (cs.map Coll.iteration) cs

/-- The event without its sequence number. -/
def Event.unnumbered (e : Event) : Event := { e with sequence := 0 }

theorem profiled_profileFrom (sh : Shim) (profileIterations : List ℕ) {iterations : List ℕ}
    {cs : List Coll} (hall : ∀ c ∈ cs, c.iteration ∈ iterations) (ks : ℕ → Counters)
    (sequence sequence' : ℕ) :
    (profiled profileIterations
        ((profileFrom sh iterations ks sequence cs).filterMap id)).map Event.unnumbered =
      ((profileFrom sh profileIterations ks sequence' cs).filterMap id).map Event.unnumbered := by
  induction cs generalizing ks sequence sequence' with
  | nil => rfl
  | cons c cs ih =>
    have hc : c.iteration ∈ iterations := hall c List.mem_cons_self
    have hrest := fun sequence sequence' => ih (fun c' hc' => hall c' (List.mem_cons_of_mem c hc'))
      (advanceMain sh ks c) sequence sequence'
    rw [profileFrom, profileFrom]
    by_cases hs : schedulable sh c = true
    · have hiter : (recordProfileEvent sh c sequence (c.count sh (ks c.backendId))).iteration =
          c.iteration := rfl
      by_cases hi : c.iteration ∈ profileIterations
      · rw [if_pos hs, if_pos hc, if_pos hs, if_pos hi, List.filterMap_cons_some (id_eq _),
          List.filterMap_cons_some (id_eq _), profiled_cons_of_mem (hiter ▸ hi)]
        exact congrArg₂ List.cons rfl (hrest _ _)
      · rw [if_pos hs, if_pos hc, if_pos hs, if_neg hi, List.filterMap_cons_some (id_eq _),
          List.filterMap_cons_none (id_eq _), profiled_cons_of_notMem (hiter ▸ hi)]
        exact hrest _ _
    · rw [if_neg hs, if_neg hs]
      exact hrest _ _

/-- **The trace of a run** holds the profiled ones of its events. Only the sequence numbers, which
do not count the other events, differ. -/
theorem profiled_issuedEvents (sh : Shim) (profileIterations : List ℕ) (cs : List Coll) :
    (profiled profileIterations (issuedEvents sh cs)).map Event.unnumbered =
      (trace sh profileIterations cs).map Event.unnumbered :=
  profiled_profileFrom sh profileIterations (fun _ hc => List.mem_map_of_mem hc) noCounters 0 0

/-! ## The threads and the streams -/

/-- The position of the issuing thread: before `pre_coll` of the next event, waiting in it for an
acknowledgement, or about to launch the event. -/
inductive IssuePc where
  | outside
  | waiting
  | launching
  deriving DecidableEq, Repr

/-- The thread that holds `scheduled_request_mutex`: the issuing thread or the queue thread of a
backend. -/
inductive Sender where
  | issuing
  | queue (backend : ℕ)
  deriving DecidableEq, Repr

/-- A process that replays a keyed schedule. -/
structure KeyedProcess where
  topoReady : Bool
  /-- the number of events launched on their streams -/
  issued : ℕ
  pc : IssuePc
  /-- the pending tasks of every backend, each as the row it requests -/
  preQueue : ℕ → List (Event × Event)
  request : Option Sender
  /-- the number of completed events of every backend -/
  completed : ℕ → ℕ

/-- The process before its first event. -/
def KeyedProcess.initial : KeyedProcess := ⟨true, 0, .outside, fun _ => [], none, fun _ => 0⟩

/-- The steps of a process. -/
inductive KeyedAction where
  /-- the issuing thread runs `pre_coll` of the next event, up to the acknowledgement -/
  | enter
  /-- the issuing thread launches the event -/
  | launch
  /-- the queue thread of a backend takes a task and sends its request -/
  | pop (backend : ℕ)
  /-- the acknowledgement of the outstanding request arrives -/
  | ack
  /-- the stream of a backend completes its oldest event -/
  | complete (backend : ℕ)
  deriving DecidableEq, Repr

/-- The events of a backend. -/
def eventsOn (events : List Event) (backend : ℕ) : List Event :=
  events.filter fun e => e.backend = backend

/-- One step of a process that issues the events `issued` with the schedule `rows`. -/
def keyedStep (provision : Bool) (rows : List (Event × Event)) (issued : List Event)
    (s : KeyedProcess) : KeyedAction → Option KeyedProcess
  | .enter =>
    if s.pc = .outside ∧ (provision = true → s.topoReady = true) then
      issued[s.issued]?.bind fun e =>
        match firstRow rows e with
        | none => some { s with pc := .launching }
        | some row =>
          if provision then
            some { s with
              topoReady := false
              preQueue := Function.update s.preQueue e.backend (s.preQueue e.backend ++ [row])
              pc := .launching }
          else if s.request = none then
            some { s with request := some .issuing, pc := .waiting }
          else none
    else none
  | .launch =>
    if s.pc = .launching then some { s with issued := s.issued + 1, pc := .outside } else none
  | .pop b =>
    match s.request, s.preQueue b with
    | none, _ :: tasks =>
      some { s with request := some (.queue b), preQueue := Function.update s.preQueue b tasks }
    | _, _ => none
  | .ack =>
    match s.request with
    | some .issuing => some { s with request := none, pc := .launching }
    | some (.queue _) => some { s with request := none, topoReady := true }
    | none => none
  | .complete b =>
    if s.completed b < (eventsOn (issued.take s.issued) b).length then
      some { s with completed := Function.update s.completed b (s.completed b + 1) }
    else none

/-- The row whose request a step sends. -/
def sends (provision : Bool) (rows : List (Event × Event)) (issued : List Event)
    (s : KeyedProcess) : KeyedAction → Option (Event × Event)
  | .enter => if provision then none else issued[s.issued]?.bind (firstRow rows)
  | .pop b => (s.preQueue b).head?
  | _ => none

/-- Every event that is issued before the target of the row has completed on its stream. -/
def SafeSend (issued : List Event) (s : KeyedProcess) (row : Event × Event) : Prop :=
  ∀ i j e, issued[i]? = some e → issued[j]? = some row.2 → i < j →
    (eventsOn (issued.take i) e.backend).length < s.completed e.backend

/-- In every interleaving, every request is sent after the events that are issued before its target
have completed. -/
def SendsAfterCompletion (provision : Bool) (keys : List Key) (profileIterations : List ℕ)
    (issued : List Event) : Prop :=
  let rows := synchronizedTransitions keys provision (profiled profileIterations issued)
  ∀ (as : List KeyedAction) (s s' : KeyedProcess) (a : KeyedAction) (row : Event × Event),
    run (keyedStep provision rows issued) .initial as = some s →
    keyedStep provision rows issued s a = some s' →
    sends provision rows issued s a = some row → SafeSend issued s row

/-! ## The rows that fire -/

section Rows

variable {provision : Bool} {rows : List (Event × Event)} {issued : List Event}

/-- A process between two issued, with no request outstanding and nothing completed. -/
def KeyedProcess.idle (issued : ℕ) : KeyedProcess :=
  ⟨true, issued, .outside, fun _ => [], none, fun _ => 0⟩

/-- Every event can be reached with no collective completed. -/
theorem exists_run_issued (provision : Bool) (rows : List (Event × Event)) {n : ℕ}
    (hn : n ≤ issued.length) :
    ∃ as, run (keyedStep provision rows issued) .initial as = some (.idle n) := by
  induction n with
  -- one event after the other, acknowledged at once, while no stream makes progress
  | zero => exact ⟨[], rfl⟩
  | succ n ih =>
    obtain ⟨as, has⟩ := ih (Nat.le_of_succ_le hn)
    have hget : issued[n]? = some issued[n] := List.getElem?_eq_getElem hn
    cases hrow : firstRow rows issued[n] with
    | none =>
      refine ⟨as ++ [.enter, .launch], ?_⟩
      rw [run_append_of_run has]
      simp [run_cons, keyedStep, KeyedProcess.idle, hget, hrow]
    | some row =>
      cases provision with
      | false =>
        refine ⟨as ++ [.enter, .ack, .launch], ?_⟩
        rw [run_append_of_run has]
        simp [run_cons, keyedStep, KeyedProcess.idle, hget, hrow]
      | true =>
        refine ⟨as ++ [.enter, .launch, .pop issued[n].backend, .ack], ?_⟩
        rw [run_append_of_run has]
        simp [run_cons, keyedStep, KeyedProcess.idle, hget, hrow]

/-- The row is fired by an event that is issued. -/
def Fired (rows : List (Event × Event)) (issued : List Event) (row : Event × Event) : Prop :=
  ∃ e ∈ issued, firstRow rows e = some row

/-- Every queued task was fired by an event that is issued. -/
def QueueFired (rows : List (Event × Event)) (issued : List Event)
    (preQueue : ℕ → List (Event × Event)) : Prop :=
  ∀ b, ∀ row ∈ preQueue b, Fired rows issued row

theorem QueueFired.update {preQueue : ℕ → List (Event × Event)}
    (h : QueueFired rows issued preQueue) (b : ℕ) {tasks : List (Event × Event)}
    (htasks : ∀ row ∈ tasks, Fired rows issued row) :
    QueueFired rows issued (Function.update preQueue b tasks) := by
  intro b' row hrow
  by_cases hb : b' = b
  · subst hb
    rw [Function.update_self] at hrow
    exact htasks row hrow
  · rw [Function.update_of_ne hb] at hrow
    exact h b' row hrow

theorem queueFired_step (s : KeyedProcess) (a : KeyedAction) (s' : KeyedProcess)
    (hs : QueueFired rows issued s.preQueue) (h : keyedStep provision rows issued s a = some s') :
    QueueFired rows issued s'.preQueue := by
  cases a with
  | enter =>
    simp only [keyedStep, Option.ite_none_right_eq_some, Option.bind_eq_some_iff] at h
    obtain ⟨-, e, he, h⟩ := h
    cases hrow : firstRow rows e with
    | none =>
      rw [hrow] at h
      cases h
      exact hs
    | some row =>
      rw [hrow] at h
      cases provision with
      | true =>
        cases h
        -- the issuing thread hands the row to the queue of the backend
        refine hs.update e.backend fun row' hrow' => ?_
        rcases List.mem_append.1 hrow' with hrow' | hrow'
        · exact hs _ _ hrow'
        · exact List.mem_singleton.1 hrow' ▸ ⟨e, List.mem_of_getElem? he, hrow⟩
      | false =>
        simp only [Bool.false_eq_true, if_false, Option.ite_none_right_eq_some] at h
        obtain ⟨-, h⟩ := h
        cases h
        exact hs
  | launch =>
    simp only [keyedStep, Option.ite_none_right_eq_some] at h
    obtain ⟨-, h⟩ := h
    cases h
    exact hs
  | pop b =>
    simp only [keyedStep] at h
    split at h
    · rename_i hqueue
      cases h
      -- the queue thread takes the first task, and the others stay
      exact hs.update b fun row hrow => hs b row (hqueue ▸ List.mem_cons_of_mem _ hrow)
    · cases h
  | ack =>
    simp only [keyedStep] at h
    split at h
    · cases h
      exact hs
    · cases h
      exact hs
    · cases h
  | complete b =>
    simp only [keyedStep, Option.ite_none_right_eq_some] at h
    obtain ⟨-, h⟩ := h
    cases h
    exact hs

/-- A row that is sent was fired by an event that is issued. -/
theorem exists_fired_of_sends {as : List KeyedAction} {s : KeyedProcess} {a : KeyedAction}
    {row : Event × Event} (hrun : run (keyedStep provision rows issued) .initial as = some s)
    (h : sends provision rows issued s a = some row) :
    Fired rows issued row := by
  -- in baseline mode the issuing thread sends the row itself, otherwise a queue holds it
  have hqueue : QueueFired rows issued s.preQueue :=
    run_invariant (I := fun s => QueueFired rows issued s.preQueue) queueFired_step hrun (by
      intro b row' hrow'
      cases hrow')
  cases a with
  | enter =>
    cases provision with
    | true => cases h
    | false =>
      obtain ⟨e, he, hrow⟩ := Option.bind_eq_some_iff.1 h
      exact ⟨e, List.mem_of_getElem? he, hrow⟩
  | pop b => exact hqueue b row (List.mem_of_head? h)
  | launch => cases h
  | ack => cases h
  | complete b => cases h

/-- A row that an event fires can be sent with no collective completed. -/
theorem exists_sends_of_fired {e : Event} {row : Event × Event} (he : e ∈ issued)
    (hrow : firstRow rows e = some row) :
    ∃ as s s' a, run (keyedStep provision rows issued) .initial as = some s ∧
      keyedStep provision rows issued s a = some s' ∧
      sends provision rows issued s a = some row ∧ s.completed = fun _ => 0 := by
  obtain ⟨n, hget⟩ := List.mem_iff_getElem?.1 he
  obtain ⟨as, has⟩ := exists_run_issued provision rows
    (List.getElem?_eq_some_iff.1 hget).1.le
  cases provision with
  | false =>
    refine ⟨as, .idle n, { KeyedProcess.idle n with request := some .issuing, pc := .waiting },
      .enter, has, ?_, ?_, rfl⟩
    · simp [keyedStep, KeyedProcess.idle, hget, hrow]
    · simp [sends, KeyedProcess.idle, hget, hrow]
  | true =>
    -- the queue thread may send before the triggering event is launched
    have henter : keyedStep true rows issued (.idle n) .enter =
        some ⟨false, n, .launching, Function.update (fun _ => []) e.backend [row], none,
          fun _ => 0⟩ := by
      simp [keyedStep, KeyedProcess.idle, hget, hrow]
    refine ⟨as ++ [.enter],
      ⟨false, n, .launching, Function.update (fun _ => []) e.backend [row], none, fun _ => 0⟩,
      ⟨false, n, .launching, fun _ => [], some (.queue e.backend), fun _ => 0⟩,
      .pop e.backend, ?_, ?_, ?_, ?_⟩
    · rw [run_append_of_run has, run_cons_of_step henter, run_nil]
    · simp [keyedStep]
    · simp [sends]
    · rfl

end Rows

/-- The requests are safe exactly when every row that fires targets the first event. -/
theorem sendsAfterCompletion_iff_fired {provision : Bool} {keys : List Key}
    {profileIterations : List ℕ} {issued : List Event}
    (hkeys : ((profiled profileIterations issued).map Event.key).Nodup) :
    SendsAfterCompletion provision keys profileIterations issued ↔
      ∀ e ∈ issued, ∀ row, firstRow
        (synchronizedTransitions keys provision (profiled profileIterations issued)) e = some row →
          issued.head? = some row.2 := by
  have htarget : ∀ {e : Event} {row : Event × Event}, firstRow
      (synchronizedTransitions keys provision (profiled profileIterations issued)) e = some row →
        row.2 ∈ profiled profileIterations issued := fun hrow =>
    (synchronizedTransitions_target_mem (List.mem_of_find?_eq_some hrow)).1
  constructor
  · intro hsafe e he row hrow
    obtain ⟨as, s, s', a, hrun, hstep, hsends, hcompleted⟩ :=
      exists_sends_of_fired he hrow
    obtain ⟨j, hj⟩ := List.mem_iff_getElem?.1 (mem_profiled.1 (htarget hrow)).1
    cases j with
    | zero => rwa [← List.head?_eq_getElem?] at hj
    | succ j =>
      -- the first event is among those issued before the target, and has not completed
      cases hissued : issued with
      | nil => simp [hissued] at he
      | cons e₀ es =>
        have hlt := hsafe as s s' a row hrun hstep hsends 0 (j + 1) e₀ (by simp [hissued]) hj
          (Nat.succ_pos j)
        rw [hcompleted] at hlt
        exact absurd hlt (Nat.not_lt_zero _)
  · intro hfired as s s' a row hrun _ hsends i j e _ hj hij
    obtain ⟨e', he', hrow⟩ := exists_fired_of_sends hrun hsends
    have hhead := hfired e' he' row hrow
    have hmem := htarget hrow
    -- the target is the first event, and is issued once
    cases issued with
    | nil => cases hhead
    | cons e₀ es =>
      obtain rfl := Option.some.inj hhead
      cases j with
      | zero => exact absurd hij (Nat.not_lt_zero i)
      | succ j =>
        have hiter := (mem_profiled.1 hmem).2
        have hnodup := hkeys.of_map
        rw [profiled_cons_of_mem hiter, List.nodup_cons] at hnodup
        rw [List.getElem?_cons_succ] at hj
        exact absurd (mem_profiled.2 ⟨List.mem_of_getElem? hj, hiter⟩) hnodup.1

/-! ## Boundaries -/

/-- Among the boundaries of the trace only the first event is requested: there is no boundary after
the second event, and the second event is a boundary only where its row shares its trigger with
the row of the first and is lost. -/
def OnlyFirst (keys : List Key) (provision : Bool) : List Event → Prop
  | e₀ :: e₁ :: es =>
    (∀ e ∈ es, e.key ∉ keys) ∧
      (e₁.key ∈ keys → provision = true ∧ e₀.key ∈ keys ∧ e₁.iteration = e₀.iteration)
  | _ => True

section Boundaries

variable {keys : List Key} {provision : Bool} {e₀ e₁ : Event} {es : List Event}

theorem fresh_of_nodup {events : List Event} (hkeys : (events.map Event.key).Nodup) :
    Fresh none events := by
  simpa [Fresh] using hkeys

/-- The row of a boundary is fired by the boundary itself, or the boundary's predecessor fires some
row. -/
theorem exists_fired_of_boundary (keys : List Key) (provision : Bool) {pre post : List Event}
    {p e : Event} (hkeys : ((pre ++ p :: e :: post).map Event.key).Nodup) (he : e.key ∈ keys) :
    ∃ x ∈ [p, e], ∃ row,
      firstRow (synchronizedTransitions keys provision (pre ++ p :: e :: post)) x = some row ∧
        row.2 ∈ [p, e] := by
  have hp := firstRow_of_split keys provision pre (fresh_of_nodup hkeys)
  have hassoc : pre ++ p :: e :: post = (pre ++ [p]) ++ e :: post := by simp
  have he' := firstRow_of_split keys provision (pre ++ [p])
    (fresh_of_nodup (hassoc ▸ hkeys))
  rw [← hassoc] at he'
  -- the trigger is the event itself, or in provision mode the one before it
  rcases trigger_mem provision (some p) e with hself | hprev
  · refine ⟨e, by simp, (e, e), ?_, by simp⟩
    rw [synchronizedTransitions, he', if_pos]
    exact ⟨he, by simpa using hself⟩
  · have htrig : trigger provision (some p) e = p := (Option.some.inj hprev).symm
    -- the earlier of two rows with one trigger is the one that fires
    by_cases hs : SelfTriggered keys provision (pre.getLast?.or none) p
    · refine ⟨p, by simp, (p, p), ?_, by simp⟩
      rw [synchronizedTransitions, hp, if_pos hs]
    · refine ⟨p, by simp, (p, e), ?_, by simp⟩
      rw [synchronizedTransitions, hp, if_neg hs]
      simp [Provisioned, he, htrig]

/-- When every fired row targets the first event, only the first event is requested. -/
theorem onlyFirst_of_fired (hkeys : ((e₀ :: e₁ :: es).map Event.key).Nodup)
    (hfired : ∀ e ∈ e₀ :: e₁ :: es, ∀ row,
      firstRow (synchronizedTransitions keys provision (e₀ :: e₁ :: es)) e = some row →
        row.2 = e₀) :
    OnlyFirst keys provision (e₀ :: e₁ :: es) := by
  have hnodup : (e₀ :: e₁ :: es).Nodup := hkeys.of_map
  refine ⟨fun e he hkey => ?_, fun hkey => ?_⟩
  · -- a later boundary and its predecessor both come after the first event
    obtain ⟨pre, p, post, hsplit⟩ : ∃ pre p post, e₁ :: es = pre ++ p :: e :: post := by
      obtain ⟨before, post, rfl⟩ := List.append_of_mem he
      obtain ⟨pre, p, hpre⟩ := (List.eq_nil_or_concat' (e₁ :: before)).resolve_left (by simp)
      exact ⟨pre, p, post, by rw [← List.cons_append, hpre, List.append_assoc]; rfl⟩
    rw [hsplit, ← List.cons_append] at hkeys hfired hnodup
    obtain ⟨x, hx, row, hrow, htarget⟩ :=
      exists_fired_of_boundary _ _ hkeys hkey
    have hmem : x ∈ (e₀ :: pre) ++ p :: e :: post := by
      simp only [List.mem_cons, List.not_mem_nil, or_false] at hx
      rcases hx with rfl | rfl <;> simp
    rw [hfired x hmem row hrow] at htarget
    have hnot := (List.nodup_cons.1 hnodup).1
    simp only [List.mem_cons, List.not_mem_nil, or_false] at htarget
    rcases htarget with rfl | rfl
    · exact hnot (by simp)
    · exact hnot (by simp)
  · have hne : e₁ ≠ e₀ := fun heq => (List.nodup_cons.1 hnodup).1 (by simp [heq])
    have h₀ := firstRow_of_split keys provision [] (e := e₀) (fresh_of_nodup hkeys)
    have h₁ := firstRow_of_split keys provision [e₀] (e := e₁) (fresh_of_nodup hkeys)
    -- the second event is a boundary: its row fires unless the first event's row takes its trigger
    rcases trigger_mem provision (some e₀) e₁ with hself | hprev
    · exact absurd (hfired e₁ (by simp) (e₁, e₁)
        (h₁.trans (if_pos ⟨hkey, by simpa using hself⟩))) hne
    · have htrig : trigger provision (some e₀) e₁ = e₀ := (Option.some.inj hprev).symm
      have hprov : provision = true := by
        cases provision with
        | true => rfl
        | false => exact absurd (by simpa using htrig) hne
      subst hprov
      refine ⟨rfl, ?_, ?_⟩
      -- otherwise the row of the second event is the first with this trigger
      · by_contra hkey₀
        refine hne (hfired e₀ (by simp) (e₀, e₁) (h₀.trans ?_))
        rw [if_neg fun hs => hkey₀ hs.1]
        simp [Provisioned, hkey, htrig]
      -- an event of another iteration triggers its own row
      · rw [trigger_provision] at htrig
        by_contra hiter
        rw [if_neg (Ne.symm hiter)] at htrig
        exact hne htrig

/-- When only the first event is requested, every fired row targets it. -/
theorem fired_of_onlyFirst (hkeys : ((e₀ :: e₁ :: es).map Event.key).Nodup)
    (honly : OnlyFirst keys provision (e₀ :: e₁ :: es)) :
    ∀ e ∈ e₀ :: e₁ :: es, ∀ row,
      firstRow (synchronizedTransitions keys provision (e₀ :: e₁ :: es)) e = some row →
        row.2 = e₀ := by
  obtain ⟨hlater, hsecond⟩ := honly
  have hnodup : (e₀ :: e₁ :: es).Nodup := hkeys.of_map
  have hne : e₀ ≠ e₁ := fun heq => (List.nodup_cons.1 hnodup).1 (by simp [heq])
  intro e he row hrow
  -- the first event may fire its own row; no other event fires one
  obtain ⟨pre, post, hsplit⟩ := List.append_of_mem he
  have hfirst := firstRow_of_split keys provision pre (e := e)
    (fresh_of_nodup (hsplit ▸ hkeys))
  rw [synchronizedTransitions, hsplit, hfirst] at hrow
  cases pre with
  | nil =>
    obtain ⟨rfl, hpost⟩ := List.cons.inj hsplit
    split at hrow
    · cases hrow
      rfl
    · -- the second event shares the trigger of the first, which is a boundary
      rename_i hs
      rw [← hpost] at hrow
      by_cases hp : Provisioned keys provision e₀ e₁
      · exact absurd ⟨(hsecond hp.1).2.1, by simp⟩ hs
      · simp [Option.filter_some, hp] at hrow
  | cons p pre =>
    obtain ⟨rfl, hpost⟩ := List.cons.inj hsplit
    -- later events trigger neither their own row nor that of the next event
    have hnext : ∀ e' ∈ post.head?, e'.key ∉ keys := by
      intro e' he'
      refine hlater e' ?_
      have hmem : e' ∈ post := List.mem_of_head? he'
      cases pre with
      | nil =>
        obtain ⟨-, rfl⟩ := List.cons.inj hpost
        exact hmem
      | cons q pre =>
        obtain ⟨-, rfl⟩ := List.cons.inj hpost
        simp [hmem]
    have hself : ¬ SelfTriggered keys provision ((e₀ :: pre).getLast?.or none) e := by
      rintro ⟨hkey, htrig⟩
      cases pre with
      | nil =>
        obtain ⟨rfl, -⟩ := List.cons.inj hpost
        obtain ⟨rfl, -, hiter⟩ := hsecond hkey
        simp only [List.getLast?_singleton, Option.some_or, trigger_provision, hiter,
          if_true] at htrig
        exact hne htrig
      | cons q pre =>
        obtain ⟨-, rfl⟩ := List.cons.inj hpost
        exact hlater e (by simp) hkey
    rw [if_neg hself] at hrow
    -- neither its own row nor the row of the next event is there
    cases hhead : post.head? with
    | none => simp [hhead] at hrow
    | some e' =>
      have hp : ¬ Provisioned keys provision e e' := fun hp => hnext e' hhead hp.1
      simp [hhead, Option.filter_some, hp] at hrow

end Boundaries

/-- Every row that an event of the trace fires targets its first event exactly when only that event
is requested. -/
theorem fired_iff_onlyFirst {keys : List Key} {provision : Bool} {events : List Event}
    (hkeys : (events.map Event.key).Nodup) :
    (∀ e ∈ events, ∀ row, firstRow (synchronizedTransitions keys provision events) e = some row →
      events.head? = some row.2) ↔ OnlyFirst keys provision events := by
  match events, hkeys with
  | [], _ => simp [OnlyFirst]
  -- a single event is the only possible target
  | [e₀], _ =>
    simp only [OnlyFirst, iff_true]
    intro e _ row hrow
    have hmem := (synchronizedTransitions_target_mem (List.mem_of_find?_eq_some hrow)).1
    rw [List.mem_singleton.1 hmem]
    rfl
  | e₀ :: e₁ :: es, hkeys =>
    constructor
    · intro hfired
      exact onlyFirst_of_fired hkeys fun e he row hrow =>
        (Option.some.inj (hfired e he row hrow)).symm
    · intro honly e he row hrow
      rw [fired_of_onlyFirst hkeys honly e he row hrow]
      rfl

/-- A trace with a boundary fires some row. -/
theorem exists_fired {keys : List Key} {events : List Event} (provision : Bool)
    (hkeys : (events.map Event.key).Nodup) {e : Event} (he : e ∈ events) (hkey : e.key ∈ keys) :
    ∃ x ∈ events, ∃ row,
      firstRow (synchronizedTransitions keys provision events) x = some row := by
  obtain ⟨pre, post, rfl⟩ := List.append_of_mem he
  rcases List.eq_nil_or_concat' pre with rfl | ⟨pre, p, rfl⟩
  · have hfirst := firstRow_of_split keys provision [] (fresh_of_nodup hkeys)
    exact ⟨e, he, (e, e), hfirst.trans (if_pos ⟨hkey, by simp⟩)⟩
  · rw [List.append_assoc, List.singleton_append] at hkeys ⊢
    obtain ⟨x, hx, row, hrow, -⟩ :=
      exists_fired_of_boundary keys provision hkeys hkey
    refine ⟨x, ?_, row, hrow⟩
    simp only [List.mem_cons, List.not_mem_nil, or_false] at hx
    rcases hx with rfl | rfl <;> simp

/-- **Every scheduled request is sent after the events before its target have completed, in every
interleaving, exactly when** the trace has no boundary, or the first event that the rank issues is
recorded and only that event is requested. -/
theorem sendsAfterCompletion_iff (allEvents : List (List Event)) (provision : Bool)
    (profileIterations : List ℕ) (issued : List Event)
    (hkeys : ((profiled profileIterations issued).map Event.key).Nodup) :
    SendsAfterCompletion provision (transitionKeys allEvents) profileIterations issued ↔
      (∀ e ∈ profiled profileIterations issued, e.key ∉ transitionKeys allEvents) ∨
        (issued.head? = (profiled profileIterations issued).head? ∧
          OnlyFirst (transitionKeys allEvents) provision (profiled profileIterations issued)) := by
  rw [sendsAfterCompletion_iff_fired hkeys, ← fired_iff_onlyFirst hkeys]
  set events := profiled profileIterations issued with hevents
  have hrecorded : ∀ e ∈ issued, ∀ row,
      firstRow (synchronizedTransitions (transitionKeys allEvents) provision events) e = some row →
        e ∈ events ∧ row.2 ∈ events ∧ row.2.key ∈ transitionKeys allEvents := by
    intro e he row hrow
    -- the row is triggered by an event of the trace, of the same iteration
    have hmem := List.mem_of_find?_eq_some hrow
    obtain ⟨htarget, hkey⟩ := synchronizedTransitions_target_mem hmem
    have hiter : e.iteration = row.2.iteration := by
      have htrigger : row.1.key = e.key := by simpa using List.find?_some hrow
      rw [← (synchronizedTransitionsFrom_mem hmem).2.2.2]
      exact (congrArg Prod.fst htrigger).symm
    refine ⟨mem_profiled.2 ⟨he, ?_⟩, htarget, hkey⟩
    rw [hiter]
    exact (mem_profiled.1 htarget).2
  have hhead : ∀ e, issued.head? = some e → e ∈ events → events.head? = some e := by
    intro e hissued he
    cases issued with
    | nil => cases hissued
    | cons e₀ es =>
      obtain rfl := Option.some.inj hissued
      rw [hevents, profiled_cons_of_mem (mem_profiled.1 he).2]
      rfl
  constructor
  · intro hfired
    -- with a boundary some row fires, so the first event that is issued is in the trace
    by_cases hnone : ∀ e ∈ events, e.key ∉ transitionKeys allEvents
    · exact .inl hnone
    · push Not at hnone
      obtain ⟨e, he, hkey⟩ := hnone
      obtain ⟨x, hx, row, hrow⟩ := exists_fired provision hkeys he hkey
      have hx' : x ∈ issued := (mem_profiled.1 hx).1
      have hfirst := hfired x hx' row hrow
      refine .inr ⟨?_, fun e' he' row' hrow' => ?_⟩
      · rw [hfirst, hhead _ hfirst (hrecorded x hx' row hrow).2.1]
      · have he'' : e' ∈ issued := (mem_profiled.1 he').1
        exact hhead _ (hfired e' he'' row' hrow') (hrecorded e' he'' row' hrow').2.1
  · rintro (hnone | ⟨hsame, honly⟩) e he row hrow
    · obtain ⟨-, htarget, hkey⟩ := hrecorded e he row hrow
      exact absurd hkey (hnone _ htarget)
    · rw [hsame]
      exact honly e (hrecorded e he row hrow).1 row hrow

/-- A rank with two data events in the profiled iteration 1, and one in the next iteration. -/
def twoDataEvents : List Event :=
  [⟨1, 0, 2, 0, .DP, 2, 0⟩, ⟨1, 1, 5, 0, .DP, 5, 0⟩, ⟨2, 2, 2, 1, .DP, 2, 1⟩]

theorem sendsAfterCompletion_twoDataEvents :
    SendsAfterCompletion false (transitionKeys [profiled [1] twoDataEvents]) [1] twoDataEvents :=
  (sendsAfterCompletion_iff [profiled [1] twoDataEvents] false [1] twoDataEvents (by decide)).2
    (.inr ⟨by decide, by simp, fun h => absurd h (by decide)⟩)

/-- In baseline mode, `pipelineThenData` requests the topology of the data event while its
transfer is still running. -/
theorem not_sendsAfterCompletion_pipelineThenData :
    profiled [1] pipelineThenData = pipelineThenData ∧
      (pipelineThenData.map Event.key).Nodup ∧
      ((run (keyedStep false (synchronizedTransitions (transitionKeys [pipelineThenData]) false
          pipelineThenData) pipelineThenData) .initial [.enter, .ack, .launch]).map fun s =>
        (s.issued, s.completed 1, sends false (synchronizedTransitions
          (transitionKeys [pipelineThenData]) false pipelineThenData) pipelineThenData s .enter)) =
        some (1, 0, some (⟨1, 1, 5, 0, .DP, 5, 0⟩, ⟨1, 1, 5, 0, .DP, 5, 0⟩)) ∧
      ¬ SendsAfterCompletion false (transitionKeys [pipelineThenData]) [1] pipelineThenData := by
  have hall : profiled [1] pipelineThenData = pipelineThenData := by decide
  refine ⟨hall, by decide, by decide, ?_⟩
  rw [sendsAfterCompletion_iff_fired (by rw [hall]; decide)]
  intro hfired
  have := hfired ⟨1, 1, 5, 0, .DP, 5, 0⟩ (by decide)
    (⟨1, 1, 5, 0, .DP, 5, 0⟩, ⟨1, 1, 5, 0, .DP, 5, 0⟩) (by decide)
  exact absurd this (by decide)

end Opus
