import Mathlib.Data.List.Nodup
import Mathlib.Data.List.Perm.Basic
import Mathlib.Logic.Function.Basic
import Opus.Library.Run

/-!
# Matching sends and receives

The network layer numbers the sends and the receives of a channel, which is a tag, a source, a
destination and a size, and gives both callbacks of a number to one entry of the callback tracker.
When a chunk arrives its send callback is called at once, and its receive callback too when it is
registered; otherwise the entry is marked, and the receive is called when it comes. Callbacks can
send and receive themselves.

A receive that is posted inside the callback of its own send comes between the two: it is registered
in an entry that has been looked at and will not be looked at again.

## Main definitions

* `NetworkApi`: the chunk id generator, the callback tracker and the chunks on their way
* `NetworkApi.simSend`, `NetworkApi.simRecv`, `NetworkApi.arrive`, `NetworkApi.returnSend`: the
  functions of `CommonNetworkApi.cc` and `sim_send`
* `apiStep`: one of them
* `OwnReceive`, `OwnReceiveAt`: a receive is posted inside the callback of its own send

## Main results

* `apiStep_inv`: the invariant of the tracker
* `callbacks_exactly_once`: between arrivals every callback of a matched pair has been called
  exactly once, and the assertions hold, except for the receives that are lost, which are those
  that were posted inside the callback of their own send
-/

namespace Opus.Simulation

/-! ## State -/

/-- What a send and a receive have in common. -/
structure ChannelKey where
  tag : ℕ
  src : ℕ
  dst : ℕ
  size : ℕ
  deriving DecidableEq, Repr

/-- A channel and a chunk id. -/
abbrev Slot := ChannelKey × ℕ

structure CallbackTrackerEntry (κ : Type) where
  sendEvent : Option κ
  recvEvent : Option κ
  transmissionFinished : Bool
  deriving DecidableEq, Repr

inductive Side where
  | send
  | recv
  deriving DecidableEq, Repr

/-- A callback that has been called, with its slot. -/
structure Call (κ : Type) where
  side : Side
  slot : Slot
  callback : κ
  deriving DecidableEq, Repr

/-- Where `process_chunk_arrival` is: in the callback of the send, called with or without a receive
callback, or in the callback of the receive. -/
inductive Arrival where
  | idle
  | sendHandler (slot : Slot) (both : Bool)
  | recvHandler (slot : Slot)
  deriving DecidableEq, Repr

/-- The chunk that is arriving. -/
def Arrival.slot? : Arrival → Option Slot
  | .idle => none
  | .sendHandler slot _ => some slot
  | .recvHandler slot => some slot

/-- The network layer. The sends and the receives of a channel are listed with their callbacks; the
chunk id generator counts them. `scheduled` are receive callbacks in the event queue. The last two
fields record the callbacks that have been called and the receives that were registered too late. -/
structure NetworkApi (κ : Type) where
  sends : ChannelKey → List κ
  recvs : ChannelKey → List κ
  tracker : Slot → Option (CallbackTrackerEntry κ)
  inFlight : List Slot
  scheduled : List (Call κ)
  arrival : Arrival
  /-- an assertion has failed -/
  failed : Bool
  calls : List (Call κ)
  lost : List Slot

variable {κ : Type}

namespace NetworkApi

def initial : NetworkApi κ where
  sends _ := []
  recvs _ := []
  tracker _ := none
  inFlight := []
  scheduled := []
  arrival := .idle
  failed := false
  calls := []
  lost := []

def fail (s : NetworkApi κ) : NetworkApi κ := { s with failed := true }

def setEntry (s : NetworkApi κ) (slot : Slot) (entry : Option (CallbackTrackerEntry κ)) :
    NetworkApi κ :=
  { s with tracker := Function.update s.tracker slot entry }

/-! ## Operations -/

/-- `register_send_callback` or `create_new_entry`, and the chunk is sent. -/
def simSend (s : NetworkApi κ) (key : ChannelKey) (callback : κ) : NetworkApi κ :=
  let slot := (key, (s.sends key).length)
  let s := { s with
    sends := Function.update s.sends key (s.sends key ++ [callback])
    inFlight := s.inFlight ++ [slot] }
  match s.tracker slot with
  | some entry =>
    if entry.sendEvent.isSome then s.fail
    else s.setEntry slot (some { entry with sendEvent := some callback })
  | none => s.setEntry slot (some ⟨some callback, none, false⟩)

/-- `sim_recv`. -/
def simRecv (s : NetworkApi κ) (key : ChannelKey) (callback : κ) : NetworkApi κ :=
  let slot := (key, (s.recvs key).length)
  let s := { s with recvs := Function.update s.recvs key (s.recvs key ++ [callback]) }
  match s.tracker slot with
  | some entry =>
    if entry.transmissionFinished then
      { s.setEntry slot none with scheduled := s.scheduled ++ [⟨.recv, slot, callback⟩] }
    else if entry.recvEvent.isSome then s.fail
    else s.setEntry slot (some { entry with recvEvent := some callback })
  | none => s.setEntry slot (some ⟨none, some callback, false⟩)

/-- `process_chunk_arrival` up to the callback of the send. -/
def arrive (s : NetworkApi κ) (slot : Slot) : NetworkApi κ :=
  match s.tracker slot with
  | none => s.fail
  | some entry =>
    match entry.sendEvent with
    | none => s.fail
    | some callback =>
      { s with
        calls := s.calls ++ [⟨.send, slot, callback⟩]
        arrival := .sendHandler slot entry.recvEvent.isSome }

/-- The callback of the send returns: the receive is called, or the entry is marked. -/
def returnSend (s : NetworkApi κ) (slot : Slot) (both : Bool) : NetworkApi κ :=
  match s.tracker slot with
  | none => s.fail
  | some entry =>
    if both then
      match entry.recvEvent with
      | none => s.fail
      | some callback =>
        { s with
          calls := s.calls ++ [⟨.recv, slot, callback⟩]
          arrival := .recvHandler slot }
    else
      { s.setEntry slot (some { entry with transmissionFinished := true }) with
        arrival := .idle
        lost := if entry.recvEvent.isSome then s.lost ++ [slot] else s.lost }

/-- The callback of the receive returns, and the entry is removed. -/
def returnRecv (s : NetworkApi κ) (slot : Slot) : NetworkApi κ :=
  if (s.tracker slot).isSome then { s.setEntry slot none with arrival := .idle } else s.fail

end NetworkApi

/-- A send or a receive, an arriving chunk, the return of one of its callbacks, or a scheduled
callback. -/
inductive ApiAct (κ : Type) where
  | send (key : ChannelKey) (callback : κ)
  | recv (key : ChannelKey) (callback : κ)
  | arrive (i : ℕ)
  | return
  | runScheduled (i : ℕ)
  deriving Repr

/-- One step. Chunks arrive in any order, one after the other; the workload sends and receives at
any time, also inside callbacks. -/
def apiStep (s : NetworkApi κ) : ApiAct κ → Option (NetworkApi κ)
  | .send key callback => if 0 < key.size then some (s.simSend key callback) else none
  | .recv key callback => if 0 < key.size then some (s.simRecv key callback) else none
  | .arrive i =>
    match s.arrival, s.inFlight[i]? with
    | .idle, some slot => some ({ s with inFlight := s.inFlight.eraseIdx i }.arrive slot)
    | _, _ => none
  | .return =>
    match s.arrival with
    | .idle => none
    | .sendHandler slot both => some (s.returnSend slot both)
    | .recvHandler slot => some (s.returnRecv slot)
  | .runScheduled i =>
    match s.arrival, s.scheduled[i]? with
    | .idle, some call =>
      some { s with scheduled := s.scheduled.eraseIdx i, calls := s.calls ++ [call] }
    | _, _ => none

/-- The step posts a receive inside the callback of its own send, which was called without it. -/
def OwnReceive (s : NetworkApi κ) : ApiAct κ → Prop
  | .recv key _ => s.arrival = .sendHandler (key, (s.recvs key).length) false
  | _ => False

instance (s : NetworkApi κ) : DecidablePred (OwnReceive s)
  | .recv _ _ => inferInstanceAs (Decidable (s.arrival = _))
  | .send _ _ | .arrive _ | .return | .runScheduled _ => inferInstanceAs (Decidable False)

/-- The step posts the receive of the slot inside the callback of the slot's own send, which was
called without it. -/
def OwnReceiveAt (slot : Slot) (s : NetworkApi κ) : ApiAct κ → Prop
  | .recv key _ => (key, (s.recvs key).length) = slot ∧ s.arrival = .sendHandler slot false
  | _ => False

theorem ownReceive_iff {s : NetworkApi κ} {act : ApiAct κ} :
    OwnReceive s act ↔ ∃ slot, OwnReceiveAt slot s act := by
  cases act with
  | recv key callback => simp [OwnReceive, OwnReceiveAt]
  | send key callback => simp [OwnReceive, OwnReceiveAt]
  | arrive i => simp [OwnReceive, OwnReceiveAt]
  | «return» => simp [OwnReceive, OwnReceiveAt]
  | runScheduled i => simp [OwnReceive, OwnReceiveAt]

/-! ## The invariant -/

namespace NetworkApi

/-- The callback of the send with this number. -/
def sendAt (s : NetworkApi κ) (slot : Slot) : Option κ := (s.sends slot.1)[slot.2]?

/-- The callback of the receive with this number. -/
def recvAt (s : NetworkApi κ) (slot : Slot) : Option κ := (s.recvs slot.1)[slot.2]?

/-- The chunk of the slot has arrived. -/
def Finished (s : NetworkApi κ) (p : Slot) : Prop :=
  (s.sendAt p).isSome = true ∧ p ∉ s.inFlight ∧ s.arrival.slot? ≠ some p

instance (s : NetworkApi κ) (p : Slot) : Decidable (s.Finished p) :=
  inferInstanceAs (Decidable (_ ∧ _ ∧ _))

/-- The entry of a slot: none before its first operation and after both callbacks have been
called. -/
def expected (s : NetworkApi κ) (p : Slot) : Option (CallbackTrackerEntry κ) :=
  if (s.Finished p ∧ (s.recvAt p).isSome = true ∧ p ∉ s.lost) ∨
      ((s.sendAt p).isNone = true ∧ (s.recvAt p).isNone = true) then none
  else some ⟨s.sendAt p, s.recvAt p, decide (s.Finished p)⟩

/-- The entry of a slot depends on the slot. -/
theorem expected_congr {s t : NetworkApi κ} {p : Slot} (hs : t.sendAt p = s.sendAt p)
    (hr : t.recvAt p = s.recvAt p) (hf : t.Finished p ↔ s.Finished p)
    (hl : p ∈ t.lost ↔ p ∈ s.lost) : t.expected p = s.expected p := by
  simp only [expected, hs, hr, hf, hl]

/-- The call is due: a send when its chunk has arrived, a receive when also the callback of the send
has returned, unless it is lost. -/
def Due (s : NetworkApi κ) (c : Call κ) : Prop :=
  match c.side with
  | .send => s.sendAt c.slot = some c.callback ∧ c.slot ∉ s.inFlight
  | .recv =>
    s.recvAt c.slot = some c.callback ∧ (s.sendAt c.slot).isSome = true ∧ c.slot ∉ s.inFlight ∧
      c.slot ∉ s.lost ∧ ∀ both, s.arrival ≠ .sendHandler c.slot both

structure Inv (s : NetworkApi κ) : Prop where
  working : s.failed = false
  nodup : s.inFlight.Nodup
  flight : ∀ p ∈ s.inFlight, (s.sendAt p).isSome = true
  arriving : ∀ p, s.arrival.slot? = some p → (s.sendAt p).isSome = true ∧ p ∉ s.inFlight
  both : ∀ p, s.arrival = .sendHandler p true ∨ s.arrival = .recvHandler p →
    (s.recvAt p).isSome = true
  lost : ∀ p ∈ s.lost, (s.sendAt p).isSome = true ∧ (s.recvAt p).isSome = true ∧
    p ∉ s.inFlight ∧ s.arrival.slot? ≠ some p
  tracker : ∀ p, s.tracker p = s.expected p
  once : (s.calls ++ s.scheduled).Nodup
  called : ∀ c, c ∈ s.calls ++ s.scheduled ↔ s.Due c
  scheduled : ∀ c ∈ s.scheduled, c.side = .recv

variable {s t : NetworkApi κ}

/-- The entry of a slot that an operation has nothing to do with. -/
theorem Inv.tracker_frame (h : s.Inv) {p : Slot} (ht : t.tracker p = s.tracker p)
    (hs : t.sendAt p = s.sendAt p) (hr : t.recvAt p = s.recvAt p)
    (hf : t.Finished p ↔ s.Finished p) (hl : p ∈ t.lost ↔ p ∈ s.lost) :
    t.tracker p = t.expected p := by
  rw [ht, h.tracker, expected_congr hs hr hf hl]

/-- One more operation on a channel. -/
theorem getElem?_update_append (ops : ChannelKey → List κ) (key : ChannelKey) (callback : κ)
    (p : Slot) :
    (Function.update ops key (ops key ++ [callback]) p.1)[p.2]? =
      if p = (key, (ops key).length) then some callback else (ops p.1)[p.2]? := by
  obtain ⟨k, i⟩ := p
  by_cases hk : k = key
  · subst hk
    rw [Function.update_self, List.getElem?_append]
    by_cases hi : i = (ops k).length
    · simp [hi]
    · by_cases hlt : i < (ops k).length
      · simp [hlt, hi]
      · have hnone : (ops k)[i]? = none := List.getElem?_eq_none (by omega)
        have hgt : 0 < i - (ops k).length := by omega
        simp [hlt, hi, List.getElem?_singleton]
        omega
  · simp [hk]

theorem sendAt_length (s : NetworkApi κ) (key : ChannelKey) :
    s.sendAt (key, (s.sends key).length) = none := List.getElem?_eq_none (Nat.le_refl _)

theorem recvAt_length (s : NetworkApi κ) (key : ChannelKey) :
    s.recvAt (key, (s.recvs key).length) = none := List.getElem?_eq_none (Nat.le_refl _)

/-- A slot whose send has not been posted. -/
theorem Inv.of_sendAt_none (h : s.Inv) {p : Slot} (hp : s.sendAt p = none) :
    p ∉ s.inFlight ∧ p ∉ s.lost ∧ s.arrival.slot? ≠ some p := by
  refine ⟨fun hf => ?_, fun hl => ?_, fun ha => ?_⟩
  · simpa [hp] using h.flight p hf
  · simpa [hp] using (h.lost p hl).1
  · simpa [hp] using (h.arriving p ha).1

/-- A slot whose receive has not been posted. -/
theorem Inv.of_recvAt_none (h : s.Inv) {p : Slot} (hp : s.recvAt p = none) :
    p ∉ s.lost ∧ s.arrival ≠ .recvHandler p ∧ s.arrival ≠ .sendHandler p true := by
  refine ⟨fun hl => ?_, fun ha => ?_, fun ha => ?_⟩
  · simpa [hp] using (h.lost p hl).2.1
  · simpa [hp] using h.both p (.inr ha)
  · simpa [hp] using h.both p (.inl ha)

/-! ### A send -/

theorem simSend_eq (h : s.Inv) (key : ChannelKey) (callback : κ) :
    s.simSend key callback =
      { s with
        sends := Function.update s.sends key (s.sends key ++ [callback])
        inFlight := s.inFlight ++ [(key, (s.sends key).length)]
        tracker := Function.update s.tracker (key, (s.sends key).length)
          (some ⟨some callback, s.recvAt (key, (s.sends key).length), false⟩) } := by
  have hnone := s.sendAt_length key
  obtain ⟨hf, hl, ha⟩ := h.of_sendAt_none hnone
  have hentry := h.tracker (key, (s.sends key).length)
  have hfin : ¬ s.Finished (key, (s.sends key).length) := by
    intro hfin
    simpa [hnone] using hfin.1
  simp only [expected, hnone, hfin] at hentry
  unfold simSend
  cases hr : s.recvAt (key, (s.sends key).length) with
  | none =>
    simp [hr] at hentry
    simp [hentry, setEntry]
  | some r =>
    simp [hr] at hentry
    simp [hentry, setEntry]

/-- A send keeps the invariant. -/
theorem simSend_inv (h : s.Inv) (key : ChannelKey) (callback : κ) :
    (s.simSend key callback).Inv := by
  have hnone := s.sendAt_length key
  obtain ⟨hf, hl, ha⟩ := h.of_sendAt_none hnone
  have heq := simSend_eq h key callback
  generalize hp : ((key, (s.sends key).length) : Slot) = p₀ at *
  generalize s.simSend key callback = t at *
  have hsend : ∀ p, t.sendAt p = if p = p₀ then some callback else s.sendAt p := by
    intro p
    rw [heq, ← hp]
    exact getElem?_update_append s.sends key callback p
  have hrecv : ∀ p, t.recvAt p = s.recvAt p := fun p => by rw [heq]; rfl
  have hflight : ∀ p, p ∈ t.inFlight ↔ p ∈ s.inFlight ∨ p = p₀ := by
    intro p
    rw [heq]
    simp
  have harrival : t.arrival = s.arrival := by rw [heq]
  have hlost : t.lost = s.lost := by rw [heq]
  have hsent : ∀ p, (s.sendAt p).isSome = true → p ≠ p₀ := by
    rintro p hs rfl
    simp [hnone] at hs
  constructor
  case working =>
    rw [heq]
    exact h.working
  case nodup =>
    rw [heq]
    exact List.nodup_append.mpr ⟨h.nodup, List.nodup_singleton _, by
      intro p hps q hq
      rw [List.mem_singleton.mp hq]
      rintro rfl
      exact hf hps⟩
  case flight =>
    intro p hps
    rw [hsend]
    split
    · rfl
    · next hne => exact h.flight p (((hflight p).mp hps).resolve_right hne)
  case arriving =>
    intro p hps
    rw [harrival] at hps
    obtain ⟨hs, hnot⟩ := h.arriving p hps
    rw [hsend, if_neg (hsent p hs), hflight, not_or]
    exact ⟨hs, hnot, hsent p hs⟩
  case both =>
    rw [harrival]
    intro p hps
    rw [hrecv]
    exact h.both p hps
  case lost =>
    rw [hlost, harrival]
    intro p hps
    obtain ⟨hs, hr, hnot, hne⟩ := h.lost p hps
    rw [hsend, if_neg (hsent p hs), hrecv, hflight, not_or]
    exact ⟨hs, hr, ⟨hnot, hsent p hs⟩, hne⟩
  case tracker =>
    intro p
    by_cases hpp : p = p₀
    · subst hpp
      have htrack : t.tracker p = some ⟨some callback, s.recvAt p, false⟩ := by
        rw [heq]
        exact Function.update_self ..
      simp [htrack, expected, Finished, hsend, hrecv, hflight]
    · have htrack : t.tracker p = s.tracker p := by
        rw [heq]
        exact Function.update_of_ne hpp ..
      refine h.tracker_frame htrack ?_ (hrecv p) ?_ (by rw [hlost])
      · rw [hsend, if_neg hpp]
      · simp only [Finished, hsend, harrival, hflight, hpp, or_false, if_false]
  case once =>
    rw [heq]
    exact h.once
  case called =>
    intro c
    have hcalls : c ∈ t.calls ++ t.scheduled ↔ s.Due c := by
      rw [heq]
      exact h.called c
    rw [hcalls]
    unfold Due
    cases c.side with
    | send =>
      simp only [hsend, hflight]
      by_cases hpp : c.slot = p₀ <;> simp [hpp, hnone]
    | recv =>
      simp only [hsend, hrecv, hflight, harrival, hlost]
      by_cases hpp : c.slot = p₀ <;> simp [hpp, hnone]
  case scheduled =>
    rw [heq]
    exact h.scheduled

/-! ### A receive -/

theorem simRecv_eq (h : s.Inv) (key : ChannelKey) (callback : κ) :
    s.simRecv key callback =
      { s with
        recvs := Function.update s.recvs key (s.recvs key ++ [callback])
        tracker := Function.update s.tracker (key, (s.recvs key).length)
          (if s.Finished (key, (s.recvs key).length) then none
            else some ⟨s.sendAt (key, (s.recvs key).length), some callback, false⟩)
        scheduled := if s.Finished (key, (s.recvs key).length) then
          s.scheduled ++ [⟨.recv, (key, (s.recvs key).length), callback⟩] else s.scheduled } := by
  have hnone := s.recvAt_length key
  obtain ⟨hl, -, -⟩ := h.of_recvAt_none hnone
  have hentry := h.tracker (key, (s.recvs key).length)
  unfold simRecv
  generalize ((key, (s.recvs key).length) : Slot) = p₀ at *
  simp only [expected, hnone] at hentry
  by_cases hfin : s.Finished p₀
  · obtain ⟨callback', hs⟩ := Option.isSome_iff_exists.mp hfin.1
    simp [hs, hfin] at hentry
    simp [hfin, hentry, setEntry]
  · cases hs : s.sendAt p₀ with
    | none =>
      simp [hs, hfin] at hentry
      simp [hfin, hentry, setEntry]
    | some callback' =>
      simp [hs, hfin] at hentry
      simp [hfin, hentry, setEntry]

/-- A receive keeps the invariant. -/
theorem simRecv_inv (h : s.Inv) (key : ChannelKey) (callback : κ) :
    (s.simRecv key callback).Inv := by
  have hnone := s.recvAt_length key
  obtain ⟨hl, hrh, hboth⟩ := h.of_recvAt_none hnone
  have heq := simRecv_eq h key callback
  generalize hp : ((key, (s.recvs key).length) : Slot) = p₀ at *
  generalize s.simRecv key callback = t at *
  have hsend : ∀ p, t.sendAt p = s.sendAt p := fun p => by rw [heq]; rfl
  have hrecv : ∀ p, t.recvAt p = if p = p₀ then some callback else s.recvAt p := by
    intro p
    rw [heq, ← hp]
    exact getElem?_update_append s.recvs key callback p
  have hflight : t.inFlight = s.inFlight := by rw [heq]
  have harrival : t.arrival = s.arrival := by rw [heq]
  have hlost : t.lost = s.lost := by rw [heq]
  have hposted : ∀ p, (s.recvAt p).isSome = true → (t.recvAt p).isSome = true := by
    intro p hr
    rw [hrecv]
    split
    · rfl
    · exact hr
  -- a chunk in the callback of its send has not been given to the receive
  have hdue : s.Finished p₀ ↔ (s.sendAt p₀).isSome = true ∧ p₀ ∉ s.inFlight ∧ p₀ ∉ s.lost ∧
      ∀ both, s.arrival ≠ .sendHandler p₀ both := by
    unfold Finished
    refine and_congr_right fun _ => and_congr_right fun _ => ?_
    rw [and_iff_right hl]
    cases ha : s.arrival with
    | idle => simp [Arrival.slot?]
    | sendHandler q both => simp [Arrival.slot?]
    | recvHandler q =>
      rw [ha] at hrh
      have hq : q ≠ p₀ := fun hq => hrh (hq ▸ rfl)
      simp [Arrival.slot?, hq]
  have hcall : (⟨.recv, p₀, callback⟩ : Call κ) ∉ s.calls ++ s.scheduled := by
    rw [h.called]
    intro hd
    have hr : s.recvAt p₀ = some callback := hd.1
    rw [hnone] at hr
    cases hr
  constructor
  case working =>
    rw [heq]
    exact h.working
  case nodup =>
    rw [hflight]
    exact h.nodup
  case flight =>
    intro p hps
    rw [hflight] at hps
    rw [hsend]
    exact h.flight p hps
  case arriving =>
    intro p hps
    rw [harrival] at hps
    rw [hsend, hflight]
    exact h.arriving p hps
  case both =>
    rw [harrival]
    exact fun p hps => hposted p (h.both p hps)
  case lost =>
    rw [hlost, harrival, hflight]
    intro p hps
    obtain ⟨hs, hr, hnot, hne⟩ := h.lost p hps
    exact ⟨by rw [hsend]; exact hs, hposted p hr, hnot, hne⟩
  case tracker =>
    intro p
    have hfin : t.Finished p ↔ s.Finished p := by rw [Finished, hsend, hflight, harrival, Finished]
    by_cases hpp : p = p₀
    · subst hpp
      have htrack : t.tracker p =
          if s.Finished p then none else some ⟨s.sendAt p, some callback, false⟩ := by
        rw [heq]
        exact Function.update_self ..
      simp only [htrack, expected, hfin, hsend, hrecv, hlost, hl, if_true]
      by_cases hf : s.Finished p <;> simp [hf]
    · have htrack : t.tracker p = s.tracker p := by
        rw [heq]
        exact Function.update_of_ne hpp ..
      exact h.tracker_frame htrack (hsend p) (by rw [hrecv, if_neg hpp]) hfin (by rw [hlost])
  case once =>
    rw [heq]
    by_cases hfin : s.Finished p₀
    · simp only [hfin, if_true]
      rw [← List.append_assoc]
      exact List.nodup_append.mpr ⟨h.once, List.nodup_singleton _, by
        intro c hc d hd
        rw [List.mem_singleton.mp hd]
        rintro rfl
        exact hcall hc⟩
    · simp only [hfin, if_false]
      exact h.once
  case called =>
    intro c
    have hcalls : c ∈ t.calls ++ t.scheduled ↔
        s.Due c ∨ (s.Finished p₀ ∧ c = ⟨.recv, p₀, callback⟩) := by
      rw [heq, ← h.called]
      by_cases hfin : s.Finished p₀ <;> simp [hfin, or_assoc]
    rw [hcalls]
    obtain ⟨side, slot, callback'⟩ := c
    unfold Due
    cases side with
    | send => simp only [hsend, hflight, Call.mk.injEq, reduceCtorEq, false_and, and_false, or_false]
    | recv =>
      simp only [hsend, hrecv, hflight, harrival, hlost]
      by_cases hpp : slot = p₀
      · subst hpp
        simp only [hnone, hdue, if_true, Call.mk.injEq, true_and, reduceCtorEq, false_and, false_or,
          Option.some.injEq]
        tauto
      · simp [hpp]
  case scheduled =>
    rw [heq]
    intro c hc
    by_cases hfin : s.Finished p₀
    · simp only [hfin, if_true] at hc
      rcases List.mem_append.mp hc with hc | hc
      · exact h.scheduled c hc
      · rw [List.mem_singleton.mp hc]
    · simp only [hfin, if_false] at hc
      exact h.scheduled c hc

/-! ### Arrivals -/

/-- A new call. -/
theorem nodup_call {calls scheduled : List (Call κ)} {c : Call κ}
    (h : (calls ++ scheduled).Nodup) (hc : c ∉ calls ++ scheduled) :
    (calls ++ [c] ++ scheduled).Nodup := by
  have hperm : (calls ++ [c] ++ scheduled).Perm (c :: (calls ++ scheduled)) := by
    rw [List.append_assoc]
    exact List.perm_middle
  exact hperm.nodup_iff.mpr (List.nodup_cons.mpr ⟨hc, h⟩)

/-- The entry of a chunk that is on its way or arriving. -/
theorem Inv.tracker_of_open (h : s.Inv) {p : Slot} {callback : κ} (hs : s.sendAt p = some callback)
    (hp : p ∈ s.inFlight ∨ s.arrival.slot? = some p) :
    s.tracker p = some ⟨some callback, s.recvAt p, false⟩ := by
  have hfin : ¬ s.Finished p := fun hf => hp.elim hf.2.1 hf.2.2
  have hentry := h.tracker p
  simp only [expected, hfin, hs] at hentry
  simpa using hentry

theorem arrive_eq (h : s.Inv) {p : Slot} (hmem : p ∈ s.inFlight) (rest : List Slot) :
    ∃ callback, s.sendAt p = some callback ∧ ({ s with inFlight := rest }.arrive p) =
      { s with
        inFlight := rest
        calls := s.calls ++ [⟨.send, p, callback⟩]
        arrival := .sendHandler p (s.recvAt p).isSome } := by
  obtain ⟨callback, hs⟩ := Option.isSome_iff_exists.mp (h.flight p hmem)
  refine ⟨callback, hs, ?_⟩
  simp only [arrive, h.tracker_of_open hs (.inl hmem)]

/-- A chunk arrives. -/
theorem arrive_inv (h : s.Inv) (hidle : s.arrival = .idle) {i : ℕ} {p : Slot}
    (hi : s.inFlight[i]? = some p) :
    ({ s with inFlight := s.inFlight.eraseIdx i }.arrive p).Inv := by
  obtain ⟨hlt, hget⟩ := List.getElem?_eq_some_iff.mp hi
  have hmem : p ∈ s.inFlight := hget ▸ List.getElem_mem hlt
  obtain ⟨callback, hs, heq⟩ := arrive_eq h hmem (s.inFlight.eraseIdx i)
  have hrest : ∀ q, q ∈ s.inFlight.eraseIdx i ↔ q ∈ s.inFlight ∧ q ≠ p := by
    intro q
    rw [← List.Nodup.erase_getElem h.nodup i hlt, hget, h.nodup.mem_erase_iff, and_comm]
  -- a chunk in flight has not arrived, so its receive is not lost
  have hlostp : p ∉ s.lost := fun hl => (h.lost p hl).2.2.1 hmem
  generalize ({ s with inFlight := s.inFlight.eraseIdx i }.arrive p) = t at *
  have hsend : ∀ q, t.sendAt q = s.sendAt q := fun q => by rw [heq]; rfl
  have hrecv : ∀ q, t.recvAt q = s.recvAt q := fun q => by rw [heq]; rfl
  have hflight : ∀ q, q ∈ t.inFlight ↔ q ∈ s.inFlight ∧ q ≠ p := by
    intro q
    rw [heq]
    exact hrest q
  have harrival : t.arrival = .sendHandler p (s.recvAt p).isSome := by rw [heq]
  have hlost : t.lost = s.lost := by rw [heq]
  have hnew : (⟨.send, p, callback⟩ : Call κ) ∉ s.calls ++ s.scheduled := by
    rw [h.called]
    exact fun hd => hd.2 hmem
  constructor
  case working =>
    rw [heq]
    exact h.working
  case nodup =>
    rw [heq]
    exact h.nodup.sublist (List.eraseIdx_sublist _ _)
  case flight =>
    intro q hq
    rw [hsend]
    exact h.flight q ((hflight q).mp hq).1
  case arriving =>
    intro q hq
    rw [harrival] at hq
    obtain rfl : p = q := Option.some.inj hq
    rw [hsend, hs, hflight]
    exact ⟨rfl, fun hq => hq.2 rfl⟩
  case both =>
    intro q hq
    rw [harrival] at hq
    rw [hrecv]
    rcases hq with hq | hq
    · obtain ⟨rfl, hr⟩ := Arrival.sendHandler.inj hq
      exact hr
    · cases hq
  case lost =>
    rw [hlost, harrival]
    intro q hq
    obtain ⟨hsq, hrq, hnot, -⟩ := h.lost q hq
    rw [hsend, hrecv, hflight]
    refine ⟨hsq, hrq, fun hf => hnot hf.1, fun hp => ?_⟩
    exact hlostp (Option.some.inj hp ▸ hq)
  case tracker =>
    intro q
    refine h.tracker_frame (by rw [heq]) (hsend q) (hrecv q) ?_ (by rw [hlost])
    -- the arriving chunk is still open, the others are as they were
    simp only [Finished, hsend, hflight, harrival, hidle, Arrival.slot?]
    by_cases hq : q = p
    · simp [hq, hmem]
    · simp [hq, Ne.symm hq]
  case once =>
    rw [heq]
    exact nodup_call h.once hnew
  case called =>
    intro c
    have hcalls : c ∈ t.calls ++ t.scheduled ↔ s.Due c ∨ c = ⟨.send, p, callback⟩ := by
      rw [heq, ← h.called]
      simp only [List.mem_append, List.mem_singleton]
      tauto
    rw [hcalls]
    obtain ⟨side, slot, callback'⟩ := c
    unfold Due
    cases side with
    | send =>
      simp only [hsend, hflight, Call.mk.injEq, true_and]
      by_cases hq : slot = p
      · subst hq
        simp [hs, hmem, eq_comm]
      · simp [hq]
    | recv =>
      simp only [hsend, hrecv, hflight, harrival, hlost, hidle, Call.mk.injEq, reduceCtorEq,
        false_and, or_false]
      by_cases hq : slot = p
      · subst hq
        simp [hmem]
      · simp [hq, Ne.symm hq]
  case scheduled =>
    rw [heq]
    exact h.scheduled

theorem returnSend_true_eq (h : s.Inv) {p : Slot} (ha : s.arrival = .sendHandler p true) :
    ∃ callback, s.recvAt p = some callback ∧ s.returnSend p true =
      { s with
        calls := s.calls ++ [⟨.recv, p, callback⟩]
        arrival := .recvHandler p } := by
  have hslot : s.arrival.slot? = some p := by rw [ha]; rfl
  obtain ⟨callback, hs⟩ := Option.isSome_iff_exists.mp (h.arriving p hslot).1
  obtain ⟨callback', hr⟩ := Option.isSome_iff_exists.mp (h.both p (.inl ha))
  refine ⟨callback', hr, ?_⟩
  simp only [returnSend, h.tracker_of_open hs (.inr hslot), hr, if_true]

theorem returnSend_false_eq (h : s.Inv) {p : Slot} (ha : s.arrival = .sendHandler p false) :
    s.returnSend p false =
      { s with
        tracker := Function.update s.tracker p (some ⟨s.sendAt p, s.recvAt p, true⟩)
        arrival := .idle
        lost := if (s.recvAt p).isSome then s.lost ++ [p] else s.lost } := by
  have hslot : s.arrival.slot? = some p := by rw [ha]; rfl
  obtain ⟨callback, hs⟩ := Option.isSome_iff_exists.mp (h.arriving p hslot).1
  simp [returnSend, h.tracker_of_open hs (.inr hslot), hs, setEntry]

theorem returnRecv_eq (h : s.Inv) {p : Slot} (ha : s.arrival = .recvHandler p) :
    s.returnRecv p =
      { s with
        tracker := Function.update s.tracker p none
        arrival := .idle } := by
  have hslot : s.arrival.slot? = some p := by rw [ha]; rfl
  obtain ⟨callback, hs⟩ := Option.isSome_iff_exists.mp (h.arriving p hslot).1
  simp [returnRecv, h.tracker_of_open hs (.inr hslot), setEntry]

/-- The callback of the send returns, and the receive is called. -/
theorem returnSend_true_inv (h : s.Inv) {p : Slot} (ha : s.arrival = .sendHandler p true) :
    (s.returnSend p true).Inv := by
  have hslot : s.arrival.slot? = some p := by rw [ha]; rfl
  obtain ⟨hsome, hmem⟩ := h.arriving p hslot
  obtain ⟨callback', hr, heq⟩ := returnSend_true_eq h ha
  have hlostp : p ∉ s.lost := fun hl => (h.lost p hl).2.2.2 hslot
  generalize s.returnSend p true = t at *
  have hslot' : t.arrival.slot? = s.arrival.slot? := by rw [heq, hslot]; rfl
  have hsend : ∀ q, t.sendAt q = s.sendAt q := fun q => by rw [heq]; rfl
  have hrecv : ∀ q, t.recvAt q = s.recvAt q := fun q => by rw [heq]; rfl
  have hflight : t.inFlight = s.inFlight := by rw [heq]
  have harrival : t.arrival = .recvHandler p := by rw [heq]
  have hlost : t.lost = s.lost := by rw [heq]
  have hnew : (⟨.recv, p, callback'⟩ : Call κ) ∉ s.calls ++ s.scheduled := by
    rw [h.called]
    exact fun hd => hd.2.2.2.2 true ha
  constructor
  case working =>
    rw [heq]
    exact h.working
  case nodup =>
    rw [hflight]
    exact h.nodup
  case flight =>
    intro q hq
    rw [hflight] at hq
    rw [hsend]
    exact h.flight q hq
  case arriving =>
    intro q hq
    rw [hslot'] at hq
    rw [hsend, hflight]
    exact h.arriving q hq
  case both =>
    intro q hq
    rw [harrival] at hq
    rcases hq with hq | hq
    · cases hq
    · rw [← Arrival.recvHandler.inj hq, hrecv, hr]
      rfl
  case lost =>
    intro q hq
    rw [hlost] at hq
    rw [hsend, hrecv, hflight, hslot']
    exact h.lost q hq
  case tracker =>
    intro q
    refine h.tracker_frame (by rw [heq]) (hsend q) (hrecv q) ?_ (by rw [hlost])
    rw [Finished, hsend, hflight, hslot', Finished]
  case once =>
    rw [heq]
    exact nodup_call h.once hnew
  case called =>
    intro c
    -- the receive that is called now is the only call that becomes due
    have hcalls : c ∈ t.calls ++ t.scheduled ↔ s.Due c ∨ c = ⟨.recv, p, callback'⟩ := by
      rw [heq, ← h.called]
      simp only [List.mem_append, List.mem_singleton]
      tauto
    rw [hcalls]
    obtain ⟨side, slot, callback''⟩ := c
    unfold Due
    cases side with
    | send => simp only [hsend, hflight, Call.mk.injEq, reduceCtorEq, false_and, or_false]
    | recv =>
      simp only [hsend, hrecv, hflight, harrival, hlost, ha, Call.mk.injEq, true_and]
      by_cases hq : slot = p
      · subst hq
        simp [hr, hmem, hlostp, hsome, eq_comm]
      · simp [hq, Ne.symm hq]
  case scheduled =>
    rw [heq]
    exact h.scheduled

/-- The callback of the send returns, and the entry is marked. -/
theorem returnSend_false_inv (h : s.Inv) {p : Slot} (ha : s.arrival = .sendHandler p false) :
    (s.returnSend p false).Inv := by
  have hslot : s.arrival.slot? = some p := by rw [ha]; rfl
  obtain ⟨hsome, hmem⟩ := h.arriving p hslot
  have hlostp : p ∉ s.lost := fun hl => (h.lost p hl).2.2.2 hslot
  have heq := returnSend_false_eq h ha
  generalize s.returnSend p false = t at *
  have hsend : ∀ q, t.sendAt q = s.sendAt q := fun q => by rw [heq]; rfl
  have hrecv : ∀ q, t.recvAt q = s.recvAt q := fun q => by rw [heq]; rfl
  have hflight : t.inFlight = s.inFlight := by rw [heq]
  have harrival : t.arrival = .idle := by rw [heq]
  have hlost : ∀ q, q ∈ t.lost ↔ q ∈ s.lost ∨ (q = p ∧ (s.recvAt p).isSome = true) := by
    intro q
    rw [heq]
    cases s.recvAt p <;> simp
  have hfin : ∀ q, t.Finished q ↔ s.Finished q ∨ q = p := by
    intro q
    simp only [Finished, hsend, hflight, harrival, ha, Arrival.slot?]
    by_cases hq : q = p
    · simp [hq, hsome, hmem]
    · simp [hq, Ne.symm hq]
  constructor
  case working =>
    rw [heq]
    exact h.working
  case nodup =>
    rw [hflight]
    exact h.nodup
  case flight =>
    intro q hq
    rw [hflight] at hq
    rw [hsend]
    exact h.flight q hq
  case arriving =>
    rw [harrival]
    intro q hq
    cases hq
  case both =>
    rw [harrival]
    intro q hq
    rcases hq with hq | hq <;> cases hq
  case lost =>
    rw [harrival, hflight]
    intro q hq
    rw [hsend, hrecv]
    rcases (hlost q).mp hq with hq | ⟨rfl, hr⟩
    · obtain ⟨hsq, hrq, hnot, -⟩ := h.lost q hq
      exact ⟨hsq, hrq, hnot, by simp [Arrival.slot?]⟩
    · exact ⟨hsome, hr, hmem, by simp [Arrival.slot?]⟩
  case tracker =>
    intro q
    by_cases hq : q = p
    · subst hq
      have htrack : t.tracker q = some ⟨s.sendAt q, s.recvAt q, true⟩ := by
        rw [heq]
        exact Function.update_self ..
      -- with a receive the chunk is lost and keeps its entry, without one it waits for it
      rw [htrack, expected, hsend, hrecv]
      cases hr : s.recvAt q <;> simp [hfin, hlost, hr, Option.ne_none_iff_isSome.mpr hsome]
    · have htrack : t.tracker q = s.tracker q := by
        rw [heq]
        exact Function.update_of_ne hq ..
      exact h.tracker_frame htrack (hsend q) (hrecv q) (by simp [hfin, hq]) (by simp [hlost, hq])
  case once =>
    rw [heq]
    exact h.once
  case called =>
    intro c
    have hcalls : c ∈ t.calls ++ t.scheduled ↔ s.Due c := by
      rw [heq]
      exact h.called c
    rw [hcalls]
    obtain ⟨side, slot, callback'⟩ := c
    unfold Due
    cases side with
    | send => simp only [hsend, hflight]
    | recv =>
      simp only [hsend, hrecv, hflight, harrival, hlost, ha]
      by_cases hq : slot = p
      · -- a receive that is there now is lost
        subst hq
        cases hr : s.recvAt slot <;> simp
      · simp [hq, Ne.symm hq]
  case scheduled =>
    rw [heq]
    exact h.scheduled

/-- The callback of the receive returns. -/
theorem returnRecv_inv (h : s.Inv) {p : Slot} (ha : s.arrival = .recvHandler p) :
    (s.returnRecv p).Inv := by
  have hslot : s.arrival.slot? = some p := by rw [ha]; rfl
  obtain ⟨hsome, hmem⟩ := h.arriving p hslot
  have hr := h.both p (.inr ha)
  have hlostp : p ∉ s.lost := fun hl => (h.lost p hl).2.2.2 hslot
  have heq := returnRecv_eq h ha
  generalize s.returnRecv p = t at *
  have hsend : ∀ q, t.sendAt q = s.sendAt q := fun q => by rw [heq]; rfl
  have hrecv : ∀ q, t.recvAt q = s.recvAt q := fun q => by rw [heq]; rfl
  have hflight : t.inFlight = s.inFlight := by rw [heq]
  have harrival : t.arrival = .idle := by rw [heq]
  have hlost : t.lost = s.lost := by rw [heq]
  constructor
  case working =>
    rw [heq]
    exact h.working
  case nodup =>
    rw [hflight]
    exact h.nodup
  case flight =>
    intro q hq
    rw [hflight] at hq
    rw [hsend]
    exact h.flight q hq
  case arriving =>
    rw [harrival]
    intro q hq
    cases hq
  case both =>
    rw [harrival]
    intro q hq
    rcases hq with hq | hq <;> cases hq
  case lost =>
    rw [harrival, hflight, hlost]
    intro q hq
    obtain ⟨hsq, hrq, hnot, -⟩ := h.lost q hq
    rw [hsend, hrecv]
    exact ⟨hsq, hrq, hnot, by simp [Arrival.slot?]⟩
  case tracker =>
    intro q
    have hfin : t.Finished q ↔ s.Finished q ∨ q = p := by
      simp only [Finished, hsend, hflight, harrival, ha, Arrival.slot?]
      by_cases hq : q = p
      · simp [hq, hsome, hmem]
      · simp [hq, Ne.symm hq]
    by_cases hq : q = p
    · subst hq
      have htrack : t.tracker q = none := by
        rw [heq]
        exact Function.update_self ..
      -- both callbacks have run, so the entry is gone
      rw [htrack, expected, if_pos]
      rw [hrecv, hlost, hfin]
      exact .inl ⟨.inr rfl, hr, hlostp⟩
    · have htrack : t.tracker q = s.tracker q := by
        rw [heq]
        exact Function.update_of_ne hq ..
      exact h.tracker_frame htrack (hsend q) (hrecv q) (by simp [hfin, hq]) (by rw [hlost])
  case once =>
    rw [heq]
    exact h.once
  case called =>
    intro c
    have hcalls : c ∈ t.calls ++ t.scheduled ↔ s.Due c := by
      rw [heq]
      exact h.called c
    rw [hcalls]
    obtain ⟨side, slot, callback'⟩ := c
    unfold Due
    cases side with
    | send => simp only [hsend, hflight]
    | recv => simp [hsend, hrecv, hflight, harrival, hlost, ha]
  case scheduled =>
    rw [heq]
    exact h.scheduled

/-- A scheduled receive is called. -/
theorem runScheduled_inv (h : s.Inv) {i : ℕ} {c : Call κ} (hi : s.scheduled[i]? = some c) :
    ({ s with scheduled := s.scheduled.eraseIdx i, calls := s.calls ++ [c] } : NetworkApi κ).Inv := by
  obtain ⟨hlt, hget⟩ := List.getElem?_eq_some_iff.mp hi
  have hperm : (s.calls ++ [c] ++ s.scheduled.eraseIdx i).Perm (s.calls ++ s.scheduled) := by
    rw [List.append_assoc, ← hget]
    exact (List.getElem_cons_eraseIdx_perm hlt).append_left s.calls
  exact ⟨h.working, h.nodup, h.flight, h.arriving, h.both, h.lost, h.tracker,
    hperm.nodup_iff.mpr h.once, fun d => hperm.mem_iff.trans (h.called d),
    fun d hd => h.scheduled d (List.mem_of_mem_eraseIdx hd)⟩

theorem inv_initial : (initial : NetworkApi κ).Inv where
  working := rfl
  nodup := List.nodup_nil
  flight := by simp [initial]
  arriving := by simp [initial, Arrival.slot?]
  both := by simp [initial]
  lost := by simp [initial]
  tracker := fun p => by simp [initial, expected, Finished, sendAt, recvAt]
  once := List.nodup_nil
  called := by
    rintro ⟨side, slot, callback⟩
    cases side <;> simp [initial, Due, sendAt, recvAt]
  scheduled := by simp [initial]

/-- **A step keeps the invariant.** -/
theorem apiStep_inv {act : ApiAct κ} (h : s.Inv) (hs : apiStep s act = some t) : t.Inv := by
  cases act with
  | send key callback =>
    simp only [apiStep] at hs
    split at hs
    · cases hs
      exact simSend_inv h key callback
    · cases hs
  | recv key callback =>
    simp only [apiStep] at hs
    split at hs
    · cases hs
      exact simRecv_inv h key callback
    · cases hs
  | arrive i =>
    simp only [apiStep] at hs
    split at hs
    · next slot hidle hi =>
      cases hs
      exact arrive_inv h hidle hi
    · cases hs
  | «return» =>
    simp only [apiStep] at hs
    split at hs
    · cases hs
    · next slot both ha =>
      cases hs
      cases both with
      | true => exact returnSend_true_inv h ha
      | false => exact returnSend_false_inv h ha
    · next slot ha =>
      cases hs
      exact returnRecv_inv h ha
  | runScheduled i =>
    simp only [apiStep] at hs
    split at hs
    · next call hidle hi =>
      cases hs
      exact runScheduled_inv h hi
    · cases hs

/-! ## Lost receives -/

/-- The receive of the slot is lost, or it will be when the callback of its send returns. -/
def DoomedAt (slot : Slot) (s : NetworkApi κ) : Prop :=
  slot ∈ s.lost ∨ s.arrival = .sendHandler slot false ∧ (s.recvAt slot).isSome = true

/-- Only a receive inside the callback of its own send is doomed. -/
theorem doomedAt_step {act : ApiAct κ} (h : s.Inv) (hs : apiStep s act = some t) (slot : Slot) :
    t.DoomedAt slot ↔ s.DoomedAt slot ∨ OwnReceiveAt slot s act := by
  have hsame : ∀ u : NetworkApi κ, u.lost = s.lost → u.arrival = s.arrival →
      (∀ p, u.recvAt p = s.recvAt p) → (u.DoomedAt slot ↔ s.DoomedAt slot ∨ False) := by
    intro u hl ha hr
    simp only [DoomedAt, hl, ha, hr, or_false]
  cases act with
  | send key callback =>
    simp only [apiStep] at hs
    split at hs
    · cases hs
      rw [simSend_eq h]
      exact hsame _ rfl rfl fun _ => rfl
    · cases hs
  | recv key callback =>
    simp only [apiStep] at hs
    split at hs
    · cases hs
      have hrecv : ∀ p, (s.simRecv key callback).recvAt p =
          if p = (key, (s.recvs key).length) then some callback else s.recvAt p := by
        intro p
        rw [simRecv_eq h]
        exact getElem?_update_append s.recvs key callback p
      have hlost : (s.simRecv key callback).lost = s.lost := by rw [simRecv_eq h]
      have harrival : (s.simRecv key callback).arrival = s.arrival := by rw [simRecv_eq h]
      simp only [DoomedAt, OwnReceiveAt, hlost, harrival, hrecv, or_assoc]
      refine or_congr_right ?_
      by_cases hp : slot = (key, (s.recvs key).length)
      · simp only [hp, if_true, Option.isSome_some, and_true, true_and]
        exact ⟨.inr, fun h => h.elim And.left id⟩
      · simp only [if_neg hp, Ne.symm hp, false_and, or_false]
    · cases hs
  | arrive i =>
    simp only [apiStep] at hs
    split at hs
    · next p hidle hi =>
      cases hs
      obtain ⟨hlt, hget⟩ := List.getElem?_eq_some_iff.mp hi
      obtain ⟨callback, -, heq⟩ := arrive_eq h (hget ▸ List.getElem_mem hlt)
        (s.inFlight.eraseIdx i)
      rw [heq]
      -- the callback is called without the receive only when there is none
      simp only [DoomedAt, hidle, OwnReceiveAt, or_false, Arrival.sendHandler.injEq, reduceCtorEq,
        false_and]
      refine or_iff_left ?_
      rintro ⟨⟨rfl, hnone⟩, hsome⟩
      have hsome' : (s.recvAt p).isSome = true := hsome
      rw [hnone] at hsome'
      cases hsome'
    · cases hs
  | «return» =>
    simp only [apiStep] at hs
    split at hs
    · cases hs
    · next p both ha =>
      cases hs
      cases both with
      | true =>
        obtain ⟨callback, -, heq⟩ := returnSend_true_eq h ha
        rw [heq]
        simp [DoomedAt, ha, OwnReceiveAt]
      | false =>
        rw [returnSend_false_eq h ha]
        cases hr : s.recvAt p with
        | none =>
          simp only [DoomedAt, ha, OwnReceiveAt, Arrival.sendHandler.injEq, and_true, reduceCtorEq,
            false_and, or_false, Option.isSome_none, Bool.false_eq_true, if_false]
          refine (or_iff_left ?_).symm
          rintro ⟨rfl, hsome⟩
          rw [hr] at hsome
          cases hsome
        | some callback =>
          simp only [DoomedAt, ha, OwnReceiveAt, Arrival.sendHandler.injEq, and_true, reduceCtorEq,
            false_and, or_false, Option.isSome_some, if_true, List.mem_append, List.mem_singleton]
          refine or_congr_right ⟨?_, fun h => h.1.symm⟩
          rintro rfl
          exact ⟨rfl, by rw [hr]; rfl⟩
    · next p ha =>
      cases hs
      rw [returnRecv_eq h ha]
      simp [DoomedAt, ha, OwnReceiveAt]
  | runScheduled i =>
    simp only [apiStep] at hs
    split at hs
    · cases hs
      exact hsame _ rfl rfl fun _ => rfl
    · cases hs

end NetworkApi

open Transition NetworkApi

variable {s t : NetworkApi κ}

/-- Between two arrivals exactly the receives are lost that were posted inside the callback of their
own send. -/
theorem mem_lost_iff {as : List (ApiAct κ)} (hrun : run apiStep NetworkApi.initial as = some s)
    (hidle : s.arrival = .idle) (slot : Slot) :
    slot ∉ s.lost ↔ Along apiStep (fun s act => ¬ OwnReceiveAt slot s act) NetworkApi.initial as := by
  have hall := not_iff_along (D := DoomedAt slot)
    (fun _ _ _ hi hs => ⟨apiStep_inv hi hs, doomedAt_step hi hs slot⟩) hrun inv_initial
  simpa [DoomedAt, hidle, NetworkApi.initial] using hall

/-- No receive is lost exactly when none was posted inside the callback of its own send. -/
theorem lost_eq_nil_iff {as : List (ApiAct κ)} (hrun : run apiStep NetworkApi.initial as = some s)
    (hidle : s.arrival = .idle) :
    s.lost = [] ↔ Along apiStep (fun s act => ¬ OwnReceive s act) NetworkApi.initial as := by
  have hall := not_iff_along (D := fun s => ∃ slot, DoomedAt slot s) (P := OwnReceive) (fun s act t hi hs =>
    ⟨apiStep_inv hi hs, by
      rw [ownReceive_iff, ← exists_or]
      exact exists_congr fun slot => doomedAt_step hi hs slot⟩) hrun inv_initial
  simpa [DoomedAt, hidle, NetworkApi.initial, List.eq_nil_iff_forall_not_mem] using hall

/-- **Every callback is called exactly once.** Between two arrivals no assertion has failed, the
callbacks called so far, with those in the event queue, are different, a send has been called
exactly when its chunk has arrived, and a receive exactly when also it has been posted, unless it is
lost. A receive is lost exactly when it was posted inside the callback of its own send. -/
theorem callbacks_exactly_once {as : List (ApiAct κ)}
    (hrun : run apiStep NetworkApi.initial as = some s) (hidle : s.arrival = .idle) :
    s.failed = false ∧ (s.calls ++ s.scheduled).Nodup ∧
      (∀ slot callback, ⟨.send, slot, callback⟩ ∈ s.calls ↔
        s.sendAt slot = some callback ∧ slot ∉ s.inFlight) ∧
      (∀ slot callback, ⟨.recv, slot, callback⟩ ∈ s.calls ++ s.scheduled ↔
        s.recvAt slot = some callback ∧ (s.sendAt slot).isSome = true ∧ slot ∉ s.inFlight ∧
          slot ∉ s.lost) ∧
      (∀ slot, slot ∉ s.lost ↔
        Along apiStep (fun s act => ¬ OwnReceiveAt slot s act) NetworkApi.initial as) ∧
      (s.lost = [] ↔ Along apiStep (fun s act => ¬ OwnReceive s act) NetworkApi.initial as) := by
  have h : s.Inv := run_invariant (fun _ _ _ hi hs => apiStep_inv hi hs) hrun inv_initial
  refine ⟨h.working, h.once, fun slot callback => ?_, fun slot callback => ?_,
    mem_lost_iff hrun hidle, lost_eq_nil_iff hrun hidle⟩
  · have hsend : (⟨.send, slot, callback⟩ : Call κ) ∉ s.scheduled := by
      intro hmem
      cases h.scheduled _ hmem
    have hcalled := h.called ⟨.send, slot, callback⟩
    rw [List.mem_append, or_iff_left hsend] at hcalled
    exact hcalled
  · rw [h.called]
    simp [Due, hidle]

/-- A send, its receive posted inside the callback, and the chunk of another channel. -/
def ownReceive : List (ApiAct Char) :=
  [.send ⟨0, 1, 1, 8⟩ 'a', .recv ⟨0, 0, 1, 8⟩ 'b', .send ⟨0, 0, 1, 8⟩ 'c', .arrive 0,
    .recv ⟨0, 1, 1, 8⟩ 'd', .return, .arrive 0, .return, .return]

/-- The receive is posted too late, and the other channel is not disturbed. -/
theorem callbacks_exactly_once_ownReceive :
    ∃ s, run apiStep NetworkApi.initial ownReceive = some s ∧ s.lost = [(⟨0, 1, 1, 8⟩, 0)] ∧
      (⟨.recv, (⟨0, 0, 1, 8⟩, 0), 'b'⟩ : Call Char) ∈ s.calls ++ s.scheduled ∧
      ¬ Along apiStep (fun s act => ¬ OwnReceive s act) NetworkApi.initial ownReceive := by
  refine ⟨_, rfl, rfl, ?_, ?_⟩
  · rw [(@callbacks_exactly_once Char _ ownReceive rfl rfl).2.2.2.1]
    decide
  · rw [← (@callbacks_exactly_once Char _ ownReceive rfl rfl).2.2.2.2.2]
    decide

end Opus.Simulation
