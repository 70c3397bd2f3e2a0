import Mathlib.Data.List.OfFn
import Mathlib.Logic.Function.Basic
import Opus.Library.Run

/-!
# The rail worker in emulation mode

The worker of a rail handles every connection in a thread of its own. A thread compares its id with
the last topology and remembers that topology, computes the positions at which the two differ, has
one task for each of them run by the thread pool, and stores its id as the last topology. The
comparison and the store are separate critical sections; the tasks of different threads interleave
position by position.

A thread that compares while another one is on its way to a different topology works against a
topology that is about to change.

## Main definitions

* `EmulationHandler`, `Emulation`: where the threads are, and what they share
* `emulationStep`: one step of one thread, or one task
* `Emulation.reading`: the positions read as a number
* `Emulation.Exclusive`: no thread compares while another one is on its way to a different id

## Main results

* `Emulation.Aligned`: the invariant that carries the result
* `reading_of_exclusive`: in every run of exclusive steps, the positions are those of the last
  topology whenever no thread runs, and a thread that changes nothing finds its id in place
-/

namespace Opus

open Transition

/-! ## Threads -/

/-- A topology id below `2 ^ 64`. -/
abbrev ConfigId := BitVec 64

/-- A position of the topology, from the most significant bit on. -/
abbrev BitPos := Fin 64

/-- Where a thread is in `handle_client_request`. -/
inductive EmulationHandler where
  | idle
  /-- the id has been read -/
  | received (configId : ConfigId)
  /-- the id differs from the last topology, which has been remembered -/
  | checked (configId : ConfigId) (localPastTopo : Option ConfigId)
  /-- the tasks for the differing positions have been submitted; those that have not run are left -/
  | waiting (configId : ConfigId) (futures : List BitPos)
  /-- the id has been stored -/
  | stored (configId : ConfigId)
  deriving DecidableEq, Repr

/-- The id a thread is on its way to: it has compared and not stored. -/
def EmulationHandler.target? : EmulationHandler → Option ConfigId
  | .checked configId _ => some configId
  | .waiting configId _ => some configId
  | _ => none

/-- What the threads share; the last topology is absent at the start, where the source has `-1`. The
last field records the replies `SUCCESS, CONFIG-NACK`: the id and the topology at the time. -/
structure Emulation where
  pastTopo : Option ConfigId
  topologyStates : BitPos → Bool
  handler : ℕ → EmulationHandler
  nacks : List (ConfigId × ConfigId)

namespace Emulation

def initial : Emulation := ⟨none, fun _ => false, fun _ => .idle, []⟩

/-- The last topology as a number; it is 0 at the start. -/
def past (s : Emulation) : ConfigId := s.pastTopo.getD 0

/-- The positions read as a number, position 0 most significant. -/
def reading (s : Emulation) : ConfigId :=
  (BitVec.ofBoolListBE (List.ofFn s.topologyStates)).cast List.length_ofFn

/-- The same worker with a thread somewhere else. -/
def moveTo (s : Emulation) (h : ℕ) (pc : EmulationHandler) : Emulation :=
  { s with handler := Function.update s.handler h pc }

theorem moveTo_handler_self {s : Emulation} {h : ℕ} {pc : EmulationHandler} :
    (s.moveTo h pc).handler h = pc := Function.update_self ..

theorem moveTo_handler_of_ne {s : Emulation} {h h' : ℕ} {pc : EmulationHandler} (hne : h' ≠ h) :
    (s.moveTo h pc).handler h' = s.handler h' := Function.update_of_ne hne ..

end Emulation

/-- The positions at which an id differs from the remembered topology. -/
def changedBits (localPastTopo : Option ConfigId) (configId : ConfigId) : List BitPos :=
  (List.finRange 64).filter fun i => (localPastTopo.getD 0).getMsbD i ≠ configId.getMsbD i

/-- The steps of the threads and of the thread pool. -/
inductive EmulationAction where
  /-- a thread reads its id -/
  | receive (h : ℕ) (configId : ConfigId)
  /-- a thread compares its id with the last topology -/
  | compare (h : ℕ)
  /-- a thread submits its tasks -/
  | submit (h : ℕ)
  /-- a task of a thread sets its position -/
  | task (h : ℕ) (bitPos : BitPos)
  /-- a thread whose tasks have run stores its id -/
  | store (h : ℕ)
  /-- a thread replies `SUCCESS, CONFIG-ACK` -/
  | reply (h : ℕ)
  deriving DecidableEq, Repr

/-- One step. A thread whose id is the last topology replies under the lock and ends. -/
def emulationStep (s : Emulation) : EmulationAction → Option Emulation
  | .receive h configId =>
    match s.handler h with
    | .idle => some (s.moveTo h (.received configId))
    | _ => none
  | .compare h =>
    match s.handler h with
    | .received configId =>
      if s.pastTopo = some configId then
        some { s.moveTo h .idle with nacks := s.nacks ++ [(configId, s.reading)] }
      else some (s.moveTo h (.checked configId s.pastTopo))
    | _ => none
  | .submit h =>
    match s.handler h with
    | .checked configId localPastTopo =>
      some (s.moveTo h (.waiting configId (changedBits localPastTopo configId)))
    | _ => none
  | .task h bitPos =>
    match s.handler h with
    | .waiting configId futures =>
      if bitPos ∈ futures then
        some { s.moveTo h (.waiting configId (futures.erase bitPos)) with
          topologyStates := Function.update s.topologyStates bitPos (configId.getMsbD bitPos) }
      else none
    | _ => none
  | .store h =>
    match s.handler h with
    | .waiting configId [] => some { s.moveTo h (.stored configId) with pastTopo := some configId }
    | _ => none
  | .reply h =>
    match s.handler h with
    | .stored _ => some (s.moveTo h .idle)
    | _ => none

/-- The steps, one constructor for each. -/
inductive EmulationStep (s : Emulation) : EmulationAction → Emulation → Prop where
  | receive (h : ℕ) (a : ConfigId) (hpc : s.handler h = .idle) :
      EmulationStep s (.receive h a) (s.moveTo h (.received a))
  | nack (h : ℕ) (a : ConfigId) (hpc : s.handler h = .received a) (hpast : s.pastTopo = some a) :
      EmulationStep s (.compare h) { s.moveTo h .idle with nacks := s.nacks ++ [(a, s.reading)] }
  | check (h : ℕ) (a : ConfigId) (hpc : s.handler h = .received a) :
      EmulationStep s (.compare h) (s.moveTo h (.checked a s.pastTopo))
  | submit (h : ℕ) (a : ConfigId) (p : Option ConfigId) (hpc : s.handler h = .checked a p) :
      EmulationStep s (.submit h) (s.moveTo h (.waiting a (changedBits p a)))
  | task (h : ℕ) (bitPos : BitPos) (a : ConfigId) (futures : List BitPos)
      (hpc : s.handler h = .waiting a futures) :
      EmulationStep s (.task h bitPos) { s.moveTo h (.waiting a (futures.erase bitPos)) with
        topologyStates := Function.update s.topologyStates bitPos (a.getMsbD bitPos) }
  | store (h : ℕ) (a : ConfigId) (hpc : s.handler h = .waiting a []) :
      EmulationStep s (.store h) { s.moveTo h (.stored a) with pastTopo := some a }
  | reply (h : ℕ) (a : ConfigId) (hpc : s.handler h = .stored a) :
      EmulationStep s (.reply h) (s.moveTo h .idle)

/-- Everything a step can do. -/
theorem emulationStep_cases {s t : Emulation} {x : EmulationAction}
    (hs : emulationStep s x = some t) : EmulationStep s x t := by
  cases x with
  | receive h a =>
    simp only [emulationStep] at hs
    split at hs
    · next hpc =>
      cases hs
      exact .receive h a hpc
    · cases hs
  | compare h =>
    simp only [emulationStep] at hs
    split at hs
    · next a hpc =>
      split at hs
      · next hpast =>
        cases hs
        exact .nack h a hpc hpast
      · cases hs
        exact .check h a hpc
    · cases hs
  | submit h =>
    simp only [emulationStep] at hs
    split at hs
    · next a p hpc =>
      cases hs
      exact .submit h a p hpc
    · cases hs
  | task h bitPos =>
    simp only [emulationStep] at hs
    split at hs
    · next a futures hpc =>
      split at hs
      · cases hs
        exact .task h bitPos a futures hpc
      · cases hs
    · cases hs
  | store h =>
    simp only [emulationStep] at hs
    split at hs
    · next a hpc =>
      cases hs
      exact .store h a hpc
    · cases hs
  | reply h =>
    simp only [emulationStep] at hs
    split at hs
    · next a hpc =>
      cases hs
      exact .reply h a hpc
    · cases hs

namespace Emulation

/-- No thread compares its id while another one is on its way to a different id. -/
def Exclusive (s : Emulation) : EmulationAction → Prop
  | .compare h => ∀ configId, s.handler h = .received configId →
      ∀ h' target, (s.handler h').target? = some target → target = configId
  | _ => True

/-! ## The invariant -/

/-- All threads on their way have one target; every position has the bit of the last topology or of
that target; a thread that has compared finds the target wherever the remembered topology agrees with
it, and one that has submitted its tasks wherever no task is left. -/
structure Aligned (s : Emulation) : Prop where
  target : ∀ h h' a a', (s.handler h).target? = some a → (s.handler h').target? = some a' → a = a'
  bits : ∀ i, s.topologyStates i = s.past.getMsbD i ∨
    ∃ h a, (s.handler h).target? = some a ∧ s.topologyStates i = a.getMsbD i
  checked : ∀ h a p, s.handler h = .checked a p → ∀ i : BitPos,
    (p.getD 0).getMsbD i = a.getMsbD i → s.topologyStates i = a.getMsbD i
  waiting : ∀ h a futures, s.handler h = .waiting a futures → ∀ i ∉ futures,
    s.topologyStates i = a.getMsbD i
  nacks : ∀ p ∈ s.nacks, p.1 = p.2

theorem getMsbD_reading (s : Emulation) (i : BitPos) : s.reading.getMsbD i = s.topologyStates i := by
  rw [reading, BitVec.getMsbD_cast, BitVec.getMsbD_ofBoolListBE, List.getD_eq_getElem?_getD,
    List.getElem?_ofFn, dif_pos i.isLt, Option.getD_some]

theorem reading_eq_iff (s : Emulation) (a : ConfigId) :
    s.reading = a ↔ ∀ i : BitPos, s.topologyStates i = a.getMsbD i := by
  constructor
  · rintro rfl i
    exact (s.getMsbD_reading i).symm
  · intro h
    apply BitVec.eq_of_getMsbD_eq
    intro i hi
    exact (s.getMsbD_reading ⟨i, hi⟩).trans (h ⟨i, hi⟩)

variable {s : Emulation}

/-- A thread moves on without a change to what the threads share; its new place keeps the target it
has, or has none. -/
theorem Aligned.move (ha : s.Aligned) {h : ℕ} {pc : EmulationHandler}
    (htarget : pc.target? = (s.handler h).target?)
    (hchecked : ∀ a p, pc ≠ .checked a p)
    (hwaiting : ∀ a futures, pc = .waiting a futures → ∀ i ∉ futures,
      s.topologyStates i = a.getMsbD i) : (s.moveTo h pc).Aligned := by
  have hall : ∀ h', ((s.moveTo h pc).handler h').target? = (s.handler h').target? := by
    intro h'
    by_cases he : h' = h
    · subst he
      rw [moveTo_handler_self, htarget]
    · rw [moveTo_handler_of_ne he]
  refine ⟨?_, ?_, ?_, ?_, ha.nacks⟩
  · intro h₁ h₂ a a' h₁' h₂'
    rw [hall] at h₁' h₂'
    exact ha.target h₁ h₂ a a' h₁' h₂'
  · intro i
    rcases ha.bits i with hb | ⟨h', a, ht, hb⟩
    · exact .inl hb
    · exact .inr ⟨h', a, (hall h').trans ht, hb⟩
  · intro h' a p hpc i hp
    by_cases he : h' = h
    · subst he
      rw [moveTo_handler_self] at hpc
      exact absurd hpc (hchecked a p)
    · rw [moveTo_handler_of_ne he] at hpc
      exact ha.checked h' a p hpc i hp
  · intro h' a futures hpc i hi
    by_cases he : h' = h
    · subst he
      rw [moveTo_handler_self] at hpc
      exact hwaiting a futures hpc i hi
    · rw [moveTo_handler_of_ne he] at hpc
      exact ha.waiting h' a futures hpc i hi

/-- Where all threads on their way have the target `a`, every position that the last topology shares
with `a` has the bit of `a`. -/
theorem Aligned.shared (ha : s.Aligned) {a : ConfigId}
    (htarget : ∀ h b, (s.handler h).target? = some b → b = a) {i : BitPos}
    (hi : s.past.getMsbD i = a.getMsbD i) : s.topologyStates i = a.getMsbD i := by
  rcases ha.bits i with hb | ⟨h, b, hb, he⟩
  · exact hb.trans hi
  · rw [he, htarget h b hb]

/-- A thread whose id is the last topology finds it in place. -/
theorem Aligned.nack (ha : s.Aligned) {h : ℕ} {a : ConfigId} (hpc : s.handler h = .received a)
    (hpast : s.pastTopo = some a)
    (htarget : ∀ h b, (s.handler h).target? = some b → b = a) :
    ({ s.moveTo h .idle with nacks := s.nacks ++ [(a, s.reading)] } : Emulation).Aligned := by
  have hmove : (s.moveTo h .idle).Aligned :=
    ha.move (by rw [hpc]; rfl) (fun _ _ hc => by cases hc) (fun _ _ hc => by cases hc)
  refine ⟨hmove.target, hmove.bits, hmove.checked, hmove.waiting, fun p hp => ?_⟩
  rcases List.mem_append.mp hp with hp | hp
  · exact ha.nacks p hp
  · rw [List.mem_singleton.mp hp]
    refine ((s.reading_eq_iff a).mpr fun i => ha.shared htarget ?_).symm
    rw [past, hpast, Option.getD_some]

/-- A thread compares: the remembered topology is the last one. -/
theorem Aligned.check (ha : s.Aligned) {h : ℕ} {a : ConfigId}
    (hpc : s.handler h = .received a)
    (htarget : ∀ h b, (s.handler h).target? = some b → b = a) :
    (s.moveTo h (.checked a s.pastTopo)).Aligned := by
  have htarget' : ∀ h' b, ((s.moveTo h (.checked a s.pastTopo)).handler h').target? = some b →
      b = a := by
    intro h' b hb
    by_cases he : h' = h
    · subst he
      rw [moveTo_handler_self] at hb
      exact (Option.some.inj hb).symm
    · rw [moveTo_handler_of_ne he] at hb
      exact htarget h' b hb
  refine ⟨?_, ?_, ?_, ?_, ha.nacks⟩
  · intro h₁ h₂ b b' hb hb'
    rw [htarget' h₁ b hb, htarget' h₂ b' hb']
  · intro i
    rcases ha.bits i with hb | ⟨h', b, hb, he⟩
    · exact .inl hb
    · refine .inr ⟨h', b, ?_, he⟩
      have hne : h' ≠ h := fun heq => by simp [heq, hpc, EmulationHandler.target?] at hb
      rw [moveTo_handler_of_ne hne, hb]
  · intro h' b p hb i hi
    by_cases he : h' = h
    · subst he
      rw [moveTo_handler_self] at hb
      cases hb
      exact ha.shared htarget hi
    · rw [moveTo_handler_of_ne he] at hb
      exact ha.checked h' b p hb i hi
  · intro h' b futures hb i hi
    by_cases he : h' = h
    · subst he
      rw [moveTo_handler_self] at hb
      cases hb
    · rw [moveTo_handler_of_ne he] at hb
      exact ha.waiting h' b futures hb i hi

/-- A task sets its position to the bit of the target all threads have. -/
theorem Aligned.task (ha : s.Aligned) {h : ℕ} {a : ConfigId} {futures : List BitPos} {bitPos : BitPos}
    (hpc : s.handler h = .waiting a futures) :
    ({ s.moveTo h (.waiting a (futures.erase bitPos)) with
      topologyStates := Function.update s.topologyStates bitPos (a.getMsbD bitPos) } :
      Emulation).Aligned := by
  have hself : (s.handler h).target? = some a := by rw [hpc]; rfl
  have hall : ∀ h', ((s.moveTo h (.waiting a (futures.erase bitPos))).handler h').target? =
      (s.handler h').target? := by
    intro h'
    by_cases he : h' = h
    · subst he
      rw [moveTo_handler_self, hpc]
      rfl
    · rw [moveTo_handler_of_ne he]
  -- whatever holds of a bit of the common target also holds after the task
  have hset : ∀ {b : ConfigId} {i : BitPos}, b = a → (i ≠ bitPos → s.topologyStates i = b.getMsbD i) →
      Function.update s.topologyStates bitPos (a.getMsbD bitPos) i = b.getMsbD i := by
    intro b i hb hi
    by_cases he : i = bitPos
    · rw [he, Function.update_self, hb]
    · rw [Function.update_of_ne he, hi he]
  refine ⟨?_, ?_, ?_, ?_, ha.nacks⟩
  · intro h₁ h₂ b b' hb hb'
    rw [hall] at hb hb'
    exact ha.target h₁ h₂ b b' hb hb'
  · intro i
    by_cases he : i = bitPos
    · exact .inr ⟨h, a, (hall h).trans hself, hset rfl fun hne => absurd he hne⟩
    · rcases ha.bits i with hb | ⟨h', b, hb, hi⟩
      · exact .inl ((Function.update_of_ne he ..).trans hb)
      · exact .inr ⟨h', b, (hall h').trans hb, (Function.update_of_ne he ..).trans hi⟩
  · intro h' b p hb i hi
    by_cases he : h' = h
    · subst he
      rw [moveTo_handler_self] at hb
      cases hb
    · rw [moveTo_handler_of_ne he] at hb
      have hba : b = a := ha.target h' h b a (by rw [hb]; rfl) hself
      exact hset hba fun _ => ha.checked h' b p hb i hi
  · intro h' b futures' hb i hi
    by_cases he : h' = h
    · subst he
      rw [moveTo_handler_self] at hb
      cases hb
      refine hset rfl fun hne => ha.waiting h' a futures hpc i fun hmem => hi ?_
      exact (List.mem_erase_of_ne hne).mpr hmem
    · rw [moveTo_handler_of_ne he] at hb
      have hba : b = a := ha.target h' h b a (by rw [hb]; rfl) hself
      exact hset hba fun _ => ha.waiting h' b futures' hb i hi

/-- A thread stores its id when all its positions are in place. -/
theorem Aligned.store (ha : s.Aligned) {h : ℕ} {a : ConfigId} (hpc : s.handler h = .waiting a []) :
    ({ s.moveTo h (.stored a) with pastTopo := some a } : Emulation).Aligned := by
  have hplace : ∀ i, s.topologyStates i = a.getMsbD i :=
    fun i => ha.waiting h a [] hpc i List.not_mem_nil
  have hother : ∀ h', h' ≠ h → (s.moveTo h (.stored a)).handler h' = s.handler h' :=
    fun h' he => Function.update_of_ne he ..
  have hself : (s.moveTo h (.stored a)).handler h = .stored a := Function.update_self ..
  have hne : ∀ h' b, ((s.moveTo h (.stored a)).handler h').target? = some b → h' ≠ h := by
    rintro h' b hb rfl
    rw [hself] at hb
    cases hb
  refine ⟨?_, fun i => .inl (hplace i), ?_, ?_, ha.nacks⟩
  · intro h₁ h₂ b b' hb hb'
    have h₁' := hother h₁ (hne h₁ b hb)
    have h₂' := hother h₂ (hne h₂ b' hb')
    exact ha.target h₁ h₂ b b' (h₁' ▸ hb) (h₂' ▸ hb')
  · intro h' b p hb
    have he := hother h' (hne h' b (by rw [hb]; rfl))
    exact ha.checked h' b p (he ▸ hb)
  · intro h' b futures hb
    have he := hother h' (hne h' b (by rw [hb]; rfl))
    exact ha.waiting h' b futures (he ▸ hb)

end Emulation

/-! ## Steps -/

theorem mem_changedBits {p : Option ConfigId} {a : ConfigId} {i : BitPos} :
    i ∈ changedBits p a ↔ (p.getD 0).getMsbD i ≠ a.getMsbD i := by
  simp [changedBits]

/-- **Every exclusive step keeps the threads aligned**. -/
theorem aligned_step (s : Emulation) (x : EmulationAction) (t : Emulation) (ha : s.Aligned)
    (hx : s.Exclusive x) (hs : emulationStep s x = some t) : t.Aligned := by
  cases emulationStep_cases hs with
  | receive h a hpc | reply h a hpc =>
    exact ha.move (by rw [hpc]; rfl) (fun _ _ hc => by cases hc) (fun _ _ hc => by cases hc)
  | nack h a hpc hpast => exact ha.nack hpc hpast (hx a hpc)
  | check h a hpc => exact ha.check hpc (hx a hpc)
  | submit h a p hpc =>
    refine ha.move (by rw [hpc]; rfl) (fun _ _ hc => by cases hc) ?_
    rintro b futures hw i hi
    cases hw
    rw [mem_changedBits, not_not] at hi
    exact ha.checked h a p hpc i hi
  | task h bitPos a futures hpc => exact ha.task hpc
  | store h a hpc => exact ha.store hpc

theorem aligned_initial : Emulation.initial.Aligned where
  target _ _ _ _ h := by cases h
  bits i := .inl (by simp [Emulation.initial, Emulation.past])
  checked _ _ _ h := by cases h
  waiting _ _ _ h := by cases h
  nacks p h := absurd h List.not_mem_nil

/-- **The positions follow the requests in every run of exclusive steps**, for any number of threads
and all ids: in every state without a running thread the positions read as a number are the last
topology, 0 when there is none, and every thread that has replied without a change has found its id
in place. -/
theorem reading_of_exclusive {xs : List EmulationAction} {s : Emulation}
    (hrun : run emulationStep .initial xs = some s)
    (hx : Along emulationStep Emulation.Exclusive .initial xs) :
    ((∀ h, s.handler h = .idle) → s.reading = s.pastTopo.getD 0) ∧ ∀ p ∈ s.nacks, p.1 = p.2 := by
  have ha : s.Aligned := run_invariant_along aligned_step hrun hx aligned_initial
  refine ⟨fun hidle => (s.reading_eq_iff _).mpr fun i => ?_, ha.nacks⟩
  rcases ha.bits i with hb | ⟨h, a, ht, -⟩
  · exact hb
  · rw [hidle h] at ht
    cases ht

/-! ## Requests for one topology -/

/-- The id a thread carries. -/
def EmulationHandler.configId? : EmulationHandler → Option ConfigId
  | .idle => none
  | .received configId => some configId
  | .checked configId _ => some configId
  | .waiting configId _ => some configId
  | .stored configId => some configId

theorem EmulationHandler.configId?_of_target? {pc : EmulationHandler} {a : ConfigId}
    (h : pc.target? = some a) : pc.configId? = some a := by
  cases pc <;> simp_all [EmulationHandler.target?, EmulationHandler.configId?]

/-- A step moves one thread, which carries the id it had unless it has just read one. -/
theorem emulationStep_handler {s t : Emulation} {x : EmulationAction}
    (hs : emulationStep s x = some t) :
    ∃ h pc, t.handler = Function.update s.handler h pc ∧ ∀ a, pc.configId? = some a →
      (s.handler h).configId? = some a ∨ x = .receive h a := by
  cases emulationStep_cases hs with
  | receive h a hpc => exact ⟨h, _, rfl, fun b hb => .inr (by rw [Option.some.inj hb])⟩
  | nack h a hpc | reply h a hpc => exact ⟨h, _, rfl, fun b hb => by cases hb⟩
  | check h a hpc | submit h a p hpc | task h bitPos a futures hpc | store h a hpc =>
    exact ⟨h, _, rfl, fun b hb => .inl (by rw [hpc]; exact hb)⟩

/-- Requests for one id may overlap freely. -/
theorem exclusive_of_single_id {a : ConfigId} (xs : List EmulationAction)
    (hxs : ∀ h b, .receive h b ∈ xs → b = a) (s : Emulation)
    (hs : ∀ h b, (s.handler h).configId? = some b → b = a) :
    Along emulationStep Emulation.Exclusive s xs := by
  induction xs generalizing s with
  | nil => trivial
  | cons x xs ih =>
    refine ⟨?_, fun t ht => ih (fun h b hb => hxs h b (List.mem_cons_of_mem x hb)) t fun h b hb => ?_⟩
    · cases x with
      | compare h =>
        intro b hpc h' b' ht
        rw [hs h b (by rw [hpc]; rfl)]
        exact hs h' b' (EmulationHandler.configId?_of_target? ht)
      | _ => trivial
    · obtain ⟨h', pc, he, hpc⟩ := emulationStep_handler ht
      rw [he] at hb
      by_cases hh : h = h'
      · subst hh
        rw [Function.update_self] at hb
        rcases hpc b hb with hb' | rfl
        · exact hs h b hb'
        · exact hxs h b List.mem_cons_self
      · rw [Function.update_of_ne hh] at hb
        exact hs h b hb

/-- Two threads bring the same id, and a third one asks for it when both have ended. -/
def alignedRun : List EmulationAction :=
  [.receive 0 5, .receive 1 5, .compare 0, .compare 1, .submit 0, .task 0 61, .submit 1, .task 1 63,
    .task 0 63, .store 0, .task 1 61, .store 1, .reply 1, .reply 0, .receive 2 5, .compare 2]

theorem reading_alignedRun :
    ∃ s, run emulationStep .initial alignedRun = some s ∧ s.pastTopo = some 5 ∧ s.reading = 5 ∧
      s.nacks ≠ [] ∧ ∀ p ∈ s.nacks, p.1 = p.2 := by
  have hrun : (run emulationStep .initial alignedRun).map (fun s => (s.pastTopo, s.nacks.length,
      s.handler 0, s.handler 1, s.handler 2)) = some (some 5, 1, .idle, .idle, .idle) := by
    decide +kernel
  have hrest : ∀ h, (run emulationStep .initial alignedRun).map (fun s => s.handler (h + 3)) =
      some .idle := fun h => rfl
  have hx : Along emulationStep Emulation.Exclusive .initial alignedRun := by
    refine exclusive_of_single_id (a := 5) alignedRun (fun h b hb => ?_) _ (fun h b hb => by cases hb)
    rcases (by simpa [alignedRun] using hb : h = 0 ∧ b = 5 ∨ h = 1 ∧ b = 5 ∨ h = 2 ∧ b = 5) with
      ⟨-, hb⟩ | ⟨-, hb⟩ | ⟨-, hb⟩ <;> exact hb
  obtain ⟨s, hs, he⟩ := Option.map_eq_some_iff.mp hrun
  simp only [Prod.mk.injEq] at he
  obtain ⟨hpast, hnacks, h₀, h₁, h₂⟩ := he
  obtain ⟨hread, hfound⟩ := reading_of_exclusive hs hx
  refine ⟨s, hs, hpast, ?_, fun hnil => by simp [hnil] at hnacks, hfound⟩
  rw [hread, hpast]
  · rfl
  · intro h
    match h with
    | 0 => exact h₀
    | 1 => exact h₁
    | 2 => exact h₂
    | h + 3 => simpa [hs] using hrest h

/-- Two threads bring different ids at the same time. -/
def overlappingRun : List EmulationAction :=
  [.receive 0 1, .receive 1 2, .compare 0, .compare 1, .submit 0, .submit 1, .task 0 63, .task 1 62,
    .store 0, .store 1, .reply 0, .reply 1]

/-- A thread asks for the last topology while another one is on its way from it. -/
def hastyRun : List EmulationAction :=
  [.receive 0 1, .compare 0, .submit 0, .task 0 63, .store 0, .reply 0, .receive 1 2, .compare 1,
    .submit 1, .task 1 63, .receive 2 1, .compare 2]

/-- Both threads have ended, and the positions are neither topology; and a thread replies that
nothing has changed when its id is no longer in place. -/
theorem not_reading_overlappingRun :
    (∃ s, run emulationStep .initial overlappingRun = some s ∧ (∀ h, s.handler h = .idle) ∧
      s.pastTopo = some 2 ∧ s.reading = 3) ∧
    ∃ s, run emulationStep .initial hastyRun = some s ∧ (1, 0) ∈ s.nacks := by
  constructor
  · have hrun : (run emulationStep .initial overlappingRun).map (fun s => (s.pastTopo, s.reading,
        s.handler 0, s.handler 1)) = some (some 2, 3, .idle, .idle) := by
      decide +kernel
    have hrest : ∀ h, (run emulationStep .initial overlappingRun).map
        (fun s => s.handler (h + 2)) = some .idle := fun h => rfl
    obtain ⟨s, hs, he⟩ := Option.map_eq_some_iff.mp hrun
    simp only [Prod.mk.injEq] at he
    obtain ⟨hpast, hread, h₀, h₁⟩ := he
    refine ⟨s, hs, fun h => ?_, hpast, hread⟩
    match h with
    | 0 => exact h₀
    | 1 => exact h₁
    | h + 2 => simpa [hs] using hrest h
  · have hrun : (run emulationStep .initial hastyRun).map (fun s => s.nacks) = some [(1, 0)] := by
      decide +kernel
    obtain ⟨s, hs, he⟩ := Option.map_eq_some_iff.mp hrun
    exact ⟨s, hs, by simp [he]⟩

end Opus
