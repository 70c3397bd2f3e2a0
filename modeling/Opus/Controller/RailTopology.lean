import Mathlib.Data.Int.Notation
import Mathlib.Data.List.Induction
import Opus.Controller.Request
import Opus.Library.Run

/-!
# The topology of a rail over a sequence of requests

A request that completes its group changes the topology id of its rail: a pipeline request sets
the bits of two neighbouring stages, any other request clears the bit of its stage. The id is a C++
`int` and the bits are selected by shifting a one, so that positions above 30 run into the sign, and
a shift by 32 or more has no defined result; the worker has 64 positions and rejects negative ids.

The id is stored before the worker of the rail is asked to install it, and stays when the worker
cannot be reached or refuses.

## Main definitions

* `topoStep`: the ids of all rails after a request that completes its group
* `lastTouch`: what the last request that touches a stage says about it
* `BitsFollow`: the bits of all ids follow the requests
* `ControlView`, `configReqStep`: the controller, one whole message at a time, with the outcome of
  the reconfiguration
* `ControlView.Follows`: the controller's view is what the workers have confirmed

## Main results

* `getLsbD_of_run`: the last request that touches a stage decides its bit
* `bitsFollow_iff`: the bits follow the requests exactly when all positions fit an `int`
* `configReqStep_reaches`: the steps of the thread that handles a message
* `follows_iff_keepsTopology`: the view follows the workers exactly when no failed request has
  changed its topology
-/

namespace Opus

open Transition

/-! ## Requests and bits -/

/-- A request that completes its group, on the rail of its communicator. -/
structure RailRequest where
  rail : ℕ
  backend : ℕ
  counter : ℕ
  deriving DecidableEq, Repr

namespace RailRequest

/-- The group of a pipeline request. -/
def ppGroup (q : RailRequest) : ℕ := q.backend / PP_BACKEND_INTERVAL

/-- The stage of any other request. -/
def ppStage (q : RailRequest) : ℕ := q.counter / PP_INTERVAL

/-- What a request says about a stage: a pipeline request connects the two stages of its group, any
other request disconnects its stage. -/
def touches (q : RailRequest) (s : ℕ) : Option Bool :=
  if 10 < q.backend then if q.ppGroup = s ∨ q.ppGroup = s + 1 then some true else none
  else if q.ppStage = s then some false else none

/-- All shifts of a 32-bit one that the request makes have a defined result. -/
def ShiftsDefined (q : RailRequest) : Prop :=
  if 10 < q.backend then q.ppGroup < 32 else q.ppStage < 32

/-- The positions of the request fit an `int`, and those it sets leave the sign alone. -/
def FitsInt (q : RailRequest) : Prop :=
  if 10 < q.backend then q.ppGroup ≤ 30 else q.ppStage ≤ 31

instance (q : RailRequest) : Decidable q.ShiftsDefined := inferInstanceAs (Decidable (ite _ _ _))

instance (q : RailRequest) : Decidable q.FitsInt := inferInstanceAs (Decidable (ite _ _ _))

end RailRequest

/-- The topology ids of all rails after a request that completes its group, when it throws no
exception. -/
def topoStep (topoIds : ℕ → TopoId) (q : RailRequest) : Option (ℕ → TopoId) :=
  (determineRuntimeTopo (topoIds q.rail) q.backend q.counter).toOption.map
    (Function.update topoIds q.rail)

/-- What the last request on the rail that touches the stage says about it. -/
def lastTouch (rail s : ℕ) (qs : List RailRequest) : Option Bool :=
  qs.reverse.findSome? fun q => if q.rail = rail then q.touches s else none

/-- **The bits follow the requests**, from one initial id on all rails: all shifts are defined, the
id sent for a request is not negative, the bit of a stage is what the last request that touches the
stage says (or the initial bit), and a request changes no other rail. -/
structure BitsFollow (initial : TopoId) (qs : List RailRequest) : Prop where
  defined : ∀ q ∈ qs, q.ShiftsDefined
  nonneg : ∀ ps q, ps ++ [q] <+: qs → ∀ t, run topoStep (fun _ => initial) (ps ++ [q]) = some t →
    0 ≤ (t q.rail).toInt
  bits : ∀ t, run topoStep (fun _ => initial) qs = some t → ∀ rail s, s < 64 →
    (t rail).getLsbD s = (lastTouch rail s qs).getD (initial.getLsbD s)
  others : ∀ ps q, ps ++ [q] <+: qs → ∀ t u, run topoStep (fun _ => initial) ps = some t →
    run topoStep (fun _ => initial) (ps ++ [q]) = some u → ∀ rail, rail ≠ q.rail → u rail = t rail

/-! ## One request -/

theorem topoStep_eq_some {topoIds t : ℕ → TopoId} {q : RailRequest} (h : topoStep topoIds q = some t) :
    ∃ topoId, determineRuntimeTopo (topoIds q.rail) q.backend q.counter = .ok topoId ∧
      t = Function.update topoIds q.rail topoId := by
  obtain ⟨topoId, hid, rfl⟩ := Option.map_eq_some_iff.mp h
  refine ⟨topoId, ?_, rfl⟩
  cases hd : determineRuntimeTopo (topoIds q.rail) q.backend q.counter with
  | error message => simp [hd, Except.toOption] at hid
  | ok id => simpa [hd, Except.toOption] using hid

/-- The bit of a stage after a request. -/
theorem getLsbD_determineRuntimeTopo {topoId topoId' : TopoId} {q : RailRequest}
    (h : determineRuntimeTopo topoId q.backend q.counter = .ok topoId') {s : ℕ} (hs : s < 32) :
    topoId'.getLsbD s = (q.touches s).getD (topoId.getLsbD s) := by
  unfold determineRuntimeTopo setPpTopo at h
  unfold RailRequest.touches RailRequest.ppGroup RailRequest.ppStage
  split at h
  · next hpp =>
    simp only [] at h
    split at h
    · cases h
    split at h
    · cases h
    next hpos =>
    cases h
    have hbit : ∀ k : ℕ, (1#32 <<< k).getLsbD s = decide (k = s) := by
      intro k
      rw [← BitVec.twoPow_eq, BitVec.getLsbD_twoPow, ← Bool.decide_and, decide_eq_decide]
      exact ⟨And.right, fun he => ⟨he ▸ hs, he⟩⟩
    rw [if_pos hpp, BitVec.getLsbD_or, BitVec.getLsbD_or, hbit, hbit]
    split
    · next hg =>
      -- the group has a predecessor, so both positions are those of its stages
      rcases hg with hg | hg
      · simp [hg]
      · have : q.backend / PP_BACKEND_INTERVAL - 1 = s := by omega
        simp [this]
    · next hg =>
      have h₁ : q.backend / PP_BACKEND_INTERVAL ≠ s := fun he => hg (.inl he)
      have h₂ : q.backend / PP_BACKEND_INTERVAL - 1 ≠ s := fun he => hg (.inr (by omega))
      simp [h₁, h₂]
  · next hpp =>
    cases h
    rw [if_neg hpp, setNonPpTopo, ← BitVec.twoPow_eq, BitVec.getLsbD_and, BitVec.getLsbD_not,
      BitVec.getLsbD_twoPow]
    split
    · next he => simp [he, hs]
    · next he => simp [he, hs]

theorem getLsbD_topoStep {topoIds t : ℕ → TopoId} {q : RailRequest} (h : topoStep topoIds q = some t)
    (rail : ℕ) {s : ℕ} (hs : s < 32) :
    (t rail).getLsbD s =
      (if q.rail = rail then q.touches s else none).getD ((topoIds rail).getLsbD s) := by
  obtain ⟨topoId, hd, rfl⟩ := topoStep_eq_some h
  by_cases hr : q.rail = rail
  · subst hr
    rw [Function.update_self, if_pos rfl, getLsbD_determineRuntimeTopo hd hs]
  · rw [Function.update_of_ne (Ne.symm hr), if_neg hr, Option.getD_none]

/-! ## Sequences of requests -/

theorem run_topoStep_concat {topoIds t : ℕ → TopoId} {qs : List RailRequest} {q : RailRequest}
    (h : run topoStep topoIds (qs ++ [q]) = some t) :
    ∃ u, run topoStep topoIds qs = some u ∧ topoStep u q = some t := by
  rw [run_append, Option.bind_eq_some_iff] at h
  obtain ⟨u, hu, hq⟩ := h
  refine ⟨u, hu, ?_⟩
  rw [run_cons, Option.bind_eq_some_iff] at hq
  obtain ⟨v, hv, he⟩ := hq
  exact hv.trans he

/-- **The last request that touches a stage decides its bit**. -/
theorem getLsbD_of_run {topoIds t : ℕ → TopoId} {qs : List RailRequest}
    (h : run topoStep topoIds qs = some t) (rail : ℕ) {s : ℕ} (hs : s < 32) :
    (t rail).getLsbD s = (lastTouch rail s qs).getD ((topoIds rail).getLsbD s) := by
  induction qs using List.reverseRecOn generalizing t with
  | nil =>
    cases h
    rfl
  | append_singleton qs q ih =>
    obtain ⟨u, hu, hq⟩ := run_topoStep_concat h
    rw [getLsbD_topoStep hq rail hs, ih hu, lastTouch, lastTouch, List.reverse_concat,
      List.findSome?_cons]
    cases (if q.rail = rail then q.touches s else none) <;> rfl

/-- A stage beyond what the requests reach is not touched. -/
theorem lastTouch_eq {rail s : ℕ} {qs : List RailRequest} {b : Bool}
    (h : lastTouch rail s qs = some b) : ∃ q ∈ qs, q.touches s = some b := by
  obtain ⟨q, hq, hb⟩ := List.exists_of_findSome?_eq_some h
  split at hb
  · exact ⟨q, List.mem_reverse.mp hq, hb⟩
  · cases hb

theorem toInt_nonneg_iff (topoId : TopoId) : 0 ≤ topoId.toInt ↔ topoId.getLsbD 31 = false := by
  rw [← BitVec.msb_eq_getLsbD_last, BitVec.msb_eq_toInt]
  simp

section

variable {initial : TopoId} {qs : List RailRequest}

/-- In range, no request sets the sign. -/
theorem toInt_nonneg_of_run (hinit : 0 ≤ initial.toInt) (hfit : ∀ q ∈ qs, q.FitsInt)
    {t : ℕ → TopoId} (h : run topoStep (fun _ => initial) qs = some t) (rail : ℕ) :
    0 ≤ (t rail).toInt := by
  rw [toInt_nonneg_iff, getLsbD_of_run h rail (by omega)]
  cases hl : lastTouch rail 31 qs with
  | none => exact (toInt_nonneg_iff initial).mp hinit
  | some b =>
    obtain ⟨q, hq, hb⟩ := lastTouch_eq hl
    have hf := hfit q hq
    unfold RailRequest.FitsInt at hf
    unfold RailRequest.touches at hb
    split at hb
    · next hpp =>
      rw [if_pos hpp] at hf
      rw [if_neg (by omega)] at hb
      cases hb
    · split at hb
      · cases hb
        rfl
      · cases hb

/-- Beyond 32 bits there is nothing to follow: no request in range touches such a stage. -/
theorem lastTouch_eq_none (hfit : ∀ q ∈ qs, q.FitsInt) (rail : ℕ) {s : ℕ} (hs : 32 ≤ s) :
    lastTouch rail s qs = none := by
  cases hl : lastTouch rail s qs with
  | none => rfl
  | some b =>
    obtain ⟨q, hq, hb⟩ := lastTouch_eq hl
    have hf := hfit q hq
    unfold RailRequest.FitsInt at hf
    unfold RailRequest.touches at hb
    split at hb
    · next hpp =>
      rw [if_pos hpp] at hf
      rw [if_neg (by omega)] at hb
      cases hb
    · next hpp =>
      rw [if_neg hpp] at hf
      rw [if_neg (by omega)] at hb
      cases hb

theorem bitsFollow_of_fitsInt (hinit : 0 ≤ initial.toInt) (hfit : ∀ q ∈ qs, q.FitsInt) :
    BitsFollow initial qs where
  defined q hq := by
    have hf := hfit q hq
    unfold RailRequest.FitsInt at hf
    unfold RailRequest.ShiftsDefined
    split <;> split at hf <;> omega
  nonneg ps q hpre t ht :=
    toInt_nonneg_of_run hinit (fun p hp => hfit p (hpre.subset hp)) ht q.rail
  bits t ht rail s _ := by
    by_cases hs : s < 32
    · exact getLsbD_of_run ht rail hs
    · have hs : 32 ≤ s := Nat.le_of_not_lt hs
      rw [lastTouch_eq_none hfit rail hs, BitVec.getLsbD_of_ge _ _ hs, Option.getD_none,
        BitVec.getLsbD_of_ge _ _ hs]
  others ps q _ t u ht hu rail hr := by
    obtain ⟨v, hv, hq⟩ := run_topoStep_concat hu
    obtain ⟨topoId, -, rfl⟩ := topoStep_eq_some hq
    rw [Function.update_of_ne hr, Option.some.inj (ht.symm.trans hv)]

/-- **The bits of the topology ids follow the requests exactly when all positions fit an `int`**:
for every initial id `main` accepts and every sequence of completed requests, if and only if no
pipeline group is above 30 and no stage of another request above 31. -/
theorem bitsFollow_iff (hinit : 0 ≤ initial.toInt) {t : ℕ → TopoId}
    (hrun : run topoStep (fun _ => initial) qs = some t) :
    BitsFollow initial qs ↔ ∀ q ∈ qs, q.FitsInt := by
  refine ⟨fun h q hq => ?_, bitsFollow_of_fitsInt hinit⟩
  have hd := h.defined q hq
  unfold RailRequest.ShiftsDefined at hd
  unfold RailRequest.FitsInt
  split
  · next hpp =>
    rw [if_pos hpp] at hd
    -- the group that is left sets the sign of the id that is sent
    by_contra hg
    obtain ⟨ps, rest, rfl⟩ := List.append_of_mem hq
    have hpre : ps ++ [q] <+: ps ++ q :: rest := ⟨rest, by simp⟩
    rw [List.append_cons, run_append, Option.bind_eq_some_iff] at hrun
    obtain ⟨u, hu, -⟩ := hrun
    have hnonneg := h.nonneg ps q hpre u hu
    obtain ⟨v, -, hstep⟩ := run_topoStep_concat hu
    rw [toInt_nonneg_iff, getLsbD_topoStep hstep q.rail (by omega), if_pos rfl,
      RailRequest.touches, if_pos hpp, if_pos (by omega)] at hnonneg
    cases hnonneg
  · next hpp =>
    rw [if_neg hpp] at hd
    omega

end

/-- A pipeline request of group 2 and a request of its stage 1 on one rail, and a pipeline request
of group 1 on another. -/
def smallRequests : List RailRequest := [⟨0, 20, 2000000⟩, ⟨0, 1, 1000000⟩, ⟨3, 11, 1000007⟩]

theorem bitsFollow_smallRequests :
    (run topoStep (fun _ => 5#32) smallRequests).map (fun t => (t 0, t 3, t 7)) =
      some (5#32, 7#32, 5#32) ∧ BitsFollow 5#32 smallRequests := by
  have hrun : (run topoStep (fun _ => 5#32) smallRequests).map (fun t => (t 0, t 3, t 7)) =
      some (5#32, 7#32, 5#32) := by
    decide
  obtain ⟨t, ht, -⟩ := Option.map_eq_some_iff.mp hrun
  exact ⟨hrun, (bitsFollow_iff (by decide) ht).mpr (by decide)⟩

/-- The pipeline request of group 31 makes the id negative. -/
theorem not_bitsFollow_signBit :
    (run topoStep (fun _ => 0#32) [⟨0, 310, 31000000⟩]).map (fun t => (t 0).toInt) =
      some (-1073741824) ∧ ¬ BitsFollow 0#32 [⟨0, 310, 31000000⟩] := by
  have hrun : (run topoStep (fun _ => 0#32) [⟨0, 310, 31000000⟩]).map (fun t => (t 0).toInt) =
      some (-1073741824) := by
    decide
  refine ⟨hrun, fun h => ?_⟩
  obtain ⟨t, ht, he⟩ := Option.map_eq_some_iff.mp hrun
  have hnonneg : 0 ≤ (t 0).toInt := h.nonneg [] ⟨0, 310, 31000000⟩ List.prefix_rfl t ht
  omega

/-! ## Messages and the outcome of their reconfigurations -/

/-- How a call of `reconfig` ends. -/
inductive IpcReply where
  /-- the worker cannot be reached, or the connection breaks -/
  | refused
  /-- the worker replies with an error -/
  | error
  | success
  deriving DecidableEq, Repr

/-- The controller between two messages. The last three fields record what has happened: for every
rail the last id its worker has replied `SUCCESS` to, the outcome of every call of `reconfig`, and
the `CONFIG_ACK` lines with the requests they answer. -/
structure ControlView where
  readyCount : HexId → ℕ → ℕ
  topoIds : ℕ → TopoId
  confirmed : ℕ → TopoId
  reconfigs : List (ConfigReq × IpcReply)
  acks : List (ℕ × ConfigReq)

/-- The controller when all workers have accepted the initial topology. -/
def ControlView.initial (initialTopology : TopoId) : ControlView :=
  ⟨fun _ _ => 0, fun _ => initialTopology, fun _ => initialTopology, [], []⟩

/-- The counts after the request has been counted as the `n`-th, or erased. -/
def ControlView.withReady (s : ControlView) (req : ConfigReq) (n : ℕ) : ControlView :=
  { s with
    readyCount := Function.update s.readyCount req.hexId
      (Function.update (s.readyCount req.hexId) req.counter n) }

/-- The message completes the group of its request. -/
def Completes (reg : Registry) (s : ControlView) (req : ConfigReq) : Prop :=
  reg.clients req.hexId ≠ [] ∧ allArrive req.backend (s.readyCount req.hexId req.counter + 1)
    (reg.clients req.hexId).length = true

instance (reg : Registry) (s : ControlView) (req : ConfigReq) : Decidable (Completes reg s req) :=
  inferInstanceAs (Decidable (_ ∧ _))

/-- `handle_config_req` for one message; `reply` is how `reconfig` ends when it is called. An
exception ends the process. -/
def configReqStep (reg : Registry) (s : ControlView) (m : ConfigReq × IpcReply) :
    Option ControlView :=
  let req := m.1
  if Completes reg s req then
    let rail := reg.rail req.hexId
    match determineRuntimeTopo (s.topoIds rail) req.backend req.counter with
    | .error _ => none
    | .ok topoId =>
      let s := { s.withReady req 0 with
        topoIds := Function.update s.topoIds rail topoId
        reconfigs := s.reconfigs ++ [m] }
      if m.2 = .success then
        some { s with
          confirmed := Function.update s.confirmed rail topoId
          acks := s.acks ++ (reg.clients req.hexId).map fun c => (c, req) }
      else some s
  else if reg.clients req.hexId = [] then some s
  else some (s.withReady req (s.readyCount req.hexId req.counter + 1))

/-- The requests whose reconfiguration has succeeded. -/
def ControlView.succeeded (reg : Registry) (s : ControlView) : List RailRequest :=
  (s.reconfigs.filter fun m => m.2 = .success).map fun m =>
    ⟨reg.rail m.1.hexId, m.1.backend, m.1.counter⟩

/-- **The view follows the workers**: every rail has the last id its worker has confirmed, only
requests whose reconfiguration has succeeded are acknowledged, and the confirmed ids are those of
the successful requests alone. -/
structure ControlView.Follows (reg : Registry) (initialTopology : TopoId) (s : ControlView) :
    Prop where
  topoIds_eq : s.topoIds = s.confirmed
  acked : ∀ a ∈ s.acks, (a.2, .success) ∈ s.reconfigs
  installed : run topoStep (fun _ => initialTopology) (s.succeeded reg) = some s.confirmed

/-- The condition on a message: when its reconfiguration fails, it asks for the topology that the
rail has. -/
def KeepsTopology (reg : Registry) (s : ControlView) (m : ConfigReq × IpcReply) : Prop :=
  Completes reg s m.1 → m.2 ≠ .success →
    determineRuntimeTopo (s.topoIds (reg.rail m.1.hexId)) m.1.backend m.1.counter =
      .ok (s.topoIds (reg.rail m.1.hexId))

section

variable {reg : Registry} {s t : ControlView} {m : ConfigReq × IpcReply}

/-- What a message can do: nothing to the topologies when the group is not complete, and otherwise
store the new topology, which the worker confirms or not. -/
theorem configReqStep_cases (h : configReqStep reg s m = some t) :
    (¬ Completes reg s m.1 ∧ ∃ n, t = s ∨ t = s.withReady m.1 n) ∨
    ∃ topoId, Completes reg s m.1 ∧
      determineRuntimeTopo (s.topoIds (reg.rail m.1.hexId)) m.1.backend m.1.counter = .ok topoId ∧
      ((m.2 = .success ∧ t = { s.withReady m.1 0 with
          topoIds := Function.update s.topoIds (reg.rail m.1.hexId) topoId
          reconfigs := s.reconfigs ++ [m]
          confirmed := Function.update s.confirmed (reg.rail m.1.hexId) topoId
          acks := s.acks ++ (reg.clients m.1.hexId).map fun c => (c, m.1) }) ∨
        m.2 ≠ .success ∧ t = { s.withReady m.1 0 with
          topoIds := Function.update s.topoIds (reg.rail m.1.hexId) topoId
          reconfigs := s.reconfigs ++ [m] }) := by
  simp only [configReqStep] at h
  split at h
  · next hc =>
    right
    split at h
    · cases h
    · next topoId hd =>
      refine ⟨topoId, hc, hd, ?_⟩
      split at h
      · next hs =>
        cases h
        exact .inl ⟨hs, rfl⟩
      · next hs =>
        cases h
        exact .inr ⟨hs, rfl⟩
  · next hc =>
    left
    refine ⟨hc, s.readyCount m.1.hexId m.1.counter + 1, ?_⟩
    split at h
    · cases h
      exact .inl rfl
    · cases h
      exact .inr rfl

theorem succeeded_concat (hs : m.2 = .success) :
    ({ s with reconfigs := s.reconfigs ++ [m] } : ControlView).succeeded reg =
      s.succeeded reg ++ [⟨reg.rail m.1.hexId, m.1.backend, m.1.counter⟩] := by
  simp [ControlView.succeeded, hs]

theorem succeeded_concat_of_ne (hs : m.2 ≠ .success) :
    ({ s with reconfigs := s.reconfigs ++ [m] } : ControlView).succeeded reg = s.succeeded reg := by
  simp [ControlView.succeeded, hs]

/-- **One message**: the view follows the workers after it exactly when the condition holds. -/
theorem follows_step_iff {t₀ : TopoId} (hf : s.Follows reg t₀) (h : configReqStep reg s m = some t) :
    t.Follows reg t₀ ↔ KeepsTopology reg s m := by
  obtain ⟨hc, n, rfl | rfl⟩ | ⟨topoId, hc, hd, ⟨hs, rfl⟩ | ⟨hs, rfl⟩⟩ := configReqStep_cases h
  · exact iff_of_true hf fun hc' => absurd hc' hc
  · exact iff_of_true ⟨hf.topoIds_eq, hf.acked, hf.installed⟩ fun hc' => absurd hc' hc
  · refine iff_of_true ⟨?_, fun a ha => ?_, ?_⟩ fun _ hne => absurd hs hne
    · show Function.update s.topoIds _ topoId = Function.update s.confirmed _ topoId
      rw [hf.topoIds_eq]
    · show (a.2, .success) ∈ s.reconfigs ++ [m]
      rcases List.mem_append.mp ha with ha | ha
      · exact List.mem_append_left _ (hf.acked a ha)
      · obtain ⟨c, -, rfl⟩ := List.mem_map.mp ha
        rw [← hs]
        exact List.mem_append_right _ (List.mem_singleton.mpr rfl)
    · show run topoStep (fun _ => t₀) (({ s with reconfigs := s.reconfigs ++ [m] } :
        ControlView).succeeded reg) = some (Function.update s.confirmed _ topoId)
      rw [succeeded_concat hs, run_append_of_run hf.installed, run_cons, topoStep, ← hf.topoIds_eq,
        hd]
      rfl
  · constructor
    · intro hf' _ _
      -- the worker has confirmed nothing new, so the new id is the old one
      have heq : Function.update s.topoIds (reg.rail m.1.hexId) topoId (reg.rail m.1.hexId) =
          s.topoIds (reg.rail m.1.hexId) :=
        congrFun (hf'.topoIds_eq.trans hf.topoIds_eq.symm) (reg.rail m.1.hexId)
      rw [Function.update_self] at heq
      rw [hd, heq]
    · intro hk
      have heq : topoId = s.topoIds (reg.rail m.1.hexId) := Except.ok.inj (hd.symm.trans (hk hc hs))
      refine ⟨?_, fun a ha => List.mem_append_left _ (hf.acked a ha), ?_⟩
      · show Function.update s.topoIds _ topoId = s.confirmed
        rw [heq, Function.update_eq_self, hf.topoIds_eq]
      · exact (congrArg (run topoStep fun _ => t₀) (succeeded_concat_of_ne hs)).trans hf.installed

end

/-! ## The thread that handles a message -/

/-- The steps of the thread of one connection: it reads a line, takes a step of its own, or reads
whether the reconfiguration has succeeded. -/
inductive ThreadAction where
  | accept (req : ConfigReq)
  | advance
  | reply (success : Bool)

def threadStep (reg : Registry) (conn : ℕ) (c : Controller) : ThreadAction → Option Controller
  | .accept req => c.accept conn req
  | .advance => c.advance reg conn
  | .reply success => c.reply reg conn success

/-- The acknowledgements change nothing else. -/
theorem reaches_of_acking (reg : Registry) (conn : ℕ) (req : ConfigReq) (clients : List ℕ)
    {c : Controller} (h : c.handler conn = .acking req clients) :
    ∃ c', Reaches (threadStep reg conn) c c' ∧ c'.handler conn = .idle ∧
      c'.readyCount = c.readyCount ∧ c'.topoIds = c.topoIds := by
  induction clients generalizing c with
  | nil =>
    have hstep : threadStep reg conn c .advance = some (c.at conn .idle) := by
      simp [threadStep, Controller.advance, h]
    exact ⟨_, (Reaches.refl c).tail hstep, by simp, rfl, rfl⟩
  | cons client clients ih =>
    have hstep : threadStep reg conn c .advance = some (c.at conn (.acking req clients)) := by
      simp [threadStep, Controller.advance, h]
    obtain ⟨c', hc', hidle, hready, htopo⟩ := ih (c := c.at conn (.acking req clients)) (by simp)
    exact ⟨c', ((Reaches.refl c).tail hstep).trans hc', hidle, hready, htopo⟩

/-- The topology id is read back, sent to the worker and acknowledged when the worker confirms. -/
theorem reaches_of_determined (reg : Registry) (conn : ℕ) (req : ConfigReq) (success : Bool)
    {c : Controller} (h : c.handler conn = .determined req) :
    ∃ c', Reaches (threadStep reg conn) c c' ∧ c'.handler conn = .idle ∧
      c'.readyCount = c.readyCount ∧ c'.topoIds = c.topoIds := by
  have hload : threadStep reg conn c .advance =
      some (c.at conn (.loaded req (c.topoIds (reg.rail req.hexId)))) := by
    simp [threadStep, Controller.advance, h]
  have hsend : threadStep reg conn (c.at conn (.loaded req (c.topoIds (reg.rail req.hexId))))
      .advance = some ((c.at conn (.loaded req (c.topoIds (reg.rail req.hexId)))).at conn
        (.sent req (c.topoIds (reg.rail req.hexId)))) := by
    simp [threadStep, Controller.advance]
  generalize hsent : (c.at conn (.loaded req (c.topoIds (reg.rail req.hexId)))).at conn
    (.sent req (c.topoIds (reg.rail req.hexId))) = d at hsend
  have hreach := ((Reaches.refl c).tail hload).tail hsend
  have hreply : threadStep reg conn d (.reply success) =
      some (d.at conn (if success then .acking req (reg.clients req.hexId) else .idle)) := by
    simp [threadStep, Controller.reply, ← hsent]
  have hd : d.readyCount = c.readyCount ∧ d.topoIds = c.topoIds := by
    rw [← hsent]
    exact ⟨rfl, rfl⟩
  cases success with
  | false => exact ⟨_, hreach.tail hreply, by simp, hd.1, hd.2⟩
  | true =>
    obtain ⟨c', hc', hidle, hready, htopo⟩ :=
      reaches_of_acking reg conn req (reg.clients req.hexId)
        (c := d.at conn (.acking req (reg.clients req.hexId))) (by simp)
    exact ⟨c', (hreach.tail hreply).trans hc', hidle, hready.trans hd.1, htopo.trans hd.2⟩

/-- **A message is what its thread does**: from an idle thread, the steps of the thread lead to an
idle thread again, with the counts and topologies of the message. -/
theorem configReqStep_reaches {reg : Registry} {s t : ControlView} {req : ConfigReq} {r : IpcReply}
    (h : configReqStep reg s (req, r) = some t) {c : Controller} {conn : ℕ}
    (hidle : c.handler conn = .idle) (hready : c.readyCount = s.readyCount)
    (htopo : c.topoIds = s.topoIds) :
    ∃ c', Reaches (threadStep reg conn) c c' ∧ c'.handler conn = .idle ∧
      c'.readyCount = t.readyCount ∧ c'.topoIds = t.topoIds := by
  have haccept : threadStep reg conn c (.accept req) = some (c.at conn (.received req)) := by
    simp [threadStep, Controller.accept, hidle]
  have hreach := (Reaches.refl c).tail haccept
  by_cases hclients : reg.clients req.hexId = []
  · have hnot : ¬ Completes reg s req := fun hc => hc.1 hclients
    rw [configReqStep, if_neg hnot, if_pos hclients] at h
    cases h
    have hstep : threadStep reg conn (c.at conn (.received req)) .advance =
        some ((c.at conn (.received req)).at conn .idle) := by
      simp [threadStep, Controller.advance, hclients]
    exact ⟨_, hreach.tail hstep, by simp, hready, htopo⟩
  -- the request is counted
  obtain ⟨n, hn⟩ : ∃ n, n = s.readyCount req.hexId req.counter + 1 := ⟨_, rfl⟩
  obtain ⟨d, hd⟩ : ∃ d, d = ((c.at conn (.received req)).withReady req n).at conn (.counted req n) :=
    ⟨_, rfl⟩
  have hcount : threadStep reg conn (c.at conn (.received req)) .advance = some d := by
    simp [threadStep, Controller.advance, hclients, hd, hn, hready]
  have hcounted : d.handler conn = .counted req n := by rw [hd]; simp
  have hreach := hreach.tail hcount
  by_cases hall : allArrive req.backend n (reg.clients req.hexId).length = true
  · have hc : Completes reg s req := ⟨hclients, hn ▸ hall⟩
    have herase : threadStep reg conn d .advance = some ((d.withReady req 0).at conn (.erased req)) := by
      simp [threadStep, Controller.advance, hcounted, hall]
    have hreach := hreach.tail herase
    obtain ⟨hnot, -⟩ | ⟨topoId, -, hdet, hcases⟩ := configReqStep_cases h
    · exact absurd hc hnot
    have hdtopo : d.topoIds = s.topoIds := by rw [hd]; exact htopo
    have hdready : (d.withReady req 0).readyCount = (s.withReady req 0).readyCount := by
      rw [hd]
      simp [Controller.withReady, ControlView.withReady, Controller.at, hready]
    obtain ⟨e, he⟩ : ∃ e : Controller, e =
        { (d.withReady req 0).at conn (.erased req) with
          topoIds := Function.update s.topoIds (reg.rail req.hexId) topoId } := ⟨_, rfl⟩
    have hstore : threadStep reg conn ((d.withReady req 0).at conn (.erased req)) .advance =
        some (e.at conn (.determined req)) := by
      simp only [threadStep, Controller.advance, Controller.at_handler_self, Controller.at_topoIds,
        Controller.withReady_topoIds, hdtopo, hdet, he]
    obtain ⟨c', hc', hidle', hready', htopo'⟩ := reaches_of_determined reg conn req
      (decide (r = .success)) (c := e.at conn (.determined req)) (by simp)
    refine ⟨c', (hreach.tail hstore).trans hc', hidle', ?_, ?_⟩
    · rw [hready', Controller.at_readyCount, he]
      rcases hcases with ⟨-, rfl⟩ | ⟨-, rfl⟩ <;> exact hdready
    · rw [htopo', Controller.at_topoIds, he]
      rcases hcases with ⟨-, rfl⟩ | ⟨-, rfl⟩ <;> rfl
  · have hnot : ¬ Completes reg s req := fun hc => hall (hn ▸ hc.2)
    rw [configReqStep, if_neg hnot, if_neg hclients] at h
    cases h
    have hstep : threadStep reg conn d .advance = some (d.at conn .idle) := by
      simp [threadStep, Controller.advance, hcounted, hall]
    refine ⟨_, hreach.tail hstep, by simp, ?_, ?_⟩
    · rw [hd]
      simp [Controller.withReady, ControlView.withReady, Controller.at, hready, hn]
    · rw [hd]
      exact htopo

/-! ## Runs of messages -/

/-- **The controller's view follows the workers exactly when no failed reconfiguration has changed
its topology**: for every initial topology accepted by all rails and every sequence of messages
with any pattern of outcomes, it does so after each message if and only if every message whose
reconfiguration fails asks for the topology that its rail has. -/
theorem follows_iff_keepsTopology (reg : Registry) (t₀ : TopoId) {ms : List (ConfigReq × IpcReply)}
    {s : ControlView} (hrun : run (configReqStep reg) (.initial t₀) ms = some s) :
    (∀ ns, ns <+: ms → ∀ t, run (configReqStep reg) (.initial t₀) ns = some t →
      t.Follows reg t₀) ↔ Along (configReqStep reg) (KeepsTopology reg) (.initial t₀) ms := by
  refine forall_prefix_iff_along (J := fun _ => True)
    (fun _ _ _ hf _ h => ⟨trivial, follows_step_iff hf h⟩) hrun ?_ trivial
  exact ⟨rfl, fun a ha => absurd ha List.not_mem_nil, rfl⟩

/-- Two communicators of two members on one rail. -/
def sharedRail : Registry where
  clients := fun h => if h = 7 ∨ h = 8 then [0, 1] else []
  rail := fun _ => 0

/-- Both ends of the first pipeline group send their requests, and the worker confirms; then the
requests of a stage that is not connected fail. -/
def keptRequests : List (ConfigReq × IpcReply) :=
  [(⟨7, 11, 1000000⟩, .success), (⟨7, 11, 1000000⟩, .success), (⟨8, 0, 2000000⟩, .refused),
    (⟨8, 0, 2000000⟩, .error)]

theorem follows_keptRequests :
    ∃ s, run (configReqStep sharedRail) (.initial 0#32) keptRequests = some s ∧
      s.topoIds 0 = 3#32 ∧ s.Follows sharedRail 0#32 := by
  have hrun : (run (configReqStep sharedRail) (.initial 0#32) keptRequests).map
      (fun s => s.topoIds 0) = some 3#32 := by
    decide
  obtain ⟨s, hs, he⟩ := Option.map_eq_some_iff.mp hrun
  refine ⟨s, hs, he, (follows_iff_keepsTopology sharedRail 0#32 hs).mpr ?_ _ List.prefix_rfl s hs⟩
  refine ⟨?_, fun t ht => ⟨?_, fun u hu => ⟨?_, fun v hv => ⟨?_, fun _ _ => trivial⟩⟩⟩⟩
  · exact fun _ hne => absurd rfl hne
  · exact fun _ hne => absurd rfl hne
  · exact fun hc => absurd hc (by cases ht; cases hu; decide)
  · intro _ _
    cases ht
    cases hu
    cases hv
    decide

/-- The worker cannot be reached for the requests of the first pipeline group, and confirms those
of stage 2 of the other communicator. -/
def failedRequests : List (ConfigReq × IpcReply) :=
  [(⟨7, 11, 1000000⟩, .refused), (⟨7, 11, 1000000⟩, .refused), (⟨8, 0, 2000000⟩, .success),
    (⟨8, 0, 2000000⟩, .success)]

/-- After the failure the controller has the bits of the failed request, and the next successful
request installs them. -/
theorem not_follows_failedRequests :
    (run (configReqStep sharedRail) (.initial 0#32) (failedRequests.take 2)).map
      (fun s => (s.topoIds 0, s.confirmed 0)) = some (3#32, 0#32) ∧
    (run (configReqStep sharedRail) (.initial 0#32) failedRequests).map
      (fun s => (s.confirmed 0, s.succeeded sharedRail)) = some (3#32, [⟨0, 0, 2000000⟩]) ∧
    ¬ ∀ ns, ns <+: failedRequests → ∀ t,
      run (configReqStep sharedRail) (.initial 0#32) ns = some t → t.Follows sharedRail 0#32 := by
  have hrun : (run (configReqStep sharedRail) (.initial 0#32) (failedRequests.take 2)).map
      (fun s => (s.topoIds 0, s.confirmed 0)) = some (3#32, 0#32) := by
    decide
  refine ⟨hrun, by decide, fun h => ?_⟩
  obtain ⟨t, ht, he⟩ := Option.map_eq_some_iff.mp hrun
  obtain ⟨h₁, h₂⟩ := Prod.mk.inj he
  have heq := congrFun (h _ (List.take_prefix 2 failedRequests) t ht).topoIds_eq 0
  rw [h₁, h₂] at heq
  exact absurd heq (by decide)

end Opus
