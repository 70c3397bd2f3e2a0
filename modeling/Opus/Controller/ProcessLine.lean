import Mathlib.Data.Int.Notation
import Opus.Controller.CheckIn
import Opus.Controller.RailTopology

/-!
# Control lines

The controller reads lines from its clients and dispatches them by their header. The fields of a
`COMM` or `CONFIG_REQ` line are separated by commas and the integer fields are read by `std::stoi`,
which skips leading blanks, ignores what follows the digits, and throws when there are no digits or
the number is out of range. Nothing catches these exceptions, nor those of the handlers, which
throw after they have changed the maps.

## Main definitions

* `IntField`: a field that is an integer, which is less than `std::stoi` accepts
* `splitFields`, `parseLine`: the fields of a line
* `ControlMaps`, `handleCommLine`, `handleConfigReqLine`, `processLine`: the effect of a line
* `WellFormedLine`: the lines that are to be handled
* `Harmless`: the line is handled, or it changes nothing, and no exception escapes
* `SafeLine`: the condition on the line and the maps before it

## Main results

* `topoEntry_natCast`, `runtimeTopo_natCast`: the handlers of parsed messages
* `harmless_iff`: a line is harmless exactly when the condition holds
-/

namespace Opus

/-! ## Integers -/

/-- A sign is dropped. -/
def dropSign : Text → Text
  | '-' :: ds => ds
  | '+' :: ds => ds
  | ds => ds

/-- The field is an integer: digits with an optional sign and nothing else. -/
def IntField (field : Text) : Prop :=
  dropSign field ≠ [] ∧ ∀ d ∈ dropSign field, d.isDigit = true

instance (field : Text) : Decidable (IntField field) :=
  decidable_of_iff ((!(dropSign field).isEmpty && (dropSign field).all Char.isDigit) = true)
    (by simp [IntField])

/-! ## Fields -/

/-- What stands before and after the first occurrence of a byte. -/
def cutAt (c : Char) (bytes : Text) : Option (Text × Text) :=
  if c ∈ bytes then some (before c bytes, behind c bytes) else none

/-- The three fields of a body; further commas belong to the last one. -/
def splitFields (body : Text) : Option (Text × Text × Text) :=
  (cutAt ',' body).bind fun p => (cutAt ',' p.2).map fun q => (p.1, q.1, q.2)

/-- A line as the dispatcher and the handlers see it. -/
inductive ControlLine where
  /-- an empty line, an unknown header, or too few commas -/
  | ignored
  | comm (hexId nranks localRank : Text)
  | configReq (hexId backendId collectiveCounter : Text)
  deriving DecidableEq, Repr

/-- The header of `processLine` and the fields of the handler it selects. -/
def parseLine (line : Text) : ControlLine :=
  let parts := (cutAt ';' line).getD (line, [])
  if parts.1 = "COMM".toList then
    match splitFields parts.2 with
    | none => .ignored
    | some (hexId, nranks, localRank) => .comm hexId nranks localRank
  else if parts.1 = "CONFIG_REQ".toList then
    match splitFields parts.2 with
    | none => .ignored
    | some (hexId, backendId, counter) => .configReq hexId backendId counter
  else .ignored

/-! ## The handlers -/

/-- The maps of the controller. An absent entry of `readyCount` is 0. -/
structure ControlMaps where
  idToCommSize : Text → Option ℤ
  idToClients : Text → Option (List Client)
  idToTopoId : Text → Option (ℤ × ℤ)
  readyCount : Text → ℤ → ℕ
  topoIds : ℤ → TopoId

/-- How `processLine` ends. -/
inductive LineResult where
  | returned
  /-- `std::stoi` throws -/
  | badInteger
  /-- a handler throws -/
  | threw (message : String)
  /-- a rail outside the vector, or a shift by 32 or more -/
  | undefined
  deriving DecidableEq, Repr

/-- The entry `determine_topo_pm` makes for a complete group: none when a client is unknown. -/
def topoEntry (cfg : CheckInConfig) (clients : List Client) (localRank : ℤ) :
    Except String (Option (ℤ × ℤ)) :=
  match clients.mapM fun client => cfg.serverIps.idxOf? client.ip with
  | none => .ok none
  | some clientIpIdxs =>
    if localRank ≥ cfg.numRails then .error "localRank exceeds number of rails"
    else .ok (some (if (scanNodes clientIpIdxs).sequential then 1 else 2, localRank))

/-- For a rank that is not negative it is the entry of `determineTopoPm`. -/
theorem topoEntry_natCast (cfg : CheckInConfig) (clients : List Client) (localRank : ℕ) :
    topoEntry cfg clients localRank = (determineTopoPm cfg clients localRank).map
      fun p => p.2.map fun q => ((q.1 : ℤ), (q.2 : ℤ)) := by
  unfold topoEntry determineTopoPm
  cases clients.mapM fun client => cfg.serverIps.idxOf? client.ip with
  | none => rfl
  | some clientIpIdxs =>
    simp only [ge_iff_le, Int.ofNat_le]
    split
    · rfl
    · simp only [Except.map, Option.map_some]
      split <;> rfl

/-- `handle_comm` after the fields have been cut. -/
def handleCommLine (cfg : CheckInConfig) (s : ControlMaps) (hexId nranks localRank : Text)
    (client : Client) : ControlMaps × LineResult :=
  match stoi nranks, stoi localRank with
  | none, _ | some _, none => (s, .badInteger)
  | some nr, some rank =>
    let size := (s.idToCommSize hexId).getD nr
    let clients := (s.idToClients hexId).getD [] ++ [client]
    let s := { s with
      idToCommSize := Function.update s.idToCommSize hexId (some size)
      idToClients := Function.update s.idToClients hexId (some clients) }
    if (clients.length : ℤ) = size then
      match topoEntry cfg clients rank with
      | .error message => (s, .threw message)
      | .ok none => (s, .returned)
      | .ok (some entry) =>
        ({ s with idToTopoId := Function.update s.idToTopoId hexId (some entry) }, .returned)
    else (s, .returned)

/-- `all_arrive` on integers. -/
def allArriveInt (backendId cnt size : ℤ) : Bool :=
  if backendId > PP_BACKEND_INTERVAL then 2 ≤ cnt else size ≤ cnt

/-- The topology of a rail after a request, on integers: division truncates. -/
def runtimeTopo (topoId : TopoId) (backendId counter : ℤ) : Except String TopoId :=
  if backendId > 10 then
    let ppGroup := backendId.tdiv PP_BACKEND_INTERVAL
    if counter.tdiv PP_INTERVAL ≠ ppGroup then
      .error "PP backendId and collectiveCounter mismatch"
    else setPpTopo topoId ppGroup.toNat
  else
    let ppStage := counter.tdiv PP_INTERVAL
    if ppStage < 0 then .error "pp_stage must be non-negative"
    else .ok (setNonPpTopo topoId ppStage.toNat)

/-- For numbers that are not negative it is `determineRuntimeTopo`. -/
theorem runtimeTopo_natCast (topoId : TopoId) (backendId counter : ℕ) :
    runtimeTopo topoId backendId counter = determineRuntimeTopo topoId backendId counter := by
  have hdiv : ∀ a b : ℕ, (a : ℤ).tdiv b = ((a / b : ℕ) : ℤ) := fun a b => rfl
  have hpp : (backendId : ℤ) > 10 ↔ backendId > 10 := by omega
  unfold runtimeTopo determineRuntimeTopo
  simp only [hdiv, Int.toNat_natCast, hpp, ne_eq, Int.ofNat_inj]
  split
  · rfl
  · rw [if_neg (Int.not_lt.mpr (Int.natCast_nonneg _))]

/-- The shifts of a request and the rail it uses are defined. -/
def RuntimeDefined (cfg : CheckInConfig) (rail backendId counter : ℤ) : Prop :=
  (0 ≤ rail ∧ rail < cfg.numRails) ∧
    if backendId > 10 then backendId.tdiv PP_BACKEND_INTERVAL < 32
    else counter.tdiv PP_INTERVAL < 32

instance (cfg : CheckInConfig) (rail backendId counter : ℤ) :
    Decidable (RuntimeDefined cfg rail backendId counter) := inferInstanceAs (Decidable (_ ∧ _))

/-- The communicator has checked in. -/
def Known (s : ControlMaps) (hexId : Text) : Prop :=
  (s.idToClients hexId).isSome = true ∧ (s.idToCommSize hexId).isSome = true

instance (s : ControlMaps) (hexId : Text) : Decidable (Known s hexId) :=
  inferInstanceAs (Decidable (_ ∧ _))

def ControlMaps.withReady (s : ControlMaps) (hexId : Text) (counter : ℤ) (n : ℕ) : ControlMaps :=
  { s with
    readyCount := Function.update s.readyCount hexId
      (Function.update (s.readyCount hexId) counter n) }

/-- The request completes its group. -/
def Arrives (s : ControlMaps) (hexId : Text) (backendId counter : ℤ) : Prop :=
  allArriveInt backendId (s.readyCount hexId counter + 1) ((s.idToCommSize hexId).getD 0) = true

instance (s : ControlMaps) (hexId : Text) (backendId counter : ℤ) :
    Decidable (Arrives s hexId backendId counter) := inferInstanceAs (Decidable (_ = _))

/-- The topology class and rail of a communicator; reading them inserts zeros when they are absent. -/
def ControlMaps.entry (s : ControlMaps) (hexId : Text) : ℤ × ℤ := (s.idToTopoId hexId).getD (0, 0)

/-- `handle_config_req` after the fields have been cut. What `reconfig` answers does not change the
maps. -/
def handleConfigReqLine (cfg : CheckInConfig) (s : ControlMaps)
    (hexId backendId collectiveCounter : Text) : ControlMaps × LineResult :=
  match stoi backendId, stoi collectiveCounter with
  | none, _ | some _, none => (s, .badInteger)
  | some backend, some counter =>
    if Known s hexId then
      if Arrives s hexId backend counter then
        let rail := (s.entry hexId).2
        let s := { s.withReady hexId counter 0 with
          idToTopoId := Function.update s.idToTopoId hexId (some (s.entry hexId)) }
        match runtimeTopo (s.topoIds rail) backend counter with
        | .error message => (s, .threw message)
        | .ok topoId =>
          if RuntimeDefined cfg rail backend counter then
            ({ s with topoIds := Function.update s.topoIds rail topoId }, .returned)
          else (s, .undefined)
      else (s.withReady hexId counter (s.readyCount hexId counter + 1), .returned)
    else (s, .returned)

/-- `Controller::processLine`. -/
def processLine (cfg : CheckInConfig) (s : ControlMaps) (client : Client) (line : Text) :
    ControlMaps × LineResult :=
  match parseLine line with
  | .ignored => (s, .returned)
  | .comm hexId nranks localRank => handleCommLine cfg s hexId nranks localRank client
  | .configReq hexId backendId counter => handleConfigReqLine cfg s hexId backendId counter

/-! ## Harmless lines -/

/-- A field that is an integer within the range of `int`. -/
def IntIn (field : Text) (value : ℤ) : Prop := IntField field ∧ stoi field = some value

/-- The counter belongs to the backend id: it carries the pipeline group, or a stage. -/
def CounterMatches (backendId counter : ℤ) : Prop :=
  if backendId > 10 then counter.tdiv PP_INTERVAL = backendId.tdiv PP_BACKEND_INTERVAL
  else 0 ≤ counter.tdiv PP_INTERVAL

instance (backendId counter : ℤ) : Decidable (CounterMatches backendId counter) :=
  inferInstanceAs (Decidable (ite _ _ _))

/-- The lines that are to be handled. -/
def WellFormedLine (s : ControlMaps) (line : Text) : Prop :=
  match parseLine line with
  | .ignored => False
  | .comm _ nranks localRank => (∃ n, IntIn nranks n) ∧ ∃ r, IntIn localRank r
  | .configReq hexId backendId counter =>
    Known s hexId ∧ ∃ b c, IntIn backendId b ∧ IntIn counter c ∧ CounterMatches b c

/-- **The line is harmless**: `processLine` returns normally, and a line that is not well formed
leaves all maps as they were. -/
def Harmless (cfg : CheckInConfig) (s : ControlMaps) (client : Client) (line : Text) : Prop :=
  (processLine cfg s client line).2 = .returned ∧
    (¬ WellFormedLine s line → (processLine cfg s client line).1 = s)

/-- The group is complete with this client, all its clients are known and its rail is too large. -/
def RailExceeded (cfg : CheckInConfig) (s : ControlMaps) (hexId : Text) (client : Client)
    (nranks localRank : ℤ) : Prop :=
  let clients := (s.idToClients hexId).getD [] ++ [client]
  (clients.length : ℤ) = (s.idToCommSize hexId).getD nranks ∧
    (∀ c ∈ clients, c.ip ∈ cfg.serverIps) ∧ cfg.numRails ≤ localRank

/-- A request that completes its group at once and asks for the topology its rail has. -/
def LeavesNoTrace (s : ControlMaps) (hexId : Text) (backendId counter : ℤ) : Prop :=
  s.readyCount hexId counter = 0 ∧ (s.idToTopoId hexId).isSome = true ∧
    runtimeTopo (s.topoIds (s.entry hexId).2) backendId counter =
      .ok (s.topoIds (s.entry hexId).2)

/-- The condition on a line. In a `COMM` line both numbers are integers in range, and the line does
not complete a group whose last rank has no rail. In a `CONFIG_REQ` line `std::stoi` accepts both
numbers; when the communicator is known, the counter matches the backend id, a request that
completes its group stays within the rails and the bits of an `int`, and both numbers are integers
unless the request leaves no trace. -/
def SafeLine (cfg : CheckInConfig) (s : ControlMaps) (client : Client) (line : Text) : Prop :=
  match parseLine line with
  | .ignored => True
  | .comm hexId nranks localRank =>
    ∃ n r, IntIn nranks n ∧ IntIn localRank r ∧ ¬ RailExceeded cfg s hexId client n r
  | .configReq hexId backendId counter =>
    ∃ b c, stoi backendId = some b ∧ stoi counter = some c ∧ (Known s hexId → CounterMatches b c ∧
      (Arrives s hexId b c → RuntimeDefined cfg (s.entry hexId).2 b c) ∧
      (IntField backendId ∧ IntField counter ∨
        Arrives s hexId b c ∧ LeavesNoTrace s hexId b c))

/-! ## The two handlers -/

section

variable {cfg : CheckInConfig} {s : ControlMaps} {client : Client} {hexId : Text}

theorem mapM_idxOf?_eq_none_iff {clients : List Client} :
    (clients.mapM fun client => cfg.serverIps.idxOf? client.ip) = none ↔
      ∃ c ∈ clients, c.ip ∉ cfg.serverIps := by
  induction clients with
  | nil => simp
  | cons c clients ih =>
    rw [List.mapM_cons]
    simp only [List.mem_cons, exists_eq_or_imp, ← ih]
    cases hc : cfg.serverIps.idxOf? c.ip with
    | none => simpa using Or.inl (List.idxOf?_eq_none_iff.mp hc)
    | some i =>
      have hmem : c.ip ∈ cfg.serverIps := by
        by_contra hmem
        rw [List.idxOf?_eq_none_iff.mpr hmem] at hc
        cases hc
      cases hm : clients.mapM fun client => cfg.serverIps.idxOf? client.ip <;> simp [hmem]

/-- When `determine_topo_pm` throws. -/
theorem topoEntry_eq_error_iff (cfg : CheckInConfig) (clients : List Client) (localRank : ℤ) :
    (∃ message, topoEntry cfg clients localRank = .error message) ↔
      (∀ c ∈ clients, c.ip ∈ cfg.serverIps) ∧ cfg.numRails ≤ localRank := by
  unfold topoEntry
  cases hm : clients.mapM fun client => cfg.serverIps.idxOf? client.ip with
  | none =>
    obtain ⟨c, hc, hne⟩ := mapM_idxOf?_eq_none_iff.mp hm
    simp only [reduceCtorEq, exists_false, false_iff]
    exact fun h => hne (h.1 c hc)
  | some clientIpIdxs =>
    have hall : ∀ c ∈ clients, c.ip ∈ cfg.serverIps := by
      intro c hc
      by_contra hne
      rw [mapM_idxOf?_eq_none_iff.mpr ⟨c, hc, hne⟩] at hm
      cases hm
    simp only []
    split
    · next hge => exact iff_of_true ⟨_, rfl⟩ ⟨hall, hge⟩
    · next hge => exact iff_of_false (fun ⟨_, h⟩ => by cases h) fun h => hge h.2

/-- A `COMM` line whose numbers `std::stoi` accepts registers its client, and returns unless the
rank has no rail. -/
theorem handleCommLine_of_ok (cfg : CheckInConfig) (s : ControlMaps) (client : Client)
    (hexId : Text) {nranks localRank : Text} {n r : ℤ} (hn : stoi nranks = some n)
    (hr : stoi localRank = some r) :
    (handleCommLine cfg s hexId nranks localRank client).1 ≠ s ∧
      ((handleCommLine cfg s hexId nranks localRank client).2 = .returned ↔
        ¬ RailExceeded cfg s hexId client n r) := by
  obtain ⟨clients, hclients⟩ : ∃ clients, clients = (s.idToClients hexId).getD [] ++ [client] :=
    ⟨_, rfl⟩
  have hlength : ∀ t : ControlMaps, t.idToClients hexId = some clients → t ≠ s := by
    rintro t ht rfl
    rw [ht, Option.getD_some] at hclients
    exact absurd (congrArg List.length hclients) (by simp)
  have hself : Function.update s.idToClients hexId (some clients) hexId = some clients :=
    Function.update_self ..
  simp only [handleCommLine, hn, hr, ← hclients]
  split
  · next hlen =>
    have herr := topoEntry_eq_error_iff cfg clients r
    cases ht : topoEntry cfg clients r with
    | error message =>
      refine ⟨hlength _ hself, iff_of_false (fun h => by cases h) fun h => h ?_⟩
      have := herr.mp ⟨message, ht⟩
      exact ⟨by rw [← hclients, hlen], by rw [← hclients]; exact this.1, this.2⟩
    | ok entry =>
      have hno : ¬ RailExceeded cfg s hexId client n r := by
        rintro ⟨-, hips, hrail⟩
        rw [← hclients] at hips
        obtain ⟨message, hm⟩ := herr.mpr ⟨hips, hrail⟩
        rw [ht] at hm
        cases hm
      cases entry <;> exact ⟨hlength _ hself, iff_of_true rfl hno⟩
  · next hlen =>
    refine ⟨hlength _ hself, iff_of_true rfl fun h => hlen ?_⟩
    have := h.1
    rwa [← hclients] at this

theorem harmless_comm_iff (nranks localRank : Text) :
    ((handleCommLine cfg s hexId nranks localRank client).2 = .returned ∧
      (¬ ((∃ n, IntIn nranks n) ∧ ∃ r, IntIn localRank r) →
        (handleCommLine cfg s hexId nranks localRank client).1 = s)) ↔
      ∃ n r, IntIn nranks n ∧ IntIn localRank r ∧ ¬ RailExceeded cfg s hexId client n r := by
  cases hn : stoi nranks with
  | none =>
    refine iff_of_false (fun h => ?_) ?_
    · simp only [handleCommLine, hn] at h
      exact absurd h.1 (by simp)
    · rintro ⟨n, r, hin, -⟩
      exact absurd (hn.symm.trans hin.2) (by simp)
  | some n =>
    cases hr : stoi localRank with
    | none =>
      refine iff_of_false (fun h => ?_) ?_
      · simp only [handleCommLine, hn, hr] at h
        exact absurd h.1 (by simp)
      · rintro ⟨n, r, -, hir, -⟩
        exact absurd (hr.symm.trans hir.2) (by simp)
    | some r =>
      obtain ⟨hne, hret⟩ := handleCommLine_of_ok cfg s client hexId hn hr
      rw [hret]
      constructor
      · rintro ⟨hno, hkeep⟩
        by_contra hcon
        refine hne (hkeep fun ⟨⟨n', hn'⟩, r', hr'⟩ => hcon ⟨n, r, ⟨hn'.1, hn⟩, ⟨hr'.1, hr⟩, hno⟩)
      · rintro ⟨n', r', hn', hr', hno⟩
        cases Option.some.inj (hn.symm.trans hn'.2)
        cases Option.some.inj (hr.symm.trans hr'.2)
        exact ⟨hno, fun h => absurd ⟨⟨n, hn'⟩, r, hr'⟩ h⟩

/-- When the topology of a rail is determined without an exception. -/
theorem runtimeTopo_eq_ok_iff (topoId : TopoId) (b c : ℤ) :
    (∃ topoId', runtimeTopo topoId b c = .ok topoId') ↔ CounterMatches b c := by
  unfold runtimeTopo CounterMatches
  split
  · next hpp =>
    simp only []
    split
    · next hne => exact iff_of_false (fun ⟨_, h⟩ => by cases h) hne
    · next heq =>
      refine iff_of_true ?_ (not_not.mp heq)
      -- a backend id above 10 has a positive group
      have hpos : 1 ≤ b.tdiv PP_BACKEND_INTERVAL := by
        rw [show ((PP_BACKEND_INTERVAL : ℕ) : ℤ) = 10 from rfl, Int.tdiv_eq_ediv_of_nonneg (by omega)]
        omega
      exact ⟨_, by rw [setPpTopo, if_neg (by omega)]⟩
  · simp only []
    split
    · next hneg => exact iff_of_false (fun ⟨_, h⟩ => by cases h) (by omega)
    · next hneg => exact iff_of_true ⟨_, rfl⟩ (by omega)

/-- A `CONFIG_REQ` line of a known communicator whose group is not complete is counted. -/
theorem withReady_succ_ne (s : ControlMaps) (hexId : Text) (c : ℤ) :
    s.withReady hexId c (s.readyCount hexId c + 1) ≠ s := by
  intro h
  have := congrFun (congrFun (congrArg ControlMaps.readyCount h) hexId) c
  simp [ControlMaps.withReady] at this

/-- A request that completes its group leaves all maps as they were exactly when it leaves no
trace. -/
theorem completed_eq_iff {b c : ℤ} {topoId : TopoId}
    (hd : runtimeTopo (s.topoIds (s.entry hexId).2) b c = .ok topoId) :
    ({ s.withReady hexId c 0 with
        idToTopoId := Function.update s.idToTopoId hexId (some (s.entry hexId))
        topoIds := Function.update s.topoIds (s.entry hexId).2 topoId } : ControlMaps) = s ↔
      LeavesNoTrace s hexId b c := by
  constructor
  · intro h
    have hready := congrFun (congrFun (congrArg ControlMaps.readyCount h) hexId) c
    have hentry := congrFun (congrArg ControlMaps.idToTopoId h) hexId
    have htopo := congrFun (congrArg ControlMaps.topoIds h) (s.entry hexId).2
    simp only [ControlMaps.withReady, Function.update_self] at hready hentry htopo
    exact ⟨hready.symm, by rw [← hentry]; rfl, by rw [hd, htopo]⟩
  · rintro ⟨hready, hentry, htopo⟩
    obtain ⟨entry, he⟩ := Option.isSome_iff_exists.mp hentry
    have heq : topoId = s.topoIds (s.entry hexId).2 := Except.ok.inj (hd.symm.trans htopo)
    have hsame : some (s.entry hexId) = s.idToTopoId hexId := by
      rw [ControlMaps.entry, he, Option.getD_some]
    rw [heq, hsame, Function.update_eq_self, Function.update_eq_self, ControlMaps.withReady]
    have hcount : Function.update (s.readyCount hexId) c 0 = s.readyCount hexId := by
      rw [← hready, Function.update_eq_self]
    rw [hcount, Function.update_eq_self]

theorem handleConfigReqLine_of_known (cfg : CheckInConfig) {backendId counter : Text} {b c : ℤ}
    (hb : stoi backendId = some b) (hc : stoi counter = some c) (hk : Known s hexId) :
    ((handleConfigReqLine cfg s hexId backendId counter).2 = .returned ↔
      (Arrives s hexId b c → CounterMatches b c ∧ RuntimeDefined cfg (s.entry hexId).2 b c)) ∧
    ((handleConfigReqLine cfg s hexId backendId counter).2 = .returned →
      ((handleConfigReqLine cfg s hexId backendId counter).1 = s ↔
        Arrives s hexId b c ∧ LeavesNoTrace s hexId b c)) := by
  have hok := runtimeTopo_eq_ok_iff (s.topoIds (s.entry hexId).2) b c
  simp only [handleConfigReqLine, hb, hc, if_pos hk]
  split
  · next ha =>
    cases hd : runtimeTopo (s.topoIds (s.entry hexId).2) b c with
    | error message =>
      have hno : ¬ CounterMatches b c := by
        intro hm
        obtain ⟨topoId, ht⟩ := hok.mpr hm
        rw [hd] at ht
        cases ht
      have hd' : runtimeTopo ((s.withReady hexId c 0).topoIds (s.entry hexId).2) b c =
          .error message := hd
      simp only [hd']
      exact ⟨iff_of_false (fun h => by cases h) fun h => hno (h ha).1, fun h => by cases h⟩
    | ok topoId =>
      have hm : CounterMatches b c := hok.mp ⟨topoId, hd⟩
      have hd' : runtimeTopo ((s.withReady hexId c 0).topoIds (s.entry hexId).2) b c =
          .ok topoId := hd
      simp only [hd']
      split
      · next hdef =>
        refine ⟨iff_of_true rfl fun _ => ⟨hm, hdef⟩, fun _ => ?_⟩
        exact (completed_eq_iff hd).trans ⟨fun h => ⟨ha, h⟩, And.right⟩
      · next hdef =>
        exact ⟨iff_of_false (fun h => by cases h) fun h => hdef (h ha).2, fun h => by cases h⟩
  · next ha =>
    refine ⟨iff_of_true rfl fun h => absurd h ha, fun _ => ?_⟩
    exact iff_of_false (withReady_succ_ne s hexId c) fun h => ha h.1

theorem harmless_configReq_iff (backendId counter : Text) :
    ((handleConfigReqLine cfg s hexId backendId counter).2 = .returned ∧
      (¬ (Known s hexId ∧ ∃ b c, IntIn backendId b ∧ IntIn counter c ∧ CounterMatches b c) →
        (handleConfigReqLine cfg s hexId backendId counter).1 = s)) ↔
      ∃ b c, stoi backendId = some b ∧ stoi counter = some c ∧ (Known s hexId → CounterMatches b c ∧
        (Arrives s hexId b c → RuntimeDefined cfg (s.entry hexId).2 b c) ∧
        (IntField backendId ∧ IntField counter ∨
          Arrives s hexId b c ∧ LeavesNoTrace s hexId b c)) := by
  cases hb : stoi backendId with
  | none =>
    refine iff_of_false (fun h => ?_) fun ⟨b, c, h, _⟩ => by cases h
    simp only [handleConfigReqLine, hb] at h
    exact absurd h.1 (by simp)
  | some b =>
    cases hc : stoi counter with
    | none =>
      refine iff_of_false (fun h => ?_) fun ⟨b, c, _, h, _⟩ => by cases h
      simp only [handleConfigReqLine, hb, hc] at h
      exact absurd h.1 (by simp)
    | some c =>
      have hex : ∀ P : ℤ → ℤ → Prop, (∃ b' c', some b = some b' ∧ some c = some c' ∧ P b' c') ↔ P b c := by
        intro P
        constructor
        · rintro ⟨b', c', hb', hc', h⟩
          cases hb'
          cases hc'
          exact h
        · exact fun h => ⟨b, c, rfl, rfl, h⟩
      rw [hex]
      by_cases hk : Known s hexId
      · obtain ⟨hret, hsame⟩ := handleConfigReqLine_of_known cfg hb hc hk
        have hwf : (Known s hexId ∧ ∃ b c, IntIn backendId b ∧ IntIn counter c ∧
            CounterMatches b c) ↔ (IntField backendId ∧ IntField counter) ∧ CounterMatches b c := by
          constructor
          · rintro ⟨-, b', c', ⟨hfb, hb'⟩, ⟨hfc, hc'⟩, hm⟩
            cases Option.some.inj (hb.symm.trans hb')
            cases Option.some.inj (hc.symm.trans hc')
            exact ⟨⟨hfb, hfc⟩, hm⟩
          · rintro ⟨⟨hfb, hfc⟩, hm⟩
            exact ⟨hk, b, c, ⟨hfb, hb⟩, ⟨hfc, hc⟩, hm⟩
        rw [hwf]
        constructor
        · rintro ⟨hr, hkeep⟩ -
          have hdef := hret.mp hr
          -- a request that is not to be handled must have left no trace, and then it matches
          by_cases hwell : (IntField backendId ∧ IntField counter) ∧ CounterMatches b c
          · exact ⟨hwell.2, fun ha => (hdef ha).2, .inl hwell.1⟩
          · have htrace := (hsame hr).mp (hkeep hwell)
            exact ⟨(hdef htrace.1).1, fun ha => (hdef ha).2, .inr htrace⟩
        · intro h
          obtain ⟨hm, hdef, hfields⟩ := h hk
          have hr := hret.mpr fun ha => ⟨hm, hdef ha⟩
          refine ⟨hr, fun hwell => (hsame hr).mpr (hfields.resolve_left fun hf => hwell ⟨hf, hm⟩)⟩
      · refine iff_of_true ?_ fun h => absurd h hk
        simp only [handleConfigReqLine, hb, hc, if_neg hk]
        exact ⟨trivial, fun _ => trivial⟩

end

/-! ## Lines -/

/-- **A control line is harmless exactly when the condition holds**: for every state of the maps,
every client and every line, `processLine` handles it or returns with nothing changed, and throws
nothing, if and only if the line is `SafeLine`. -/
theorem harmless_iff (cfg : CheckInConfig) (s : ControlMaps) (client : Client) (line : Text) :
    Harmless cfg s client line ↔ SafeLine cfg s client line := by
  unfold Harmless SafeLine processLine WellFormedLine
  cases parseLine line with
  | ignored => exact iff_of_true ⟨rfl, fun _ => rfl⟩ trivial
  | comm hexId nranks localRank => exact harmless_comm_iff nranks localRank
  | configReq hexId backendId counter => exact harmless_configReq_iff backendId counter

/-- One rail, one node, and nothing registered. -/
def emptyMaps : ControlMaps :=
  ⟨fun _ => none, fun _ => none, fun _ => none, fun _ _ => 0, fun _ => 0⟩

def oneRail : CheckInConfig := ⟨["10.0.0.1"], 1, none⟩

def firstClient : Client := ⟨3, "10.0.0.1"⟩

/-- The communicator `a` with two members. -/
def checkedIn : ControlMaps :=
  { emptyMaps with
    idToCommSize := fun h => if h = ['a'] then some 2 else none
    idToClients := fun h => if h = ['a'] then some [firstClient, firstClient] else none
    idToTopoId := fun h => if h = ['a'] then some (1, 0) else none }

/-- A number without digits throws, a rank without a rail throws after the check-in has been
recorded, a number followed by other bytes registers a client, and a counter that does not belong to
its backend id is counted. -/
theorem not_harmless_lines :
    ¬ Harmless oneRail emptyMaps firstClient "COMM;a,x,0".toList ∧
    ¬ Harmless oneRail emptyMaps firstClient "COMM;a,1,1".toList ∧
    ¬ Harmless oneRail emptyMaps firstClient "COMM;a,2x,0".toList ∧
    ¬ Harmless oneRail checkedIn firstClient "CONFIG_REQ;a,20,5".toList := by
  refine ⟨fun h => absurd h.1 (by decide), fun h => absurd h.1 (by decide), fun h => ?_, fun h => ?_⟩
  · have hline : parseLine "COMM;a,2x,0".toList = .comm ['a'] ['2', 'x'] ['0'] := by decide
    rw [Harmless, processLine, WellFormedLine, hline] at h
    obtain ⟨n, r, hn, -⟩ := (harmless_comm_iff _ _).mp h
    exact absurd hn.1 (by decide +kernel)
  · have hline : parseLine "CONFIG_REQ;a,20,5".toList = .configReq ['a'] ['2', '0'] ['5'] := by
      decide
    rw [Harmless, processLine, WellFormedLine, hline] at h
    obtain ⟨b, c, hb, hc, hk⟩ := (harmless_configReq_iff _ _).mp h
    have hb' : stoi ['2', '0'] = some 20 := by decide
    have hc' : stoi ['5'] = some 5 := by decide
    cases Option.some.inj (hb.symm.trans hb')
    cases Option.some.inj (hc.symm.trans hc')
    exact absurd (hk (by decide)).1 (by decide)

end Opus
