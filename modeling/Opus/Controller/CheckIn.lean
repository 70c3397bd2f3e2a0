import Mathlib.Data.List.Induction
import Mathlib.Data.List.Sort
import Mathlib.Data.Multiset.Basic
import Mathlib.Logic.Function.Basic
import Opus.Basic

/-!
# Check-in of communicators

Every member of a communicator sends one `COMM` message. The message that completes the group
makes the controller classify the placement of its members, choose the rail and broadcast the
domain to all of them.

The classification sorts the members' nodes, so it does not depend on the order of arrival. The
rail and the check against the number of rails use the local rank carried by the message that
happens to arrive last. A local rank without a rail is an exception that no thread catches: it ends
the controller, for all communicators.

## Main definitions

* `determineTopoPm`: the domain, the topology class and the rail of a group
* `handleComm`, `runComm`: one `COMM` message, and a sequence of them
* `outcome`: what a sequence of messages does for one communicator
* `Throws`, `CanThrow`: messages that complete their communicator with an exception

## Main results

* `determineTopoPm_eq_error`, `handle_eq_error_iff`: when a message ends the controller
* `progress_runComm`: how far the check-in of a communicator has got, after any messages
* `orderIndependent_iff`: the outcome does not depend on the arrival order exactly when no member has
  a rail, or all members have one local rank and no other communicator can end the controller
-/

namespace Opus

/-- A connected client. -/
structure Client where
  sock : ℕ
  ip : String
  deriving DecidableEq, Repr

/-- A `COMM` message `<hexId>,<nranks>,<localrank>` with the connection it arrived on. -/
structure CommMsg where
  hexId : HexId
  nranks : ℕ
  localRank : ℕ
  peerIp : String
  clientSock : ℕ
  deriving DecidableEq, Repr

/-- The line `CHECKIN_ACK;<hexId>,<domain>` sent to a client. -/
structure CheckinAck where
  sock : ℕ
  hexId : HexId
  domain : ℤ
  deriving DecidableEq, Repr

/-- The configuration a check-in reads: the node addresses, the number of rails and the override
of the detected domain. -/
structure CheckInConfig where
  serverIps : List String
  numRails : ℕ
  forcedDomain : Option ℤ

/-! ## The placement of a group -/

/-- The state of the scan over the sorted node indexes. -/
structure NodeScan where
  prevIdx : Option ℕ
  numNode : ℕ
  sameDomain : Bool
  sequential : Bool
  deriving DecidableEq, Repr

/-- One step of the scan. -/
def NodeScan.step (s : NodeScan) (idx : ℕ) : NodeScan :=
  match s.prevIdx with
  | none => { s with prevIdx := some idx }
  | some prev =>
    if idx ≠ prev then
      { prevIdx := some idx
        numNode := s.numNode + 1
        sameDomain := false
        sequential := if idx ≠ prev + 1 then false else s.sequential }
    else { s with prevIdx := some idx }

/-- The scan over the sorted node indexes of a group. -/
def scanNodes (clientIpIdxs : List ℕ) : NodeScan :=
  (clientIpIdxs.insertionSort (· ≤ ·)).foldl NodeScan.step ⟨none, 1, true, true⟩

/-- The domain of a group and its new entry in `idToTopoId`, the topology class and the rail. A
client outside `serverIps` gives the domain `-1` and no entry. -/
def determineTopoPm (cfg : CheckInConfig) (clients : List Client) (localRank : ℕ) :
    Except String (ℤ × Option (ℕ × ℕ)) :=
  match clients.mapM fun client => cfg.serverIps.idxOf? client.ip with
  | none => .ok (-1, none)
  | some clientIpIdxs =>
    let scan := scanNodes clientIpIdxs
    let domain := if scan.sameDomain then 1 else 0
    if localRank ≥ cfg.numRails then .error "localRank exceeds number of rails"
    else .ok (domain, some (if scan.sequential then 1 else 2, localRank))

/-! ## Messages -/

/-- The entries of one communicator in `idToCommSize`, `idToClients` and `idToTopoId`. -/
structure CommEntry where
  commSize : Option ℕ
  clients : List Client
  topoId : Option (ℕ × ℕ)

/-- No member has checked in. -/
def CommEntry.empty : CommEntry := ⟨none, [], none⟩

/-- The effect of a `COMM` message on the entries of its communicator, with the acknowledgements it
sends or the exception it ends with. -/
def CommEntry.handle (cfg : CheckInConfig) (e : CommEntry) (m : CommMsg) :
    CommEntry × Except String (List CheckinAck) :=
  -- the first message records the expected group size
  let commSize := e.commSize.getD m.nranks
  let clients := e.clients ++ [⟨m.clientSock, m.peerIp⟩]
  let e' : CommEntry := ⟨some commSize, clients, e.topoId⟩
  if clients.length = commSize then
    match determineTopoPm cfg clients m.localRank with
    | .error msg => (e', .error msg)
    | .ok (domain, topoId) =>
      let domain := cfg.forcedDomain.getD domain
      ({ e' with topoId := topoId.or e.topoId },
        .ok (clients.map fun c => ⟨c.sock, m.hexId, domain⟩))
  else (e', .ok [])

/-- A `COMM` message: only the entries of its own communicator change. -/
def handleComm (cfg : CheckInConfig) (s : HexId → CommEntry) (m : CommMsg) :
    (HexId → CommEntry) × Except String (List CheckinAck) :=
  let r := (s m.hexId).handle cfg m
  (Function.update s m.hexId r.1, r.2)

/-- The controller while it handles `COMM` messages: the entries of all communicators, the
acknowledgements it has sent, and the exception that has ended it. -/
structure CheckInRun where
  comm : HexId → CommEntry
  acks : List CheckinAck
  thrown : Option String

/-- The controller before the first message. -/
def CheckInRun.initial : CheckInRun := ⟨fun _ => .empty, [], none⟩

/-- A `COMM` message. An exception that leaves `handle_comm` leaves its thread too. -/
def CheckInRun.step (cfg : CheckInConfig) (r : CheckInRun) (m : CommMsg) : CheckInRun :=
  match r.thrown with
  | some _ => r
  | none =>
    match handleComm cfg r.comm m with
    | (comm, .ok acks) => { r with comm := comm, acks := r.acks ++ acks }
    | (comm, .error message) => { r with comm := comm, thrown := some message }

/-- A sequence of `COMM` messages, from the start of the controller. -/
def runComm (cfg : CheckInConfig) (msgs : List CommMsg) : CheckInRun :=
  msgs.foldl (CheckInRun.step cfg) .initial

/-- The acknowledgements that have been sent for a communicator. -/
def CheckInRun.acksOf (r : CheckInRun) (h : HexId) : List CheckinAck :=
  r.acks.filter fun ack => ack.hexId = h

/-- What a sequence of messages does for the communicator `h`: the acknowledgements sent for it, or
else the exception that has ended the controller; and its topology class and rail. -/
def outcome (cfg : CheckInConfig) (h : HexId) (msgs : List CommMsg) :
    Except String (Multiset CheckinAck) × Option (ℕ × ℕ) :=
  let r := runComm cfg msgs
  (match r.thrown with
    | some message => if r.acksOf h = [] then .error message else .ok (r.acksOf h)
    | none => .ok (r.acksOf h),
    (r.comm h).topoId)

/-! ## The classification does not depend on the order -/

theorem scanNodes_perm {is js : List ℕ} (hp : is.Perm js) : scanNodes is = scanNodes js := by
  have hsort : is.insertionSort (· ≤ ·) = js.insertionSort (· ≤ ·) :=
    (((List.perm_insertionSort _ is).trans hp).trans
      (List.perm_insertionSort _ js).symm).eq_of_pairwise'
      (List.pairwise_insertionSort (· ≤ ·) is) (List.pairwise_insertionSort (· ≤ ·) js)
  rw [scanNodes, scanNodes, hsort]

theorem mapM_idxOf? {serverIps : List String} {clients : List Client}
    (hips : ∀ c ∈ clients, c.ip ∈ serverIps) :
    (clients.mapM fun c => serverIps.idxOf? c.ip) =
      some (clients.map fun c => serverIps.idxOf c.ip) := by
  induction clients with
  | nil => rfl
  | cons c cs ih =>
    have hc : serverIps.idxOf? c.ip = some (serverIps.idxOf c.ip) :=
      List.findIdx?_eq_some_of_exists ⟨c.ip, hips c (by simp), beq_self_eq_true _⟩
    simp [hc, ih fun c' h' => hips c' (by simp [h'])]

/-- The domain detected for a group and its topology class. -/
def placement (cfg : CheckInConfig) (clients : List Client) : ℤ × ℕ :=
  let scan := scanNodes (clients.map fun c => cfg.serverIps.idxOf c.ip)
  (if scan.sameDomain then 1 else 0, if scan.sequential then 1 else 2)

theorem placement_perm (cfg : CheckInConfig) {cs cs' : List Client} (hp : cs.Perm cs') :
    placement cfg cs = placement cfg cs' := by
  rw [placement, placement, scanNodes_perm (hp.map _)]

theorem determineTopoPm_eq {cfg : CheckInConfig} {clients : List Client}
    (hips : ∀ c ∈ clients, c.ip ∈ cfg.serverIps) (localRank : ℕ) :
    determineTopoPm cfg clients localRank =
      if localRank ≥ cfg.numRails then .error "localRank exceeds number of rails"
      else .ok ((placement cfg clients).1, some ((placement cfg clients).2, localRank)) := by
  rw [determineTopoPm, mapM_idxOf? hips]
  rfl

theorem mem_serverIps_of_mapM {serverIps : List String} {clients : List Client} {is : List ℕ}
    (h : (clients.mapM fun c => serverIps.idxOf? c.ip) = some is) :
    ∀ c ∈ clients, c.ip ∈ serverIps := by
  induction clients generalizing is with
  | nil => exact fun c hc => absurd hc List.not_mem_nil
  | cons c cs ih =>
    simp only [List.mapM_cons, Option.bind_eq_bind, Option.bind_eq_some_iff] at h
    obtain ⟨i, hi, is', his', -⟩ := h
    intro c' hc'
    rcases List.mem_cons.mp hc' with rfl | hc'
    · by_contra hnot
      rw [List.idxOf?_eq_none_iff.mpr hnot] at hi
      cases hi
    · exact ih his' c' hc'

/-- **The only exception** is a local rank without a rail, in a group whose nodes are all known. -/
theorem determineTopoPm_eq_error {cfg : CheckInConfig} {clients : List Client} {localRank : ℕ}
    {message : String} (h : determineTopoPm cfg clients localRank = .error message) :
    message = "localRank exceeds number of rails" ∧ (∀ c ∈ clients, c.ip ∈ cfg.serverIps) ∧
      cfg.numRails ≤ localRank := by
  have hips : ∀ c ∈ clients, c.ip ∈ cfg.serverIps := by
    cases hidxs : clients.mapM fun client => cfg.serverIps.idxOf? client.ip with
    | none => simp [determineTopoPm, hidxs] at h
    | some is => exact mem_serverIps_of_mapM hidxs
  rw [determineTopoPm_eq hips] at h
  split at h
  · rename_i hrank
    cases h
    exact ⟨rfl, hips, hrank⟩
  · cases h

/-! ## One message -/

/-- The client a message arrived from. -/
def CommMsg.client (m : CommMsg) : Client := ⟨m.clientSock, m.peerIp⟩

section Handle

variable (cfg : CheckInConfig) (e : CommEntry) (m : CommMsg)

/-- A message always records its client. -/
theorem CommEntry.handle_clients :
    (e.handle cfg m).1.clients = e.clients ++ [m.client] ∧
      (e.handle cfg m).1.commSize = some (e.commSize.getD m.nranks) := by
  unfold CommEntry.handle
  dsimp only
  split
  · split <;> exact ⟨rfl, rfl⟩
  · exact ⟨rfl, rfl⟩

/-- A message of an incomplete group. -/
theorem CommEntry.handle_of_ne (h : e.clients.length + 1 ≠ e.commSize.getD m.nranks) :
    e.handle cfg m = (⟨some (e.commSize.getD m.nranks), e.clients ++ [m.client], e.topoId⟩, .ok []) := by
  unfold CommEntry.handle
  exact if_neg (by simpa using h)

/-- The message that completes a group. -/
theorem CommEntry.handle_of_eq (h : e.clients.length + 1 = e.commSize.getD m.nranks) :
    (e.handle cfg m).2 =
        (determineTopoPm cfg (e.clients ++ [m.client]) m.localRank).map (fun topo =>
          (e.clients ++ [m.client]).map fun c =>
            ⟨c.sock, m.hexId, cfg.forcedDomain.getD topo.1⟩) ∧
      (e.handle cfg m).1.topoId =
        match determineTopoPm cfg (e.clients ++ [m.client]) m.localRank with
        | .error _ => e.topoId
        | .ok topo => topo.2.or e.topoId := by
  unfold CommEntry.handle
  dsimp only
  rw [if_pos (by simpa using h)]
  have hclient : (⟨m.clientSock, m.peerIp⟩ : Client) = m.client := rfl
  rw [hclient]
  cases determineTopoPm cfg (e.clients ++ [m.client]) m.localRank with
  | error message => exact ⟨rfl, rfl⟩
  | ok topo => exact ⟨rfl, rfl⟩

/-- **When a message ends the controller.** -/
theorem CommEntry.handle_eq_error_iff {message : String} :
    (e.handle cfg m).2 = .error message ↔ message = "localRank exceeds number of rails" ∧
      e.clients.length + 1 = e.commSize.getD m.nranks ∧
      (∀ c ∈ e.clients ++ [m.client], c.ip ∈ cfg.serverIps) ∧ cfg.numRails ≤ m.localRank := by
  by_cases hlen : e.clients.length + 1 = e.commSize.getD m.nranks
  · rw [(e.handle_of_eq cfg m hlen).1]
    constructor
    · intro h
      cases htopo : determineTopoPm cfg (e.clients ++ [m.client]) m.localRank with
      | error message' =>
        rw [htopo] at h
        obtain ⟨hmessage, hips, hrank⟩ := determineTopoPm_eq_error htopo
        exact ⟨(Except.error.inj h).symm.trans hmessage, hlen, hips, hrank⟩
      | ok topo =>
        rw [htopo] at h
        cases h
    · rintro ⟨rfl, -, hips, hrank⟩
      rw [determineTopoPm_eq hips, if_pos hrank]
      rfl
  · rw [e.handle_of_ne cfg m hlen]
    constructor
    · intro h
      cases h
    · exact fun h => absurd h.2.1 hlen

/-- Acknowledgements are for the communicator of the message. -/
theorem CommEntry.handle_acks {acks : List CheckinAck} (h : (e.handle cfg m).2 = .ok acks) :
    ∀ ack ∈ acks, ack.hexId = m.hexId := by
  by_cases hlen : e.clients.length + 1 = e.commSize.getD m.nranks
  · rw [(e.handle_of_eq cfg m hlen).1] at h
    cases htopo : determineTopoPm cfg (e.clients ++ [m.client]) m.localRank with
    | error message =>
      rw [htopo] at h
      cases h
    | ok topo =>
      rw [htopo] at h
      obtain rfl := Except.ok.inj h
      intro ack hack
      obtain ⟨c, -, rfl⟩ := List.mem_map.mp hack
      rfl
  · rw [e.handle_of_ne cfg m hlen] at h
    obtain rfl := Except.ok.inj h
    exact fun ack hack => absurd hack List.not_mem_nil

end Handle

/-! ## Sequences of messages -/

section Run

variable {cfg : CheckInConfig} {h : HexId} {msgs : List CommMsg} {m : CommMsg}

/-- The messages of one communicator. -/
def messagesOf (h : HexId) (msgs : List CommMsg) : List CommMsg := msgs.filter fun m => m.hexId = h

theorem messagesOf_concat (h : HexId) (msgs : List CommMsg) (m : CommMsg) :
    messagesOf h (msgs ++ [m]) =
      if m.hexId = h then messagesOf h msgs ++ [m] else messagesOf h msgs := by
  unfold messagesOf
  rw [List.filter_append]
  split
  · rename_i hm
    simp [hm]
  · rename_i hm
    simp [hm]

theorem runComm_concat (cfg : CheckInConfig) (msgs : List CommMsg) (m : CommMsg) :
    runComm cfg (msgs ++ [m]) = (runComm cfg msgs).step cfg m := by
  rw [runComm, List.foldl_append]
  rfl

/-- Nothing happens after an exception. -/
theorem runComm_of_thrown {message : String} (ht : (runComm cfg msgs).thrown = some message)
    (msgs' : List CommMsg) : runComm cfg (msgs ++ msgs') = runComm cfg msgs := by
  induction msgs' using List.reverseRecOn with
  | nil => rw [List.append_nil]
  | append_singleton msgs' m ih => rw [← List.append_assoc, runComm_concat, ih, CheckInRun.step, ht]

/-- A message that is handled. -/
theorem runComm_of_ok (ht : (runComm cfg msgs).thrown = none) {acks : List CheckinAck}
    (hok : (((runComm cfg msgs).comm m.hexId).handle cfg m).2 = .ok acks) :
    runComm cfg (msgs ++ [m]) =
      { runComm cfg msgs with
        comm := Function.update (runComm cfg msgs).comm m.hexId
          (((runComm cfg msgs).comm m.hexId).handle cfg m).1
        acks := (runComm cfg msgs).acks ++ acks } := by
  rw [runComm_concat, CheckInRun.step, ht]
  simp only [handleComm, hok, ht]

/-- A message that ends the controller. -/
theorem runComm_of_error (ht : (runComm cfg msgs).thrown = none) {message : String}
    (herror : (((runComm cfg msgs).comm m.hexId).handle cfg m).2 = .error message) :
    runComm cfg (msgs ++ [m]) =
      { runComm cfg msgs with
        comm := Function.update (runComm cfg msgs).comm m.hexId
          (((runComm cfg msgs).comm m.hexId).handle cfg m).1
        thrown := some message } := by
  rw [runComm_concat, CheckInRun.step, ht]
  simp only [handleComm, herror]

/-- **Messages of other communicators do not interfere**: as long as no exception has ended the
controller, the entry of a communicator records its own messages. -/
theorem runComm_entry (h : HexId) (msgs : List CommMsg) (ht : (runComm cfg msgs).thrown = none) :
    ((runComm cfg msgs).comm h).clients = (messagesOf h msgs).map CommMsg.client ∧
      ((runComm cfg msgs).comm h).commSize = (messagesOf h msgs).head?.map CommMsg.nranks := by
  induction msgs using List.reverseRecOn with
  | nil => exact ⟨rfl, rfl⟩
  | append_singleton msgs m ih =>
    cases hprev : (runComm cfg msgs).thrown with
    | some message =>
      rw [runComm_of_thrown hprev, hprev] at ht
      cases ht
    | none =>
      obtain ⟨hclients, hsize⟩ := ih hprev
      have hcomm : (runComm cfg (msgs ++ [m])).comm =
          Function.update (runComm cfg msgs).comm m.hexId
            (((runComm cfg msgs).comm m.hexId).handle cfg m).1 := by
        cases hres : (((runComm cfg msgs).comm m.hexId).handle cfg m).2 with
        | error message => rw [runComm_of_error hprev hres]
        | ok acks => rw [runComm_of_ok hprev hres]
      rw [hcomm, messagesOf_concat]
      by_cases hm : m.hexId = h
      · subst hm
        obtain ⟨hclients', hsize'⟩ := ((runComm cfg msgs).comm m.hexId).handle_clients cfg m
        rw [Function.update_self, if_pos rfl, hclients', hsize', hclients, hsize]
        refine ⟨by simp, ?_⟩
        cases messagesOf m.hexId msgs with
        | nil => rfl
        | cons m' ms' => rfl
      · rw [Function.update_of_ne (Ne.symm hm), if_neg hm]
        exact ⟨hclients, hsize⟩

end Run

/-- These messages, in their order, complete their communicator with an exception: they are as many
as the first of them announces, their nodes are known, and the last local rank has no rail. -/
structure Throws (cfg : CheckInConfig) (ms : List CommMsg) : Prop where
  hexId_eq : ∀ m ∈ ms, ∀ m' ∈ ms, m.hexId = m'.hexId
  size : ms.head?.map CommMsg.nranks = some ms.length
  ip_mem : ∀ m ∈ ms, m.peerIp ∈ cfg.serverIps
  rank : ∀ m ∈ ms.getLast?, cfg.numRails ≤ m.localRank

theorem Throws.thrown {cfg : CheckInConfig} {ms : List CommMsg} (h : Throws cfg ms) :
    ∃ message, (runComm cfg ms).thrown = some message := by
  obtain ⟨front, last, rfl⟩ := List.eq_nil_or_concat' ms |>.resolve_left fun hnil => by
    have hsize := h.size
    simp [hnil] at hsize
  cases ht : (runComm cfg front).thrown with
  | some message => exact ⟨message, by rw [runComm_of_thrown ht, ht]⟩
  | none =>
    have hown : messagesOf last.hexId front = front := List.filter_eq_self.mpr fun m hm =>
      decide_eq_true (h.hexId_eq m (List.mem_append_left _ hm) last (by simp))
    obtain ⟨hclients, hsize⟩ := runComm_entry last.hexId front ht
    rw [hown] at hclients hsize
    have herror := (CommEntry.handle_eq_error_iff cfg ((runComm cfg front).comm last.hexId)
      last).mpr ⟨rfl, ?_, ?_, h.rank last (by simp)⟩
    · exact ⟨_, by rw [runComm_of_error ht herror]⟩
    · have hfirst := h.size
      rw [hclients, hsize, List.length_map]
      cases front with
      | nil => simpa using hfirst.symm
      | cons m ms => simpa using hfirst.symm
    · rw [hclients, ← List.map_singleton, ← List.map_append]
      intro c hc
      obtain ⟨m, hm, rfl⟩ := List.mem_map.mp hc
      exact h.ip_mem m hm

/-- Some of these messages can end the controller, when they arrive in the right order. -/
def CanThrow (cfg : CheckInConfig) (msgs : List CommMsg) : Prop :=
  ∃ ms, ms.Subperm msgs ∧ Throws cfg ms

/-! ## A complete check-in -/

/-- The `COMM` messages of all members of the communicator `h`, on nodes the controller knows. -/
structure Members (cfg : CheckInConfig) (h : HexId) (ms : List CommMsg) : Prop where
  nonempty : ms ≠ []
  hexId_eq : ∀ m ∈ ms, m.hexId = h
  nranks_eq : ∀ m ∈ ms, m.nranks = ms.length
  ip_mem : ∀ m ∈ ms, m.peerIp ∈ cfg.serverIps

/-- The acknowledgements of a completed check-in, one for each member. -/
def checkinAcks (cfg : CheckInConfig) (h : HexId) (ms : List CommMsg) : Multiset CheckinAck :=
  (ms.map fun m =>
    (⟨m.clientSock, h, cfg.forcedDomain.getD (placement cfg (ms.map CommMsg.client)).1⟩ :
      CheckinAck) : Multiset CheckinAck)

theorem checkinAcks_perm (cfg : CheckInConfig) (h : HexId) {ms ms' : List CommMsg}
    (hp : ms.Perm ms') : checkinAcks cfg h ms = checkinAcks cfg h ms' := by
  rw [checkinAcks, checkinAcks, placement_perm cfg (hp.map _)]
  exact Multiset.coe_eq_coe.2 (hp.map _)

/-- Nobody of the communicator has been acknowledged. -/
structure CheckInRun.Open (r : CheckInRun) (h : HexId) : Prop where
  acks : r.acksOf h = []
  topoId : (r.comm h).topoId = none

/-- All members have been acknowledged; the rail is the local rank of the last message. -/
structure CheckInRun.Settled (cfg : CheckInConfig) (h : HexId) (ms : List CommMsg) (last : CommMsg)
    (r : CheckInRun) : Prop where
  rank_lt : last.localRank < cfg.numRails
  acks : (r.acksOf h : Multiset CheckinAck) = checkinAcks cfg h ms
  topoId : (r.comm h).topoId =
    some ((placement cfg (ms.map CommMsg.client)).2, last.localRank)

/-- How far the check-in of the communicator `h` with the members `ms` has got. -/
inductive CommProgress (cfg : CheckInConfig) (h : HexId) (ms msgs : List CommMsg)
    (r : CheckInRun) : Prop
  /-- some member has not arrived -/
  | waiting (hrunning : r.thrown = none) (hlt : (messagesOf h msgs).length < ms.length)
      (hopen : r.Open h)
  /-- the last member has arrived -/
  | settled (last : CommMsg) (hlen : (messagesOf h msgs).length = ms.length)
      (hlast : (messagesOf h msgs).getLast? = some last) (hsettled : r.Settled cfg h ms last)
  /-- a member without a rail, or another communicator, has ended the controller before -/
  | gone (hthrown : r.thrown = some "localRank exceeds number of rails") (hopen : r.Open h)
      (hcause : (∃ last, (messagesOf h msgs).length = ms.length ∧
          (messagesOf h msgs).getLast? = some last ∧ cfg.numRails ≤ last.localRank) ∨
        ∃ ms', ms'.Sublist (msgs.filter fun m => m.hexId ≠ h) ∧ Throws cfg ms')

section CommProgress

variable {cfg : CheckInConfig} {h : HexId} {ms msgs : List CommMsg} {m last : CommMsg}

/-- A message of another communicator sends nothing for this one. -/
theorem acksOf_append_of_ne {e : CommEntry} {acks : List CheckinAck} (hm : m.hexId ≠ h)
    (hok : (e.handle cfg m).2 = .ok acks) (r : CheckInRun) (comm : HexId → CommEntry) :
    CheckInRun.acksOf { r with comm := comm, acks := r.acks ++ acks } h = r.acksOf h := by
  unfold CheckInRun.acksOf
  rw [List.filter_append, List.append_right_eq_self, List.filter_eq_nil_iff]
  intro ack hack
  rw [e.handle_acks cfg m hok ack hack]
  simpa using hm

/-- A message of another communicator ends the controller. -/
theorem throws_of_error {message : String} (ht : (runComm cfg msgs).thrown = none)
    (herror : (((runComm cfg msgs).comm m.hexId).handle cfg m).2 = .error message) :
    Throws cfg (messagesOf m.hexId (msgs ++ [m])) := by
  obtain ⟨-, hlen, hips, hrank⟩ := (CommEntry.handle_eq_error_iff cfg _ m).mp herror
  obtain ⟨hclients, hsize⟩ := runComm_entry m.hexId msgs ht
  rw [hclients, hsize] at hlen
  rw [hclients] at hips
  rw [messagesOf_concat, if_pos rfl]
  have hall : ∀ m' ∈ messagesOf m.hexId msgs ++ [m], m'.hexId = m.hexId := by
    intro m' hm'
    rcases List.mem_append.mp hm' with hm' | hm'
    · exact of_decide_eq_true (List.mem_filter.mp hm').2
    · rw [List.mem_singleton.mp hm']
  refine ⟨fun m' hm' m'' hm'' => (hall m' hm').trans (hall m'' hm'').symm, ?_, ?_, ?_⟩
  · rw [List.length_map] at hlen
    rw [List.length_append, List.length_singleton, hlen]
    cases messagesOf m.hexId msgs with
    | nil => rfl
    | cons m' ms' => rfl
  · intro m' hm'
    refine hips m'.client ?_
    rw [← List.map_singleton, ← List.map_append]
    exact List.mem_map_of_mem hm'
  · simpa using hrank

theorem CommProgress.other (hp : CommProgress cfg h ms msgs (runComm cfg msgs))
    (hm : m.hexId ≠ h) :
    CommProgress cfg h ms (msgs ++ [m]) (runComm cfg (msgs ++ [m])) := by
  have hmsgs : messagesOf h (msgs ++ [m]) = messagesOf h msgs := by
    rw [messagesOf_concat, if_neg hm]
  have hfilter : (msgs ++ [m]).filter (fun m => m.hexId ≠ h) =
      (msgs.filter fun m => m.hexId ≠ h) ++ [m] := by
    simp [List.filter_append, hm]
  cases ht : (runComm cfg msgs).thrown with
  | some message =>
    rw [runComm_of_thrown ht [m]]
    cases hp with
    | waiting hrunning => simp [ht] at hrunning
    | settled last hlen hlast hsettled =>
      exact .settled last (hmsgs ▸ hlen) (hmsgs ▸ hlast) hsettled
    | gone hthrown hopen hcause =>
      refine .gone hthrown hopen (hcause.imp (by rw [hmsgs]; exact id) ?_)
      rintro ⟨ms', hsub, hthrows⟩
      exact ⟨ms', hfilter ▸ hsub.trans (List.sublist_append_left _ _), hthrows⟩
  | none =>
    cases hres : (((runComm cfg msgs).comm m.hexId).handle cfg m).2 with
    | ok acks =>
      rw [runComm_of_ok ht hres]
      have hacks := acksOf_append_of_ne hm hres (runComm cfg msgs)
        (Function.update (runComm cfg msgs).comm m.hexId
          (((runComm cfg msgs).comm m.hexId).handle cfg m).1)
      cases hp with
      | waiting _ hlt hopen =>
        refine .waiting ht (hmsgs ▸ hlt) ⟨hacks.trans hopen.acks, ?_⟩
        dsimp only
        rw [Function.update_of_ne (Ne.symm hm), hopen.topoId]
      | settled last hlen hlast hsettled =>
        refine .settled last (hmsgs ▸ hlen) (hmsgs ▸ hlast)
          ⟨hsettled.rank_lt, hacks ▸ hsettled.acks, ?_⟩
        dsimp only
        rw [Function.update_of_ne (Ne.symm hm), hsettled.topoId]
      | gone hthrown => simp [ht] at hthrown
    | error message =>
      have hthrows := throws_of_error ht hres
      obtain ⟨rfl, -⟩ := (CommEntry.handle_eq_error_iff cfg _ m).mp hres
      rw [runComm_of_error ht hres]
      cases hp with
      | waiting _ hlt hopen =>
        refine .gone rfl ⟨hopen.acks, ?_⟩ (.inr ⟨_, ?_, hthrows⟩)
        · dsimp only
          rw [Function.update_of_ne (Ne.symm hm), hopen.topoId]
        · refine List.monotone_filter_right _ fun m' hm' => ?_
          simp only [decide_eq_true_eq] at hm' ⊢
          exact hm' ▸ hm
      | settled last hlen hlast hsettled =>
        refine .settled last (hmsgs ▸ hlen) (hmsgs ▸ hlast)
          ⟨hsettled.rank_lt, hsettled.acks, ?_⟩
        dsimp only
        rw [Function.update_of_ne (Ne.symm hm), hsettled.topoId]
      | gone hthrown => simp [ht] at hthrown

/-- A message of the communicator that is not the last one, or is the last one. -/
theorem CommProgress.own (hmem : Members cfg h ms)
    (hp : CommProgress cfg h ms msgs (runComm cfg msgs))
    (hm : m.hexId = h) (hsub : (messagesOf h msgs ++ [m]).Subperm ms) :
    CommProgress cfg h ms (msgs ++ [m]) (runComm cfg (msgs ++ [m])) := by
  subst hm
  have hmsgs : messagesOf m.hexId (msgs ++ [m]) = messagesOf m.hexId msgs ++ [m] := by
    rw [messagesOf_concat, if_pos rfl]
  have hlen : (messagesOf m.hexId msgs).length + 1 ≤ ms.length := by
    simpa using hsub.length_le
  have hms : m ∈ ms := hsub.subset (by simp)
  cases hp with
  | settled last hfull => omega
  | gone hthrown hopen hcause =>
    rw [runComm_of_thrown hthrown [m]]
    rcases hcause with ⟨last, hfull, -⟩ | ⟨ms', hsub', hthrows⟩
    · omega
    · exact .gone hthrown hopen
        (.inr ⟨ms', hsub'.trans ((List.sublist_append_left _ _).filter _), hthrows⟩)
  | waiting ht hlt hopen =>
    obtain ⟨hclients, hsize⟩ := runComm_entry m.hexId msgs ht
    -- every member announces the same size
    have hsize' : ((runComm cfg msgs).comm m.hexId).commSize.getD m.nranks = ms.length := by
      rw [hsize]
      cases hfirst : messagesOf m.hexId msgs with
      | nil => exact hmem.nranks_eq m hms
      | cons m' ms' =>
        exact hmem.nranks_eq m' (hsub.subset (by rw [hfirst]; exact List.mem_cons_self))
    have hclients' : ((runComm cfg msgs).comm m.hexId).clients ++ [m.client] =
        (messagesOf m.hexId msgs ++ [m]).map CommMsg.client := by
      rw [hclients, List.map_append, List.map_singleton]
    -- the message is the last one, and decides, or the check-in still waits
    by_cases hfull : (messagesOf m.hexId msgs).length + 1 = ms.length
    · have hcomplete : ((runComm cfg msgs).comm m.hexId).clients.length + 1 =
          ((runComm cfg msgs).comm m.hexId).commSize.getD m.nranks := by
        rw [hclients, hsize', List.length_map, hfull]
      have hperm : (messagesOf m.hexId msgs ++ [m]).Perm ms :=
        hsub.perm_of_length_le (by simp [hfull])
      have hips : ∀ c ∈ ((runComm cfg msgs).comm m.hexId).clients ++ [m.client],
          c.ip ∈ cfg.serverIps := by
        intro c hc
        rw [hclients'] at hc
        obtain ⟨m', hm', rfl⟩ := List.mem_map.mp hc
        exact hmem.ip_mem m' (hperm.subset hm')
      obtain ⟨hres, htopo⟩ := CommEntry.handle_of_eq cfg _ m hcomplete
      rw [determineTopoPm_eq hips] at hres htopo
      by_cases hrank : m.localRank ≥ cfg.numRails
      · rw [if_pos hrank] at hres htopo
        rw [runComm_of_error ht hres]
        refine .gone rfl ⟨hopen.acks, ?_⟩ (.inl ⟨m, by simp [hmsgs, hfull], by simp [hmsgs], hrank⟩)
        dsimp only
        rw [Function.update_self, htopo, hopen.topoId]
      · rw [if_neg hrank] at hres htopo
        rw [runComm_of_ok ht hres]
        refine .settled m (by simp [hmsgs, hfull]) (by simp [hmsgs])
          ⟨Nat.lt_of_not_le hrank, ?_, ?_⟩
        · have hacks := hopen.acks
          have hids := CommEntry.handle_acks cfg _ m hres
          -- all acknowledgements of this message are for its communicator
          unfold CheckInRun.acksOf at hacks ⊢
          rw [List.filter_append, hacks, List.nil_append,
            List.filter_eq_self.mpr fun ack hack => decide_eq_true (hids ack hack),
            ← checkinAcks_perm cfg m.hexId hperm, hclients']
          simp [checkinAcks, CommMsg.client, Function.comp_def]
        · dsimp only
          rw [Function.update_self, htopo, hclients', placement_perm cfg (hperm.map _)]
          rfl
    · have hne : ((runComm cfg msgs).comm m.hexId).clients.length + 1 ≠
          ((runComm cfg msgs).comm m.hexId).commSize.getD m.nranks := by
        rw [hclients, hsize', List.length_map]
        exact hfull
      have hhandle := CommEntry.handle_of_ne cfg _ m hne
      rw [runComm_of_ok ht (congrArg Prod.snd hhandle), hhandle, List.append_nil]
      refine .waiting ht ?_ ⟨hopen.acks, ?_⟩
      · rw [hmsgs, List.length_append, List.length_singleton]
        omega
      · dsimp only
        rw [Function.update_self]
        exact hopen.topoId

/-- **How far a check-in has got**, after any messages of its members and of other communicators. -/
theorem progress_runComm (hmem : Members cfg h ms) (msgs : List CommMsg)
    (hsub : (messagesOf h msgs).Subperm ms) :
    CommProgress cfg h ms msgs (runComm cfg msgs) := by
  induction msgs using List.reverseRecOn with
  | nil => exact .waiting rfl (List.length_pos_of_ne_nil hmem.nonempty) ⟨rfl, rfl⟩
  | append_singleton msgs m ih =>
    rw [messagesOf_concat] at hsub
    by_cases hm : m.hexId = h
    · rw [if_pos hm] at hsub
      exact (ih ((List.sublist_append_left _ _).subperm.trans hsub)).own hmem hm hsub
    · rw [if_neg hm] at hsub
      exact (ih hsub).other hm

/-- The outcome of a complete check-in: it is decided by the message that arrives last, unless an
exception comes first. -/
theorem outcome_cases (hmem : Members cfg h ms) (hperm : (messagesOf h msgs).Perm ms) :
    (∃ last, (messagesOf h msgs).getLast? = some last ∧ last.localRank < cfg.numRails ∧
      outcome cfg h msgs = (.ok (checkinAcks cfg h ms),
        some ((placement cfg (ms.map CommMsg.client)).2, last.localRank))) ∨
    (outcome cfg h msgs = (.error "localRank exceeds number of rails", none) ∧
      ((∃ last, (messagesOf h msgs).getLast? = some last ∧ cfg.numRails ≤ last.localRank) ∨
        ∃ ms', ms'.Sublist (msgs.filter fun m => m.hexId ≠ h) ∧ Throws cfg ms')) := by
  cases progress_runComm hmem msgs hperm.subperm with
  | waiting _ hlt => exact absurd hperm.length_eq hlt.ne
  | settled last _ hlast hsettled =>
    refine .inl ⟨last, hlast, hsettled.rank_lt, ?_⟩
    -- a later exception does not take the acknowledgements back
    have hne : (runComm cfg msgs).acksOf h ≠ [] := by
      intro hnil
      have hacks := congrArg Multiset.card hsettled.acks
      rw [hnil] at hacks
      simp only [checkinAcks, Multiset.coe_card, List.length_map, List.length_nil] at hacks
      exact hmem.nonempty (List.length_eq_zero_iff.mp hacks.symm)
    rw [outcome, hsettled.topoId, ← hsettled.acks]
    cases (runComm cfg msgs).thrown with
    | none => rfl
    | some message => simp only [if_neg hne]
  | gone hthrown hopen hcause =>
    refine .inr ⟨?_, hcause.imp_left fun ⟨last, _, hlast, hrank⟩ => ⟨last, hlast, hrank⟩⟩
    simp only [outcome, hthrown, hopen.acks, hopen.topoId, if_true]

end CommProgress

/-! ## Order independence -/

/-- All arrival orders of the members' messages, with any of the messages `others` of other
communicators in between, have one outcome; unless it is an exception, each member is acknowledged
once and with the same domain. -/
def OrderIndependent (cfg : CheckInConfig) (h : HexId) (ms others : List CommMsg) : Prop :=
  ∀ msgs msgs' : List CommMsg,
    (messagesOf h msgs).Perm ms → (msgs.filter fun m => m.hexId ≠ h).Subperm others →
    (messagesOf h msgs').Perm ms → (msgs'.filter fun m => m.hexId ≠ h).Subperm others →
      outcome cfg h msgs = outcome cfg h msgs' ∧
        ∀ acks, (outcome cfg h msgs).1 = .ok acks →
          ∃ domain, acks = (ms.map fun m => (⟨m.clientSock, h, domain⟩ : CheckinAck))

section Order

variable {cfg : CheckInConfig} {h : HexId} {ms others : List CommMsg} {last : CommMsg}

/-- Messages whose local ranks all have a rail end nothing. -/
theorem not_canThrow (hrails : ∀ m ∈ others, m.localRank < cfg.numRails) :
    ¬ CanThrow cfg others := by
  rintro ⟨ms', hsub, hthrows⟩
  obtain ⟨last, hlast⟩ : ∃ last, last ∈ ms'.getLast? := by
    cases hms : ms'.getLast? with
    | some last => exact ⟨last, rfl⟩
    | none =>
      have hsize := hthrows.size
      simp [List.getLast?_eq_none_iff.mp hms] at hsize
  have hlt := hrails last (hsub.subset (List.mem_of_getLast? hlast))
  exact absurd (hthrows.rank last hlast) (Nat.not_le.mpr hlt)

theorem Members.messagesOf_eq (hmem : Members cfg h ms) {msgs : List CommMsg} (hp : msgs.Perm ms) :
    messagesOf h msgs = msgs ∧ (msgs.filter fun m => m.hexId ≠ h) = [] := by
  have hall : ∀ m ∈ msgs, m.hexId = h := fun m hm => hmem.hexId_eq m (hp.subset hm)
  refine ⟨List.filter_eq_self.mpr fun m hm => decide_eq_true (hall m hm), ?_⟩
  rw [List.filter_eq_nil_iff]
  intro m hm
  simpa using hall m hm

/-- Every member can be the last to arrive, with no other communicator in between. -/
theorem outcome_erase_concat (hmem : Members cfg h ms) (hlast : last ∈ ms) :
    (ms.erase last ++ [last]).Perm ms ∧
      outcome cfg h (ms.erase last ++ [last]) =
        if last.localRank < cfg.numRails then (.ok (checkinAcks cfg h ms),
          some ((placement cfg (ms.map CommMsg.client)).2, last.localRank))
        else (.error "localRank exceeds number of rails", none) := by
  have hp : (ms.erase last ++ [last]).Perm ms :=
    (List.perm_append_singleton last _).trans (List.perm_cons_erase hlast).symm
  obtain ⟨hown, hnone⟩ := hmem.messagesOf_eq hp
  refine ⟨hp, ?_⟩
  have hlast' : ∀ {last'}, (messagesOf h (ms.erase last ++ [last])).getLast? = some last' →
      last = last' := fun h' => by
    rw [hown] at h'
    simpa using h'
  rcases outcome_cases hmem (hown.symm ▸ hp) with
    ⟨last', hget, hrank, ho⟩ | ⟨ho, ⟨last', hget, hrank⟩ | ⟨ms', hsub, hthrows⟩⟩
  · obtain rfl := hlast' hget
    rw [ho, if_pos hrank]
  · obtain rfl := hlast' hget
    rw [ho, if_neg (Nat.not_lt.mpr hrank)]
  -- there is no other communicator to end the controller
  · rw [hnone] at hsub
    obtain rfl := List.sublist_nil.mp hsub
    cases hthrows.size

/-- Another communicator that ends the controller before the members arrive. -/
theorem outcome_append_of_throws {ms' : List CommMsg} (hmem : Members cfg h ms)
    (hother : ∀ m ∈ ms', m.hexId ≠ h) (hthrows : Throws cfg ms') :
    outcome cfg h (ms' ++ ms) = (.error "localRank exceeds number of rails", none) := by
  have hnone : messagesOf h ms' = [] := List.filter_eq_nil_iff.mpr (by simpa using hother)
  obtain ⟨message, ht⟩ := hthrows.thrown
  rw [outcome, runComm_of_thrown ht]
  cases progress_runComm hmem ms' (hnone ▸ List.nil_subperm) with
  | waiting hrunning => simp [ht] at hrunning
  | settled _ hlen =>
    rw [hnone] at hlen
    exact absurd (List.length_eq_zero_iff.mp hlen.symm) hmem.nonempty
  | gone hthrown hopen => simp only [hthrown, hopen.acks, hopen.topoId, if_true]

/-- The members' messages alone are one arrival order. -/
theorem OrderIndependent.outcome_eq (hind : OrderIndependent cfg h ms others)
    (hmem : Members cfg h ms) {msgs msgs' : List CommMsg} (hp : msgs.Perm ms)
    (hown : (messagesOf h msgs').Perm ms)
    (hothers : (msgs'.filter fun m => m.hexId ≠ h).Subperm others) :
    outcome cfg h msgs = outcome cfg h msgs' := by
  obtain ⟨hmsgs, hnone⟩ := hmem.messagesOf_eq hp
  refine (hind msgs msgs' ?_ ?_ hown hothers).1
  · rwa [hmsgs]
  · rw [hnone]
    exact List.nil_subperm

/-- When some member has a rail, all members have its local rank: another one could arrive last. -/
theorem OrderIndependent.sameRank (hind : OrderIndependent cfg h ms others)
    (hmem : Members cfg h ms) {m m' : CommMsg} (hm : m ∈ ms) (hm' : m' ∈ ms)
    (hlt : m.localRank < cfg.numRails) : m'.localRank = m.localRank := by
  obtain ⟨hp, ho⟩ := outcome_erase_concat hmem hm
  obtain ⟨hp', ho'⟩ := outcome_erase_concat hmem hm'
  obtain ⟨hown', hnone'⟩ := hmem.messagesOf_eq hp'
  have heq := hind.outcome_eq hmem hp (by rwa [hown']) (by rw [hnone']; exact List.nil_subperm)
  rw [ho, ho', if_pos hlt] at heq
  split at heq
  · simp only [Prod.mk.injEq, Option.some.injEq] at heq
    exact heq.2.2.symm
  · cases heq

/-- When some member has a rail, no other communicator can end the controller: it could come
first. -/
theorem OrderIndependent.not_canThrow (hind : OrderIndependent cfg h ms others)
    (hmem : Members cfg h ms) (hothers : ∀ m ∈ others, m.hexId ≠ h) {m : CommMsg} (hm : m ∈ ms)
    (hlt : m.localRank < cfg.numRails) : ¬ CanThrow cfg others := by
  rintro ⟨ms', hsub, hthrows⟩
  have hother : ∀ m' ∈ ms', m'.hexId ≠ h := fun m' hm' => hothers m' (hsub.subset hm')
  -- first the messages that throw, then all members
  have hown : messagesOf h (ms' ++ ms) = ms := by
    rw [messagesOf, List.filter_append, List.filter_eq_nil_iff.mpr (by simpa using hother)]
    exact (hmem.messagesOf_eq (.refl ms)).1
  have hfilter : ((ms' ++ ms).filter fun m => m.hexId ≠ h) = ms' := by
    rw [List.filter_append, (hmem.messagesOf_eq (.refl ms)).2, List.append_nil]
    exact List.filter_eq_self.mpr fun m' hm' => decide_eq_true (hother m' hm')
  obtain ⟨hp, ho⟩ := outcome_erase_concat hmem hm
  have heq := hind.outcome_eq hmem hp (.of_eq hown) (by rwa [hfilter])
  rw [ho, if_pos hlt, outcome_append_of_throws hmem hother hthrows] at heq
  cases heq

/-- Members without a rail: the last of them ends the controller, if nobody does before. -/
theorem orderIndependent_of_unrailed (hmem : Members cfg h ms)
    (hall : ∀ m ∈ ms, cfg.numRails ≤ m.localRank) : OrderIndependent cfg h ms others := by
  have herror : ∀ {msgs : List CommMsg}, (messagesOf h msgs).Perm ms →
      outcome cfg h msgs = (.error "localRank exceeds number of rails", none) := by
    intro msgs hp
    rcases outcome_cases hmem hp with ⟨last, hget, hrank, -⟩ | ⟨ho, -⟩
    · have hlast := hall last (hp.subset (List.mem_of_getLast? hget))
      exact absurd hlast (Nat.not_le.mpr hrank)
    · exact ho
  intro msgs msgs' hp _ hp' _
  refine ⟨by rw [herror hp, herror hp'], fun acks hacks => ?_⟩
  rw [herror hp] at hacks
  cases hacks

/-- Members on one rail, undisturbed by the other communicators. -/
theorem orderIndependent_of_sameRank (hmem : Members cfg h ms)
    (hall : ∀ m ∈ ms, ∀ m' ∈ ms, m.localRank = m'.localRank) (hquiet : ¬ CanThrow cfg others) :
    OrderIndependent cfg h ms others := by
  intro msgs msgs' hp hsub hp' hsub'
  have hmem_ms : ∀ {msgs : List CommMsg} {last : CommMsg}, (messagesOf h msgs).Perm ms →
      (messagesOf h msgs).getLast? = some last → last ∈ ms := fun hp hget =>
    hp.subset (List.mem_of_getLast? hget)
  have hquiet' : ∀ {msgs : List CommMsg}, (msgs.filter fun m => m.hexId ≠ h).Subperm others →
      ¬ ∃ ms', ms'.Sublist (msgs.filter fun m => m.hexId ≠ h) ∧ Throws cfg ms' :=
    fun hsub ⟨ms', hsub', hthrows⟩ => hquiet ⟨ms', hsub'.subperm.trans hsub, hthrows⟩
  rcases outcome_cases hmem hp with
    ⟨last, hget, hrank, ho⟩ | ⟨ho, ⟨last, hget, hrank⟩ | hthrows⟩
  · rcases outcome_cases hmem hp' with
      ⟨last', hget', -, ho'⟩ | ⟨-, ⟨last', hget', hrank'⟩ | hthrows'⟩
    · refine ⟨?_, fun acks hacks => ?_⟩
      · rw [ho, ho', hall last (hmem_ms hp hget) last' (hmem_ms hp' hget')]
      · rw [ho] at hacks
        cases hacks
        exact ⟨_, rfl⟩
    · have hsame := hall last (hmem_ms hp hget) last' (hmem_ms hp' hget')
      omega
    · exact absurd hthrows' (hquiet' hsub')
  · -- no member has a rail
    rcases outcome_cases hmem hp' with ⟨last', hget', hrank', -⟩ | ⟨ho', -⟩
    · have hsame := hall last (hmem_ms hp hget) last' (hmem_ms hp' hget')
      omega
    · refine ⟨by rw [ho, ho'], fun acks hacks => ?_⟩
      rw [ho] at hacks
      cases hacks
  · exact absurd hthrows (hquiet' hsub)

/-- **A check-in does not depend on the arrival order exactly when** no member has a rail, or all
members have one local rank and the messages of other communicators cannot end the controller. -/
theorem orderIndependent_iff (hmem : Members cfg h ms) (hothers : ∀ m ∈ others, m.hexId ≠ h) :
    OrderIndependent cfg h ms others ↔ (∀ m ∈ ms, cfg.numRails ≤ m.localRank) ∨
      (∀ m ∈ ms, ∀ m' ∈ ms, m.localRank = m'.localRank) ∧ ¬ CanThrow cfg others := by
  constructor
  · intro hind
    rw [or_iff_not_imp_left]
    intro hsome
    push Not at hsome
    obtain ⟨m, hm, hlt⟩ := hsome
    refine ⟨fun m₁ hm₁ m₂ hm₂ => ?_, hind.not_canThrow hmem hothers hm hlt⟩
    rw [hind.sameRank hmem hm hm₁ hlt, hind.sameRank hmem hm hm₂ hlt]
  · rintro (hall | ⟨hall, hquiet⟩)
    · exact orderIndependent_of_unrailed hmem hall
    · exact orderIndependent_of_sameRank hmem hall hquiet

end Order

/-- Two members on different nodes, with local rank 0 on both. -/
def sameRail : List CommMsg :=
  [⟨3, 2, 0, "10.0.0.1", 7⟩, ⟨3, 2, 0, "10.0.0.2", 8⟩]

/-- Two members on one node, with the local ranks 0 and 1. -/
def twoRails : List CommMsg :=
  [⟨3, 2, 0, "10.0.0.1", 7⟩, ⟨3, 2, 1, "10.0.0.1", 8⟩]

/-- Two nodes and two rails. -/
def twoNodes : CheckInConfig := ⟨["10.0.0.1", "10.0.0.2"], 2, none⟩

theorem members_sameRail : Members twoNodes 3 sameRail where
  nonempty := by decide
  hexId_eq := by decide
  nranks_eq := by decide
  ip_mem := by decide

/-- Another communicator, of one member with local rank 1. -/
theorem orderIndependent_sameRail :
    OrderIndependent twoNodes 3 sameRail [⟨5, 1, 1, "10.0.0.2", 9⟩] :=
  (orderIndependent_iff members_sameRail (by decide)).2
    (.inr ⟨by decide, not_canThrow (by decide)⟩)

theorem members_twoRails : Members twoNodes 3 twoRails where
  nonempty := by decide
  hexId_eq := by decide
  nranks_eq := by decide
  ip_mem := by decide

/-- The rail of the communicator is the local rank of the member that arrives last. -/
theorem not_orderIndependent_twoRails :
    Members twoNodes 3 twoRails ∧
      (outcome twoNodes 3 twoRails).2 = some (1, 1) ∧
      (outcome twoNodes 3 twoRails.reverse).2 = some (1, 0) ∧
      ¬ OrderIndependent twoNodes 3 twoRails [] := by
  have h₁ : (outcome twoNodes 3 twoRails).2 = some (1, 1) := by decide
  have h₂ : (outcome twoNodes 3 twoRails.reverse).2 = some (1, 0) := by decide
  refine ⟨members_twoRails, h₁, h₂, fun hind => ?_⟩
  have heq := (hind twoRails twoRails.reverse (by decide) (by decide) (by decide) (by decide)).1
  rw [heq, h₂] at h₁
  cases h₁

end Opus
