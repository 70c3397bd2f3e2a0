import Mathlib.Data.Finset.Card
import Mathlib.Data.List.Nodup
import Opus.Controller.CheckIn
import Opus.Library.Run

/-!
# The worker pool

The controller accepts connections in one thread and puts them into a queue. A fixed number of
workers takes connections from the queue; a worker serves one connection in `handleClient` until
the peer closes it. The shims keep their connection open for their whole life, so a worker that has
taken a connection never takes another one, and a connection that no worker takes is never read.
A local rank without a rail is an exception that leaves the worker and ends the controller.

## Main definitions

* `Pool`: the number of workers, and the clients with the communicators they check in
* `PoolState`, `poolStep`: connections, queue, workers and unread messages
* `Stuck`: all workers wait in `recv` while a message of a complete check-in is unread
* `Pool.Answers`: no reachable state is stuck, and the controller stops only with all complete
  check-ins answered
* `Pool.Railed`: no check-in ends the controller

## Main results

* `placed_step`, `accounted_step`: where connections are, and what has become of their messages
* `lost_throw`: an exception loses the check-in that it completes
* `answers_iff`: the pool answers every complete check-in exactly when all local ranks have a rail,
  and there are no more clients than workers, or nothing to check in
-/

namespace Opus

open Transition

/-! ## The system -/

/-- The workers of a controller, and the clients: each checks in the communicators it is a member
of, in its own order. -/
structure Pool where
  workers : ℕ
  two_le : 2 ≤ workers
  clients : ℕ
  comms : ℕ → List HexId
  nodup : ∀ c, (comms c).Nodup
  cfg : CheckInConfig
  ip : ℕ → String
  localRank : ℕ → HexId → ℕ

namespace Pool

variable (P : Pool)

/-- The clients that are members of a communicator. -/
def members (h : HexId) : List ℕ := (List.range P.clients).filter fun c => h ∈ P.comms c

/-- The `COMM` message of a client for a communicator. -/
def msg (c : ℕ) (h : HexId) : CommMsg :=
  ⟨h, (P.members h).length, P.localRank c h, P.ip c, c⟩

/-- Every local rank has a rail, except in a communicator with a node the controller does not
know. -/
def Railed : Prop :=
  ∀ h, ∀ c ∈ P.members h,
    P.localRank c h < P.cfg.numRails ∨ ∃ c' ∈ P.members h, P.ip c' ∉ P.cfg.serverIps

end Pool

/-- The connections waiting in `accept`, the queue, the connection each worker serves, the messages
of every client that are not sent or sent and not read, the registered communicators, the
acknowledgements sent, and whether an exception has ended the controller. -/
structure PoolState where
  backlog : List ℕ
  socketQueue : List ℕ
  worker : ℕ → Option ℕ
  connected : ℕ → Bool
  unsent : ℕ → List HexId
  unread : ℕ → List HexId
  comm : HexId → CommEntry
  acks : List CheckinAck
  ended : Bool

/-- The controller before the first connection. -/
def PoolState.initial (P : Pool) : PoolState where
  backlog := []
  socketQueue := []
  worker := fun _ => none
  connected := fun _ => false
  unsent := P.comms
  unread := fun _ => []
  comm := fun _ => .empty
  acks := []
  ended := false

/-- The steps of the clients and of the threads of the controller. -/
inductive PoolAction where
  | connect (c : ℕ)
  /-- a client sends its next `COMM` -/
  | send (c : ℕ)
  /-- `run` accepts a connection and puts it into the queue -/
  | accept
  /-- a worker takes a connection from the queue -/
  | dequeue (w : ℕ)
  /-- a worker reads the next message of its connection and handles it -/
  | receive (w : ℕ)
  deriving DecidableEq, Repr

/-- One step. -/
def poolStep (P : Pool) (s : PoolState) (a : PoolAction) : Option PoolState :=
  if s.ended then none else
  match a with
  | .connect c =>
    if c < P.clients ∧ s.connected c = false then
      some { s with
        connected := Function.update s.connected c true
        backlog := s.backlog ++ [c] }
    else none
  | .send c =>
    match s.connected c, s.unsent c with
    | true, h :: hs =>
      some { s with
        unsent := Function.update s.unsent c hs
        unread := Function.update s.unread c (s.unread c ++ [h]) }
    | _, _ => none
  | .accept =>
    match s.backlog with
    | [] => none
    | c :: cs => some { s with backlog := cs, socketQueue := s.socketQueue ++ [c] }
  | .dequeue w =>
    match s.worker w, s.socketQueue with
    | none, c :: cs =>
      if w < P.workers then
        some { s with worker := Function.update s.worker w (some c), socketQueue := cs }
      else none
    | _, _ => none
  | .receive w =>
    match s.worker w with
    | none => none
    | some c =>
      match s.unread c with
      | [] => none
      | h :: hs =>
        match handleComm P.cfg s.comm (P.msg c h) with
        | (comm, .ok acks) =>
          some { s with
            unread := Function.update s.unread c hs
            comm := comm
            acks := s.acks ++ acks }
        -- an exception that leaves `handle_comm` leaves the worker, and ends the process
        | (comm, .error _) =>
          some { s with
            unread := Function.update s.unread c hs
            comm := comm
            ended := true }

/-- All members of a communicator have sent their message for it. -/
def Sent (P : Pool) (s : PoolState) (h : HexId) : Prop := ∀ c ∈ P.members h, h ∉ s.unsent c

/-- All workers wait in `recv`, and the message of a complete check-in has not been read. -/
def Stuck (P : Pool) (s : PoolState) : Prop :=
  s.ended = false ∧ (∀ w < P.workers, ∃ c, s.worker w = some c ∧ s.unread c = []) ∧
    ∃ c h, h ∈ s.unread c ∧ Sent P s h

/-- The controller can make no step: it waits, or an exception has ended it. -/
def Idle (P : Pool) (s : PoolState) : Prop :=
  poolStep P s .accept = none ∧ (∀ w < P.workers, poolStep P s (.dequeue w) = none) ∧
    ∀ w < P.workers, poolStep P s (.receive w) = none

/-- Every member of the communicator has been acknowledged. -/
def Answered (P : Pool) (s : PoolState) (h : HexId) : Prop :=
  ∀ c ∈ P.members h, ∃ ack ∈ s.acks, ack.sock = c ∧ ack.hexId = h

/-- **Complete check-ins are answered**: no reachable state is stuck, and when the controller can
make no step, every communicator whose members have all sent their message is answered. -/
structure Pool.Answers (P : Pool) : Prop where
  neverStuck : ∀ s, Reaches (poolStep P) (.initial P) s → ¬ Stuck P s
  answered : ∀ s, Reaches (poolStep P) (.initial P) s → Idle P s →
    ∀ h, Sent P s h → Answered P s h

/-! ## What a step does -/

variable {P : Pool} {s s' : PoolState}

/-- Everything a step can do. -/
inductive PoolStep (P : Pool) (s : PoolState) : PoolState → Prop where
  | connect {c : ℕ} (hlt : c < P.clients) (hnew : s.connected c = false) :
    PoolStep P s { s with
      connected := Function.update s.connected c true
      backlog := s.backlog ++ [c] }
  | send {c : ℕ} {h : HexId} {hs : List HexId} (hc : s.connected c = true)
      (hunsent : s.unsent c = h :: hs) :
    PoolStep P s { s with
      unsent := Function.update s.unsent c hs
      unread := Function.update s.unread c (s.unread c ++ [h]) }
  | accept {c : ℕ} {cs : List ℕ} (hbacklog : s.backlog = c :: cs) :
    PoolStep P s { s with backlog := cs, socketQueue := s.socketQueue ++ [c] }
  | dequeue {w c : ℕ} {cs : List ℕ} (hw : w < P.workers) (hidle : s.worker w = none)
      (hqueue : s.socketQueue = c :: cs) :
    PoolStep P s { s with worker := Function.update s.worker w (some c), socketQueue := cs }
  | receive {w c : ℕ} {h : HexId} {hs : List HexId} {comm : HexId → CommEntry}
      {acks : List CheckinAck} (hw : s.worker w = some c) (hunread : s.unread c = h :: hs)
      (hcomm : handleComm P.cfg s.comm (P.msg c h) = (comm, .ok acks)) :
    PoolStep P s { s with
      unread := Function.update s.unread c hs
      comm := comm
      acks := s.acks ++ acks }
  | throw {w c : ℕ} {h : HexId} {hs : List HexId} {comm : HexId → CommEntry} {message : String}
      (hw : s.worker w = some c) (hunread : s.unread c = h :: hs)
      (hcomm : handleComm P.cfg s.comm (P.msg c h) = (comm, .error message)) :
    PoolStep P s { s with
      unread := Function.update s.unread c hs
      comm := comm
      ended := true }

theorem poolStep_cases {a : PoolAction} (h : poolStep P s a = some s') :
    s.ended = false ∧ PoolStep P s s' := by
  unfold poolStep at h
  rw [Option.ite_none_left_eq_some] at h
  obtain ⟨hrunning, h⟩ := h
  refine ⟨by simpa using hrunning, ?_⟩
  cases a with
  | connect c =>
    simp only at h
    split at h
    · rename_i hc
      cases h
      exact .connect hc.1 hc.2
    · cases h
  | send c =>
    simp only at h
    split at h
    · rename_i hc hunsent
      cases h
      exact .send hc hunsent
    · cases h
  | accept =>
    simp only at h
    split at h
    · cases h
    · rename_i hbacklog
      cases h
      exact .accept hbacklog
  | dequeue w =>
    simp only at h
    split at h
    · rename_i hidle hqueue
      split at h
      · rename_i hw
        cases h
        exact .dequeue hw hidle hqueue
      · cases h
    · cases h
  | receive w =>
    simp only at h
    split at h
    · cases h
    · rename_i hw
      split at h
      · cases h
      · rename_i hunread
        split at h
        · rename_i hcomm
          cases h
          exact .receive hw hunread hcomm
        · rename_i hcomm
          cases h
          exact .throw hw hunread hcomm

/-! ## Where the connections are -/

/-- Every connection is at one place: in the backlog, in the queue or with one worker. -/
structure Placed (P : Pool) (s : PoolState) : Prop where
  nodup : (s.backlog ++ s.socketQueue).Nodup
  worker_lt : ∀ w c, s.worker w = some c → w < P.workers
  worker_inj : ∀ w w' c, s.worker w = some c → s.worker w' = some c → w = w'
  served : ∀ w c, s.worker w = some c → c ∉ s.backlog ++ s.socketQueue
  connected_iff : ∀ c, s.connected c = true ↔
    c ∈ s.backlog ++ s.socketQueue ∨ ∃ w, s.worker w = some c
  lt : ∀ c, s.connected c = true → c < P.clients

theorem placed_initial (P : Pool) : Placed P (.initial P) where
  nodup := List.nodup_nil
  worker_lt := fun _ _ h => by cases h
  worker_inj := fun _ _ _ h => by cases h
  served := fun _ _ h => by cases h
  connected_iff := fun _ => by simp [PoolState.initial]
  lt := fun _ h => by cases h

/-- **Where the connections are, after every step.** -/
theorem placed_step (s : PoolState) (a : PoolAction) (s' : PoolState) (hs : Placed P s)
    (h : poolStep P s a = some s') : Placed P s' := by
  cases (poolStep_cases h).2 with
  | @connect c hlt hnew =>
    have hperm : ((s.backlog ++ [c]) ++ s.socketQueue).Perm (c :: (s.backlog ++ s.socketQueue)) := by
      rw [List.append_assoc]
      exact List.perm_middle
    have hout : c ∉ s.backlog ++ s.socketQueue ∧ ¬ ∃ w, s.worker w = some c := by
      rw [← not_or, ← hs.connected_iff, hnew]
      exact Bool.false_ne_true
    refine ⟨?_, hs.worker_lt, hs.worker_inj, ?_, ?_, ?_⟩
    -- a connection is made once, so it is neither waiting nor served
    · rw [hperm.nodup_iff]
      exact List.nodup_cons.mpr ⟨hout.1, hs.nodup⟩
    · intro w c' hw hmem
      rcases List.mem_cons.mp (hperm.mem_iff.mp hmem) with rfl | hmem
      · exact hout.2 ⟨w, hw⟩
      · exact hs.served w c' hw hmem
    · intro c'
      rw [hperm.mem_iff, List.mem_cons, or_assoc, ← hs.connected_iff]
      by_cases hc : c' = c
      · simp [hc]
      · simp [hc]
    · intro c' hc'
      by_cases hc : c' = c
      · exact hc ▸ hlt
      · exact hs.lt c' (by simpa [hc] using hc')
  | send hc hunsent =>
    exact ⟨hs.nodup, hs.worker_lt, hs.worker_inj, hs.served, hs.connected_iff, hs.lt⟩
  | @accept c cs hbacklog =>
    have hperm : (cs ++ (s.socketQueue ++ [c])).Perm (s.backlog ++ s.socketQueue) := by
      rw [hbacklog, ← List.append_assoc]
      exact List.perm_append_singleton c _
    refine ⟨hperm.nodup_iff.mpr hs.nodup, hs.worker_lt, hs.worker_inj, ?_, ?_, hs.lt⟩
    · intro w c' hw hmem
      exact hs.served w c' hw (hperm.mem_iff.mp hmem)
    · intro c'
      rw [hs.connected_iff, hperm.mem_iff]
  | @dequeue w c cs hw hidle hqueue =>
    have hperm : (s.backlog ++ s.socketQueue).Perm (c :: (s.backlog ++ cs)) := by
      rw [hqueue]
      exact List.perm_middle
    have hnodup := List.nodup_cons.mp (hperm.nodup_iff.mp hs.nodup)
    have hc : c ∈ s.backlog ++ s.socketQueue := hperm.mem_iff.mpr List.mem_cons_self
    have hupdate : ∀ w' c', Function.update s.worker w (some c) w' = some c' ↔
        w' = w ∧ c = c' ∨ w' ≠ w ∧ s.worker w' = some c' := by
      intro w' c'
      by_cases hww : w' = w
      · simp [hww]
      · simp [hww]
    refine ⟨hnodup.2, ?_, ?_, ?_, ?_, hs.lt⟩
    · intro w' c' hw'
      rcases (hupdate w' c').mp hw' with ⟨rfl, -⟩ | ⟨-, hw'⟩
      · exact hw
      · exact hs.worker_lt w' c' hw'
    · intro w₁ w₂ c' h₁ h₂
      -- a connection from the queue has no worker yet
      rcases (hupdate w₁ c').mp h₁ with ⟨rfl, rfl⟩ | ⟨-, hw₁⟩
      · rcases (hupdate w₂ c).mp h₂ with ⟨rfl, -⟩ | ⟨-, hw₂⟩
        · rfl
        · exact absurd hc (hs.served w₂ c hw₂)
      · rcases (hupdate w₂ c').mp h₂ with ⟨rfl, rfl⟩ | ⟨-, hw₂⟩
        · exact absurd hc (hs.served w₁ c hw₁)
        · exact hs.worker_inj w₁ w₂ c' hw₁ hw₂
    · intro w' c' hw' hmem
      rcases (hupdate w' c').mp hw' with ⟨-, rfl⟩ | ⟨-, hw'⟩
      · exact hnodup.1 hmem
      · exact hs.served w' c' hw' (hperm.mem_iff.mpr (List.mem_cons_of_mem c hmem))
    · intro c'
      rw [hs.connected_iff, hperm.mem_iff, List.mem_cons]
      constructor
      -- the connection moves from the queue to the worker
      · rintro ((rfl | hmem) | ⟨w', hw'⟩)
        · exact .inr ⟨w, by simp⟩
        · exact .inl hmem
        · refine .inr ⟨w', (hupdate w' c').mpr (.inr ⟨?_, hw'⟩)⟩
          rintro rfl
          rw [hidle] at hw'
          cases hw'
      · rintro (hmem | ⟨w', hw'⟩)
        · exact .inl (.inr hmem)
        · rcases (hupdate w' c').mp hw' with ⟨-, rfl⟩ | ⟨-, hw'⟩
          · exact .inl (.inl rfl)
          · exact .inr ⟨w', hw'⟩
  | receive hw hunread hcomm =>
    exact ⟨hs.nodup, hs.worker_lt, hs.worker_inj, hs.served, hs.connected_iff, hs.lt⟩
  | throw hw hunread hcomm =>
    exact ⟨hs.nodup, hs.worker_lt, hs.worker_inj, hs.served, hs.connected_iff, hs.lt⟩

/-! ## What has become of the messages -/

/-- The clients registered for a communicator. -/
def PoolState.registered (s : PoolState) (h : HexId) : List ℕ :=
  (s.comm h).clients.map Client.sock

/-- While the controller runs: every message of a client has been handled, is unread or is not
sent; a message has been handled exactly when the client is registered; a communicator has been
answered exactly when all members are registered, and then the last of them had a rail, unless some
node is unknown. -/
structure Accounted (P : Pool) (s : PoolState) : Prop where
  running : s.ended = false
  messages : ∀ c, ∃ handled, P.comms c = handled ++ (s.unread c ++ s.unsent c) ∧
    ∀ h, c ∈ s.registered h ↔ h ∈ handled
  closed : ∀ c, s.connected c = false → s.unread c = [] ∧ ∀ h, c ∉ s.registered h
  size : ∀ h, (s.comm h).commSize.getD (P.members h).length = (P.members h).length
  nodup : ∀ h, (s.registered h).Nodup
  ip : ∀ h, ∀ client ∈ (s.comm h).clients, client.ip = P.ip client.sock
  answered : ∀ h, (s.registered h).length = (P.members h).length → Answered P s h
  acked : ∀ ack ∈ s.acks, (s.registered ack.hexId).length = (P.members ack.hexId).length
  rail : ∀ h, (s.registered h).length = (P.members h).length → ∀ c ∈ (s.registered h).getLast?,
    P.localRank c h < P.cfg.numRails ∨ ∃ c' ∈ P.members h, P.ip c' ∉ P.cfg.serverIps

theorem accounted_initial (P : Pool) : Accounted P (.initial P) where
  running := rfl
  messages := fun c => ⟨[], rfl, fun _ => by simp [PoolState.registered, PoolState.initial,
    CommEntry.empty]⟩
  closed := fun _ _ => ⟨rfl, fun _ h => by cases h⟩
  size := fun _ => rfl
  nodup := fun _ => List.nodup_nil
  ip := fun _ _ h => by cases h
  answered := by
    intro h hlen c hc
    have hnil : P.members h = [] := List.length_eq_zero_iff.mp hlen.symm
    rw [hnil] at hc
    cases hc
  acked := fun _ h => by cases h
  rail := fun _ _ _ h => by cases h

/-- The effect of a `COMM` message of the pool, with its acknowledgements or its exception. -/
theorem handleComm_msg {comm : HexId → CommEntry} (c : ℕ) (h : HexId)
    (hsize : (comm h).commSize.getD (P.members h).length = (P.members h).length) :
    ∃ e res, handleComm P.cfg comm (P.msg c h) = (Function.update comm h e, res) ∧
      e.commSize = some (P.members h).length ∧ e.clients = (comm h).clients ++ [⟨c, P.ip c⟩] ∧
      (∀ acks, res = .ok acks → (∀ ack ∈ acks, ack.hexId = h) ∧
        ((comm h).clients.length + 1 ≠ (P.members h).length → acks = []) ∧
        ((comm h).clients.length + 1 = (P.members h).length →
          ∀ client ∈ e.clients, ∃ ack ∈ acks, ack.sock = client.sock ∧ ack.hexId = h)) ∧
      ((∃ message, res = .error message) ↔
        (comm h).clients.length + 1 = (P.members h).length ∧
          (∀ client ∈ e.clients, client.ip ∈ P.cfg.serverIps) ∧
          P.cfg.numRails ≤ P.localRank c h) := by
  have hsize' : (comm h).commSize.getD (P.msg c h).nranks = (P.members h).length := hsize
  obtain ⟨hclients, hcommSize⟩ := (comm h).handle_clients P.cfg (P.msg c h)
  refine ⟨((comm h).handle P.cfg (P.msg c h)).1, ((comm h).handle P.cfg (P.msg c h)).2, rfl,
    by rw [hcommSize, hsize'], hclients, fun acks hok => ⟨?_, ?_, ?_⟩, ?_⟩
  · exact (comm h).handle_acks P.cfg (P.msg c h) hok
  · intro hne
    have hhandle := (comm h).handle_of_ne P.cfg (P.msg c h) (hsize'.symm ▸ hne)
    exact (Except.ok.inj ((congrArg Prod.snd hhandle).symm.trans hok)).symm
  · intro heq client hclient
    have hhandle := ((comm h).handle_of_eq P.cfg (P.msg c h) (hsize'.symm ▸ heq)).1
    rw [hclients] at hclient
    cases htopo : determineTopoPm P.cfg ((comm h).clients ++ [(P.msg c h).client])
        (P.msg c h).localRank with
    | error message =>
      rw [htopo] at hhandle
      cases hhandle.symm.trans hok
    | ok topo =>
      rw [htopo] at hhandle
      obtain rfl := Except.ok.inj (hhandle.symm.trans hok)
      exact ⟨_, List.mem_map_of_mem hclient, rfl, rfl⟩
  · simp only [(comm h).handle_eq_error_iff, exists_eq_left, hclients, hsize']
    rfl

theorem mem_members {c : ℕ} {h : HexId} : c ∈ P.members h ↔ c < P.clients ∧ h ∈ P.comms c := by
  simp [Pool.members]

/-- Only members are registered. -/
theorem Accounted.mem_members (hs : Accounted P s) (hp : Placed P s) {c : ℕ} {h : HexId}
    (hc : c ∈ s.registered h) : c ∈ P.members h := by
  -- a client without a connection has sent nothing
  have hconn : s.connected c = true := by
    by_contra hn
    exact (hs.closed c (by simpa using hn)).2 h hc
  obtain ⟨handled, heq, hiff⟩ := hs.messages c
  refine Opus.mem_members.mpr ⟨hp.lt c hconn, ?_⟩
  rw [heq]
  exact List.mem_append_left _ ((hiff h).mp hc)

/-- When as many clients are registered as there are members, every member is. -/
theorem mem_of_length_eq {xs ys : List ℕ} (hxs : xs.Nodup) (hsub : ∀ x ∈ xs, x ∈ ys)
    (hlen : xs.length = ys.length) {y : ℕ} (hy : y ∈ ys) : y ∈ xs :=
  ((hxs.subperm hsub).perm_of_length_le hlen.ge).mem_iff.mpr hy

/-- The message that a worker reads is the first one of its client for this communicator. -/
theorem Accounted.next (hs : Accounted P s) (hp : Placed P s) {w c : ℕ} {h : HexId}
    {hs' : List HexId} (hw : s.worker w = some c) (hunread : s.unread c = h :: hs') :
    c ∈ P.members h ∧ (s.registered h ++ [c]).Nodup ∧
      ∀ c' ∈ s.registered h ++ [c], c' ∈ P.members h := by
  have hconn : s.connected c = true := (hp.connected_iff c).mpr (.inr ⟨w, hw⟩)
  obtain ⟨handled, hall, hhandled⟩ := hs.messages c
  have hmember : c ∈ P.members h := by
    refine Opus.mem_members.mpr ⟨hp.lt c hconn, ?_⟩
    rw [hall, hunread]
    simp
  -- the message that is being handled has not been handled before
  have hnew : c ∉ s.registered h := by
    rw [hhandled]
    intro hmem
    have hnodup := P.nodup c
    rw [hall, hunread] at hnodup
    exact (List.nodup_append.mp hnodup).2.2 h hmem h (by simp) rfl
  refine ⟨hmember, ?_, fun c' hc' => ?_⟩
  · rw [List.nodup_append]
    refine ⟨hs.nodup h, List.nodup_singleton c, ?_⟩
    rintro x hx y hy rfl
    exact hnew (List.mem_singleton.mp hy ▸ hx)
  · rcases List.mem_append.mp hc' with hc' | hc'
    · exact hs.mem_members hp hc'
    · rw [List.mem_singleton.mp hc']
      exact hmember

/-- The clients of a communicator after one more message. -/
theorem Accounted.client (hs : Accounted P s) {c : ℕ} {h : HexId} {client : Client}
    (hclient : client ∈ (s.comm h).clients ++ [⟨c, P.ip c⟩]) :
    client.ip = P.ip client.sock ∧ client.sock ∈ s.registered h ++ [c] := by
  rcases List.mem_append.mp hclient with hmem | hmem
  · exact ⟨hs.ip h client hmem, List.mem_append_left _ (List.mem_map_of_mem hmem)⟩
  · obtain rfl := List.mem_singleton.mp hmem
    exact ⟨rfl, List.mem_append_right _ (List.mem_singleton_self c)⟩

theorem accounted_receive (hs : Accounted P s) (hp : Placed P s) {w c : ℕ} {h : HexId}
    {hs' : List HexId} {comm : HexId → CommEntry} {acks : List CheckinAck}
    (hw : s.worker w = some c) (hunread : s.unread c = h :: hs')
    (hcomm : handleComm P.cfg s.comm (P.msg c h) = (comm, .ok acks)) :
    Accounted P { s with
      unread := Function.update s.unread c hs'
      comm := comm
      acks := s.acks ++ acks } := by
  obtain ⟨e, res, heq, hsize, hclients, hacks, herror⟩ := handleComm_msg c h (hs.size h)
  rw [heq] at hcomm
  obtain ⟨rfl, rfl⟩ := Prod.mk.inj hcomm
  obtain ⟨hids, hnone, hacks⟩ := hacks acks rfl
  -- only the communicator of the message gains a client
  have hreg : ∀ h', PoolState.registered { s with
      unread := Function.update s.unread c hs'
      comm := Function.update s.comm h e
      acks := s.acks ++ acks } h' =
        if h' = h then s.registered h ++ [c] else s.registered h' := by
    intro h'
    by_cases hh : h' = h
    · subst hh
      simp [hclients, PoolState.registered]
    · simp [hh, PoolState.registered]
  have hlen : (s.comm h).clients.length = (s.registered h).length := by
    simp [PoolState.registered]
  have hconn : s.connected c = true := (hp.connected_iff c).mpr (.inr ⟨w, hw⟩)
  obtain ⟨handled, hall, hhandled⟩ := hs.messages c
  obtain ⟨hmember, hnodup, hmembers⟩ := hs.next hp hw hunread
  exact {
    running := hs.running
    messages := by
      intro c'
      simp only [hreg]
      by_cases hc : c' = c
      · subst hc
        -- the message moves from the unread to the handled ones
        refine ⟨handled ++ [h], by simp [hall, hunread], fun h' => ?_⟩
        by_cases hh : h' = h
        · simp [hh]
        · simp [hh, hhandled]
      · obtain ⟨handled', hall', hhandled'⟩ := hs.messages c'
        refine ⟨handled', by simpa [hc] using hall', fun h' => ?_⟩
        by_cases hh : h' = h
        · simp [hh, hc, hhandled']
        · simp [hh, hhandled']
    closed := by
      intro c' hc'
      have hne : c' ≠ c := by
        rintro rfl
        rw [hconn] at hc'
        cases hc'
      obtain ⟨hempty, hnone⟩ := hs.closed c' hc'
      refine ⟨by simpa [hne] using hempty, fun h' => ?_⟩
      rw [hreg]
      by_cases hh : h' = h
      · simp [hh, hne, hnone]
      · simp [hh, hnone]
    size := by
      intro h'
      by_cases hh : h' = h
      · subst hh
        simp [hsize]
      · simpa [hh] using hs.size h'
    nodup := by
      intro h'
      rw [hreg]
      by_cases hh : h' = h
      · rwa [if_pos hh]
      · rw [if_neg hh]
        exact hs.nodup h'
    ip := by
      intro h' client hclient
      by_cases hh : h' = h
      · subst hh
        simp only [Function.update_self, hclients] at hclient
        exact (hs.client hclient).1
      · simp only [Function.update_of_ne hh] at hclient
        exact hs.ip h' client hclient
    answered := by
      intro h' hcomplete c' hc'
      rw [hreg] at hcomplete
      by_cases hh : h' = h
      · subst hh
        rw [if_pos rfl] at hcomplete
        have hmem := mem_of_length_eq hnodup hmembers hcomplete hc'
        -- the message completes the check-in, and its handler answers all clients
        have hmap : c' ∈ e.clients.map Client.sock := by
          simpa [hclients, PoolState.registered] using hmem
        obtain ⟨client, hclient, rfl⟩ := List.mem_map.mp hmap
        obtain ⟨ack, hack, hsock, hhex⟩ := hacks (by simpa [PoolState.registered] using hcomplete)
          client hclient
        exact ⟨ack, List.mem_append_right _ hack, hsock, hhex⟩
      · rw [if_neg hh] at hcomplete
        obtain ⟨ack, hack, hsock, hhex⟩ := hs.answered h' hcomplete c' hc'
        exact ⟨ack, List.mem_append_left _ hack, hsock, hhex⟩
    acked := by
      intro ack hack
      rw [hreg]
      rcases List.mem_append.mp hack with hack | hack
      · have hcomplete := hs.acked ack hack
        by_cases hh : ack.hexId = h
        · -- all members would be registered already
          rw [hh] at hcomplete
          have hle := (hnodup.subperm hmembers).length_le
          rw [List.length_append, List.length_singleton] at hle
          omega
        · rwa [if_neg hh]
      · have hh := hids ack hack
        rw [if_pos hh, hh, List.length_append, List.length_singleton, ← hlen]
        by_contra hne
        rw [hnone hne] at hack
        cases hack
    rail := by
      intro h' hcomplete c' hc'
      rw [hreg] at hcomplete hc'
      by_cases hh : h' = h
      · subst hh
        rw [if_pos rfl] at hcomplete hc'
        obtain rfl : c = c' := by simpa using hc'
        -- otherwise the message would have ended the controller
        by_contra hcon
        push Not at hcon
        obtain ⟨hrank, hips⟩ := hcon
        obtain ⟨message, hmessage⟩ := herror.mpr ⟨by simpa [hlen] using hcomplete,
          fun client hclient => by
            obtain ⟨hip, hsock⟩ := hs.client (hclients ▸ hclient)
            rw [hip]
            exact hips _ (hmembers _ hsock), hrank⟩
        cases hmessage
      · rw [if_neg hh] at hcomplete hc'
        exact hs.rail h' hcomplete c' hc' }

/-- An exception has ended the controller: all members of `h` have sent their messages and are not
answered, although the controller knows their nodes, because the last of them has no rail. -/
structure Lost (P : Pool) (s : PoolState) (h : HexId) : Prop where
  ended : s.ended = true
  sent : Sent P s h
  unanswered : ¬ Answered P s h
  ip_mem : ∀ c ∈ P.members h, P.ip c ∈ P.cfg.serverIps
  unrailed : ∃ c ∈ P.members h, P.cfg.numRails ≤ P.localRank c h

/-- An exception loses the check-in that it completes. -/
theorem lost_throw (hs : Accounted P s) (hp : Placed P s) {w c : ℕ} {h : HexId}
    {hs' : List HexId} {comm : HexId → CommEntry} {message : String}
    (hw : s.worker w = some c) (hunread : s.unread c = h :: hs')
    (hcomm : handleComm P.cfg s.comm (P.msg c h) = (comm, .error message)) :
    Lost P { s with
      unread := Function.update s.unread c hs'
      comm := comm
      ended := true } h := by
  obtain ⟨e, res, heq, -, hclients, -, herror⟩ := handleComm_msg c h (hs.size h)
  rw [heq] at hcomm
  obtain ⟨hlen, hips, hrank⟩ := herror.mp ⟨message, (Prod.mk.inj hcomm).2⟩
  have hlen' : (s.registered h ++ [c]).length = (P.members h).length := by
    simpa [PoolState.registered] using hlen
  obtain ⟨hmember, hnodup, hmembers⟩ := hs.next hp hw hunread
  have hall : ∀ c' ∈ P.members h, c' ∈ s.registered h ++ [c] := fun c' hc' =>
    mem_of_length_eq hnodup hmembers hlen' hc'
  refine ⟨rfl, fun c' hc' hunsent => ?_, fun hanswered => ?_, fun c' hc' => ?_, c, hmember, hrank⟩
  · -- a registered member has sent its message, and the last message has just been read
    obtain ⟨handled, hcomms, hhandled⟩ := hs.messages c'
    have hnodup' := P.nodup c'
    rw [hcomms, ← List.append_assoc] at hnodup'
    refine (List.nodup_append.mp hnodup').2.2 h (List.mem_append.mpr ?_) h hunsent rfl
    rcases List.mem_append.mp (hall c' hc') with hreg | hlast
    · exact .inl ((hhandled h).mp hreg)
    · rw [List.mem_singleton.mp hlast, hunread]
      exact .inr List.mem_cons_self
  -- before the message the check-in was not complete
  · obtain ⟨ack, hack, -, hhex⟩ := hanswered c hmember
    have hcomplete := hs.acked ack hack
    rw [hhex] at hcomplete
    rw [List.length_append, List.length_singleton] at hlen'
    omega
  · have hmap : c' ∈ e.clients.map Client.sock := by
      simpa [hclients, PoolState.registered] using hall c' hc'
    obtain ⟨client, hclient, rfl⟩ := List.mem_map.mp hmap
    rw [← (hs.client (hclients ▸ hclient)).1]
    exact hips client hclient

/-- **What has become of the messages, after every step.** -/
theorem accounted_step {a : PoolAction} (hp : Placed P s) (hs : Accounted P s)
    (h : poolStep P s a = some s') : Accounted P s' ∨ ∃ h, Lost P s' h := by
  cases (poolStep_cases h).2 with
  | @connect c hlt hnew =>
    refine .inl { hs with closed := fun c' hc' => hs.closed c' ?_ }
    by_cases hc : c' = c
    · simp [hc] at hc'
    · simpa [hc] using hc'
  | @send c h hs' hc hunsent =>
    refine .inl { hs with messages := fun c' => ?_, closed := fun c' hc' => ?_ }
    · obtain ⟨handled, hall, hhandled⟩ := hs.messages c'
      refine ⟨handled, ?_, hhandled⟩
      by_cases hcc : c' = c
      · subst hcc
        simpa [hunsent] using hall
      · simpa [hcc] using hall
    · have hne : c' ≠ c := by
        rintro rfl
        rw [hc] at hc'
        cases hc'
      obtain ⟨hempty, hnone⟩ := hs.closed c' hc'
      exact ⟨by simpa [hne] using hempty, hnone⟩
  | accept hbacklog => exact .inl { hs with }
  | dequeue hw hidle hqueue => exact .inl { hs with }
  | receive hw hunread hcomm => exact .inl (accounted_receive hs hp hw hunread hcomm)
  | throw hw hunread hcomm => exact .inr ⟨_, lost_throw hs hp hw hunread hcomm⟩

theorem reaches_invariant (h : Reaches (poolStep P) (.initial P) s) :
    Placed P s ∧ (Accounted P s ∨ ∃ h, Lost P s h) := by
  refine h.invariant (I := fun s => Placed P s ∧ (Accounted P s ∨ ∃ h, Lost P s h)) ?_
    ⟨placed_initial P, .inl (accounted_initial P)⟩
  rintro s a s' ⟨hp, hs | ⟨h, hlost⟩⟩ hstep
  · exact ⟨placed_step s a s' hp hstep, accounted_step hp hs hstep⟩
  · -- nothing happens after an exception
    have hrunning := (poolStep_cases hstep).1
    rw [hlost.ended] at hrunning
    cases hrunning

/-- When all local ranks have a rail, no check-in ends the controller. -/
theorem Pool.Railed.accounted (hrailed : P.Railed) (h : Reaches (poolStep P) (.initial P) s) :
    Placed P s ∧ Accounted P s := by
  refine (reaches_invariant h).imp_right fun hs => hs.resolve_right ?_
  rintro ⟨h, hlost⟩
  obtain ⟨c, hc, hrank⟩ := hlost.unrailed
  rcases hrailed h c hc with hlt | ⟨c', hc', hip⟩
  · exact absurd hrank (Nat.not_le.mpr hlt)
  · exact hip (hlost.ip_mem c' hc')

/-- A controller that answers every complete check-in is not ended. -/
theorem Pool.Answers.accounted (hanswers : P.Answers) (h : Reaches (poolStep P) (.initial P) s) :
    Accounted P s := by
  refine (reaches_invariant h).2.resolve_right ?_
  rintro ⟨h', hlost⟩
  have hidle : ∀ a, poolStep P s a = none := fun a => if_pos hlost.ended
  exact hlost.unanswered (hanswers.answered s h ⟨hidle _, fun _ _ => hidle _, fun _ _ => hidle _⟩ h'
    hlost.sent)

/-! ## Enough workers -/

/-- When all workers are busy and there are no more clients than workers, every client has one. -/
theorem Placed.exists_worker (hp : Placed P s) (hle : P.clients ≤ P.workers)
    (hbusy : ∀ w < P.workers, ∃ c, s.worker w = some c) {c : ℕ} (hc : c < P.clients) :
    ∃ w < P.workers, s.worker w = some c := by
  classical
  choose f hf using hbusy
  let serves : ℕ → ℕ := fun w => if hw : w < P.workers then f w hw else 0
  have hserves : ∀ w (hw : w < P.workers), s.worker w = some (serves w) := by
    intro w hw
    simp only [serves, dif_pos hw]
    exact hf w hw
  have hsub : (Finset.range P.workers).image serves ⊆ Finset.range P.clients := by
    intro x hx
    obtain ⟨w, hw, rfl⟩ := Finset.mem_image.mp hx
    have hw' := Finset.mem_range.mp hw
    exact Finset.mem_range.mpr
      (hp.lt _ ((hp.connected_iff _).mpr (.inr ⟨w, hserves w hw'⟩)))
  have hcard : ((Finset.range P.workers).image serves).card = P.workers := by
    rw [Finset.card_image_of_injOn, Finset.card_range]
    intro w hw w' hw' heq
    have hw := Finset.mem_range.mp (Finset.mem_coe.mp hw)
    have hw' := Finset.mem_range.mp (Finset.mem_coe.mp hw')
    refine hp.worker_inj w w' _ (hserves w hw) ?_
    rw [heq]
    exact hserves w' hw'
  -- the workers serve different clients, so they serve all of them
  have himage : (Finset.range P.workers).image serves = Finset.range P.clients :=
    Finset.eq_of_subset_of_card_le hsub (by rw [hcard, Finset.card_range]; exact hle)
  have hmem : c ∈ (Finset.range P.workers).image serves := by
    rw [himage]
    exact Finset.mem_range.mpr hc
  obtain ⟨w, hw, rfl⟩ := Finset.mem_image.mp hmem
  exact ⟨w, Finset.mem_range.mp hw, hserves w (Finset.mem_range.mp hw)⟩

/-- A client with an unread message is connected. -/
theorem Accounted.connected (hs : Accounted P s) {c : ℕ} {h : HexId} (hc : h ∈ s.unread c) :
    s.connected c = true := by
  by_contra hn
  rw [(hs.closed c (by simpa using hn)).1] at hc
  cases hc

/-- An unread message is one of the client's. -/
theorem Accounted.mem_comms (hs : Accounted P s) {c : ℕ} {h : HexId} (hc : h ∈ s.unread c) :
    h ∈ P.comms c := by
  obtain ⟨handled, hall, -⟩ := hs.messages c
  rw [hall]
  exact List.mem_append_right _ (List.mem_append_left _ hc)

theorem not_stuck (h : P.clients ≤ P.workers ∨ ∀ c < P.clients, P.comms c = [])
    (hp : Placed P s) (hs : Accounted P s) : ¬ Stuck P s := by
  rintro ⟨-, hwait, c, h', hunread, -⟩
  have hlt := hp.lt c (hs.connected hunread)
  rcases h with hle | hnone
  · obtain ⟨w, hw, hserved⟩ := hp.exists_worker hle
      (fun w hw => (hwait w hw).imp fun _ hc => hc.1) hlt
    obtain ⟨c', hc', hempty⟩ := hwait w hw
    obtain rfl : c = c' := Option.some.inj (hserved.symm.trans hc')
    rw [hempty] at hunread
    cases hunread
  · have hmem := hs.mem_comms hunread
    rw [hnone c hlt] at hmem
    cases hmem

/-- **A controller that can make no step and is not stuck has answered every complete check-in.** -/
theorem answered_of_not_stuck (hp : Placed P s) (hs : Accounted P s) (hq : Idle P s)
    (hstuck : ¬ Stuck P s) {h : HexId} (hsent : Sent P s h) : Answered P s h := by
  obtain ⟨haccept, hdequeue, hreceive⟩ := hq
  have hbacklog : s.backlog = [] := by
    cases hb : s.backlog with
    | nil => rfl
    | cons c cs => simp [poolStep, hs.running, hb] at haccept
  have hserved : ∀ w c, s.worker w = some c → s.unread c = [] := by
    intro w c hw
    have hnone := hreceive w (hp.worker_lt w c hw)
    cases hu : s.unread c with
    | nil => rfl
    | cons h' hs' =>
      obtain ⟨e, res, heq, -⟩ := handleComm_msg c h' (hs.size h')
      cases res <;> simp [poolStep, hs.running, hw, hu, heq] at hnone
  apply hs.answered
  -- every member has been registered: its message is neither unsent nor unread
  have hreg : ∀ c ∈ P.members h, c ∈ s.registered h := by
    intro c hc
    obtain ⟨handled, hall, hhandled⟩ := hs.messages c
    have hmem := (mem_members.mp hc).2
    rw [hall, List.mem_append, List.mem_append] at hmem
    rcases hmem with hmem | hmem | hmem
    · exact (hhandled h).mpr hmem
    · exfalso
      rcases (hp.connected_iff c).mp (hs.connected hmem) with hplace | ⟨w, hw⟩
      · rw [hbacklog, List.nil_append] at hplace
        -- the connection is still in the queue, so no worker is free
        refine hstuck ⟨hs.running, fun w hw => ?_, c, h, hmem, hsent⟩
        cases hworker : s.worker w with
        | some c' => exact ⟨c', rfl, hserved w c' hworker⟩
        | none =>
          obtain ⟨c', cs, hqueue⟩ := List.exists_cons_of_ne_nil (List.ne_nil_of_mem hplace)
          have hnone := hdequeue w hw
          simp [poolStep, hs.running, hworker, hqueue, hw] at hnone
      · rw [hserved w c hw] at hmem
        cases hmem
    · exact absurd hmem (hsent c hc)
  have hle : (s.registered h).length ≤ (P.members h).length :=
    ((hs.nodup h).subperm fun c hc => hs.mem_members hp hc).length_le
  have hge : (P.members h).length ≤ (s.registered h).length :=
    ((List.nodup_range.filter _).subperm hreg).length_le
  exact Nat.le_antisymm hle hge

/-! ## Too few workers -/

/-- A connected client sends all its messages. -/
theorem reaches_send {c : ℕ} (hrunning : s.ended = false) (hc : s.connected c = true)
    (hs : List HexId) (hunsent : s.unsent c = hs) :
    Reaches (poolStep P) s { s with
      unsent := Function.update s.unsent c []
      unread := Function.update s.unread c (s.unread c ++ hs) } := by
  induction hs generalizing s with
  | nil =>
    have hsame : Function.update s.unsent c [] = s.unsent := by rw [← hunsent, Function.update_eq_self]
    rw [hsame, List.append_nil, Function.update_eq_self]
    exact Reaches.refl s
  | cons h hs ih =>
    have hstep : poolStep P s (.send c) = some { s with
        unsent := Function.update s.unsent c hs
        unread := Function.update s.unread c (s.unread c ++ [h]) } := by
      simp only [poolStep, hrunning, Bool.false_eq_true, if_false, hc, hunsent]
    have hrest := ih (s := { s with
      unsent := Function.update s.unsent c hs
      unread := Function.update s.unread c (s.unread c ++ [h]) }) hrunning hc
      (Function.update_self ..)
    simp only [Function.update_idem, Function.update_self, List.append_assoc,
      List.singleton_append] at hrest
    exact ((Reaches.refl s).tail hstep).trans hrest

/-- A worker of a controller that answers every check-in handles all messages of its connection. -/
theorem reaches_receive (hanswers : P.Answers) (hreach : Reaches (poolStep P) (.initial P) s)
    {w c : ℕ} (hw : s.worker w = some c) (hs : List HexId) (hunread : s.unread c = hs)
    (hnodup : hs.Nodup) :
    ∃ s', Reaches (poolStep P) s s' ∧
      s' = { s with
        unread := Function.update s.unread c []
        comm := s'.comm
        acks := s'.acks } ∧
      ∀ h, s'.registered h = s.registered h ++ if h ∈ hs then [c] else [] := by
  induction hs generalizing s with
  | nil =>
    refine ⟨s, Reaches.refl s, ?_, fun h => by simp⟩
    rw [← hunread, Function.update_eq_self]
  | cons h hs ih =>
    obtain ⟨hnew, hnodup⟩ := List.nodup_cons.mp hnodup
    have hacc := hanswers.accounted hreach
    obtain ⟨e, res, heq, -, hclients, -⟩ := handleComm_msg c h (hacc.size h)
    obtain ⟨s₁, hstep, hs₁⟩ : ∃ s₁, poolStep P s (.receive w) = some s₁ ∧
        s₁ = { s with
          unread := Function.update s.unread c hs
          comm := Function.update s.comm h e
          acks := s₁.acks
          ended := s₁.ended } := by
      cases res with
      | ok acks =>
        refine ⟨{ s with
          unread := Function.update s.unread c hs
          comm := Function.update s.comm h e
          acks := s.acks ++ acks }, ?_, rfl⟩
        simp only [poolStep, hacc.running, Bool.false_eq_true, if_false, hw, hunread, heq]
      | error message =>
        refine ⟨{ s with
          unread := Function.update s.unread c hs
          comm := Function.update s.comm h e
          ended := true }, ?_, rfl⟩
        simp only [poolStep, hacc.running, Bool.false_eq_true, if_false, hw, hunread, heq]
    have hreach₁ := hreach.tail hstep
    -- the controller would not have answered if the message had ended it
    have hended : s₁.ended = s.ended :=
      (hanswers.accounted hreach₁).running.trans hacc.running.symm
    rw [hended] at hs₁
    have hreg : ∀ h', s₁.registered h' = s.registered h' ++ if h' = h then [c] else [] := by
      intro h'
      rw [hs₁]
      by_cases hh : h' = h
      · subst hh
        simp [PoolState.registered, hclients]
      · simp [PoolState.registered, hh]
    obtain ⟨s₂, hreach₂, hs₂, hreg₂⟩ := ih hreach₁ (by rw [hs₁]; exact hw)
      (by rw [hs₁]; exact Function.update_self ..) hnodup
    refine ⟨s₂, ((Reaches.refl s).tail hstep).trans hreach₂, ?_, fun h' => ?_⟩
    · rw [hs₂, hs₁]
      simp only [Function.update_idem]
    · rw [hreg₂, hreg]
      by_cases hh : h' = h
      · simp [hh, hnew]
      · simp [hh]

/-- The workers serve the clients `served`, which have nothing more to say, and the clients `queued`
have sent their messages and wait in the queue. -/
structure Occupied (P : Pool) (served queued : List ℕ) (s : PoolState) : Prop where
  reaches : Reaches (poolStep P) (.initial P) s
  backlog : s.backlog = []
  socketQueue : s.socketQueue = queued
  worker : ∀ w : ℕ, s.worker w = served[w]?
  connected : ∀ c, s.connected c = decide (c ∈ served ∨ c ∈ queued)
  unread : ∀ c, s.unread c = if c ∈ queued then P.comms c else []
  unsent : ∀ c, s.unsent c = if c ∈ served ∨ c ∈ queued then [] else P.comms c
  registered : ∀ h, s.registered h = served.filter fun c => h ∈ P.comms c

/-- A new client connects and is accepted. -/
theorem Occupied.exists_accept (hanswers : P.Answers) {served queued : List ℕ}
    (h : Occupied P served queued s) {c : ℕ} (hlt : c < P.clients)
    (hnew : c ∉ served ∧ c ∉ queued) :
    Reaches (poolStep P) s { s with
      connected := Function.update s.connected c true
      socketQueue := queued ++ [c]
      unsent := Function.update s.unsent c []
      unread := Function.update s.unread c (P.comms c) } := by
  have hrunning := (hanswers.accounted h.reaches).running
  have hconnect : poolStep P s (.connect c) = some { s with
      connected := Function.update s.connected c true
      backlog := [c] } := by
    have hc : s.connected c = false := by simp [h.connected, hnew]
    simp only [poolStep, hrunning, Bool.false_eq_true, if_false, hlt, hc, and_self, if_true,
      h.backlog, List.nil_append]
  have haccept : poolStep P { s with
      connected := Function.update s.connected c true
      backlog := [c] } .accept = some { s with
        connected := Function.update s.connected c true
        socketQueue := queued ++ [c] } := by
    simp only [poolStep, hrunning, Bool.false_eq_true, if_false, h.socketQueue, h.backlog]
  have hsend := reaches_send (P := P) (s := { s with
    connected := Function.update s.connected c true
    socketQueue := queued ++ [c] }) hrunning (Function.update_self ..) (P.comms c)
    (by simp [h.unsent, hnew])
  have hunread : s.unread c = [] := by simp [h.unread, hnew]
  simp only [hunread, List.nil_append] at hsend
  exact (((Reaches.refl s).tail hconnect).tail haccept).trans hsend

/-- Another client waits in the queue. -/
theorem Occupied.queue (hanswers : P.Answers) {served queued : List ℕ}
    (h : Occupied P served queued s) {c : ℕ} (hlt : c < P.clients)
    (hnew : c ∉ served ∧ c ∉ queued) :
    ∃ s', Occupied P served (queued ++ [c]) s' := by
  refine ⟨_, h.reaches.trans (h.exists_accept hanswers hlt hnew), h.backlog, rfl, h.worker,
    fun c' => ?_, fun c' => ?_, fun c' => ?_, h.registered⟩
  · by_cases hc : c' = c
    · simp [hc]
    · simp [hc, h.connected]
  · by_cases hc : c' = c
    · simp [hc]
    · simp [hc, h.unread]
  · by_cases hc : c' = c
    · simp [hc]
    · simp [hc, h.unsent]

/-- A free worker takes another client and handles its messages. -/
theorem Occupied.serve (hanswers : P.Answers) {served : List ℕ} (h : Occupied P served [] s) {c : ℕ}
    (hlt : c < P.clients) (hnew : c ∉ served) (hfree : served.length < P.workers) :
    ∃ s', Occupied P (served ++ [c]) [] s' := by
  have hrunning := (hanswers.accounted h.reaches).running
  have haccept := h.exists_accept hanswers hlt ⟨hnew, List.not_mem_nil⟩
  have hidle : s.worker served.length = none := by simp [h.worker]
  have hdequeue : poolStep P { s with
      connected := Function.update s.connected c true
      socketQueue := [c]
      unsent := Function.update s.unsent c []
      unread := Function.update s.unread c (P.comms c) } (.dequeue served.length) = some { s with
        connected := Function.update s.connected c true
        socketQueue := []
        worker := Function.update s.worker served.length (some c)
        unsent := Function.update s.unsent c []
        unread := Function.update s.unread c (P.comms c) } := by
    simp only [poolStep, hrunning, Bool.false_eq_true, if_false, hidle, hfree, if_true]
  have hreach := (h.reaches.trans haccept).tail hdequeue
  obtain ⟨s', hreceive, hs', hreg⟩ := reaches_receive hanswers hreach (w := served.length)
    (Function.update_self ..) (P.comms c) (Function.update_self ..) (P.nodup c)
  refine ⟨s', hreach.trans hreceive, by rw [hs']; exact h.backlog, by rw [hs'], fun w => ?_,
    fun c' => ?_, fun c' => ?_, fun c' => ?_, fun h' => ?_⟩
  · rw [hs']
    by_cases hw : w = served.length
    · simp [hw]
    · have hsame : Function.update s.worker served.length (some c) w = served[w]? := by
        rw [Function.update_of_ne hw, h.worker]
      refine hsame.trans ?_
      rcases Nat.lt_or_gt_of_ne hw with hlt | hgt
      · rw [List.getElem?_append_left hlt]
      · rw [List.getElem?_eq_none (Nat.le_of_lt hgt), List.getElem?_eq_none]
        rw [List.length_append, List.length_singleton]
        omega
  · rw [hs']
    by_cases hc : c' = c
    · simp [hc]
    · simp [hc, h.connected]
  · rw [hs']
    by_cases hc : c' = c
    · simp [hc]
    · simp [hc, h.unread]
  · rw [hs']
    by_cases hc : c' = c
    · simp [hc]
    · simp [hc, h.unsent]
  · rw [hreg, List.filter_append, ← h.registered h']
    simp [PoolState.registered, List.filter_singleton]

/-- Any clients can be served, as long as there are workers. -/
theorem exists_served (hanswers : P.Answers) (served : List ℕ) (hnodup : served.Nodup)
    (hlt : ∀ c ∈ served, c < P.clients) (hlen : served.length ≤ P.workers) :
    ∃ s, Occupied P served [] s := by
  induction served using List.reverseRecOn with
  | nil =>
    exact ⟨.initial P, Reaches.refl _, rfl, rfl, fun _ => by simp [PoolState.initial],
      fun _ => by simp [PoolState.initial], fun _ => by simp [PoolState.initial],
      fun _ => by simp [PoolState.initial], fun _ => rfl⟩
  | append_singleton served c ih =>
    rw [List.nodup_append] at hnodup
    rw [List.length_append, List.length_singleton] at hlen
    obtain ⟨s, hs⟩ := ih hnodup.1 (fun c' hc' => hlt c' (List.mem_append_left _ hc')) (by omega)
    refine hs.serve hanswers (hlt c (by simp)) (fun hc => ?_) (by omega)
    exact hnodup.2.2 c hc c (by simp) rfl

/-- Any other clients can wait in the queue meanwhile. -/
theorem exists_queued (hanswers : P.Answers) {served : List ℕ} (queued : List ℕ)
    (hnodup : queued.Nodup) (hlt : ∀ c ∈ queued, c < P.clients ∧ c ∉ served)
    (h : ∃ s, Occupied P served [] s) :
    ∃ s, Occupied P served queued s := by
  induction queued using List.reverseRecOn with
  | nil => exact h
  | append_singleton queued c ih =>
    rw [List.nodup_append] at hnodup
    obtain ⟨s, hs⟩ := ih hnodup.1 fun c' hc' => hlt c' (List.mem_append_left _ hc')
    obtain ⟨hc, hserved⟩ := hlt c (by simp)
    exact hs.queue hanswers hc ⟨hserved, fun hmem => hnodup.2.2 c hmem c (by simp) rfl⟩

/-- **With more clients than workers, a check-in can wait for ever**, if no exception ends the
controller before. -/
theorem exists_stuck (hanswers : P.Answers) (hlt : P.workers < P.clients) {c₀ : ℕ}
    (hc₀ : c₀ < P.clients) (hcomms : P.comms c₀ ≠ []) :
    ∃ s, Reaches (poolStep P) (.initial P) s ∧ Stuck P s := by
  -- the workers are taken by other clients
  have hlen : P.workers ≤ ((List.range P.clients).erase c₀).length := by
    rw [List.length_erase_of_mem (List.mem_range.mpr hc₀), List.length_range]
    omega
  set served := ((List.range P.clients).erase c₀).take P.workers with hserved
  set queued := (List.range P.clients).filter fun c => c ∉ served with hqueued
  have hsub : ∀ c ∈ served, c ∈ (List.range P.clients).erase c₀ := fun c hc =>
    List.mem_of_mem_take hc
  obtain ⟨s, hs⟩ := exists_queued hanswers queued (List.nodup_range.filter _)
    (fun c hc => by simpa [hqueued] using hc)
    (exists_served hanswers served ((List.nodup_range.erase c₀).sublist (List.take_sublist ..))
      (fun c hc => List.mem_range.mp (List.mem_of_mem_erase (hsub c hc)))
      (by simp [hserved]))
  obtain ⟨h, hh⟩ := List.exists_mem_of_ne_nil _ hcomms
  have hmem₀ : c₀ ∈ queued := by
    rw [hqueued, List.mem_filter]
    refine ⟨List.mem_range.mpr hc₀, decide_eq_true fun hc => ?_⟩
    exact ((List.nodup_range.mem_erase_iff).mp (hsub c₀ hc)).1 rfl
  refine ⟨s, hs.reaches, (hanswers.accounted hs.reaches).running, fun w hw => ?_, c₀, h, ?_,
    fun c hc => ?_⟩
  · have hw' : w < served.length := by
      rw [hserved, List.length_take]
      omega
    refine ⟨served[w], by rw [hs.worker, List.getElem?_eq_getElem hw'], ?_⟩
    have hnot : served[w] ∉ queued := by
      simp [hqueued, List.getElem_mem hw']
    rw [hs.unread, if_neg hnot]
  · rw [hs.unread, if_pos hmem₀]
    exact hh
  · have hplace : c ∈ served ∨ c ∈ queued := by
      by_cases hcs : c ∈ served
      · exact .inl hcs
      · exact .inr (List.mem_filter.mpr
          ⟨List.mem_range.mpr (mem_members.mp hc).1, decide_eq_true hcs⟩)
    rw [hs.unsent, if_pos hplace]
    exact List.not_mem_nil

/-- **With enough workers, every client can be the last of its communicators**, so it needs a rail
for each. -/
theorem railed_of_answers (hanswers : P.Answers) (hle : P.clients ≤ P.workers) : P.Railed := by
  intro h c hc
  obtain ⟨hlt, hcomm⟩ := mem_members.mp hc
  have hc' : c ∈ List.range P.clients := List.mem_range.mpr hlt
  have hperm : ((List.range P.clients).erase c ++ [c]).Perm (List.range P.clients) :=
    (List.perm_append_singleton c _).trans (List.perm_cons_erase hc').symm
  obtain ⟨s, hs⟩ := exists_served hanswers ((List.range P.clients).erase c ++ [c])
    (hperm.nodup_iff.mpr List.nodup_range) (fun c' hc' => List.mem_range.mp (hperm.subset hc'))
    (by rwa [hperm.length_eq, List.length_range])
  refine (hanswers.accounted hs.reaches).rail h ?_ c ?_
  · rw [hs.registered]
    exact (hperm.filter _).length_eq
  · rw [hs.registered, List.filter_append]
    simp [hcomm]

/-- **The pool answers every complete check-in exactly when** there are no more clients than
workers, or no client has anything to check in, and every local rank has a rail. -/
theorem answers_iff (P : Pool) :
    P.Answers ↔ (P.clients ≤ P.workers ∨ ∀ c < P.clients, P.comms c = []) ∧ P.Railed := by
  constructor
  · intro hanswers
    by_cases hle : P.clients ≤ P.workers
    · exact ⟨.inl hle, railed_of_answers hanswers hle⟩
    · have hnone : ∀ c < P.clients, P.comms c = [] := by
        intro c hc
        by_contra hcomms
        obtain ⟨s, hreach, hstuck⟩ := exists_stuck hanswers (Nat.lt_of_not_le hle) hc hcomms
        exact hanswers.neverStuck s hreach hstuck
      refine ⟨.inr hnone, fun h c hc => ?_⟩
      obtain ⟨hlt, hcomm⟩ := mem_members.mp hc
      rw [hnone c hlt] at hcomm
      cases hcomm
  · rintro ⟨h, hrailed⟩
    refine ⟨fun s hreach => ?_, fun s hreach hq h' hsent => ?_⟩
    · obtain ⟨hp, hs⟩ := hrailed.accounted hreach
      exact not_stuck h hp hs
    · obtain ⟨hp, hs⟩ := hrailed.accounted hreach
      exact answered_of_not_stuck hp hs hq (not_stuck h hp hs) hsent

/-- Two workers, and one communicator of three clients. -/
def threeClients : Pool where
  workers := 2
  two_le := Nat.le_refl 2
  clients := 3
  comms := fun _ => [9]
  nodup := fun _ => List.nodup_singleton 9
  cfg := ⟨["10.0.0.1"], 1, none⟩
  ip := fun _ => "10.0.0.1"
  localRank := fun _ _ => 0

/-- The first two clients keep both workers, and the message of the third is never read. -/
theorem not_answers_threeClients : ¬ threeClients.Answers := by
  intro h
  have hreach : Reaches (poolStep threeClients) (.initial threeClients) _ :=
    ⟨[.connect 0, .connect 1, .connect 2, .accept, .accept, .accept, .dequeue 0, .dequeue 1,
      .send 0, .send 1, .send 2, .receive 0, .receive 1], rfl⟩
  refine h.neverStuck _ hreach ⟨rfl, fun w hw => ?_, 2, 9, by decide, fun c hc => ?_⟩
  · rcases w with _ | _ | w
    · exact ⟨0, rfl, rfl⟩
    · exact ⟨1, rfl, rfl⟩
    · exact absurd hw (by simp [threeClients])
  · have hlt : c < 3 := (mem_members.mp hc).1
    rcases c with _ | _ | _ | c
    · decide
    · decide
    · decide
    · omega

end Opus
