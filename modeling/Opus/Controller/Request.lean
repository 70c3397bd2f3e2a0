import Mathlib.Data.Nat.Notation
import Mathlib.Logic.Function.Basic
import Opus.Basic

/-!
# Configuration requests

The controller handles the lines of a connection one after the other, and different connections in
different threads. A `CONFIG_REQ` is counted under its communicator and counter. The request that
finds its group complete erases the entry, updates the topology of the rail, sends the topology id
to the rail worker, waits for the reply and acknowledges all members of the communicator. Only
counting and erasing hold the lock, so each of these is a step of its own.

## Main definitions

* `allArrive`: the group of a request is complete
* `setPpTopo`, `setNonPpTopo`, `determineRuntimeTopo`: the new topology of a rail
* `Handler`: where a connection's thread is in `handle_config_req`
* `Controller`, `Controller.advance`, `Controller.reply`: the steps of the threads

## Main results

* `Controller.Advance`, `Controller.advance_cases`: everything a thread can do on its own
* `Controller.reply_cases`, `Controller.accept_cases`: what a reply and a line can do
-/

namespace Opus

/-- The group is complete: two requests for a pipeline group, one of every member otherwise. -/
def allArrive (backendId cnt size : ℕ) : Bool :=
  if backendId > PP_BACKEND_INTERVAL then 2 ≤ cnt else size ≤ cnt

/-! ## Topologies -/

/-- A topology id, a C++ `int`. -/
abbrev TopoId := BitVec 32

/-- Connect the two stages of a pipeline group. -/
def setPpTopo (topoId : TopoId) (ppGroup : ℕ) : Except String TopoId :=
  if ppGroup ≤ 0 then .error "pp_group must be positive"
  else .ok (topoId ||| (1#32 <<< (ppGroup - 1)) ||| (1#32 <<< ppGroup))

/-- Disconnect a pipeline stage. -/
def setNonPpTopo (topoId : TopoId) (ppStage : ℕ) : TopoId :=
  topoId &&& ~~~(1#32 <<< ppStage)

/-- The topology of the rail after a request. -/
def determineRuntimeTopo (topoId : TopoId) (backendId collectiveCounter : ℕ) :
    Except String TopoId :=
  if backendId > 10 then
    let ppGroup := backendId / PP_BACKEND_INTERVAL
    if collectiveCounter / PP_INTERVAL ≠ ppGroup then
      .error "PP backendId and collectiveCounter mismatch"
    else setPpTopo topoId ppGroup
  else .ok (setNonPpTopo topoId (collectiveCounter / PP_INTERVAL))

/-! ## Handlers -/

/-- What the check-in has registered for every communicator: its clients in the order of their
check-in, and its rail. -/
structure Registry where
  clients : HexId → List ℕ
  rail : HexId → ℕ

/-- Where the thread of a connection is in `handle_config_req`. -/
inductive Handler where
  | idle
  /-- the line has been read -/
  | received (req : ConfigReq)
  /-- the request has been counted as the `cnt`-th -/
  | counted (req : ConfigReq) (cnt : ℕ)
  /-- the entry of a complete group has been erased -/
  | erased (req : ConfigReq)
  /-- `determine_runtime_topo` has returned -/
  | determined (req : ConfigReq)
  /-- the topology id of the rail has been read -/
  | loaded (req : ConfigReq) (topoId : TopoId)
  /-- the topology id has been sent to the rail worker -/
  | sent (req : ConfigReq) (topoId : TopoId)
  /-- the clients still to be acknowledged -/
  | acking (req : ConfigReq) (clients : List ℕ)
  /-- an exception has left the thread -/
  | thrown (message : String)
  deriving DecidableEq, Repr

/-- The request a thread is handling. -/
def Handler.req? : Handler → Option ConfigReq
  | .received req => some req
  | .counted req _ => some req
  | .erased req => some req
  | .determined req => some req
  | .loaded req _ => some req
  | .sent req _ => some req
  | .acking req _ => some req
  | .idle => none
  | .thrown _ => none

/-- The request a thread has read and not counted. -/
def Handler.line : Handler → List ConfigReq
  | .received req => [req]
  | _ => []

/-- The state the threads share, and where each of them is. An absent entry of `readyCount` is 0. -/
structure Controller where
  readyCount : HexId → ℕ → ℕ
  topoIds : ℕ → TopoId
  handler : ℕ → Handler

/-- The controller after its initial configuration of all rails. -/
def Controller.initial (initialTopology : TopoId) : Controller :=
  ⟨fun _ _ => 0, fun _ => initialTopology, fun _ => .idle⟩

/-- The same controller with the thread of `conn` somewhere else. -/
def Controller.at (c : Controller) (conn : ℕ) (pc : Handler) : Controller :=
  { c with handler := Function.update c.handler conn pc }

/-- The same controller with another count for a communicator and a counter. -/
def Controller.withReady (c : Controller) (req : ConfigReq) (n : ℕ) : Controller :=
  { c with
    readyCount := Function.update c.readyCount req.hexId
      (Function.update (c.readyCount req.hexId) req.counter n) }

/-- The next step of the thread of `conn`, except for waiting on a line or on the rail worker. -/
def Controller.advance (reg : Registry) (c : Controller) (conn : ℕ) : Option Controller :=
  match c.handler conn with
  | .idle => none
  | .received req =>
    -- a communicator without clients is unknown
    if reg.clients req.hexId = [] then some (c.at conn .idle)
    else
      let cnt := c.readyCount req.hexId req.counter + 1
      some ((c.withReady req cnt).at conn (.counted req cnt))
  | .counted req cnt =>
    if allArrive req.backend cnt (reg.clients req.hexId).length then
      some ((c.withReady req 0).at conn (.erased req))
    else some (c.at conn .idle)
  | .erased req =>
    let rail := reg.rail req.hexId
    match determineRuntimeTopo (c.topoIds rail) req.backend req.counter with
    | .error message => some (c.at conn (.thrown message))
    | .ok topoId =>
      some ({ c with topoIds := Function.update c.topoIds rail topoId }.at conn (.determined req))
  | .determined req => some (c.at conn (.loaded req (c.topoIds (reg.rail req.hexId))))
  | .loaded req topoId => some (c.at conn (.sent req topoId))
  | .sent _ _ => none
  | .acking req (_ :: clients) => some (c.at conn (.acking req clients))
  | .acking _ [] => some (c.at conn .idle)
  | .thrown _ => none

/-- The thread of `conn` reads the reply of the rail worker. -/
def Controller.reply (reg : Registry) (c : Controller) (conn : ℕ) (success : Bool) :
    Option Controller :=
  match c.handler conn with
  | .sent req _ =>
    some (c.at conn (if success then .acking req (reg.clients req.hexId) else .idle))
  | _ => none

/-- The thread of `conn` reads a line. -/
def Controller.accept (c : Controller) (conn : ℕ) (req : ConfigReq) : Option Controller :=
  match c.handler conn with
  | .idle => some (c.at conn (.received req))
  | _ => none

section Simp

variable (c : Controller) (conn : ℕ) (pc : Handler) (req : ConfigReq) (n : ℕ)

@[simp] theorem Controller.at_readyCount : (c.at conn pc).readyCount = c.readyCount := rfl

@[simp] theorem Controller.at_topoIds : (c.at conn pc).topoIds = c.topoIds := rfl

@[simp] theorem Controller.at_handler_self : (c.at conn pc).handler conn = pc :=
  Function.update_self ..

theorem Controller.at_handler_of_ne {conn' : ℕ} (h : conn' ≠ conn) :
    (c.at conn pc).handler conn' = c.handler conn' := Function.update_of_ne h _ _

@[simp] theorem Controller.withReady_topoIds : (c.withReady req n).topoIds = c.topoIds := rfl

@[simp] theorem Controller.withReady_handler : (c.withReady req n).handler = c.handler := rfl

@[simp] theorem Controller.withReady_readyCount_self :
    (c.withReady req n).readyCount req.hexId req.counter = n := by
  simp [Controller.withReady]

theorem Controller.withReady_readyCount_of_ne {h : HexId} {k : ℕ}
    (hne : (h, k) ≠ (req.hexId, req.counter)) :
    (c.withReady req n).readyCount h k = c.readyCount h k := by
  by_cases hh : h = req.hexId
  · subst hh
    have hk : k ≠ req.counter := fun hk => hne (by rw [hk])
    simp [Controller.withReady, hk]
  · simp [Controller.withReady, hh]

end Simp

/-- The steps a thread takes on its own, one constructor for each. -/
inductive Controller.Advance (reg : Registry) (c : Controller) (conn : ℕ) : Controller → Prop where
  | unknown (req : ConfigReq) (hpc : c.handler conn = .received req)
      (hclients : reg.clients req.hexId = []) : Advance reg c conn (c.at conn .idle)
  | count (req : ConfigReq) (hpc : c.handler conn = .received req)
      (hclients : reg.clients req.hexId ≠ []) :
      Advance reg c conn ((c.withReady req (c.readyCount req.hexId req.counter + 1)).at conn
        (.counted req (c.readyCount req.hexId req.counter + 1)))
  | erase (req : ConfigReq) (cnt : ℕ) (hpc : c.handler conn = .counted req cnt)
      (hall : allArrive req.backend cnt (reg.clients req.hexId).length = true) :
      Advance reg c conn ((c.withReady req 0).at conn (.erased req))
  | incomplete (req : ConfigReq) (cnt : ℕ) (hpc : c.handler conn = .counted req cnt)
      (hall : allArrive req.backend cnt (reg.clients req.hexId).length = false) :
      Advance reg c conn (c.at conn .idle)
  | throw (req : ConfigReq) (message : String) (hpc : c.handler conn = .erased req)
      (hdet : determineRuntimeTopo (c.topoIds (reg.rail req.hexId)) req.backend req.counter =
        .error message) : Advance reg c conn (c.at conn (.thrown message))
  | determine (req : ConfigReq) (topoId : TopoId) (hpc : c.handler conn = .erased req)
      (hdet : determineRuntimeTopo (c.topoIds (reg.rail req.hexId)) req.backend req.counter =
        .ok topoId) :
      Advance reg c conn
        ({ c with topoIds := Function.update c.topoIds (reg.rail req.hexId) topoId }.at conn
          (.determined req))
  | load (req : ConfigReq) (hpc : c.handler conn = .determined req) :
      Advance reg c conn (c.at conn (.loaded req (c.topoIds (reg.rail req.hexId))))
  | send (req : ConfigReq) (topoId : TopoId) (hpc : c.handler conn = .loaded req topoId) :
      Advance reg c conn (c.at conn (.sent req topoId))
  | ack (req : ConfigReq) (client : ℕ) (clients : List ℕ)
      (hpc : c.handler conn = .acking req (client :: clients)) :
      Advance reg c conn (c.at conn (.acking req clients))
  | finish (req : ConfigReq) (hpc : c.handler conn = .acking req []) :
      Advance reg c conn (c.at conn .idle)

/-- Everything the thread of a connection can do on its own. -/
theorem Controller.advance_cases {reg : Registry} {c c' : Controller} {conn : ℕ}
    (h : c.advance reg conn = some c') : Controller.Advance reg c conn c' := by
  unfold Controller.advance at h
  split at h
  · cases h
  · rename_i req hpc
    split at h
    · rename_i hclients
      cases h
      exact .unknown req hpc hclients
    · rename_i hclients
      cases h
      exact .count req hpc hclients
  · rename_i req cnt hpc
    split at h
    · rename_i hall
      cases h
      exact .erase req cnt hpc hall
    · rename_i hall
      cases h
      exact .incomplete req cnt hpc (by simpa using hall)
  · rename_i req hpc
    simp only at h
    split at h
    · rename_i message hdet
      cases h
      exact .throw req message hpc hdet
    · rename_i topoId hdet
      cases h
      exact .determine req topoId hpc hdet
  · rename_i req hpc
    cases h
    exact .load req hpc
  · rename_i req topoId hpc
    cases h
    exact .send req topoId hpc
  · cases h
  · rename_i req client clients hpc
    cases h
    exact .ack req client clients hpc
  · rename_i req hpc
    cases h
    exact .finish req hpc
  · cases h

/-- Everything a reply of the rail worker can do. -/
theorem Controller.reply_cases {reg : Registry} {c c' : Controller} {conn : ℕ} {success : Bool}
    (h : c.reply reg conn success = some c') :
    ∃ req topoId, c.handler conn = .sent req topoId ∧
      c' = c.at conn (if success then .acking req (reg.clients req.hexId) else .idle) := by
  unfold Controller.reply at h
  split at h
  · rename_i hpc
    exact ⟨_, _, hpc, (Option.some.inj h).symm⟩
  · cases h

theorem Controller.accept_cases {c c' : Controller} {conn : ℕ} {req : ConfigReq}
    (h : c.accept conn req = some c') :
    c.handler conn = .idle ∧ c' = c.at conn (.received req) := by
  unfold Controller.accept at h
  split at h
  · rename_i hpc
    exact ⟨hpc, (Option.some.inj h).symm⟩
  · cases h

end Opus
