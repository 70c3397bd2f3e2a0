import Mathlib.Data.Int.Notation
import Mathlib.Data.List.Basic
import Mathlib.Data.List.Nodup
import Mathlib.Logic.Function.Basic
import Opus.Basic

/-!
# The callbacks of the shim

A process has one backend for each communicator it is a member of. With a stage file, every
scale-out collective runs a callback before and after it. All backends of the process share the
two stage indexes and the flag `topo_ready`; every backend keeps its own counters, one set for
each of its callbacks and one for the issuing thread.

## Main definitions

* `Coll`, `Coll.count`: a collective and the counter that identifies it on its backend
* `topowrite`, `topoprovision`: the request of the two modes
* `preCollCallbackHelper`, `postCollCallbackHelper`: the callbacks
* `keysFrom`: the pairs of backend and counter of a sequence of collectives

## Main results

* `keysFrom_append`: the keys of a sequence, from the keys of its parts
* `countersAfter_coll`: the collective counter of a backend counts its collectives
* `keysFrom_nodup`: the keys of a sequence are distinct
-/

namespace Opus

/-! ## Collectives and their counters -/

/-- The operations of a backend: `collective` stands for every operation without a peer other than
`allreduce`. -/
inductive Op where
  | allreduce
  | collective
  | send (dstRank : ℕ)
  | recv (srcRank : ℕ)
  deriving DecidableEq, Repr

/-- The source rank, `-1` when there is none. -/
def Op.srcRank : Op → ℤ
  | .recv srcRank => srcRank
  | _ => -1

/-- The destination rank, `-1` when there is none. -/
def Op.dstRank : Op → ℤ
  | .send dstRank => dstRank
  | _ => -1

/-- A collective issued on a backend during an iteration. -/
structure Coll where
  iteration : ℕ
  backendId : ℕ
  op : Op
  deriving DecidableEq, Repr

/-- The rank a transfer is with. -/
def Op.peer? : Op → Option ℕ
  | .send peer | .recv peer => some peer
  | .allreduce | .collective => none

/-- The operation of the other end of a transfer with the rank `rank`. -/
def Op.mirror (rank : ℕ) : Op → Op
  | .send _ => .recv rank
  | .recv _ => .send rank
  | op => op

/-- The transfer at its other end. -/
def Coll.mirror (rank : ℕ) (c : Coll) : Coll := { c with op := c.op.mirror rank }

/-- The operating mode of the shim. -/
inductive Mode where
  | baseline
  | provision
  | noCtl
  | profile
  deriving DecidableEq, Repr

/-- A stage of the stage file. -/
structure CommStage where
  backendIdStart : ℕ
  collCounterStart : ℕ
  backendIdEnd : ℕ
  collCounterEnd : ℕ
  deriving DecidableEq, Repr

/-- What the constructors of a process's backends fix: the rank within each backend's group, the
domain and the network type of each backend and the communicator ids. -/
structure Shim where
  mode : Mode
  ppEnabled : Bool
  ppStage : ℕ
  rank : ℕ → ℕ
  domain : ℕ → ℤ
  networkType : ℕ → ℕ
  hexId : ℕ → HexId
  commStages : List CommStage

/-- Only the first backend can carry pipeline transfers. -/
def Shim.isPpBackend (sh : Shim) (backendId : ℕ) : Bool := sh.ppEnabled && backendId == 1

/-- The number of entries of `backendId_hexId_map`. -/
def hexIdMapSize : ℕ := 7

/-- The counters of a backend at one of its points of progress. -/
structure Counters where
  coll : ℕ
  up : ℕ
  down : ℕ
  deriving DecidableEq, Repr

/-- Where a transfer goes: to a higher rank, to another rank, or nowhere for a collective. -/
inductive Direction where
  | up
  | down
  | neither
  deriving DecidableEq, Repr

/-- The direction of an operation for the rank `rank`. -/
def Op.direction (op : Op) (rank : ℕ) : Direction :=
  if op.srcRank > rank ∨ op.dstRank > rank then .up
  else if op.srcRank ≠ -1 ∨ op.dstRank ≠ -1 then .down
  else .neither

/-- The highest rank taking part in a transfer. -/
def getPpBase (srcRank dstRank : ℤ) (curRank : ℕ) : ℕ := (max (max srcRank dstRank) curRank).toNat

/-- The counter that identifies a collective on its backend. -/
def Coll.count (sh : Shim) (c : Coll) (k : Counters) : ℕ :=
  let base := getPpBase c.op.srcRank c.op.dstRank (sh.rank c.backendId)
  match c.op.direction (sh.rank c.backendId) with
  | .up => k.up + base * PP_INTERVAL
  | .down => k.down + base * PP_INTERVAL
  | .neither => k.coll

/-- The operation exchanges data with another rank. -/
def Op.IsTransfer (op : Op) (rank : ℕ) : Prop :=
  match op with
  | .send dstRank => dstRank ≠ rank
  | .recv srcRank => srcRank ≠ rank
  | _ => False

theorem Op.IsTransfer.direction_ne {op : Op} {rank : ℕ} (h : op.IsTransfer rank) :
    op.direction rank ≠ .neither := by
  have hpeer : op.srcRank ≠ -1 ∨ op.dstRank ≠ -1 := by
    cases op with
    | allreduce => exact h.elim
    | collective => exact h.elim
    | send d => exact .inr (by simp only [Op.dstRank]; omega)
    | recv s => exact .inl (by simp only [Op.srcRank]; omega)
  by_cases hup : op.srcRank > rank ∨ op.dstRank > rank
  · simp [Op.direction, hup]
  · simp [Op.direction, hup, hpeer]

/-- The higher of two different ranks is positive. -/
theorem Op.IsTransfer.one_le_base {op : Op} {rank : ℕ} (h : op.IsTransfer rank) :
    1 ≤ getPpBase op.srcRank op.dstRank rank := by
  cases op with
  | allreduce => exact h.elim
  | collective => exact h.elim
  | send d =>
    simp only [Op.IsTransfer] at h
    simp only [getPpBase, Op.srcRank, Op.dstRank]
    omega
  | recv s =>
    simp only [Op.IsTransfer] at h
    simp only [getPpBase, Op.srcRank, Op.dstRank]
    omega

/-- The counter of a transfer carries its positive base. -/
theorem Coll.le_count (sh : Shim) {c : Coll} (h : c.op.IsTransfer (sh.rank c.backendId))
    (k : Counters) : PP_INTERVAL ≤ c.count sh k := by
  have hbase := Nat.mul_le_mul_right PP_INTERVAL h.one_le_base
  unfold Coll.count
  cases hd : c.op.direction (sh.rank c.backendId) with
  | up => simp only; omega
  | down => simp only; omega
  | neither => exact absurd hd h.direction_ne

/-- The counters after a collective. -/
def Counters.advance (k : Counters) : Direction → Counters
  | .up => ⟨k.coll + 1, k.up + 1, k.down⟩
  | .down => ⟨k.coll + 1, k.up, k.down + 1⟩
  | .neither => ⟨k.coll + 1, k.up, k.down⟩

@[simp] theorem Counters.advance_coll (k : Counters) (d : Direction) :
    (k.advance d).coll = k.coll + 1 := by
  cases d with
  | up => rfl
  | down => rfl
  | neither => rfl

/-- The counters of all backends before the first collective. -/
def noCounters : ℕ → Counters := fun _ => ⟨0, 0, 0⟩

/-- The counters of all backends after a collective. -/
def advanceAt (sh : Shim) (ks : ℕ → Counters) (c : Coll) : ℕ → Counters :=
  Function.update ks c.backendId
    ((ks c.backendId).advance (c.op.direction (sh.rank c.backendId)))

/-! ## Requests -/

/-- The request for the collective with the counter `cnt` of a backend: a pipeline group is encoded
into the backend, the pipeline stage into the counter. -/
def topowrite (sh : Shim) (backendId cnt : ℕ) : ConfigReq :=
  if sh.isPpBackend backendId then
    ⟨sh.hexId backendId, backendId + PP_BACKEND_INTERVAL * (cnt / PP_INTERVAL), cnt⟩
  else ⟨sh.hexId backendId, backendId, cnt + sh.ppStage * PP_INTERVAL⟩

/-- What a callback sends: nothing, a request, or it looks up the communicator id at an index
outside `backendId_hexId_map`. -/
inductive Emitted where
  | nothing
  | request (req : ConfigReq)
  | outOfRange (index : ℕ)
  deriving DecidableEq, Repr

/-- The request for the next stage, sent by a backend after the last collective of a stage. -/
def topoprovision (sh : Shim) (curCommStageIdxPost backendId : ℕ) : Emitted :=
  match sh.commStages[curCommStageIdxPost]? with
  | none => .nothing
  | some stage =>
    let nextBackendId := stage.backendIdStart
    let nextCollCounter :=
      if sh.isPpBackend backendId then stage.collCounterStart
      else stage.collCounterStart + sh.ppStage * PP_INTERVAL
    if nextBackendId < hexIdMapSize then
      .request ⟨sh.hexId nextBackendId, nextBackendId, nextCollCounter⟩
    else .outOfRange nextBackendId

/-! ## The callbacks -/

/-- The collective is the first of the stage. -/
def isCommChangeBefore (sh : Shim) (backendId collectiveCounter curCommStageIdx : ℕ) : Bool :=
  match sh.commStages[curCommStageIdx]? with
  | none => false
  | some stage =>
    backendId == stage.backendIdStart % PP_BACKEND_INTERVAL &&
      collectiveCounter == stage.collCounterStart

/-- The collective is the last of the stage. -/
def isCommChangeAfter (sh : Shim) (backendId collectiveCounter curCommStageIdx : ℕ) : Bool :=
  match sh.commStages[curCommStageIdx]? with
  | none => false
  | some stage =>
    backendId == stage.backendIdEnd % PP_BACKEND_INTERVAL &&
      collectiveCounter == stage.collCounterEnd

/-- The state the backends of a process share, and the counters of their callbacks. -/
structure Process where
  topoReady : Bool
  curCommStageIdx : ℕ
  curCommStageIdxPost : ℕ
  pre : ℕ → Counters
  post : ℕ → Counters

/-- The process before its first collective. -/
def Process.initial : Process := ⟨true, 0, 0, noCounters, noCounters⟩

/-- The callback before a collective: the new state and the request it sends, or nothing while the
topology is not ready. -/
def preCollCallbackHelper (sh : Shim) (p : Process) (c : Coll) :
    Option (Process × Option ConfigReq) :=
  if p.topoReady then
    let cnt := c.count sh (p.pre c.backendId)
    let commChangeAfter := isCommChangeAfter sh c.backendId cnt p.curCommStageIdx
    let commChangeBefore := isCommChangeBefore sh c.backendId cnt p.curCommStageIdx
    let scaleOut := sh.domain c.backendId = 0
    let req :=
      if scaleOut ∧ sh.mode = .baseline ∧
          (commChangeBefore = true ∨ sh.isPpBackend c.backendId = true) then
        some (topowrite sh c.backendId cnt)
      else none
    let topoReady :=
      !(scaleOut ∧ (sh.mode = .baseline ∨ sh.mode = .provision) ∧ commChangeAfter = true : Bool)
    some ({ p with
      topoReady := topoReady
      curCommStageIdx := if commChangeAfter then p.curCommStageIdx + 1 else p.curCommStageIdx
      pre := advanceAt sh p.pre c }, req)
  else none

/-- The callback after a collective. -/
def postCollCallbackHelper (sh : Shim) (p : Process) (c : Coll) : Process × Emitted :=
  let cnt := c.count sh (p.post c.backendId)
  let post := advanceAt sh p.post c
  if isCommChangeAfter sh c.backendId cnt p.curCommStageIdxPost then
    let curCommStageIdxPost := p.curCommStageIdxPost + 1
    ({ p with topoReady := true, curCommStageIdxPost := curCommStageIdxPost, post := post },
      if sh.mode = .provision then topoprovision sh curCommStageIdxPost c.backendId else .nothing)
  else
    ({ p with post := post },
      if sh.isPpBackend c.backendId = true ∧ sh.mode = .provision then
        .request (topowrite sh c.backendId (cnt + 1))
      else .nothing)

/-! ## The keys of a sequence of collectives -/

/-- The pairs of backend and counter of a sequence of collectives. -/
def keysFrom (sh : Shim) : (ℕ → Counters) → List Coll → List (ℕ × ℕ)
  | _, [] => []
  | ks, c :: cs =>
    (c.backendId, c.count sh (ks c.backendId)) :: keysFrom sh (advanceAt sh ks c) cs

/-- The counters after a sequence of collectives. -/
def countersAfter (sh : Shim) (ks : ℕ → Counters) (cs : List Coll) : ℕ → Counters :=
  cs.foldl (advanceAt sh) ks

variable {sh : Shim}

@[simp] theorem countersAfter_nil (ks : ℕ → Counters) : countersAfter sh ks [] = ks := rfl

@[simp] theorem countersAfter_cons (ks : ℕ → Counters) (c : Coll) (cs : List Coll) :
    countersAfter sh ks (c :: cs) = countersAfter sh (advanceAt sh ks c) cs := rfl

theorem countersAfter_append (ks : ℕ → Counters) (cs ds : List Coll) :
    countersAfter sh ks (cs ++ ds) = countersAfter sh (countersAfter sh ks cs) ds := by
  rw [countersAfter, List.foldl_append]
  rfl

/-- The keys depend only on the ranks within the groups. -/
theorem keysFrom_congr (sh sh' : Shim) (h : sh.rank = sh'.rank) (ks : ℕ → Counters)
    (cs : List Coll) :
    keysFrom sh ks cs = keysFrom sh' ks cs := by
  induction cs generalizing ks with
  | nil => rfl
  | cons c cs ih => simp only [keysFrom, advanceAt, Coll.count, h, ih]

@[simp] theorem keysFrom_length (ks : ℕ → Counters) (cs : List Coll) :
    (keysFrom sh ks cs).length = cs.length := by
  induction cs generalizing ks with
  | nil => rfl
  | cons c cs ih => rw [keysFrom, List.length_cons, List.length_cons, ih]

theorem keysFrom_append (ks : ℕ → Counters) (cs ds : List Coll) :
    keysFrom sh ks (cs ++ ds) = keysFrom sh ks cs ++ keysFrom sh (countersAfter sh ks cs) ds := by
  induction cs generalizing ks with
  | nil => rfl
  | cons c cs ih =>
    rw [List.cons_append, keysFrom, keysFrom, List.cons_append, ih, countersAfter_cons]

/-- The key of a collective, from the collectives before it. -/
theorem getElem?_keysFrom (ks : ℕ → Counters) (cs : List Coll) (i : ℕ) :
    (keysFrom sh ks cs)[i]? = cs[i]?.map fun c =>
      (c.backendId, c.count sh (countersAfter sh ks (cs.take i) c.backendId)) := by
  induction cs generalizing ks i with
  | nil => simp [keysFrom]
  | cons c cs ih =>
    cases i with
    | zero => simp [keysFrom]
    | succ i => simp [keysFrom, ih]

@[simp] theorem advanceAt_of_ne (ks : ℕ → Counters) {c : Coll} {b : ℕ} (h : b ≠ c.backendId) :
    advanceAt sh ks c b = ks b :=
  Function.update_of_ne h _ _

@[simp] theorem advanceAt_self (ks : ℕ → Counters) (c : Coll) :
    advanceAt sh ks c c.backendId =
      (ks c.backendId).advance (c.op.direction (sh.rank c.backendId)) :=
  Function.update_self ..

/-- The counters of a backend depend only on its own collectives. -/
theorem countersAfter_congr {b : ℕ} {ks ks' : ℕ → Counters} {cs ds : List Coll}
    (hks : ks b = ks' b)
    (h : cs.filter (fun c => c.backendId = b) = ds.filter fun c => c.backendId = b) :
    countersAfter sh ks cs b = countersAfter sh ks' ds b := by
  have key : ∀ (cs : List Coll) (ks : ℕ → Counters), countersAfter sh ks cs b =
      (cs.filter fun c => c.backendId = b).foldl
        (fun k c => k.advance (c.op.direction (sh.rank b))) (ks b) := by
    intro cs
    induction cs with
    | nil => intro ks; rfl
    | cons c cs ih =>
      intro ks
      by_cases hc : c.backendId = b
      · subst hc
        simp [ih]
      · simp [hc, ih, Ne.symm hc]
  rw [key, key, h, hks]

/-- The collective counter of a backend counts its collectives. -/
theorem countersAfter_coll (ks : ℕ → Counters) (cs : List Coll) (b : ℕ) :
    (countersAfter sh ks cs b).coll =
      (ks b).coll + (cs.filter fun c => c.backendId = b).length := by
  induction cs generalizing ks with
  | nil => rfl
  | cons c cs ih =>
    rw [countersAfter_cons, ih]
    by_cases hc : c.backendId = b
    · subst hc
      simp only [advanceAt_self, Counters.advance_coll, decide_true, List.filter_cons_of_pos,
        List.length_cons]
      omega
    · simp [hc, Ne.symm hc]

/-! ## Distinct keys -/

/-- The counter that identifies the next operation of a direction. -/
def Counters.get (k : Counters) : Direction → ℕ
  | .up => k.up
  | .down => k.down
  | .neither => k.coll

/-- The base of the counters of a direction, when transfers go to neighbouring ranks. -/
def Direction.base (rank : ℕ) : Direction → ℕ
  | .up => rank + 1
  | .down => rank
  | .neither => 0

/-- The operation has no peer, or a neighbouring rank as its peer. -/
def Op.Adjacent (rank : ℕ) : Op → Prop
  | .send peer => peer = rank + 1 ∨ rank = peer + 1
  | .recv peer => peer = rank + 1 ∨ rank = peer + 1
  | _ => True

theorem Counters.get_advance_self (k : Counters) (d : Direction) :
    (k.advance d).get d = k.get d + 1 := by
  cases d with
  | up => rfl
  | down => rfl
  | neither => rfl

theorem Counters.get_advance {d : Direction} (hd : d ≠ .neither) (k : Counters) (d' : Direction) :
    (k.advance d').get d = k.get d + if d' = d then 1 else 0 := by
  cases d with
  | neither => exact absurd rfl hd
  | up => cases d' <;> rfl
  | down => cases d' <;> rfl

theorem Counters.get_advance_eq (k : Counters) (d d' : Direction) :
    (k.advance d').get d = k.get d + if d = .neither ∨ d' = d then 1 else 0 := by
  cases d <;> cases d' <;> rfl

/-- The base of an operation is that of its direction, and only a positive rank has a lower
neighbour. -/
theorem Op.Adjacent.direction_cases {op : Op} {rank : ℕ} (h : op.Adjacent rank) :
    (op.direction rank = .neither) ∨
      (getPpBase op.srcRank op.dstRank rank = (op.direction rank).base rank ∧
        (op.direction rank = .up ∨ op.direction rank = .down ∧ 1 ≤ rank)) := by
  have hneg : ¬ ((-1 : ℤ) > rank) := by omega
  have hup : ((rank + 1 : ℕ) : ℤ) > rank := by omega
  cases op with
  | allreduce => exact .inl (by simp [Op.direction, Op.srcRank, Op.dstRank, hneg])
  | collective => exact .inl (by simp [Op.direction, Op.srcRank, Op.dstRank, hneg])
  | send peer =>
    refine .inr ?_
    rcases h with rfl | rfl
    · have hd : (Op.send (rank + 1)).direction rank = .up := if_pos (.inr hup)
      refine ⟨?_, .inl hd⟩
      simp only [hd, getPpBase, Op.srcRank, Op.dstRank, Direction.base]
      omega
    · have hd : (Op.send peer).direction (peer + 1) = .down := by
        rw [Op.direction, if_neg, if_pos] <;> simp only [Op.srcRank, Op.dstRank] <;> omega
      refine ⟨?_, .inr ⟨hd, Nat.le_add_left ..⟩⟩
      simp only [hd, getPpBase, Op.srcRank, Op.dstRank, Direction.base]
      omega
  | recv peer =>
    refine .inr ?_
    rcases h with rfl | rfl
    · have hd : (Op.recv (rank + 1)).direction rank = .up := if_pos (.inl hup)
      refine ⟨?_, .inl hd⟩
      simp only [hd, getPpBase, Op.srcRank, Op.dstRank, Direction.base]
      omega
    · have hd : (Op.recv peer).direction (peer + 1) = .down := by
        rw [Op.direction, if_neg, if_pos] <;> simp only [Op.srcRank, Op.dstRank] <;> omega
      refine ⟨?_, .inr ⟨hd, Nat.le_add_left ..⟩⟩
      simp only [hd, getPpBase, Op.srcRank, Op.dstRank, Direction.base]
      omega

/-- The directions of a rank have different bases. -/
theorem Op.Adjacent.direction_eq {op op' : Op} {rank : ℕ} (h : op.Adjacent rank)
    (h' : op'.Adjacent rank)
    (hbase : (op.direction rank).base rank = (op'.direction rank).base rank) :
    op.direction rank = op'.direction rank := by
  rcases h.direction_cases with hd | ⟨-, hd | ⟨hd, hpos⟩⟩ <;>
    rcases h'.direction_cases with hd' | ⟨-, hd' | ⟨hd', hpos'⟩⟩ <;>
    rw [hd, hd'] at hbase ⊢ <;> simp only [Direction.base] at hbase <;> omega

theorem Coll.count_of_adjacent {c : Coll} (h : c.op.Adjacent (sh.rank c.backendId))
    (k : Counters) :
    c.count sh k = k.get (c.op.direction (sh.rank c.backendId)) +
      (c.op.direction (sh.rank c.backendId)).base (sh.rank c.backendId) * PP_INTERVAL := by
  unfold Coll.count
  rcases h.direction_cases with hd | ⟨hbase, hd | ⟨hd, -⟩⟩
  · simp [hd, Counters.get, Direction.base]
  · simp only [hd, Counters.get, hbase]
  · simp only [hd, Counters.get, hbase]

/-- A counter counts the operations of its direction, and the collective counter all operations. -/
theorem countersAfter_get (ks : ℕ → Counters) (cs : List Coll) (b : ℕ) (d : Direction) :
    (countersAfter sh ks cs b).get d = (ks b).get d +
      cs.countP fun c => c.backendId = b ∧ (d = .neither ∨ c.op.direction (sh.rank b) = d) := by
  induction cs generalizing ks with
  | nil => rfl
  | cons c cs ih =>
    rw [countersAfter_cons, ih, List.countP_cons]
    by_cases hc : c.backendId = b
    · subst hc
      rw [advanceAt_self, Counters.get_advance_eq]
      simp only [true_and, decide_eq_true_eq]
      omega
    · simp [advanceAt_of_ne ks (Ne.symm hc), hc]

/-- On a backend with transfers, no counter in use goes beyond the interval of its base. -/
def WithinInterval (sh : Shim) (ks : ℕ → Counters) (cs : List Coll) : Prop :=
  ∀ c ∈ cs, c.op.direction (sh.rank c.backendId) ≠ .neither →
    ∀ c' ∈ cs, c'.backendId = c.backendId →
      (countersAfter sh ks cs c.backendId).get (c'.op.direction (sh.rank c.backendId)) ≤ PP_INTERVAL

theorem WithinInterval.tail {ks : ℕ → Counters} {c : Coll} {cs : List Coll}
    (h : WithinInterval sh ks (c :: cs)) : WithinInterval sh (advanceAt sh ks c) cs :=
  fun c₁ h₁ hd c₂ h₂ hb =>
    h c₁ (List.mem_cons_of_mem c h₁) hd c₂ (List.mem_cons_of_mem c h₂) hb

theorem WithinInterval.sublist {ks : ℕ → Counters} {cs cs' : List Coll}
    (h : WithinInterval sh ks cs') (hsub : cs.Sublist cs') : WithinInterval sh ks cs := by
  intro c₁ h₁ hd c₂ h₂ hb
  refine Nat.le_trans ?_ (h c₁ (hsub.subset h₁) hd c₂ (hsub.subset h₂) hb)
  rw [countersAfter_get, countersAfter_get]
  exact Nat.add_le_add_left hsub.countP_le _

/-- A sequence shorter than the interval does not go beyond it. -/
theorem withinInterval_of_length_le {cs : List Coll} (h : cs.length ≤ PP_INTERVAL) :
    WithinInterval sh noCounters cs := by
  intro c _ _ c' _ _
  have hzero : ∀ d, (noCounters c.backendId).get d = 0 := fun d => by cases d <;> rfl
  rw [countersAfter_get, hzero, Nat.zero_add]
  exact Nat.le_trans List.countP_le_length h

/-- **The counter of a collective** lies between the counters of its direction before and after the
sequence, in the interval of the base of the direction. -/
theorem mem_keysFrom {cs : List Coll} {ks : ℕ → Counters}
    (hadj : ∀ c ∈ cs, c.op.Adjacent (sh.rank c.backendId)) {b n : ℕ}
    (hkey : (b, n) ∈ keysFrom sh ks cs) :
    ∃ c ∈ cs, c.backendId = b ∧ ∃ m < (countersAfter sh ks cs b).get (c.op.direction (sh.rank b)),
      (ks b).get (c.op.direction (sh.rank b)) ≤ m ∧
        n = m + (c.op.direction (sh.rank b)).base (sh.rank b) * PP_INTERVAL := by
  induction cs generalizing ks with
  | nil => cases hkey
  | cons c cs ih =>
    rcases List.mem_cons.mp hkey with heq | hkey
    · obtain ⟨rfl, rfl⟩ := Prod.mk.inj heq
      refine ⟨c, List.mem_cons_self, rfl, _, ?_, Nat.le_refl _,
        Coll.count_of_adjacent (hadj c List.mem_cons_self) _⟩
      rw [countersAfter_cons, countersAfter_get, advanceAt_self, Counters.get_advance_self]
      omega
    · obtain ⟨c', hc', hb', m, hm, hle, heq⟩ :=
        ih (fun c' hc' => hadj c' (List.mem_cons_of_mem c hc')) hkey
      refine ⟨c', List.mem_cons_of_mem c hc', hb', m, hm, Nat.le_trans ?_ hle, heq⟩
      by_cases hc : b = c.backendId
      · rw [hc, advanceAt_self, Counters.get_advance_eq]
        exact Nat.le_add_right _ _
      · exact Nat.le_of_eq (by rw [advanceAt_of_ne ks hc])

/-- **The keys of a sequence are distinct** when transfers go to neighbouring ranks and no counter
of a backend with transfers reaches the interval of the next base. -/
theorem keysFrom_nodup {cs : List Coll} {ks : ℕ → Counters}
    (hadj : ∀ c ∈ cs, c.op.Adjacent (sh.rank c.backendId)) (hin : WithinInterval sh ks cs) :
    (keysFrom sh ks cs).Nodup := by
  induction cs generalizing ks with
  | nil => exact List.nodup_nil
  | cons c cs ih =>
    have hc := hadj c List.mem_cons_self
    have hadj' : ∀ c' ∈ cs, c'.op.Adjacent (sh.rank c'.backendId) :=
      fun c' hc' => hadj c' (List.mem_cons_of_mem c hc')
    rw [keysFrom, List.nodup_cons]
    refine ⟨fun hmem => ?_, ih hadj' hin.tail⟩
    obtain ⟨c', hc', hb', m, hm, hle, heq⟩ := mem_keysFrom hadj' hmem
    rw [Coll.count_of_adjacent hc] at heq
    have hlt : (ks c.backendId).get (c.op.direction (sh.rank c.backendId)) <
        (countersAfter sh ks (c :: cs) c.backendId).get
          (c.op.direction (sh.rank c.backendId)) := by
      rw [countersAfter_cons, countersAfter_get, advanceAt_self, Counters.get_advance_self]
      omega
    have hbase : (c.op.direction (sh.rank c.backendId)).base (sh.rank c.backendId) =
        (c'.op.direction (sh.rank c.backendId)).base (sh.rank c.backendId) := by
      by_cases hnone : c.op.direction (sh.rank c.backendId) = .neither ∧
          c'.op.direction (sh.rank c.backendId) = .neither
      · rw [hnone.1, hnone.2]
      · -- one of the two is a transfer, so both counters stay below the interval
        have hbound : ∀ c₂ ∈ c :: cs, c₂.backendId = c.backendId →
            (countersAfter sh ks (c :: cs) c.backendId).get
              (c₂.op.direction (sh.rank c.backendId)) ≤ PP_INTERVAL := by
          rw [Classical.not_and_iff_not_or_not] at hnone
          rcases hnone with hd | hd
          · exact hin c List.mem_cons_self hd
          · rw [← hb'] at hd ⊢
            exact hin c' (List.mem_cons_of_mem c hc') hd
        have hlt' := Nat.lt_of_lt_of_le hlt (hbound c List.mem_cons_self rfl)
        have hm' := Nat.lt_of_lt_of_le hm (hbound c' (List.mem_cons_of_mem c hc') hb')
        have hdiv := congrArg (· / PP_INTERVAL) heq
        simpa only [Nat.add_mul_div_right _ _ (Nat.zero_lt_of_lt hm'), Nat.div_eq_of_lt hm',
          Nat.div_eq_of_lt hlt', Nat.zero_add] using hdiv
    rw [hbase] at heq
    have hm' : (ks c.backendId).get (c.op.direction (sh.rank c.backendId)) = m :=
      Nat.add_right_cancel heq
    rw [← hc.direction_eq (hb' ▸ hadj' c' hc') hbase, advanceAt_self,
      Counters.get_advance_self] at hle
    omega

end Opus
