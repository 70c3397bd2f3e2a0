import Mathlib.Data.List.Chain
import Mathlib.Data.List.Perm.Basic
import Opus.Controller.AckSound
import Opus.Schedule.Synchronized
import Opus.Shim.Replay

/-!
# Provisioning requests of a job

In provision mode the callback after a collective sends the requests: after the last collective of
a stage `topoprovision` requests the first collective of the next stage, and after every other
pipeline transfer `topowrite` requests the counter that follows. Which of the two a rank does after
a transfer depends on where its own stage ends, and its neighbour in the transfer may be in the
middle of a stage there.

## Main definitions

* `provisioned`: what the callback after a collective sends in provision mode
* `ProvisionJob`: the stages of all ranks of a job, where peers run the same collectives
* `ProvisionJob.emitted`, `ProvisionJob.requests`: what a rank sends when it replays its stages
* `ProvisionJob.Complete`: peers send the same requests, and no count is left behind
* `ProvisionJob.Matched`: the condition under which they do

## Main results

* `Describes.replay_provisioned`: what the replay of a stage file sends
* `ProvisionJob.topoprovision_boundary`: what is sent between two stages
* `ProvisionJob.key_lt`: the counters of a job are C `int`s
* `ProvisionJob.request_cases`: the requests of a rank
* `ProvisionJob.stageRequests_nodup`: a request for a stage of transfers is sent once
-/

namespace Opus

open Transition

/-! ## The requests of one rank -/

/-- What the callback after the collective with the given key sends in provision mode. -/
def provisioned (sh : Shim) (stage : ℕ) (key : ℕ × ℕ) : Emitted :=
  if isCommChangeAfter sh key.1 key.2 stage then topoprovision sh (stage + 1) key.1
  else if sh.isPpBackend key.1 then .request (topowrite sh key.1 (key.2 + 1))
  else .nothing

/-- The request among what a callback sends. -/
def Emitted.request? : Emitted → Option ConfigReq
  | .request req => some req
  | _ => none

theorem filterMap_request?_singleton (e : Emitted) :
    [e].filterMap Emitted.request? = e.request?.toList := by
  cases e with
  | nothing => rfl
  | request req => rfl
  | outOfRange index => rfl

/-- What the callbacks of consecutive stages send. -/
def stagesProvisioned (sh : Shim) : ℕ → (ℕ → Counters) → List Stage → List Emitted
  | _, _, [] => []
  | stage, ks, s :: stages =>
    (keysFrom sh ks s.colls).map (provisioned sh stage) ++
      stagesProvisioned sh (stage + 1) (countersAfter sh ks s.colls) stages

section Replay

variable {sh : Shim} (hmode : sh.mode = .provision)

include hmode

theorem replayColl_provisioned (stage : ℕ) (ks : ℕ → Counters) (c : Coll) :
    let key := (c.backendId, c.count sh (ks c.backendId))
    ∃ r, replayColl sh (.between stage ks) c =
        some (.between (if isCommChangeAfter sh key.1 key.2 stage then stage + 1 else stage)
          (advanceAt sh ks c), r) ∧
      r.emitted = provisioned sh stage key := by
  intro key
  by_cases hafter : isCommChangeAfter sh key.1 key.2 stage = true
  · simp only [key] at hafter
    simp only [replayColl, preCollCallbackHelper, postCollCallbackHelper, Process.between, hafter,
      key, provisioned, if_true, Option.map_some]
    exact ⟨_, rfl, if_pos hmode⟩
  · simp only [key, Bool.not_eq_true] at hafter
    simp only [replayColl, preCollCallbackHelper, postCollCallbackHelper, Process.between, hafter,
      key, provisioned, if_true, Option.map_some, Bool.false_eq_true, if_false, and_false,
      decide_false, Bool.not_false, hmode, and_true]
    exact ⟨_, rfl, rfl⟩

theorem replay_provisioned_of_not_after (stage : ℕ) (cs : List Coll) (ks : ℕ → Counters)
    (h : ∀ key ∈ keysFrom sh ks cs, isCommChangeAfter sh key.1 key.2 stage = false) :
    ∃ out, replay sh (.between stage ks) cs = some (.between stage (countersAfter sh ks cs), out) ∧
      out.map Replayed.emitted = (keysFrom sh ks cs).map (provisioned sh stage) := by
  induction cs generalizing ks with
  | nil => exact ⟨[], rfl, rfl⟩
  | cons c cs ih =>
    obtain ⟨r, hr, hemit⟩ := replayColl_provisioned hmode stage ks c
    have hc : isCommChangeAfter sh c.backendId (c.count sh (ks c.backendId)) stage = false :=
      h (c.backendId, _) List.mem_cons_self
    obtain ⟨out, hout, hmap⟩ := ih (advanceAt sh ks c) fun key hk => h key (by simp [keysFrom, hk])
    simp only [hc, Bool.false_eq_true, if_false] at hr
    exact ⟨r :: out, by simp [replay, hr, hout], by simp [keysFrom, hemit, hmap]⟩

/-- The replay of one stage. -/
theorem Describes.replay_stage_provisioned {front rest : List Stage} {s : Stage}
    (hd : Describes sh (front ++ s :: rest)) :
    let ks := countersAfter sh noCounters (stageColls front)
    ∃ out, replay sh (.between front.length ks) s.colls =
        some (.between (front.length + 1) (countersAfter sh ks s.colls), out) ∧
      out.map Replayed.emitted = (keysFrom sh ks s.colls).map (provisioned sh front.length) := by
  intro ks
  -- only the last collective of a stage ends it
  obtain ⟨init, last, hs⟩ := (List.eq_nil_or_concat' s.colls).resolve_left s.nonempty
  obtain ⟨out, hout, hmap⟩ := replay_provisioned_of_not_after hmode front.length init ks
    (hd.not_after_init hs)
  obtain ⟨r, hr, hemit⟩ := replayColl_provisioned hmode front.length
    (countersAfter sh ks init) last
  have hafter : isCommChangeAfter sh last.backendId
      (last.count sh (countersAfter sh ks init last.backendId)) front.length = true := by
    refine (hd.isCommChangeAfter_iff hs _ _).2 ⟨rfl, ?_⟩
    rw [countersAfter_append]
  simp only [hafter, if_true] at hr
  refine ⟨out ++ [r], ?_, ?_⟩
  · rw [hs, replay_append, hout]
    simp [replay, hr, countersAfter_append]
  · rw [hs, keysFrom_append, List.map_append, List.map_append, hmap]
    simp [keysFrom, hemit]

/-- **What the replay of a stage file sends.** -/
theorem Describes.replay_provisioned {front rest : List Stage}
    (hd : Describes sh (front ++ rest)) :
    let ks := countersAfter sh noCounters (stageColls front)
    ∃ q out, replay sh (.between front.length ks) (stageColls rest) = some (q, out) ∧
      out.map Replayed.emitted = stagesProvisioned sh front.length ks rest := by
  induction rest generalizing front with
  | nil => exact ⟨_, [], rfl, rfl⟩
  | cons s rest ih =>
    intro ks
    obtain ⟨out, hout, hmap⟩ := hd.replay_stage_provisioned hmode
    have hd' : Describes sh ((front ++ [s]) ++ rest) := by simpa using hd
    obtain ⟨q, out', hout', hmap'⟩ := ih hd'
    have hks : countersAfter sh noCounters (stageColls (front ++ [s])) =
        countersAfter sh ks s.colls := by
      simp [ks, stageColls, countersAfter_append]
    rw [hks, List.length_append, List.length_singleton] at hout' hmap'
    refine ⟨q, out ++ out', ?_, ?_⟩
    · rw [stageColls_cons, replay_append, hout, Option.bind_some, hout', Option.map_some]
    · rw [List.map_append, hmap, hmap']
      rfl

end Replay

/-- What a stage sends: the next counter after each of its transfers but the last collective, and
then the first collective of the next stage. -/
theorem Describes.provisioned_stage {sh : Shim} {front rest : List Stage} {s : Stage}
    (hd : Describes sh (front ++ s :: rest)) :
    let ks := countersAfter sh noCounters (stageColls front)
    (keysFrom sh ks s.colls).map (provisioned sh front.length) =
      ((keysFrom sh ks s.colls.dropLast).map fun key =>
        if sh.isPpBackend key.1 then Emitted.request (topowrite sh key.1 (key.2 + 1)) else .nothing) ++
        [topoprovision sh (front.length + 1) (s.colls.getLast s.nonempty).backendId] := by
  intro ks
  obtain ⟨init, last, hs⟩ := (List.eq_nil_or_concat' s.colls).resolve_left s.nonempty
  have hlast : provisioned sh front.length (last.backendId,
      last.count sh (countersAfter sh ks init last.backendId)) =
        topoprovision sh (front.length + 1) last.backendId := by
    rw [provisioned, if_pos]
    refine (hd.isCommChangeAfter_iff hs _ _).2 ⟨rfl, ?_⟩
    rw [countersAfter_append]
  simp only [hs, keysFrom_append, keysFrom, List.map_append, List.dropLast_concat,
    List.getLast_concat, List.map_cons, List.map_nil, hlast]
  -- no key of the others is the one at which the stage ends
  refine congrArg (· ++ _) (List.map_congr_left fun key hkey => ?_)
  rw [provisioned, hd.not_after_init hs key hkey, if_neg Bool.false_ne_true]

/-- After the last stage nothing is sent. -/
theorem Describes.topoprovision_last {sh : Shim} {front : List Stage} {s : Stage}
    (hd : Describes sh (front ++ s :: [])) (backendId : ℕ) :
    topoprovision sh (front.length + 1) backendId = .nothing := by
  have hnone : sh.commStages[front.length + 1]? = none := by
    rw [hd.commStages_eq, List.getElem?_eq_none]
    simp
  rw [topoprovision, hnone]

/-- The requests among what a stage sends. -/
theorem Describes.request?_stage {sh : Shim} {front rest : List Stage} {s : Stage}
    (hd : Describes sh (front ++ s :: rest)) {pp : Bool}
    (hkind : ∀ c ∈ s.colls, sh.isPpBackend c.backendId = pp) :
    let ks := countersAfter sh noCounters (stageColls front)
    ((keysFrom sh ks s.colls).map (provisioned sh front.length)).filterMap Emitted.request? =
      (if pp then (keysFrom sh ks s.colls.dropLast).map fun key => topowrite sh key.1 (key.2 + 1)
        else []) ++
        (topoprovision sh (front.length + 1)
          (s.colls.getLast s.nonempty).backendId).request?.toList := by
  intro ks
  have hkeys : ∀ key ∈ keysFrom sh ks s.colls.dropLast, sh.isPpBackend key.1 = pp := by
    intro key hkey
    obtain ⟨i, hi⟩ := List.mem_iff_getElem?.mp hkey
    rw [getElem?_keysFrom, Option.map_eq_some_iff] at hi
    obtain ⟨c, hc, rfl⟩ := hi
    exact hkind c (List.mem_of_mem_dropLast (List.mem_of_getElem? hc))
  rw [hd.provisioned_stage, List.filterMap_append, List.filterMap_map,
    List.filterMap_congr (g := fun key =>
      if pp then some (topowrite sh key.1 (key.2 + 1)) else none)]
  · cases pp with
    | true => simp [filterMap_request?_singleton, ks]
    | false => simp [filterMap_request?_singleton]
  · intro key hkey
    rw [Function.comp_apply, hkeys key hkey]
    cases pp with
    | true => rfl
    | false => rfl

/-- What consecutive stages send, stage by stage. -/
theorem mem_stagesProvisioned {sh : Shim} {stages : List Stage} {n : ℕ} {ks : ℕ → Counters}
    {e : Emitted} :
    e ∈ stagesProvisioned sh n ks stages ↔ ∃ front s rest, stages = front ++ s :: rest ∧
      e ∈ (keysFrom sh (countersAfter sh ks (stageColls front)) s.colls).map
        (provisioned sh (n + front.length)) := by
  induction stages generalizing n ks with
  | nil => simp [stagesProvisioned]
  | cons s stages ih =>
    rw [stagesProvisioned, List.mem_append, ih]
    constructor
    · rintro (he | ⟨front, s', rest, rfl, he⟩)
      · exact ⟨[], s, stages, rfl, he⟩
      · refine ⟨s :: front, s', rest, rfl, ?_⟩
        rw [stageColls_cons, countersAfter_append, List.length_cons, Nat.add_comm front.length,
          ← Nat.add_assoc]
        exact he
    · rintro ⟨front, s', rest, heq, he⟩
      cases front with
      | nil =>
        obtain ⟨rfl, rfl⟩ := List.cons.inj heq
        exact .inl he
      | cons s₀ front =>
        obtain ⟨rfl, rfl⟩ := List.cons.inj heq
        refine .inr ⟨front, s', rest, rfl, ?_⟩
        rw [stageColls_cons, countersAfter_append, List.length_cons, Nat.add_comm front.length,
          ← Nat.add_assoc] at he
        exact he

/-! ## The counters of transfers -/

/-- How many of the operations have a direction. -/
def directionCount (rank : ℕ) (cs : List Coll) (d : Direction) : ℕ :=
  cs.countP fun c => c.op.direction rank = d

/-- **The keys of transfers**: those of a direction count from the counter of the direction. -/
theorem mem_keysFrom_iff {sh : Shim} {b m : ℕ} {cs : List Coll} {ks : ℕ → Counters}
    (hb : ∀ c ∈ cs, c.backendId = b) (hadj : ∀ c ∈ cs, c.op.Adjacent (sh.rank b))
    (htransfer : ∀ c ∈ cs, c.op.IsTransfer (sh.rank b)) :
    (b, m) ∈ keysFrom sh ks cs ↔ ∃ d ≠ Direction.neither,
      ∃ i < directionCount (sh.rank b) cs d,
        m = (ks b).get d + i + d.base (sh.rank b) * PP_INTERVAL := by
  induction cs generalizing ks with
  | nil => simp [keysFrom, directionCount]
  | cons c cs ih =>
    obtain rfl : c.backendId = b := hb c List.mem_cons_self
    have hne := (htransfer c List.mem_cons_self).direction_ne
    have hhead := Coll.count_of_adjacent (hadj c List.mem_cons_self) (ks c.backendId)
    rw [keysFrom, List.mem_cons, ih (fun c' hc' => hb c' (List.mem_cons_of_mem c hc'))
      (fun c' hc' => hadj c' (List.mem_cons_of_mem c hc'))
      fun c' hc' => htransfer c' (List.mem_cons_of_mem c hc'), advanceAt_self, Prod.mk.injEq, hhead]
    simp only [true_and, directionCount, List.countP_cons, decide_eq_true_eq]
    constructor
    · rintro (rfl | ⟨d, hd, i, hi, rfl⟩)
      · exact ⟨_, hne, 0, by simp, by simp⟩
      · rw [Counters.get_advance hd]
        by_cases hdir : c.op.direction (sh.rank c.backendId) = d
        · rw [if_pos hdir]
          exact ⟨d, hd, i + 1, by rw [if_pos hdir]; omega, by omega⟩
        · rw [if_neg hdir]
          exact ⟨d, hd, i, by omega, by omega⟩
    · rintro ⟨d, hd, i, hi, rfl⟩
      by_cases hdir : c.op.direction (sh.rank c.backendId) = d
      · subst hdir
        cases i with
        | zero => exact .inl (by simp)
        | succ i =>
          refine .inr ⟨_, hd, i, by simpa using hi, ?_⟩
          rw [Counters.get_advance_self]
          omega
      · refine .inr ⟨d, hd, i, by simpa [hdir] using hi, ?_⟩
        rw [Counters.get_advance hd, if_neg hdir, Nat.add_zero]

theorem Fabric.direction_up_iff {f : Fabric} {r : ℕ} {h : HexId} {op : Op}
    (hn : f.neighbours r h op = true) :
    op.direction (f.rank r h) = .up ↔ op.peer? = some (f.rank r h + 1) := by
  obtain ⟨peer, -, rfl | rfl, hadj⟩ := neighbours_cases hn <;>
    simp only [Op.direction, Op.srcRank, Op.dstRank, Op.peer?, Option.some.injEq] <;>
    split_ifs <;> simp <;> omega

theorem Fabric.direction_down_iff {f : Fabric} {r peer : ℕ} {h : HexId} {op : Op}
    (hn : f.neighbours r h op = true) (hrank : f.rank r h = peer + 1) :
    op.direction (f.rank r h) = .down ↔ op.peer? = some peer := by
  obtain ⟨peer', -, rfl | rfl, hadj⟩ := neighbours_cases hn <;>
    simp only [Op.direction, Op.srcRank, Op.dstRank, Op.peer?, Option.some.injEq] <;>
    split_ifs <;> simp <;> omega

/-! ## The stages of a job -/

/-- The stages of the ranks of a job, each a maximal run of collectives of one kind. A rank runs
transfers with its neighbours on a pipeline communicator, where its rank is its pipeline stage, and
operations without a peer on a data communicator. The two ends of a pair run the same transfers in
the same order, fewer than there are counters in the interval of their group, and the members of a
data communicator run the same collectives. The groups of a pipeline and the collectives of a backend
are few enough for a C `int`. -/
structure ProvisionJob (f : Fabric) where
  ranks : ℕ
  intRange : ∀ h, f.isPp h = true → f.size h * PP_INTERVAL < 2 ^ 31
  ppStage : ∀ h, f.isPp h = true → ∀ r ∈ f.reg.clients h, (f.shim r).ppStage = f.rank r h
  stages : ℕ → List Stage
  idle : ∀ r, ranks ≤ r → stages r = []
  runs : ∀ r, ∀ c ∈ stageColls (stages r), ∃ h, r ∈ f.reg.clients h ∧ c.backendId = f.backendId h ∧
    if f.isPp h then f.neighbours r h c.op = true else c.op = .allreduce ∨ c.op = .collective
  scaleOut : ∀ r, ∀ c ∈ stageColls (stages r), (f.shim r).domain c.backendId = 0
  sameKind : ∀ r, ∀ s ∈ stages r, ∀ c ∈ s.colls, ∀ c' ∈ s.colls,
    (f.shim r).isPpBackend c.backendId = (f.shim r).isPpBackend c'.backendId
  maximal : ∀ r, (stages r).IsChain fun s s' => ∀ c ∈ s.colls, ∀ c' ∈ s'.colls,
    (f.shim r).isPpBackend c.backendId ≠ (f.shim r).isPpBackend c'.backendId
  few : ∀ r b, ((stageColls (stages r)).filter fun c => c.backendId = b).length < 2 ^ 31
  within : ∀ h, f.isPp h = true → ∀ r ∈ f.reg.clients h, ∀ peer,
    ((stageColls (stages r)).filter fun c =>
      c.backendId = f.backendId h ∧ c.op.peer? = some peer).length < PP_INTERVAL
  transfers_eq : ∀ h, f.isPp h = true → ∀ r ∈ f.reg.clients h, ∀ r' ∈ f.reg.clients h,
    f.rank r' h = f.rank r h + 1 →
      ((stageColls (stages r)).filter fun c =>
        c.backendId = f.backendId h ∧ c.op.peer? = some (f.rank r' h)).map
          (Coll.mirror (f.rank r h)) =
      (stageColls (stages r')).filter fun c =>
        c.backendId = f.backendId h ∧ c.op.peer? = some (f.rank r h)
  data_eq : ∀ h, f.isPp h = false → ∀ r ∈ f.reg.clients h, ∀ r' ∈ f.reg.clients h,
    (stageColls (stages r)).filter (fun c => c.backendId = f.backendId h) =
      (stageColls (stages r')).filter fun c => c.backendId = f.backendId h

namespace ProvisionJob

variable {f : Fabric} (J : ProvisionJob f)

/-- The collectives of a rank. -/
def colls (r : ℕ) : List Coll := stageColls (J.stages r)

/-- The process of a rank, in provision mode and with the file of its stages. -/
def shim (r : ℕ) : Shim :=
  { f.shim r with
    mode := .provision
    commStages := commStagesFrom (f.shim r) noCounters (J.stages r) }

/-- What the callbacks of a rank send when it replays its stages. -/
def emitted (r : ℕ) : List Emitted :=
  match replay (J.shim r) .initial (J.colls r) with
  | some (_, out) => out.map Replayed.emitted
  | none => []

/-- The requests a rank sends when it replays its stages. -/
def requests (r : ℕ) : List ConfigReq := (J.emitted r).filterMap Emitted.request?

/-- The pipeline transfers of a rank. -/
def transfers (r : ℕ) : List Coll :=
  (J.colls r).filter fun c => (f.shim r).isPpBackend c.backendId

/-- The data collectives of a rank. -/
def dataColls (r : ℕ) : List Coll :=
  (J.colls r).filter fun c => !(f.shim r).isPpBackend c.backendId

/-- The rank goes from its transfers to a collective of the communicator. -/
def Enters (r : ℕ) (h : HexId) : Prop :=
  J.transfers r ≠ [] ∧ (J.dataColls r).head?.map Coll.backendId = some (f.backendId h)

/-- **Every rendezvous is complete**: no callback looks up the communicator id of a backend that
does not exist, every counter that is requested is a C `int`, the two ends of a pair send the same
requests for their group, the members of a data communicator the same requests for it, and in every
run in which all ranks have come to their end the controller has no partial count. -/
structure Complete : Prop where
  defined : ∀ r index, Emitted.outOfRange index ∉ J.emitted r
  inRange : ∀ r, ∀ q ∈ J.requests r, q.counter < 2 ^ 31
  pair : ∀ h, f.isPp h = true → ∀ r ∈ f.reg.clients h, ∀ r' ∈ f.reg.clients h,
    f.rank r' h = f.rank r h + 1 →
      ((J.requests r).filter fun q => q.hexId = h ∧ q.counter / PP_INTERVAL = f.rank r' h).Perm
        ((J.requests r').filter fun q => q.hexId = h ∧ q.counter / PP_INTERVAL = f.rank r' h)
  data : ∀ h, f.isPp h = false → ∀ r ∈ f.reg.clients h, ∀ r' ∈ f.reg.clients h,
    ((J.requests r).filter fun q => q.hexId = h).Perm ((J.requests r').filter fun q => q.hexId = h)
  counted : ∀ t0 s, Reaches (rendezvousStep f.reg) (.initial J.requests t0) s → Terminal f.reg s →
    ∀ h c, s.ctl.readyCount h c = 0

/-- No transfer comes after a data collective, the last transfers of the two ends of a pair are both
within the pair or both not, and either all members of a data communicator go from their transfers
to it or none does. -/
structure Matched : Prop where
  dataLast : ∀ r, (J.colls r).Pairwise fun c c' =>
    (f.shim r).isPpBackend c'.backendId = true → (f.shim r).isPpBackend c.backendId = true
  lastTransfer : ∀ h, f.isPp h = true → ∀ r ∈ f.reg.clients h, ∀ r' ∈ f.reg.clients h,
    f.rank r' h = f.rank r h + 1 →
      ((J.transfers r).getLast?.bind (fun c => c.op.peer?) = some (f.rank r' h) ↔
        (J.transfers r').getLast?.bind (fun c => c.op.peer?) = some (f.rank r h))
  enters : ∀ h, f.isPp h = false → ∀ r ∈ f.reg.clients h, ∀ r' ∈ f.reg.clients h,
    (J.Enters r h ↔ J.Enters r' h)

variable {J} {r r' b m : ℕ} {h : HexId} {c : Coll} {q : ConfigReq}

/-- A backend of a rank belongs to one communicator. -/
theorem hexId_unique {h' : HexId} (hr : r ∈ f.reg.clients h) (hr' : r ∈ f.reg.clients h')
    (hb : f.backendId h = f.backendId h') : h = h' := by
  rw [← f.hexId_eq h r hr, hb, f.hexId_eq h' r hr']

theorem runs_of_isPp (hc : c ∈ J.colls r) (hr : r ∈ f.reg.clients h)
    (hb : c.backendId = f.backendId h) (hpp : f.isPp h = true) :
    f.neighbours r h c.op = true := by
  obtain ⟨h', hr', hb', hop⟩ := J.runs r c hc
  obtain rfl := hexId_unique hr hr' (hb.symm.trans hb')
  rwa [if_pos hpp] at hop

theorem adjacent (hc : c ∈ J.colls r) : c.op.Adjacent ((f.shim r).rank c.backendId) := by
  obtain ⟨h, hr, hb, hop⟩ := J.runs r c hc
  rw [hb]
  split at hop
  · exact Fabric.adjacent_of_neighbours hop
  · rcases hop with hop | hop
    · rw [hop]
      trivial
    · rw [hop]
      trivial

/-- An operation without a peer has no direction. -/
theorem direction_of_data {op : Op} (hop : op = .allreduce ∨ op = .collective) (rank : ℕ) :
    op.direction rank = .neither := by
  rcases hop with rfl | rfl
  · exact if_neg (by simp only [Op.srcRank, Op.dstRank]; omega)
  · exact if_neg (by simp only [Op.srcRank, Op.dstRank]; omega)

/-- A member of a pipeline communicator transfers with a neighbour. -/
theorem base_of_neighbours {d : Direction} {op : Op} (hr : r ∈ f.reg.clients h)
    (hn : f.neighbours r h op = true) (hd : op.direction (f.rank r h) = d) :
    1 ≤ d.base (f.rank r h) ∧ d.base (f.rank r h) < f.size h ∧
      (f.rank r h = d.base (f.rank r h) ∨ f.rank r h + 1 = d.base (f.rank r h)) := by
  have hbase := Fabric.getPpBase_of_neighbours hn hr
  -- a transfer with a neighbour goes up or down
  rcases (Fabric.adjacent_of_neighbours hn).direction_cases with hnone | ⟨heq, -⟩
  · exact absurd hnone (Fabric.isTransfer_of_neighbours hn).direction_ne
  · rwa [heq, hd] at hbase

/-- **The counters of a rank on a pipeline communicator** stay within the interval of their groups. -/
theorem counters_lt (hr : r ∈ f.reg.clients h) (hpp : f.isPp h = true) {d : Direction}
    (hd : d ≠ .neither) :
    (countersAfter (f.shim r) noCounters (J.colls r) (f.backendId h)).get d < PP_INTERVAL := by
  have hzero : (noCounters (f.backendId h)).get d = 0 := by cases d <;> rfl
  have hrank : (f.shim r).rank (f.backendId h) = f.rank r h := rfl
  rw [countersAfter_get, hzero, Nat.zero_add, hrank]
  -- the transfers of a direction are those with one peer
  obtain ⟨peer, hpeer⟩ : ∃ peer, ∀ c ∈ J.colls r, c.backendId = f.backendId h →
      c.op.direction (f.rank r h) = d → c.op.peer? = some peer := by
    cases d with
    | neither => exact absurd rfl hd
    | up =>
      exact ⟨f.rank r h + 1, fun c hc hb hdir =>
        (Fabric.direction_up_iff (runs_of_isPp hc hr hb hpp)).mp hdir⟩
    | down =>
      refine ⟨f.rank r h - 1, fun c hc hb hdir => ?_⟩
      have hn := runs_of_isPp hc hr hb hpp
      obtain ⟨-, -, hbase⟩ := base_of_neighbours hr hn hdir
      have hpos := (base_of_neighbours hr hn hdir).1
      exact (Fabric.direction_down_iff hn (Nat.sub_add_cancel hpos).symm).mp hdir
  refine Nat.lt_of_le_of_lt ?_ (J.within h hpp r hr peer)
  rw [← List.countP_eq_length_filter]
  refine List.countP_mono_left fun c hc hdir => ?_
  simp only [decide_eq_true_eq] at hdir ⊢
  exact ⟨hdir.1, hpeer c hc hdir.1 (hdir.2.resolve_left hd)⟩

theorem withinInterval (J : ProvisionJob f) (r : ℕ) :
    WithinInterval (f.shim r) noCounters (J.colls r) := by
  intro c hc hd c' hc' hb'
  obtain ⟨h, hr, hb, hop⟩ := J.runs r c hc
  cases hpp : f.isPp h with
  | false =>
    rw [hpp, if_neg Bool.false_ne_true] at hop
    exact absurd (direction_of_data hop _) hd
  | true =>
    rw [hb] at hb' ⊢
    have hn := runs_of_isPp hc' hr hb' hpp
    exact (counters_lt hr hpp (Fabric.isTransfer_of_neighbours hn).direction_ne).le

/-- The stage file of a rank describes its stages. -/
theorem describes (J : ProvisionJob f) (r : ℕ) : Describes (J.shim r) (J.stages r) where
  commStages_eq := commStagesFrom_congr (f.shim r) (J.shim r) rfl rfl _ _
  scaleOut := J.scaleOut r
  backend_lt := by
    intro c hc
    obtain ⟨h, -, hb, -⟩ := J.runs r c hc
    rw [hb]
    exact f.backendId_lt h
  nodup := keysFrom_nodup (fun c hc => J.adjacent hc) (J.withinInterval r)

/-! ## The requests of a rank -/

theorem emitted_eq (J : ProvisionJob f) (r : ℕ) :
    J.emitted r = stagesProvisioned (J.shim r) 0 noCounters (J.stages r) := by
  have hd : Describes (J.shim r) ([] ++ J.stages r) := J.describes r
  obtain ⟨q, out, hout, hmap⟩ := hd.replay_provisioned rfl
  have hreplay : replay (J.shim r) .initial (J.colls r) = some (q, out) := hout
  rw [emitted, hreplay]
  exact hmap

theorem requests_eq_stagesProvisioned (J : ProvisionJob f) (r : ℕ) :
    J.requests r =
      (stagesProvisioned (J.shim r) 0 noCounters (J.stages r)).filterMap Emitted.request? := by
  rw [requests, emitted_eq]

/-- What the callbacks of a rank send, stage by stage. -/
theorem mem_emitted {e : Emitted} : e ∈ J.emitted r ↔
    ∃ front s rest, J.stages r = front ++ s :: rest ∧
      ((∃ key ∈ keysFrom (f.shim r) (countersAfter (f.shim r) noCounters (stageColls front))
          s.colls.dropLast,
        e = if (f.shim r).isPpBackend key.1 then .request (topowrite (f.shim r) key.1 (key.2 + 1))
          else .nothing) ∨
        e = topoprovision (J.shim r) (front.length + 1) (s.colls.getLast s.nonempty).backendId) := by
  rw [emitted_eq, mem_stagesProvisioned]
  refine exists_congr fun front => exists_congr fun s => exists_congr fun rest =>
    and_congr_right fun hst => ?_
  have hd : Describes (J.shim r) (front ++ s :: rest) := hst ▸ J.describes r
  have hks : countersAfter (J.shim r) noCounters (stageColls front) =
      countersAfter (f.shim r) noCounters (stageColls front) := rfl
  rw [Nat.zero_add, hd.provisioned_stage, List.mem_append, List.mem_map, List.mem_singleton, hks,
    keysFrom_congr (J.shim r) (f.shim r) rfl]
  exact or_congr_left (exists_congr fun key => and_congr_right fun _ => eq_comm)

/-- **What is sent at a stage boundary.** After transfers it is the request for the first data
collective of the next stage. Before transfers it is a request without the group of the pair, or the
look-up of a backend that does not exist. -/
theorem topoprovision_boundary {front rest : List Stage} {s s' : Stage} {first : Coll}
    {tail : List Coll} (hst : J.stages r = front ++ s :: s' :: rest)
    (hfirst : s'.colls = first :: tail) :
    let cnt := first.count (f.shim r)
      (countersAfter (f.shim r) noCounters (stageColls (front ++ [s])) first.backendId)
    topoprovision (J.shim r) (front.length + 1) (s.colls.getLast s.nonempty).backendId =
      if (f.shim r).isPpBackend first.backendId then
        if s'.grouped then
          .outOfRange (first.backendId + PP_BACKEND_INTERVAL * (cnt / PP_INTERVAL))
        else .request ⟨(f.shim r).hexId first.backendId, first.backendId,
          cnt + (f.shim r).ppStage * PP_INTERVAL⟩
      else .request ⟨(f.shim r).hexId first.backendId, first.backendId, cnt⟩ := by
  intro cnt
  have hd : Describes (J.shim r) (front ++ s :: s' :: rest) := hst ▸ J.describes r
  have hmem : first ∈ J.colls r := by simp [colls, hst, hfirst]
  have hlt : first.backendId < hexIdMapSize := hd.backend_lt first (by simp [hfirst])
  have heq := hd.topoprovision_eq hfirst (s.colls.getLast s.nonempty).backendId
  -- the two stages are of different kinds
  have hkind : (f.shim r).isPpBackend (s.colls.getLast s.nonempty).backendId ≠
      (f.shim r).isPpBackend first.backendId := by
    exact List.isChain_iff_forall_rel_of_append_cons_cons.mp (J.maximal r) hst _
      (List.getLast_mem s.nonempty) first (by simp [hfirst])
  have hshim : (J.shim r).isPpBackend = (f.shim r).isPpBackend := rfl
  simp only [stageBackend, hshim] at heq
  -- the kind of the next stage decides which counter is written
  cases hpp : (f.shim r).isPpBackend first.backendId with
  | true =>
    have hlast : (f.shim r).isPpBackend (s.colls.getLast s.nonempty).backendId = false := by
      simpa [hpp] using hkind
    cases hg : s'.grouped with
    | true =>
      -- a transfer has a positive group
      have htransfer : first.op.IsTransfer ((f.shim r).rank first.backendId) := by
        obtain ⟨h, hr, hb, hop⟩ := J.runs r first hmem
        rw [hb, f.isPp_eq h r hr] at hpp
        rw [hpp, if_pos rfl] at hop
        rw [hb]
        exact Fabric.isTransfer_of_neighbours hop
      -- so the backend of the stage is beyond the map of communicator ids
      have hge : 1 ≤ cnt / PP_INTERVAL :=
        (Nat.one_le_div_iff (by decide)).2 (Coll.le_count (f.shim r) htransfer _)
      have hout : ¬ first.backendId + PP_BACKEND_INTERVAL * (cnt / PP_INTERVAL) < hexIdMapSize := by
        simp only [hexIdMapSize, PP_BACKEND_INTERVAL]
        omega
      simp only [hpp, hg, and_self, if_true] at heq ⊢
      exact heq.trans (if_neg hout)
    | false =>
      simp only [hpp, hg, hlast, Bool.false_eq_true, and_false, if_false, if_true, hlt] at heq ⊢
      exact heq
  | false =>
    have hlast : (f.shim r).isPpBackend (s.colls.getLast s.nonempty).backendId = true := by
      simpa [hpp] using hkind
    simp only [hpp, hlast, Bool.false_eq_true, false_and, if_false, if_true, hlt] at heq ⊢
    exact heq

/-- **The counter of a transfer** names the group of its pair and counts the earlier transfers. -/
theorem key_of_isPp {n : ℕ} (hkey : (b, n) ∈ keysFrom (f.shim r) noCounters (J.colls r))
    (hb : (f.shim r).isPpBackend b = true) :
    ∃ h, r ∈ f.reg.clients h ∧ f.isPp h = true ∧ b = f.backendId h ∧ ∃ group i,
      i + 1 < PP_INTERVAL ∧ 1 ≤ group ∧ group < f.size h ∧
        (f.rank r h = group ∨ f.rank r h + 1 = group) ∧ n = i + group * PP_INTERVAL := by
  obtain ⟨c, hc, rfl, i, hi, -, rfl⟩ := mem_keysFrom (fun c hc => J.adjacent hc) hkey
  obtain ⟨h, hr, hbackend, hop⟩ := J.runs r c hc
  have hpp : f.isPp h = true := by rwa [hbackend, f.isPp_eq h r hr] at hb
  rw [hpp, if_pos rfl] at hop
  rw [hbackend] at hi ⊢
  obtain ⟨hpos, hlt, hrank⟩ := base_of_neighbours hr hop rfl
  have hwithin := counters_lt (J := J) hr hpp (Fabric.isTransfer_of_neighbours hop).direction_ne
  exact ⟨h, hr, hpp, rfl, _, i, Nat.lt_of_le_of_lt hi hwithin, hpos, hlt, hrank, rfl⟩

/-- The counter of a data collective counts the earlier ones. -/
theorem key_of_not_isPp {n : ℕ} (hkey : (b, n) ∈ keysFrom (f.shim r) noCounters (J.colls r))
    (hb : (f.shim r).isPpBackend b = false) :
    ∃ h, r ∈ f.reg.clients h ∧ f.isPp h = false ∧ b = f.backendId h ∧
      n < ((J.colls r).filter fun c => c.backendId = b).length := by
  obtain ⟨c, hc, rfl, i, hi, -, rfl⟩ := mem_keysFrom (fun c hc => J.adjacent hc) hkey
  obtain ⟨h, hr, hbackend, hop⟩ := J.runs r c hc
  have hpp : f.isPp h = false := by rwa [hbackend, f.isPp_eq h r hr] at hb
  rw [hpp, if_neg Bool.false_ne_true] at hop
  rw [direction_of_data hop, Counters.get, countersAfter_coll] at hi
  refine ⟨h, hr, hpp, hbackend, ?_⟩
  rw [direction_of_data hop, Direction.base, Nat.zero_mul, Nat.add_zero]
  simpa [noCounters] using hi

/-- **Every counter of a job is a C `int`**, and so is the one after it. -/
theorem key_lt {n : ℕ} (hkey : (b, n) ∈ keysFrom (f.shim r) noCounters (J.colls r)) :
    n + 1 < 2 ^ 31 := by
  cases hb : (f.shim r).isPpBackend b with
  | true =>
    obtain ⟨h, -, hpp, -, group, i, hi, -, hlt, -, rfl⟩ := key_of_isPp hkey hb
    refine Nat.lt_of_le_of_lt ?_ (J.intRange h hpp)
    simp only [PP_INTERVAL] at hi ⊢
    omega
  | false =>
    obtain ⟨h, -, -, -, hlt⟩ := key_of_not_isPp hkey hb
    exact Nat.lt_of_le_of_lt hlt (J.few r b)

/-- The request for the counter after the `i`-th of a pipeline group. -/
def nextRequest (h : HexId) (group i : ℕ) : ConfigReq :=
  ⟨h, 1 + PP_BACKEND_INTERVAL * group, i + 1 + group * PP_INTERVAL⟩

theorem nextRequest_div (h : HexId) (group : ℕ) {i : ℕ} (hi : i + 1 < PP_INTERVAL) :
    (nextRequest h group i).counter / PP_INTERVAL = group := by
  rw [nextRequest, Nat.add_mul_div_right _ _ (Nat.zero_lt_of_lt hi), Nat.div_eq_of_lt hi,
    Nat.zero_add]

theorem topowrite_eq_nextRequest {group i : ℕ} (hr : r ∈ f.reg.clients h) (hpp : f.isPp h = true)
    (hi : i + 1 < PP_INTERVAL) :
    topowrite (f.shim r) (f.backendId h) (i + group * PP_INTERVAL + 1) =
      nextRequest h group i := by
  have hdiv := nextRequest_div h group hi
  rw [Nat.add_right_comm, Fabric.topowrite_of_isPp hr hpp]
  simp only [nextRequest] at hdiv ⊢
  rw [hdiv]

/-- The request that a rank sends for its next stage when that begins with the `i`-th transfer of a
group: the counter carries the pipeline stage on top of the group. -/
def stageRequest (f : Fabric) (r : ℕ) (h : HexId) (group i : ℕ) : ConfigReq :=
  ⟨h, 1, i + (group + f.rank r h) * PP_INTERVAL⟩

theorem stageRequest_div (r : ℕ) (h : HexId) (group : ℕ) {i : ℕ} (hi : i + 1 < PP_INTERVAL) :
    (stageRequest f r h group i).counter / PP_INTERVAL = group + f.rank r h := by
  rw [stageRequest, Nat.add_mul_div_right _ _ (Nat.zero_lt_of_lt hi), Nat.div_eq_of_lt (by omega),
    Nat.zero_add]

/-- The keys of a part of the stages are keys of the rank. -/
theorem keys_of_stage {front rest : List Stage} {s : Stage} {init tail : List Coll}
    (hst : J.stages r = front ++ s :: rest) (hs : s.colls = init ++ tail) {key : ℕ × ℕ}
    (hkey : key ∈ keysFrom (f.shim r) (countersAfter (f.shim r) noCounters (stageColls front))
      init) :
    key ∈ keysFrom (f.shim r) noCounters (J.colls r) := by
  rw [colls, hst, stageColls_append, stageColls_cons, hs, keysFrom_append, List.append_assoc,
    keysFrom_append]
  exact List.mem_append_right _ (List.mem_append_left _ hkey)

/-- What is sent at the boundary to a stage of transfers. -/
theorem topoprovision_isPp {front rest : List Stage} {s s' : Stage}
    (hst : J.stages r = front ++ s :: s' :: rest)
    (hpp : ∀ c ∈ s'.colls, (f.shim r).isPpBackend c.backendId = true) :
    ∃ h, r ∈ f.reg.clients h ∧ f.isPp h = true ∧ ∃ group i, i + 1 < PP_INTERVAL ∧ 1 ≤ group ∧
      group < f.size h ∧ (f.rank r h = group ∨ f.rank r h + 1 = group) ∧
        ((∃ index, topoprovision (J.shim r) (front.length + 1)
          (s.colls.getLast s.nonempty).backendId = .outOfRange index) ∨
        topoprovision (J.shim r) (front.length + 1) (s.colls.getLast s.nonempty).backendId =
          .request (stageRequest f r h group i)) := by
  obtain ⟨first, tail, hfirst⟩ := List.exists_cons_of_ne_nil s'.nonempty
  have hisPp := hpp first (by simp [hfirst])
  have hst' : J.stages r = (front ++ [s]) ++ s' :: rest := by simp [hst]
  have hkey := keys_of_stage hst' (show s'.colls = [first] ++ tail from hfirst)
    (List.mem_singleton_self _)
  obtain ⟨h, hr, hh, hb, group, i, hi, hpos, hlt, hrank, hcnt⟩ := key_of_isPp hkey hisPp
  refine ⟨h, hr, hh, group, i, hi, hpos, hlt, hrank, ?_⟩
  rw [topoprovision_boundary hst hfirst, if_pos hisPp]
  split
  · exact .inl ⟨_, rfl⟩
  · refine .inr ?_
    simp only [hcnt, J.ppStage h hh r hr, Nat.add_assoc, ← Nat.add_mul]
    simp only [hb, f.hexId_eq h r hr]
    rw [Fabric.backendId_of_isPp hr hh]
    rfl

/-- **The requests of a rank**: for a data communicator; for a group of its own, after a transfer;
or for a stage that begins with a transfer. -/
theorem request_cases (hq : q ∈ J.requests r) :
    (∃ h, r ∈ f.reg.clients h ∧ f.isPp h = false ∧ ∃ n, q = ⟨h, f.backendId h, n⟩) ∨
      ∃ h, r ∈ f.reg.clients h ∧ f.isPp h = true ∧ ∃ group i, i + 1 < PP_INTERVAL ∧ 1 ≤ group ∧
        group < f.size h ∧ (f.rank r h = group ∨ f.rank r h + 1 = group) ∧
          (q = nextRequest h group i ∨ q = stageRequest f r h group i) := by
  obtain ⟨e, he, hreq⟩ := List.mem_filterMap.mp hq
  have he' : e = .request q := by
    cases e with
    | request q' => rw [Option.some.inj hreq]
    | nothing => cases hreq
    | outOfRange index => cases hreq
  subst he'
  -- sent within a stage, or at its end
  obtain ⟨front, s, rest, hst, ⟨key, hkey, heq⟩ | heq⟩ := mem_emitted.mp he
  · split at heq
    · rename_i hpp
      obtain rfl := Emitted.request.inj heq
      obtain ⟨b, n⟩ := key
      have hs : s.colls = s.colls.dropLast ++ [s.colls.getLast s.nonempty] :=
        (List.dropLast_append_getLast s.nonempty).symm
      obtain ⟨h, hr, hh, rfl, group, i, hi, hpos, hlt, hrank, rfl⟩ :=
        key_of_isPp (keys_of_stage hst hs hkey) hpp
      exact .inr ⟨h, hr, hh, group, i, hi, hpos, hlt, hrank,
        .inl (topowrite_eq_nextRequest hr hh hi)⟩
    · cases heq
  · cases rest with
    | nil =>
      have hd : Describes (J.shim r) (front ++ s :: []) := hst ▸ J.describes r
      rw [hd.topoprovision_last] at heq
      cases heq
    | cons s' rest =>
      obtain ⟨first, tail, hfirst⟩ := List.exists_cons_of_ne_nil s'.nonempty
      cases hpp : (f.shim r).isPpBackend first.backendId with
      | true =>
        have hkind : ∀ c ∈ s'.colls, (f.shim r).isPpBackend c.backendId = true := fun c hc =>
          (J.sameKind r s' (by simp [hst]) c hc first (by simp [hfirst])).trans hpp
        obtain ⟨h, hr, hh, group, i, hi, hpos, hlt, hrank, ⟨index, hout⟩ | hout⟩ :=
          topoprovision_isPp hst hkind
        · rw [hout] at heq
          cases heq
        · rw [hout] at heq
          obtain rfl := Emitted.request.inj heq
          exact .inr ⟨h, hr, hh, group, i, hi, hpos, hlt, hrank, .inr rfl⟩
      | false =>
        rw [topoprovision_boundary hst hfirst, hpp, if_neg Bool.false_ne_true] at heq
        obtain rfl := Emitted.request.inj heq
        have hst' : J.stages r = (front ++ [s]) ++ s' :: rest := by simp [hst]
        have hkey := keys_of_stage hst' (show s'.colls = [first] ++ tail from hfirst)
          (List.mem_singleton_self _)
        obtain ⟨h, hr, hh, hb, -⟩ := key_of_not_isPp hkey hpp
        rw [hb, f.hexId_eq h r hr]
        exact .inl ⟨h, hr, hh, _, rfl⟩

/-- The requests within a stage are for groups. -/
theorem inner_filter_eq_nil {front rest : List Stage} {s : Stage}
    (hst : J.stages r = front ++ s :: rest) :
    (((keysFrom (J.shim r) (countersAfter (J.shim r) noCounters (stageColls front))
        s.colls.dropLast).map fun key =>
          if (J.shim r).isPpBackend key.1 then
            Emitted.request (topowrite (J.shim r) key.1 (key.2 + 1))
          else .nothing).filterMap Emitted.request?).filter (fun q => q.backend = 1) = [] := by
  rw [List.filter_eq_nil_iff]
  intro q hq hone
  obtain ⟨e, he, hreq⟩ := List.mem_filterMap.mp hq
  obtain ⟨key, hkey, rfl⟩ := List.mem_map.mp he
  split at hreq
  · rename_i hpp
    obtain rfl := Option.some.inj hreq
    obtain ⟨b, n⟩ := key
    rw [keysFrom_congr (J.shim r) (f.shim r) rfl] at hkey
    obtain ⟨h, hr, hh, rfl, group, i, hi, hpos, -, -, rfl⟩ :=
      key_of_isPp (keys_of_stage hst (List.dropLast_append_getLast s.nonempty).symm hkey) hpp
    have heq : topowrite (f.shim r) (f.backendId h) (i + group * PP_INTERVAL + 1) =
        nextRequest h group i := topowrite_eq_nextRequest hr hh hi
    have hbackend : (nextRequest h group i).backend = 1 := by
      rw [← heq]
      exact of_decide_eq_true hone
    simp only [nextRequest, PP_BACKEND_INTERVAL] at hbackend
    omega
  · cases hreq

/-- Among the requests of consecutive stages, those for a stage that begins with a transfer stand for
the first collectives of the stages. -/
theorem stageRequests_sublist {front rest : List Stage} {s : Stage}
    (hst : J.stages r = front ++ s :: rest) :
    (((stagesProvisioned (J.shim r) front.length
        (countersAfter (J.shim r) noCounters (stageColls front)) (s :: rest)).filterMap
          Emitted.request?).filter fun q => q.backend = 1).Sublist
      ((keysFrom (f.shim r) (countersAfter (f.shim r) noCounters (stageColls (front ++ [s])))
        (stageColls rest)).map fun key =>
          ⟨(f.shim r).hexId key.1, key.1, key.2 + (f.shim r).ppStage * PP_INTERVAL⟩) := by
  induction rest generalizing front s with
  | nil =>
    have hd : Describes (J.shim r) (front ++ s :: []) := hst ▸ J.describes r
    rw [stagesProvisioned, stagesProvisioned, List.append_nil, hd.provisioned_stage,
      hd.topoprovision_last, List.filterMap_append, List.filter_append,
      inner_filter_eq_nil hst]
    exact List.Sublist.refl _
  | cons s' rest ih =>
    have hd : Describes (J.shim r) (front ++ s :: s' :: rest) := hst ▸ J.describes r
    have hst' : J.stages r = (front ++ [s]) ++ s' :: rest := by simp [hst]
    obtain ⟨first, tail, hfirst⟩ := List.exists_cons_of_ne_nil s'.nonempty
    have hrest := ih hst'
    rw [List.length_append, List.length_singleton] at hrest
    have hks : countersAfter (J.shim r) (countersAfter (J.shim r) noCounters (stageColls front))
        s.colls = countersAfter (J.shim r) noCounters (stageColls (front ++ [s])) := by
      simp [stageColls, countersAfter_append]
    have hks' : countersAfter (f.shim r) (countersAfter (f.shim r) noCounters
        (stageColls (front ++ [s]))) s'.colls =
          countersAfter (f.shim r) noCounters (stageColls (front ++ [s] ++ [s'])) := by
      simp [stageColls, countersAfter_append]
    -- the requests within the stage carry a group
    rw [stagesProvisioned, hd.provisioned_stage, hks, List.filterMap_append, List.filterMap_append,
      List.filter_append, List.filter_append, inner_filter_eq_nil hst, List.nil_append,
      filterMap_request?_singleton, stageColls_cons, keysFrom_append, List.map_append, hks']
    -- the boundary sends at most the request for the first collective of the next stage
    refine List.Sublist.append ?_ hrest
    rw [hfirst, keysFrom, List.map_cons, topoprovision_boundary hst hfirst]
    cases hpp : (f.shim r).isPpBackend first.backendId with
    | true =>
      cases s'.grouped with
      | true => exact List.nil_sublist _
      | false => exact List.filter_sublist.trans ((List.nil_sublist _).cons_cons _)
    | false =>
      -- the stage before has transfers, so the pipeline backend is another one
      have hlast : (f.shim r).isPpBackend (s.colls.getLast s.nonempty).backendId = true := by
        have hne := List.isChain_iff_forall_rel_of_append_cons_cons.mp (J.maximal r) hst _
          (List.getLast_mem s.nonempty) first (by simp [hfirst])
        simpa [hpp] using hne
      have hne : first.backendId ≠ 1 := by
        intro hone
        rw [Shim.isPpBackend, Bool.and_eq_true] at hlast
        rw [Shim.isPpBackend, hlast.1, hone] at hpp
        cases hpp
      simp [Emitted.request?, hne]

/-- No request for a stage that begins with a transfer is sent twice. -/
theorem stageRequests_nodup (J : ProvisionJob f) (r : ℕ) :
    ((J.requests r).filter fun q => q.backend = 1).Nodup := by
  rw [requests_eq_stagesProvisioned]
  cases hst : J.stages r with
  | nil => exact List.nodup_nil
  | cons s rest =>
    have hkeys := (J.describes r).nodup
    rw [keysFrom_congr (J.shim r) (f.shim r) rfl, hst, stageColls_cons, keysFrom_append] at hkeys
    have hst' : J.stages r = [] ++ s :: rest := hst
    have hcolls : stageColls ([] ++ [s]) = s.colls := by simp [stageColls]
    -- the keys of a stage file are distinct, and so are the requests for them
    refine (stageRequests_sublist hst').nodup ?_
    rw [hcolls]
    refine List.Nodup.map ?_ (List.nodup_append.mp hkeys).2.1
    intro key key' heq
    obtain ⟨-, hb, hn⟩ := ConfigReq.mk.inj heq
    exact Prod.ext hb (Nat.add_right_cancel hn)

end ProvisionJob

end Opus
