import Mathlib.Algebra.GroupWithZero.Nat
import Mathlib.Data.List.Basic
import Mathlib.Data.List.Induction
import Opus.Shim.Callback

/-!
# Replaying a stage file

The stages of a stage file are runs of the collectives of a rank. A pipeline backend is written
either plainly or with its group, as `1 + 10 * group`. Replaying the collectives one after the
other keeps the two stage indexes and the two sets of counters together, so every callback sees
the stage of its collective.

In baseline mode the request for a stage is sent before its first collective, in provision mode
after the last collective of the stage before it. The two modes encode the pipeline group and the
pipeline stage under different conditions: the one looks at the backend of the collective that is
about to run, the other at the backend of the collective that has just run.

## Main definitions

* `Stage`, `commStagesFrom`: the collectives of a stage, and the stages as the file has them
* `Describes`: the stage file of a process describes a list of stages
* `replay`: the callbacks of a sequence of collectives, one after the other
* `AgreesAt`: both modes send the same request at a stage boundary

## Main results

* `replay_stages`: the stage indexes count the replayed stages
* `agreesAt_iff`: the modes agree exactly when the next collective has no pipeline group and,
  unless the pipeline stage is 0, is of the kind of the last one
-/

namespace Opus

/-! ## Stages -/

/-- The collectives of a stage, and whether its line names pipeline backends with their group. -/
structure Stage where
  colls : List Coll
  grouped : Bool
  nonempty : colls ≠ []

/-- The backend a stage line names for a collective. -/
def stageBackend (sh : Shim) (grouped : Bool) (key : ℕ × ℕ) : ℕ :=
  if sh.isPpBackend key.1 = true ∧ grouped = true then
    key.1 + PP_BACKEND_INTERVAL * (key.2 / PP_INTERVAL)
  else key.1

/-- The line of a stage, from the keys of its collectives. -/
def commStage (sh : Shim) (grouped : Bool) (keys : List (ℕ × ℕ)) : CommStage :=
  let start := keys.headD (0, 0)
  let last := keys.getLastD (0, 0)
  ⟨stageBackend sh grouped start, start.2, stageBackend sh grouped last, last.2⟩

/-- The lines of consecutive stages. -/
def commStagesFrom (sh : Shim) : (ℕ → Counters) → List Stage → List CommStage
  | _, [] => []
  | ks, s :: stages =>
    commStage sh s.grouped (keysFrom sh ks s.colls) ::
      commStagesFrom sh (countersAfter sh ks s.colls) stages

/-- The collectives of consecutive stages. -/
def stageColls (stages : List Stage) : List Coll := stages.flatMap Stage.colls

@[simp] theorem stageColls_cons (s : Stage) (stages : List Stage) :
    stageColls (s :: stages) = s.colls ++ stageColls stages := rfl

@[simp] theorem stageColls_append (stages stages' : List Stage) :
    stageColls (stages ++ stages') = stageColls stages ++ stageColls stages' := by
  simp [stageColls]

/-- The stage file of the process describes the stages: it has their lines, every collective is
on a scale-out backend that has an entry in `backendId_hexId_map`, and no two collectives have one
key. -/
structure Describes (sh : Shim) (stages : List Stage) : Prop where
  commStages_eq : sh.commStages = commStagesFrom sh noCounters stages
  scaleOut : ∀ c ∈ stageColls stages, sh.domain c.backendId = 0
  backend_lt : ∀ c ∈ stageColls stages, c.backendId < hexIdMapSize
  nodup : (keysFrom sh noCounters (stageColls stages)).Nodup

variable {sh : Shim}

theorem stageBackend_mod (sh : Shim) (grouped : Bool) (key : ℕ × ℕ)
    (h : key.1 < hexIdMapSize) :
    stageBackend sh grouped key % PP_BACKEND_INTERVAL = key.1 := by
  have h7 : key.1 < 7 := h
  by_cases hp : sh.isPpBackend key.1 = true ∧ grouped = true
  · rw [stageBackend, if_pos hp]
    simp only [PP_BACKEND_INTERVAL]
    omega
  · rw [stageBackend, if_neg hp]
    simp only [PP_BACKEND_INTERVAL]
    omega

theorem commStagesFrom_append (ks : ℕ → Counters) (stages stages' : List Stage) :
    commStagesFrom sh ks (stages ++ stages') =
      commStagesFrom sh ks stages ++
        commStagesFrom sh (countersAfter sh ks (stageColls stages)) stages' := by
  induction stages generalizing ks with
  | nil => rfl
  | cons s stages ih =>
    rw [List.cons_append, commStagesFrom, commStagesFrom, List.cons_append, ih, stageColls_cons,
      countersAfter_append]

@[simp] theorem commStagesFrom_length (ks : ℕ → Counters) (stages : List Stage) :
    (commStagesFrom sh ks stages).length = stages.length := by
  induction stages generalizing ks with
  | nil => rfl
  | cons s stages ih => rw [commStagesFrom, List.length_cons, List.length_cons, ih]

/-- The line of a stage. -/
theorem Describes.getElem?_commStages {front rest : List Stage} {s : Stage}
    (hd : Describes sh (front ++ s :: rest)) :
    sh.commStages[front.length]? =
      some (commStage sh s.grouped
        (keysFrom sh (countersAfter sh noCounters (stageColls front)) s.colls)) := by
  rw [hd.commStages_eq, commStagesFrom_append, List.getElem?_append_right (by simp)]
  simp [commStagesFrom]

/-- A collective is the last of a stage when it has the key of the last one. -/
theorem Describes.isCommChangeAfter_iff {front rest : List Stage} {s : Stage} {init : List Coll}
    {last : Coll} (hd : Describes sh (front ++ s :: rest)) (hs : s.colls = init ++ [last])
    (backendId cnt : ℕ) :
    isCommChangeAfter sh backendId cnt front.length = true ↔
      backendId = last.backendId ∧
        cnt = last.count sh
          (countersAfter sh noCounters (stageColls front ++ init) last.backendId) := by
  have hlt : last.backendId < hexIdMapSize := hd.backend_lt last (by simp [hs])
  have hmod := stageBackend_mod sh s.grouped (last.backendId, last.count sh
    (countersAfter sh noCounters (stageColls front ++ init) last.backendId)) hlt
  rw [isCommChangeAfter, hd.getElem?_commStages]
  simp [commStage, hs, keysFrom_append, keysFrom, ← countersAfter_append, hmod]

/-- A collective is the first of a stage when it has the key of the first one. -/
theorem Describes.isCommChangeBefore_iff {front rest : List Stage} {s : Stage} {tail : List Coll}
    {first : Coll} (hd : Describes sh (front ++ s :: rest)) (hs : s.colls = first :: tail)
    (backendId cnt : ℕ) :
    isCommChangeBefore sh backendId cnt front.length = true ↔
      backendId = first.backendId ∧
        cnt = first.count sh
          (countersAfter sh noCounters (stageColls front) first.backendId) := by
  have hlt : first.backendId < hexIdMapSize := hd.backend_lt first (by simp [hs])
  have hmod := stageBackend_mod sh s.grouped (first.backendId, first.count sh
    (countersAfter sh noCounters (stageColls front) first.backendId)) hlt
  rw [isCommChangeBefore, hd.getElem?_commStages]
  simp [commStage, hs, keysFrom, hmod]

/-! ## Replay -/

/-- What the callbacks of one replayed collective decide and send. -/
structure Replayed where
  commChangeBefore : Bool
  commChangeAfter : Bool
  commChangeAfterPost : Bool
  req : Option ConfigReq
  emitted : Emitted
  deriving DecidableEq, Repr

/-- Both callbacks of one collective. -/
def replayColl (sh : Shim) (p : Process) (c : Coll) : Option (Process × Replayed) :=
  (preCollCallbackHelper sh p c).map fun r =>
    let q := postCollCallbackHelper sh r.1 c
    let cnt := c.count sh (p.pre c.backendId)
    (q.1,
      { commChangeBefore := isCommChangeBefore sh c.backendId cnt p.curCommStageIdx
        commChangeAfter := isCommChangeAfter sh c.backendId cnt p.curCommStageIdx
        commChangeAfterPost := isCommChangeAfter sh c.backendId
          (c.count sh (r.1.post c.backendId)) r.1.curCommStageIdxPost
        req := r.2
        emitted := q.2 })

/-- The callbacks of a sequence of collectives, one collective after the other. -/
def replay (sh : Shim) : Process → List Coll → Option (Process × List Replayed)
  | p, [] => some (p, [])
  | p, c :: cs =>
    (replayColl sh p c).bind fun r => (replay sh r.1 cs).map fun t => (t.1, r.2 :: t.2)

/-- A process between two collectives: no callback is outstanding. -/
def Process.between (stage : ℕ) (ks : ℕ → Counters) : Process := ⟨true, stage, stage, ks, ks⟩

/-- The request a collective sends before it runs, between two collectives. -/
def preRequest (sh : Shim) (stage : ℕ) (ks : ℕ → Counters) (c : Coll) : Option ConfigReq :=
  let cnt := c.count sh (ks c.backendId)
  if sh.domain c.backendId = 0 ∧ sh.mode = .baseline ∧
      (isCommChangeBefore sh c.backendId cnt stage = true ∨
        sh.isPpBackend c.backendId = true) then
    some (topowrite sh c.backendId cnt)
  else none

/-- The callbacks of one collective leave no callback outstanding. -/
theorem replayColl_between (stage : ℕ) (ks : ℕ → Counters) (c : Coll) :
    let cnt := c.count sh (ks c.backendId)
    let after := isCommChangeAfter sh c.backendId cnt stage
    ∃ r, replayColl sh (.between stage ks) c =
        some (.between (if after then stage + 1 else stage) (advanceAt sh ks c), r) ∧
      r.commChangeBefore = isCommChangeBefore sh c.backendId cnt stage ∧
      r.commChangeAfter = after ∧ r.commChangeAfterPost = after ∧
      r.req = preRequest sh stage ks c ∧
      (after = true → sh.mode = .provision →
        r.emitted = topoprovision sh (stage + 1) c.backendId) := by
  intro cnt after
  by_cases hafter : after = true
  · simp only [after, cnt] at hafter
    simp only [replayColl, preCollCallbackHelper, postCollCallbackHelper, Process.between, hafter,
      after, cnt, if_true, Option.map_some]
    exact ⟨_, rfl, rfl, rfl, rfl, rfl, fun _ hmode => if_pos hmode⟩
  · simp only [after, cnt, Bool.not_eq_true] at hafter
    simp only [replayColl, preCollCallbackHelper, postCollCallbackHelper, Process.between, hafter,
      after, cnt, if_true, Option.map_some, Bool.false_eq_true, if_false, and_false, decide_false,
      Bool.not_false]
    exact ⟨_, rfl, rfl, rfl, rfl, rfl, fun h => absurd h (by simp)⟩

theorem replay_append (p : Process) (cs ds : List Coll) :
    replay sh p (cs ++ ds) = (replay sh p cs).bind fun r =>
      (replay sh r.1 ds).map fun t => (t.1, r.2 ++ t.2) := by
  induction cs generalizing p with
  | nil => simp [replay]
  | cons c cs ih =>
    simp only [List.cons_append, replay, ih]
    cases replayColl sh p c with
    | none => rfl
    | some r =>
      cases hr : replay sh r.1 cs with
      | none => simp [hr]
      | some t =>
        cases hds : replay sh t.1 ds <;> simp [hr, hds]

/-- The flag of every replayed collective is decided by its own counter and the stage index. -/
theorem replay_commChangeBefore {cs : List Coll} {p q : Process} {out : List Replayed}
    (h : replay sh p cs = some (q, out)) :
    out.length = cs.length ∧ ∀ (i : ℕ) (r : Replayed), out[i]? = some r →
      ∃ (c : Coll) (p' : Process), cs[i]? = some c ∧
        r.commChangeBefore = isCommChangeBefore sh c.backendId
          (c.count sh (p'.pre c.backendId)) p'.curCommStageIdx := by
  induction cs generalizing p out with
  | nil =>
    cases h
    simp
  | cons c cs ih =>
    simp only [replay, Option.bind_eq_some_iff, Option.map_eq_some_iff] at h
    obtain ⟨r₀, hr₀, t, ht, heq⟩ := h
    obtain ⟨rfl, rfl⟩ := Prod.mk.inj heq
    obtain ⟨hlen, hflag⟩ := ih ht
    refine ⟨by simp [hlen], fun i r hr => ?_⟩
    cases i with
    | zero =>
      obtain ⟨a, -, rfl⟩ := Option.map_eq_some_iff.1 hr₀
      simp only [List.getElem?_cons_zero, Option.some.injEq] at hr
      exact ⟨c, p, rfl, by rw [← hr]⟩
    | succ i => exact hflag i r (by simpa using hr)

/-- What the callbacks of collectives with the given keys decide in one stage. -/
structure DecidesAt (sh : Shim) (stage : ℕ) (keys : List (ℕ × ℕ)) (out : List Replayed) : Prop where
  before : out.map Replayed.commChangeBefore =
    keys.map fun key => isCommChangeBefore sh key.1 key.2 stage
  after : out.map Replayed.commChangeAfter =
    keys.map fun key => isCommChangeAfter sh key.1 key.2 stage
  afterPost : out.map Replayed.commChangeAfterPost =
    keys.map fun key => isCommChangeAfter sh key.1 key.2 stage

theorem DecidesAt.length_eq {stage : ℕ} {keys : List (ℕ × ℕ)} {out : List Replayed}
    (h : DecidesAt sh stage keys out) : out.length = keys.length := by
  simpa using congrArg List.length h.before

theorem DecidesAt.getElem? {stage : ℕ} {keys : List (ℕ × ℕ)} {out : List Replayed}
    (h : DecidesAt sh stage keys out) {i : ℕ} {r : Replayed} (hr : out[i]? = some r) :
    ∃ key, keys[i]? = some key ∧
      r.commChangeBefore = isCommChangeBefore sh key.1 key.2 stage ∧
      r.commChangeAfter = isCommChangeAfter sh key.1 key.2 stage ∧
      r.commChangeAfterPost = isCommChangeAfter sh key.1 key.2 stage := by
  have h₁ := congrArg (fun l => l[i]?) h.before
  have h₂ := congrArg (fun l => l[i]?) h.after
  have h₃ := congrArg (fun l => l[i]?) h.afterPost
  simp only [List.getElem?_map, hr, Option.map_some] at h₁ h₂ h₃
  cases hk : keys[i]? with
  | none => simp [hk] at h₁
  | some key =>
    simp only [hk, Option.map_some, Option.some.injEq] at h₁ h₂ h₃
    exact ⟨key, rfl, h₁, h₂, h₃⟩

/-- Before the last collective of a stage the stage indexes stay. -/
theorem replay_of_not_after (stage : ℕ) (cs : List Coll) (ks : ℕ → Counters)
    (h : ∀ key ∈ keysFrom sh ks cs, isCommChangeAfter sh key.1 key.2 stage = false) :
    ∃ out, replay sh (.between stage ks) cs = some (.between stage (countersAfter sh ks cs), out) ∧
      DecidesAt sh stage (keysFrom sh ks cs) out := by
  induction cs generalizing ks with
  | nil => exact ⟨[], rfl, rfl, rfl, rfl⟩
  | cons c cs ih =>
    obtain ⟨r, hr, hbefore, hafter, hpost, -⟩ := replayColl_between stage ks c
    have hc : isCommChangeAfter sh c.backendId (c.count sh (ks c.backendId)) stage = false :=
      h (c.backendId, _) List.mem_cons_self
    obtain ⟨out, hout, hdec⟩ := ih (advanceAt sh ks c) fun key hk => h key (by simp [keysFrom, hk])
    rw [hc] at hr
    refine ⟨r :: out, by simp [replay, hr, hout], ?_, ?_, ?_⟩
    · simp [keysFrom, hbefore, hdec.before]
    · simp [keysFrom, hafter, hdec.after]
    · simp [keysFrom, hpost, hdec.afterPost]

/-- The collectives of a stage before its last one have other keys. -/
theorem Describes.not_after_init {front rest : List Stage} {s : Stage} {init : List Coll}
    {last : Coll} (hd : Describes sh (front ++ s :: rest)) (hs : s.colls = init ++ [last]) :
    ∀ key ∈ keysFrom sh (countersAfter sh noCounters (stageColls front)) init,
      isCommChangeAfter sh key.1 key.2 front.length = false := by
  intro key hkey
  rw [Bool.eq_false_iff]
  intro hafter
  obtain ⟨hb, hcnt⟩ := (hd.isCommChangeAfter_iff hs key.1 key.2).1 hafter
  have hnodup := hd.nodup
  simp only [stageColls_append, stageColls_cons, hs, keysFrom_append, keysFrom,
    List.append_assoc] at hnodup
  have hdisj := (List.nodup_append.1 (List.nodup_append.1 hnodup).2.1).2.2 key hkey key
  rw [countersAfter_append] at hcnt
  exact hdisj (by simp [Prod.ext_iff, hb, hcnt]) rfl

/-- The replay of a stage up to its last collective. -/
theorem Describes.replay_init {front rest : List Stage} {s : Stage} {init : List Coll}
    {last : Coll} (hd : Describes sh (front ++ s :: rest)) (hs : s.colls = init ++ [last]) :
    ∃ out, replay sh (.between front.length (countersAfter sh noCounters (stageColls front))) init =
        some (.between front.length (countersAfter sh noCounters (stageColls front ++ init)), out) ∧
      out.length = init.length := by
  obtain ⟨out, hout, hdec⟩ := replay_of_not_after _ _ _ (hd.not_after_init hs)
  rw [countersAfter_append]
  exact ⟨out, hout, by rw [hdec.length_eq, keysFrom_length]⟩

/-- The last collective of a stage advances both stage indexes. -/
theorem Describes.replayColl_last {front rest : List Stage} {s : Stage} {init : List Coll}
    {last : Coll} (hd : Describes sh (front ++ s :: rest)) (hs : s.colls = init ++ [last]) :
    ∃ r, replayColl sh
        (.between front.length (countersAfter sh noCounters (stageColls front ++ init))) last =
        some (.between (front.length + 1)
          (countersAfter sh noCounters (stageColls (front ++ [s]))), r) ∧
      r.req = preRequest sh front.length
        (countersAfter sh noCounters (stageColls front ++ init)) last ∧
      (sh.mode = .provision →
        r.emitted = topoprovision sh (front.length + 1) last.backendId) := by
  obtain ⟨r, hr, -, -, -, hreq, hemit⟩ := replayColl_between front.length
    (countersAfter sh noCounters (stageColls front ++ init)) last
  have hafter := (hd.isCommChangeAfter_iff hs last.backendId _).2 ⟨rfl, rfl⟩
  rw [hafter] at hr hemit
  refine ⟨r, ?_, hreq, hemit rfl⟩
  rw [hr]
  simp [hs, stageColls, countersAfter_append]

/-- **The stage indexes count the replayed stages.** -/
theorem Describes.replay_stages {front rest : List Stage} (hd : Describes sh (front ++ rest)) :
    ∃ out, replay sh .initial (stageColls front) =
        some (.between front.length (countersAfter sh noCounters (stageColls front)), out) ∧
      out.length = (stageColls front).length := by
  induction front using List.reverseRecOn generalizing rest with
  | nil => exact ⟨[], rfl, rfl⟩
  | append_singleton front s ih =>
    rw [List.append_assoc] at hd
    obtain ⟨init, last, hs⟩ := (List.eq_nil_or_concat' s.colls).resolve_left s.nonempty
    obtain ⟨out, hout, hlen⟩ := ih hd
    obtain ⟨out', hout', hlen'⟩ := hd.replay_init hs
    obtain ⟨r, hr, -⟩ := hd.replayColl_last hs
    refine ⟨out ++ (out' ++ [r]), ?_, ?_⟩
    · have hcolls : stageColls (front ++ [s]) = stageColls front ++ (init ++ [last]) := by
        simp [stageColls, hs]
      rw [hcolls, replay_append, hout]
      simp only [Option.bind_some, replay_append, hout', replay, hr, Option.map_some]
      simp [hcolls]
    · simp [stageColls, hs, hlen, hlen']

/-! ## The requests of the two modes -/

/-- The same process in another mode. -/
def Shim.withMode (sh : Shim) (mode : Mode) : Shim := { sh with mode := mode }

/-- The lines of the stages depend only on the ranks and the pipeline backend. -/
theorem commStagesFrom_congr (sh sh' : Shim) (hrank : sh.rank = sh'.rank)
    (hpp : sh.ppEnabled = sh'.ppEnabled) (ks : ℕ → Counters) (stages : List Stage) :
    commStagesFrom sh ks stages = commStagesFrom sh' ks stages := by
  induction stages generalizing ks with
  | nil => rfl
  | cons s stages ih =>
    have hadvance : advanceAt sh = advanceAt sh' := by
      funext ks c
      rw [advanceAt, advanceAt, hrank]
    have hafter : countersAfter sh ks s.colls = countersAfter sh' ks s.colls := by
      rw [countersAfter, countersAfter, hadvance]
    have hbackend : stageBackend sh = stageBackend sh' := by
      funext grouped key
      have hkind : sh.isPpBackend key.1 = sh'.isPpBackend key.1 := by
        rw [Shim.isPpBackend, Shim.isPpBackend, hpp]
      simp only [stageBackend, hkind]
    rw [commStagesFrom, commStagesFrom, commStage, commStage, hbackend, hafter, ih,
      keysFrom_congr sh sh' hrank]

theorem Describes.withMode {stages : List Stage} (hd : Describes sh stages) (mode : Mode) :
    Describes (sh.withMode mode) stages where
  commStages_eq := by
    rw [commStagesFrom_congr (sh.withMode mode) sh rfl rfl]
    exact hd.commStages_eq
  scaleOut := hd.scaleOut
  backend_lt := hd.backend_lt
  nodup := by
    rw [keysFrom_congr (sh.withMode mode) sh rfl]
    exact hd.nodup

/-- The request sent before the `n`-th collective in baseline mode. -/
def baselineRequest (sh : Shim) (stages : List Stage) (n : ℕ) : Option ConfigReq :=
  (replay (sh.withMode .baseline) .initial (stageColls stages)).bind fun r =>
    r.2[n]?.bind Replayed.req

/-- What is sent after the `n`-th collective in provision mode. -/
def provisionEmitted (sh : Shim) (stages : List Stage) (n : ℕ) : Option Emitted :=
  (replay (sh.withMode .provision) .initial (stageColls stages)).bind fun r =>
    r.2[n]?.map Replayed.emitted

/-- At the boundary from stage `k` to stage `k + 1`, provision mode sends after the last collective
the request that baseline mode sends before the next one. -/
def AgreesAt (sh : Shim) (stages : List Stage) (k : ℕ) : Prop :=
  let n := (stageColls (stages.take (k + 1))).length
  ∃ req, baselineRequest sh stages n = some req ∧
    provisionEmitted sh stages (n - 1) = some (.request req)

/-- A replay that succeeds on a prefix and the next collective shows that collective's output. -/
theorem replay_getElem {p q q' : Process} {pre post : List Coll} {c : Coll} {out : List Replayed}
    {r : Replayed} {all : Process × List Replayed}
    (hall : replay sh p (pre ++ c :: post) = some all) (hpre : replay sh p pre = some (q, out))
    (hlen : out.length = pre.length) (hc : replayColl sh q c = some (q', r)) :
    all.2[pre.length]? = some r := by
  rw [replay_append, hpre] at hall
  simp only [Option.bind_some, replay, hc, Option.map_eq_some_iff] at hall
  obtain ⟨t, ⟨u, -, rfl⟩, rfl⟩ := hall
  rw [List.getElem?_append_right (by omega), hlen]
  simp

/-- The output of the last collective of a stage. -/
theorem Describes.provisionEmitted_eq {front rest : List Stage} {s : Stage} {init : List Coll}
    {last : Coll} (hd : Describes sh (front ++ s :: rest)) (hs : s.colls = init ++ [last]) :
    provisionEmitted sh (front ++ s :: rest) (stageColls front ++ init).length =
      some (topoprovision sh (front.length + 1) last.backendId) := by
  have hd' := hd.withMode .provision
  have hwhole : Describes (sh.withMode .provision) ((front ++ s :: rest) ++ []) := by
    simpa using hd'
  obtain ⟨all, hall, -⟩ := hwhole.replay_stages
  obtain ⟨out, hout, hlen⟩ := hd'.replay_stages
  obtain ⟨out', hout', hlen'⟩ := hd'.replay_init hs
  obtain ⟨r, hr, -, hemit⟩ := hd'.replayColl_last hs
  have hpre : replay (sh.withMode .provision) .initial (stageColls front ++ init) =
      some (.between front.length (countersAfter (sh.withMode .provision) noCounters
        (stageColls front ++ init)), out ++ out') := by
    rw [replay_append, hout]
    simp [hout']
  have hsplit : stageColls (front ++ s :: rest) =
      (stageColls front ++ init) ++ last :: stageColls rest := by
    simp [hs]
  rw [provisionEmitted, hall, Option.bind_some]
  rw [hsplit] at hall
  rw [replay_getElem hall hpre (by simp [hlen, hlen']) hr, Option.map_some, hemit rfl]
  rfl

/-- The request of the first collective of a stage. -/
theorem Describes.baselineRequest_eq {front rest : List Stage} {s : Stage} {tail : List Coll}
    {first : Coll} (hd : Describes sh (front ++ s :: rest)) (hs : s.colls = first :: tail) :
    baselineRequest sh (front ++ s :: rest) (stageColls front).length =
      some (topowrite sh first.backendId (first.count sh
        (countersAfter sh noCounters (stageColls front) first.backendId))) := by
  have hd' := hd.withMode .baseline
  have hwhole : Describes (sh.withMode .baseline) ((front ++ s :: rest) ++ []) := by
    simpa using hd'
  obtain ⟨all, hall, -⟩ := hwhole.replay_stages
  obtain ⟨out, hout, hlen⟩ := hd'.replay_stages
  obtain ⟨r, hr, -, -, -, hreq, -⟩ := replayColl_between front.length
    (countersAfter (sh.withMode .baseline) noCounters (stageColls front)) first
  have hbefore := (hd'.isCommChangeBefore_iff hs first.backendId _).2 ⟨rfl, rfl⟩
  have hdom : (sh.withMode .baseline).domain first.backendId = 0 :=
    hd'.scaleOut first (by simp [hs])
  have hsplit : stageColls (front ++ s :: rest) =
      stageColls front ++ first :: (tail ++ stageColls rest) := by
    simp [hs]
  rw [baselineRequest, hall, Option.bind_some]
  rw [hsplit] at hall
  rw [replay_getElem hall hout hlen hr, Option.bind_some, hreq, preRequest,
    if_pos ⟨hdom, rfl, .inl hbefore⟩]
  rfl

/-- The line of the next stage names its first collective. -/
theorem Describes.topoprovision_eq {front rest : List Stage} {s s' : Stage} {tail : List Coll}
    {first : Coll} (hd : Describes sh (front ++ s :: s' :: rest)) (hs' : s'.colls = first :: tail)
    (backendId : ℕ) :
    let cnt := first.count sh
      (countersAfter sh noCounters (stageColls (front ++ [s])) first.backendId)
    let next := stageBackend sh s'.grouped (first.backendId, cnt)
    topoprovision sh (front.length + 1) backendId =
      if next < hexIdMapSize then
        .request ⟨sh.hexId next, next,
          if sh.isPpBackend backendId then cnt else cnt + sh.ppStage * PP_INTERVAL⟩
      else .outOfRange next := by
  have hstage : sh.commStages[front.length + 1]? =
      some (commStage sh s'.grouped
        (keysFrom sh (countersAfter sh noCounters (stageColls (front ++ [s]))) s'.colls)) := by
    have hd' : Describes sh ((front ++ [s]) ++ s' :: rest) := by simpa using hd
    simpa using hd'.getElem?_commStages
  simp only [topoprovision, hstage, commStage, hs', keysFrom, List.headD_cons]

/-- **At a stage boundary the two modes agree exactly when the next stage is not a pipeline stage
and, unless the pipeline stage of the rank is 0, neither is the one that ends.** -/
theorem agreesAt_iff {front rest : List Stage} {s s' : Stage} {init tail : List Coll}
    {last first : Coll} (hd : Describes sh (front ++ s :: s' :: rest))
    (hs : s.colls = init ++ [last]) (hs' : s'.colls = first :: tail)
    (htransfer : sh.isPpBackend first.backendId = true →
      first.op.IsTransfer (sh.rank first.backendId)) :
    AgreesAt sh (front ++ s :: s' :: rest) front.length ↔
      sh.isPpBackend first.backendId = false ∧
        (sh.isPpBackend last.backendId = false ∨ sh.ppStage = 0) := by
  set cnt := first.count sh
    (countersAfter sh noCounters (stageColls (front ++ [s])) first.backendId) with hcnt
  have hassoc : front ++ s :: s' :: rest = (front ++ [s]) ++ s' :: rest := by simp
  have hn : (stageColls ((front ++ s :: s' :: rest).take (front.length + 1))).length =
      (stageColls (front ++ [s])).length := by
    rw [hassoc, List.take_left' (by simp)]
  have hn' : (stageColls (front ++ [s])).length - 1 = (stageColls front ++ init).length := by
    simp [hs, stageColls]
  have hbase : baselineRequest sh (front ++ s :: s' :: rest) (stageColls (front ++ [s])).length =
      some (topowrite sh first.backendId cnt) := by
    rw [hassoc] at hd ⊢
    exact hd.baselineRequest_eq hs'
  have hprov := hd.provisionEmitted_eq hs
  rw [hd.topoprovision_eq hs'] at hprov
  have hlt : first.backendId < hexIdMapSize := hd.backend_lt first (by simp [hs'])
  have hagree : AgreesAt sh (front ++ s :: s' :: rest) front.length ↔
      (if stageBackend sh s'.grouped (first.backendId, cnt) < hexIdMapSize then
        Emitted.request ⟨sh.hexId (stageBackend sh s'.grouped (first.backendId, cnt)),
          stageBackend sh s'.grouped (first.backendId, cnt),
          if sh.isPpBackend last.backendId then cnt else cnt + sh.ppStage * PP_INTERVAL⟩
      else .outOfRange (stageBackend sh s'.grouped (first.backendId, cnt))) =
        .request (topowrite sh first.backendId cnt) := by
    simp only [AgreesAt, hn, hn', hbase, hprov, Option.some.injEq, exists_eq_left', hcnt]
  rw [hagree]
  by_cases hpp : sh.isPpBackend first.backendId = true
  · -- the line names the plain backend, or an index outside the map
    have hge : 1 ≤ cnt / PP_INTERVAL :=
      (Nat.one_le_div_iff (by decide)).2 (Coll.le_count sh (htransfer hpp) _)
    simp only [hpp, Bool.true_eq_false, false_and, iff_false]
    cases hg : s'.grouped with
    | true =>
      have hout : ¬ stageBackend sh true (first.backendId, cnt) < hexIdMapSize := by
        simp only [stageBackend, hpp, hexIdMapSize, PP_BACKEND_INTERVAL, true_and, if_true]
        omega
      rw [if_neg hout]
      simp
    | false =>
      simp only [stageBackend, hpp, Bool.false_eq_true, and_false, if_false, hlt, if_true,
        topowrite, Emitted.request.injEq, ConfigReq.mk.injEq, PP_BACKEND_INTERVAL]
      omega
  · have hpp' : sh.isPpBackend first.backendId = false := by simpa using hpp
    cases hl : sh.isPpBackend last.backendId with
    | true => simp [stageBackend, hpp', hlt, topowrite, PP_INTERVAL]
    | false => simp [stageBackend, hpp', hlt, topowrite]

/-- A transfer to the next rank on the pipeline backend. -/
def sendStage (rank : ℕ) : Stage := ⟨[⟨1, 1, .send (rank + 1)⟩], true, by simp⟩

/-- One collective on a data backend. -/
def dataStage : Stage := ⟨[⟨1, 5, .collective⟩], true, by simp⟩

/-- A process of the pipeline stage `rank`, with a transfer followed by a collective. -/
def pipelineShim (rank : ℕ) : Shim where
  mode := .baseline
  ppEnabled := true
  ppStage := rank
  rank := fun b => if b = 1 then rank else 0
  domain := fun _ => 0
  networkType := fun _ => 1
  hexId := fun b => b
  commStages :=
    [⟨1 + 10 * (rank + 1), (rank + 1) * 1000000, 1 + 10 * (rank + 1), (rank + 1) * 1000000⟩,
      ⟨5, 0, 5, 0⟩]

theorem describes_pipelineShim_zero :
    Describes (pipelineShim 0) ([] ++ sendStage 0 :: dataStage :: []) where
  commStages_eq := by decide
  scaleOut := by decide
  backend_lt := by decide
  nodup := by decide

theorem describes_pipelineShim_one :
    Describes (pipelineShim 1) ([] ++ sendStage 1 :: dataStage :: []) where
  commStages_eq := by decide
  scaleOut := by decide
  backend_lt := by decide
  nodup := by decide

theorem agreesAt_pipelineShim_zero :
    AgreesAt (pipelineShim 0) ([] ++ sendStage 0 :: dataStage :: []) 0 :=
  (agreesAt_iff describes_pipelineShim_zero
    (show (sendStage 0).colls = [] ++ [⟨1, 1, .send 1⟩] from rfl) rfl
    (by intro h; cases h)).2 ⟨rfl, .inr rfl⟩

/-- The rank of pipeline stage 1 provisions the collective of the next stage with the counter of
pipeline stage 0. -/
theorem not_agreesAt_pipelineShim_one :
    Describes (pipelineShim 1) ([] ++ sendStage 1 :: dataStage :: []) ∧
      baselineRequest (pipelineShim 1) ([] ++ sendStage 1 :: dataStage :: []) 1 =
        some ⟨5, 5, 1000000⟩ ∧
      provisionEmitted (pipelineShim 1) ([] ++ sendStage 1 :: dataStage :: []) 0 =
        some (.request ⟨5, 5, 0⟩) ∧
      ¬ AgreesAt (pipelineShim 1) ([] ++ sendStage 1 :: dataStage :: []) 0 := by
  have hbase : baselineRequest (pipelineShim 1) ([] ++ sendStage 1 :: dataStage :: []) 1 =
      some ⟨5, 5, 1000000⟩ := by decide
  have hprov : provisionEmitted (pipelineShim 1) ([] ++ sendStage 1 :: dataStage :: []) 0 =
      some (.request ⟨5, 5, 0⟩) := by decide
  refine ⟨describes_pipelineShim_one, hbase, hprov, ?_⟩
  rintro ⟨req, hreq, hemit⟩
  have heq : req = ⟨5, 5, 1000000⟩ := Option.some.inj (hreq.symm.trans hbase)
  rw [heq] at hemit
  exact absurd (hemit.symm.trans hprov) (by decide)

end Opus
