import Mathlib.Data.List.Basic
import Mathlib.Data.List.Infix
import Mathlib.Data.List.Induction
import Opus.Library.Run
import Opus.Shim.Replay

/-!
# Stage changes and running collectives

Every backend of a process has its own stream. The callbacks of one backend run in issue order and
the callback before a collective runs before the one after it; otherwise the callbacks of
different backends interleave freely, held back only by the flag `topo_ready` they share.

A stage change is tracked through the single key that ends the stage. With one backend this is
enough: its last collective is also the last to run. With two backends it is not: the stage can
change while a collective of the stage still runs on the other backend, or after a collective of
the next stage has started there.

## Main definitions

* `Callback`, `callbackStep`: the interleavings of the callbacks
* `SafeAdvance`: a stage change overtakes no collective
* `NeverOvertakes`: no stage change of any interleaving overtakes a collective

## Main results

* `inOrder_step`, `neverOvertakes_of_backend`: with one backend, stage changes are safe
* `exists_stage_run`: every stage can be reached
* `neverOvertakes_iff`: stage changes are safe in all interleavings exactly when all collectives
  are on one backend
-/

namespace Opus

open Transition

/-! ## Interleavings of callbacks -/

/-- The next callback before or after a collective of a backend. -/
inductive Callback where
  | pre (backendId : ℕ)
  | post (backendId : ℕ)
  deriving DecidableEq, Repr

/-- The collectives of a backend, in issue order. -/
def onBackend (cs : List Coll) (b : ℕ) : List Coll := cs.filter fun c => c.backendId = b

/-- One callback. The counters of a backend tell how many of its callbacks have run. -/
def callbackStep (sh : Shim) (cs : List Coll) (p : Process) : Callback → Option Process
  | .pre b =>
    (onBackend cs b)[(p.pre b).coll]?.bind fun c => (preCollCallbackHelper sh p c).map Prod.fst
  | .post b =>
    if (p.post b).coll < (p.pre b).coll then
      (onBackend cs b)[(p.post b).coll]?.map fun c => (postCollCallbackHelper sh p c).1
    else none

/-- The position of a collective among those of its backend. -/
def ordinal (cs : List Coll) (i : ℕ) (c : Coll) : ℕ := (onBackend (cs.take i) c.backendId).length

/-- The position of the first collective of a stage. -/
def stageStart (stages : List Stage) (k : ℕ) : ℕ := (stageColls (stages.take k)).length

/-- The step from `p` to `p'` ends stage `k` and overtakes nothing: every collective of the stage
that has started has completed, and no collective of the next stage has started. -/
def SafeAdvance (stages : List Stage) (k : ℕ) (p p' : Process) : Prop :=
  (∀ i c, stageStart stages k ≤ i → i < stageStart stages (k + 1) →
    (stageColls stages)[i]? = some c →
      ordinal (stageColls stages) i c < (p.pre c.backendId).coll →
        ordinal (stageColls stages) i c < (p'.post c.backendId).coll) ∧
  ∀ i c, stageStart stages (k + 1) ≤ i → i < stageStart stages (k + 2) →
    (stageColls stages)[i]? = some c →
      (p.pre c.backendId).coll ≤ ordinal (stageColls stages) i c

/-- No stage change of any interleaving overtakes a collective. -/
def NeverOvertakes (sh : Shim) (stages : List Stage) : Prop :=
  ∀ (as : List Callback) (p p' : Process) (b : ℕ),
    run (callbackStep sh (stageColls stages)) .initial as = some p →
    callbackStep sh (stageColls stages) p (.post b) = some p' →
    p'.curCommStageIdxPost ≠ p.curCommStageIdxPost →
      SafeAdvance stages p.curCommStageIdxPost p p'

/-! ## Steps -/

section Steps

variable {sh : Shim} {cs : List Coll}

/-- The process whose callbacks have run for the collectives `started` and `completed`. -/
def Process.after (sh : Shim) (topoReady : Bool) (stage stagePost : ℕ)
    (started completed : List Coll) : Process :=
  ⟨topoReady, stage, stagePost, countersAfter sh noCounters started,
    countersAfter sh noCounters completed⟩

theorem countersAfter_noCounters_coll (ds : List Coll) (b : ℕ) :
    (countersAfter sh noCounters ds b).coll = (onBackend ds b).length := by
  rw [countersAfter_coll]
  simp [noCounters, onBackend]

@[simp] theorem onBackend_append (cs ds : List Coll) (b : ℕ) :
    onBackend (cs ++ ds) b = onBackend cs b ++ onBackend ds b := List.filter_append ..

theorem onBackend_singleton_self (c : Coll) : onBackend [c] c.backendId = [c] := by
  simp [onBackend]

/-- The collectives `ds` are the first ones of every backend. -/
def IssueOrder (cs ds : List Coll) : Prop := ∀ b, onBackend ds b <+: onBackend cs b

/-- The next collective of a backend, when those before it are the first ones. -/
theorem IssueOrder.next (sh : Shim) {ds : List Coll} {c : Coll}
    (h : IssueOrder cs (ds ++ [c])) :
    (onBackend cs c.backendId)[(countersAfter sh noCounters ds c.backendId).coll]? = some c := by
  obtain ⟨rest, hrest⟩ := h c.backendId
  rw [countersAfter_noCounters_coll, ← hrest, onBackend_append, onBackend_singleton_self,
    List.append_assoc]
  simp

theorem countersAfter_concat (ks : ℕ → Counters) (ds : List Coll) (c : Coll) :
    countersAfter sh ks (ds ++ [c]) = advanceAt sh (countersAfter sh ks ds) c := by
  rw [countersAfter_append]
  rfl

/-- The key of a collective after the collectives `ds`. -/
def keyAfter (sh : Shim) (ds : List Coll) (c : Coll) : ℕ × ℕ :=
  (c.backendId, c.count sh (countersAfter sh noCounters ds c.backendId))

/-- The callback before the next collective of a backend. -/
theorem callbackStep_pre (hmode : sh.mode = .baseline ∨ sh.mode = .provision)
    (hdom : ∀ c ∈ cs, sh.domain c.backendId = 0) {started : List Coll} {c : Coll}
    (hnext : IssueOrder cs (started ++ [c])) (stage stagePost : ℕ) (completed : List Coll) :
    let after := isCommChangeAfter sh (keyAfter sh started c).1 (keyAfter sh started c).2 stage
    callbackStep sh cs (.after sh true stage stagePost started completed) (.pre c.backendId) =
      some (.after sh (!after) (if after then stage + 1 else stage) stagePost (started ++ [c])
        completed) := by
  intro after
  have hget := hnext.next sh
  have hc : sh.domain c.backendId = 0 :=
    hdom c (List.mem_of_mem_filter (List.mem_of_getElem? hget))
  rw [callbackStep, Process.after, hget]
  simp only [preCollCallbackHelper, Option.bind_some, if_true, hc, hmode, true_and, Option.map_some,
    Process.after, countersAfter_concat, Bool.decide_eq_true]
  rfl

/-- The callback after the next collective of a backend. -/
theorem callbackStep_post (sh : Shim) (started : List Coll) {completed : List Coll} {c : Coll}
    (hnext : IssueOrder cs (completed ++ [c]))
    (hlt : (onBackend completed c.backendId).length < (onBackend started c.backendId).length)
    (topoReady : Bool) (stage stagePost : ℕ) :
    let after := isCommChangeAfter sh (keyAfter sh completed c).1 (keyAfter sh completed c).2
      stagePost
    callbackStep sh cs (.after sh topoReady stage stagePost started completed) (.post c.backendId) =
      some (.after sh (if after then true else topoReady) stage
        (if after then stagePost + 1 else stagePost) started (completed ++ [c])) := by
  intro after
  have hget := hnext.next sh
  have hpost : (countersAfter sh noCounters completed c.backendId).coll <
      (countersAfter sh noCounters started c.backendId).coll := by
    rwa [countersAfter_noCounters_coll, countersAfter_noCounters_coll]
  have hdef : isCommChangeAfter sh c.backendId
      (c.count sh (countersAfter sh noCounters completed c.backendId)) stagePost = after := rfl
  rw [callbackStep, Process.after, if_pos hpost, hget, Option.map_some]
  simp only [postCollCallbackHelper, hdef]
  cases after with
  | true => simp [Process.after, countersAfter_concat]
  | false => simp [Process.after, countersAfter_concat]

theorem IssueOrder.of_initial {ds : List Coll} (h : ds <+: cs) : IssueOrder cs ds :=
  fun _ => h.filter _

theorem IssueOrder.left {ds es : List Coll} (h : IssueOrder cs (ds ++ es)) : IssueOrder cs ds :=
  fun b => ((List.prefix_append ds es).filter _).trans (h b)

/-- Callbacks before collectives that do not end the stage. -/
theorem run_pre (hmode : sh.mode = .baseline ∨ sh.mode = .provision)
    (hdom : ∀ c ∈ cs, sh.domain c.backendId = 0) {stage : ℕ} (stagePost : ℕ)
    (completed ds started : List Coll) (hord : IssueOrder cs (started ++ ds))
    (hkeys : ∀ key ∈ keysFrom sh (countersAfter sh noCounters started) ds,
      isCommChangeAfter sh key.1 key.2 stage = false) :
    run (callbackStep sh cs) (.after sh true stage stagePost started completed)
        (ds.map fun c => .pre c.backendId) =
      some (.after sh true stage stagePost (started ++ ds) completed) := by
  induction ds generalizing started with
  | nil => simp
  | cons c ds ih =>
    have hord' : IssueOrder cs ((started ++ [c]) ++ ds) := by simpa using hord
    have hstep := callbackStep_pre hmode hdom hord'.left stage stagePost completed
    have hafter : isCommChangeAfter sh (keyAfter sh started c).1 (keyAfter sh started c).2 stage =
        false := hkeys (keyAfter sh started c) List.mem_cons_self
    rw [hafter] at hstep
    rw [List.map_cons, run_cons_of_step hstep]
    have hrest := ih (started ++ [c]) hord' fun key hkey => hkeys key <| by
      rw [countersAfter_concat] at hkey
      exact List.mem_cons_of_mem _ hkey
    simpa using hrest

/-- Callbacks after collectives that do not end the stage. -/
theorem run_post (topoReady : Bool) (stage : ℕ) {stagePost : ℕ}
    (started ds completed : List Coll) (hord : IssueOrder cs (completed ++ ds))
    (hle : ∀ b, (onBackend (completed ++ ds) b).length ≤ (onBackend started b).length)
    (hkeys : ∀ key ∈ keysFrom sh (countersAfter sh noCounters completed) ds,
      isCommChangeAfter sh key.1 key.2 stagePost = false) :
    run (callbackStep sh cs) (.after sh topoReady stage stagePost started completed)
        (ds.map fun c => .post c.backendId) =
      some (.after sh topoReady stage stagePost started (completed ++ ds)) := by
  induction ds generalizing completed with
  | nil => simp
  | cons c ds ih =>
    have hord' : IssueOrder cs ((completed ++ [c]) ++ ds) := by simpa using hord
    have hlt : (onBackend completed c.backendId).length <
        (onBackend started c.backendId).length := by
      have := hle c.backendId
      rw [← List.singleton_append, onBackend_append, onBackend_append, onBackend_singleton_self,
        List.length_append, List.length_append, List.length_singleton] at this
      omega
    have hstep := callbackStep_post sh started hord'.left hlt topoReady stage stagePost
    have hafter : isCommChangeAfter sh (keyAfter sh completed c).1 (keyAfter sh completed c).2
        stagePost = false := hkeys (keyAfter sh completed c) List.mem_cons_self
    rw [hafter] at hstep
    rw [List.map_cons, run_cons_of_step hstep]
    have hrest := ih (completed ++ [c]) hord' (by simpa using hle) fun key hkey => hkeys key <| by
      rw [countersAfter_concat] at hkey
      exact List.mem_cons_of_mem _ hkey
    simpa using hrest

end Steps

/-! ## Reaching a stage -/

section Stages

variable {sh : Shim} {front rest : List Stage} {s : Stage} {init : List Coll} {last : Coll}

theorem Describes.after_last (hd : Describes sh (front ++ s :: rest))
    (hs : s.colls = init ++ [last]) :
    isCommChangeAfter sh (keyAfter sh (stageColls front ++ init) last).1
      (keyAfter sh (stageColls front ++ init) last).2 front.length = true :=
  (hd.isCommChangeAfter_iff hs _ _).2 ⟨rfl, rfl⟩

theorem issueOrder_stage (front : List Stage) (s : Stage) (stages : List Stage) :
    IssueOrder (stageColls (front ++ s :: stages)) (stageColls front ++ s.colls) :=
  .of_initial ⟨stageColls stages, by simp⟩

/-- All collectives of a stage can start before any of them completes. -/
theorem Describes.exists_started (hd : Describes sh (front ++ s :: rest))
    (hmode : sh.mode = .baseline ∨ sh.mode = .provision) :
    ∃ as, run (callbackStep sh (stageColls (front ++ s :: rest)))
        (.after sh true front.length front.length (stageColls front) (stageColls front)) as =
      some (.after sh false (front.length + 1) front.length (stageColls front ++ s.colls)
        (stageColls front)) := by
  obtain ⟨init, last, hs⟩ := (List.eq_nil_or_concat' s.colls).resolve_left s.nonempty
  have hord : IssueOrder (stageColls (front ++ s :: rest))
      (stageColls front ++ init ++ [last]) := by
    simpa [hs] using issueOrder_stage front s rest
  have hpre := run_pre hmode hd.scaleOut front.length (stageColls front) init
    (stageColls front) hord.left (hd.not_after_init hs)
  have hlast := callbackStep_pre hmode hd.scaleOut hord front.length front.length
    (stageColls front)
  rw [hd.after_last hs] at hlast
  refine ⟨init.map (fun c => .pre c.backendId) ++ [.pre last.backendId], ?_⟩
  rw [run_append_of_run hpre, run_cons_of_step hlast, run_nil, hs, List.append_assoc]
  rfl

/-- Every stage can be reached with no collective running. -/
theorem Describes.exists_stage_run (hd : Describes sh (front ++ rest))
    (hmode : sh.mode = .baseline ∨ sh.mode = .provision) :
    ∃ as, run (callbackStep sh (stageColls (front ++ rest))) .initial as =
      some (.after sh true front.length front.length (stageColls front) (stageColls front)) := by
  induction front using List.reverseRecOn generalizing rest with
  | nil => exact ⟨[], rfl⟩
  | append_singleton front s ih =>
    rw [List.append_assoc] at hd ⊢
    obtain ⟨as, has⟩ := ih hd
    obtain ⟨as', has'⟩ := Describes.exists_started hd hmode
    obtain ⟨init, last, hs⟩ := (List.eq_nil_or_concat' s.colls).resolve_left s.nonempty
    have hord : IssueOrder (stageColls (front ++ s :: rest))
        (stageColls front ++ init ++ [last]) := by
      simpa [hs] using issueOrder_stage front s rest
    have hpost := run_post false (front.length + 1) (stageColls front ++ s.colls) init
      (stageColls front) hord.left (by simp [hs]) (hd.not_after_init hs)
    have hlast := callbackStep_post sh (stageColls front ++ s.colls) hord
      (by simp [hs, onBackend_singleton_self]) false (front.length + 1) front.length
    rw [hd.after_last hs] at hlast
    refine ⟨as ++ (as' ++ (init.map (fun c => .post c.backendId) ++ [.post last.backendId])), ?_⟩
    rw [run_append_of_run has]
    refine (run_append_of_run has' _).trans ?_
    refine (run_append_of_run hpost _).trans ?_
    refine (run_cons_of_step hlast _).trans ?_
    simp [hs, stageColls]

/-- The keys of a backend's collectives are among the keys of all of them. -/
theorem mem_keysFrom_of_onBackend {b : ℕ} {key : ℕ × ℕ} (ds : List Coll) {ks ks' : ℕ → Counters}
    (hks : ks b = ks' b) (h : key ∈ keysFrom sh ks (onBackend ds b)) :
    key ∈ keysFrom sh ks' ds := by
  induction ds generalizing ks ks' with
  | nil => simp [onBackend, keysFrom] at h
  | cons c ds ih =>
    by_cases hc : c.backendId = b
    · have hcons : onBackend (c :: ds) b = c :: onBackend ds b := by simp [onBackend, hc]
      rw [hcons, keysFrom, List.mem_cons] at h
      rw [keysFrom, List.mem_cons]
      subst hc
      refine h.imp (fun h => by rw [h, hks]) (ih ?_)
      rw [advanceAt_self, advanceAt_self, hks]
    · have hskip : onBackend (c :: ds) b = onBackend ds b := by simp [onBackend, hc]
      rw [hskip] at h
      refine List.mem_cons_of_mem _ (ih ?_ h)
      rw [advanceAt_of_ne _ (Ne.symm hc), hks]

theorem onBackend_onBackend_of_ne (ds : List Coll) {b b' : ℕ} (h : b ≠ b') :
    onBackend (onBackend ds b) b' = [] := by
  simp only [onBackend, List.filter_filter, List.filter_eq_nil_iff]
  intro c _
  simp only [Bool.and_eq_true, decide_eq_true_eq]
  omega

theorem onBackend_onBackend (ds : List Coll) (b : ℕ) :
    onBackend (onBackend ds b) b = onBackend ds b := by
  simp [onBackend]

/-- Restricting the latest collectives to one backend keeps the issue order. -/
theorem IssueOrder.restrict {cs ds es : List Coll} (h : IssueOrder cs (ds ++ es)) (b : ℕ) :
    IssueOrder cs (ds ++ onBackend es b) := by
  intro b'
  by_cases hb : b = b'
  · subst hb
    rw [onBackend_append, onBackend_onBackend, ← onBackend_append]
    exact h b
  · rw [onBackend_append, onBackend_onBackend_of_ne es hb, List.append_nil]
    exact h.left b'

/-- Once the collectives of a stage have started on the backend of its last one, that backend alone
can end the stage. -/
theorem Describes.exists_advance (hd : Describes sh (front ++ s :: rest))
    (hs : s.colls = init ++ [last]) (topoReady : Bool) (stage : ℕ) (started : List Coll)
    (hle : ∀ b, (onBackend (stageColls front ++ onBackend s.colls last.backendId) b).length ≤
      (onBackend started b).length) :
    ∃ as completed, run (callbackStep sh (stageColls (front ++ s :: rest)))
        (.after sh topoReady stage front.length started (stageColls front)) as =
          some (.after sh topoReady stage front.length started completed) ∧
      callbackStep sh (stageColls (front ++ s :: rest))
        (.after sh topoReady stage front.length started completed) (.post last.backendId) =
          some (.after sh true stage (front.length + 1) started
            (stageColls front ++ onBackend s.colls last.backendId)) := by
  have hsplit : onBackend s.colls last.backendId = onBackend init last.backendId ++ [last] := by
    rw [hs, onBackend_append, onBackend_singleton_self]
  have hord : IssueOrder (stageColls (front ++ s :: rest))
      (stageColls front ++ onBackend init last.backendId ++ [last]) := by
    have := (issueOrder_stage front s rest).restrict last.backendId
    rwa [hsplit, ← List.append_assoc] at this
  rw [hsplit] at hle ⊢
  have hpost := run_post topoReady stage started (onBackend init last.backendId)
    (stageColls front) hord.left
    (fun b => Nat.le_trans (by simp) (hle b))
    (fun key hkey => hd.not_after_init hs key (mem_keysFrom_of_onBackend init rfl hkey))
  have hlt : (onBackend (stageColls front ++ onBackend init last.backendId)
      last.backendId).length < (onBackend started last.backendId).length := by
    have := hle last.backendId
    rw [← List.append_assoc, onBackend_append _ [last], onBackend_singleton_self,
      List.length_append, List.length_singleton] at this
    omega
  have hlast := callbackStep_post sh started hord hlt topoReady stage front.length
  -- the counters of the backend are those of the issue order
  have hkey : keyAfter sh (stageColls front ++ onBackend init last.backendId) last =
      keyAfter sh (stageColls front ++ init) last := by
    rw [keyAfter, keyAfter, countersAfter_congr rfl]
    change onBackend _ _ = onBackend _ _
    rw [onBackend_append, onBackend_append, onBackend_onBackend]
  rw [hkey, hd.after_last hs] at hlast
  exact ⟨_, _, hpost, by simpa using hlast⟩

theorem stageStart_front :
    stageStart (front ++ s :: rest) front.length = (stageColls front).length := by
  rw [stageStart, List.take_left]

theorem stageStart_succ (front : List Stage) (s : Stage) (rest : List Stage) :
    stageStart (front ++ s :: rest) (front.length + 1) =
      (stageColls front ++ s.colls).length := by
  have hassoc : front ++ s :: rest = (front ++ [s]) ++ rest := by simp
  rw [stageStart, hassoc, List.take_left' (by simp)]
  simp [stageColls]

theorem ordinal_of_split {cs : List Coll} (before : List Coll) {c : Coll} (after : List Coll)
    (h : cs = before ++ c :: after) :
    cs[before.length]? = some c ∧
      ordinal cs before.length c = (onBackend before c.backendId).length := by
  subst h
  simp [ordinal]

/-- A stage can end while a collective of it runs on another backend. -/
theorem Describes.not_neverOvertakes_of_spread (hd : Describes sh (front ++ s :: rest))
    (hmode : sh.mode = .baseline ∨ sh.mode = .provision) (hs : s.colls = init ++ [last])
    {c : Coll} (hc : c ∈ s.colls) (hne : c.backendId ≠ last.backendId) :
    ¬ NeverOvertakes sh (front ++ s :: rest) := by
  intro hnever
  obtain ⟨as, has⟩ := hd.exists_stage_run hmode
  obtain ⟨as', has'⟩ := hd.exists_started hmode
  obtain ⟨as'', completed, has'', hstep⟩ := hd.exists_advance hs false (front.length + 1)
    (stageColls front ++ s.colls) (by
      intro b
      rw [onBackend_append, onBackend_append, List.length_append, List.length_append]
      exact Nat.add_le_add_left (List.filter_sublist.filter _).length_le _)
  have hrun : run (callbackStep sh (stageColls (front ++ s :: rest))) .initial
      (as ++ (as' ++ as'')) = some (.after sh false (front.length + 1) front.length
        (stageColls front ++ s.colls) completed) := by
    rw [run_append_of_run has, run_append_of_run has', has'']
  have hsafe := (hnever _ _ _ _ hrun hstep (by simp [Process.after])).1
  obtain ⟨pre, post, hpre⟩ := List.append_of_mem hc
  have hsplit : stageColls (front ++ s :: rest) =
      stageColls front ++ pre ++ c :: (post ++ stageColls rest) := by simp [hpre]
  obtain ⟨hget, hord⟩ := ordinal_of_split _ _ hsplit
  have hcompleted := hsafe _ c
    (by rw [Process.after, stageStart_front]; simp)
    (by rw [Process.after, stageStart_succ]; simp [hpre]) hget
    (by
      rw [hord, Process.after, countersAfter_noCounters_coll, hpre]
      simp [onBackend])
  rw [hord, Process.after, countersAfter_noCounters_coll, onBackend_append, onBackend_append,
    onBackend_onBackend_of_ne _ (Ne.symm hne), List.append_nil, List.length_append] at hcompleted
  omega

/-- The first collective of the next stage is the next one of its backend, when the stage does not
use that backend. -/
theorem issueOrder_switch (front rest : List Stage) {s s' : Stage} {init tail : List Coll}
    {last first : Coll} (hs : s.colls = init ++ [last]) (hs' : s'.colls = first :: tail)
    (hempty : onBackend s.colls first.backendId = []) :
    IssueOrder (stageColls (front ++ s :: s' :: rest))
      (stageColls front ++ init ++ [first] ++ [last]) := by
  intro b
  have hinit : onBackend s.colls b = onBackend init b ++ onBackend [last] b := by
    rw [hs, onBackend_append]
  by_cases hb : b = first.backendId
  · subst hb
    obtain ⟨h₁, h₂⟩ := List.append_eq_nil_iff.1 (hinit.symm.trans hempty)
    refine ⟨onBackend (tail ++ stageColls rest) first.backendId, ?_⟩
    have hcs : onBackend (stageColls (front ++ s :: s' :: rest)) first.backendId =
        onBackend (stageColls front) first.backendId ++
          first :: onBackend (tail ++ stageColls rest) first.backendId := by
      rw [stageColls_append, stageColls_cons, stageColls_cons, hs', onBackend_append,
        onBackend_append, hempty, List.cons_append, ← List.singleton_append,
        onBackend_append [first], onBackend_singleton_self]
      rfl
    rw [hcs, onBackend_append _ [last], h₂, onBackend_append _ [first], onBackend_singleton_self,
      onBackend_append, h₁]
    simp only [List.append_nil, List.append_assoc, List.singleton_append]
  · have hfirst : onBackend [first] b = [] := by simp [onBackend, Ne.symm hb]
    have := issueOrder_stage front s (s' :: rest) b
    rw [onBackend_append, hinit] at this
    rwa [onBackend_append _ [last], onBackend_append _ [first], hfirst, onBackend_append,
      List.append_nil, List.append_assoc]

/-- A stage can end after a collective of the next stage has started on another backend. -/
theorem Describes.not_neverOvertakes_of_switch {s' : Stage} {first : Coll} {tail : List Coll}
    (hd : Describes sh (front ++ s :: s' :: rest))
    (hmode : sh.mode = .baseline ∨ sh.mode = .provision) (hs : s.colls = init ++ [last])
    (hs' : s'.colls = first :: tail) (hall : ∀ c ∈ s.colls, c.backendId = last.backendId)
    (hne : first.backendId ≠ last.backendId) :
    ¬ NeverOvertakes sh (front ++ s :: s' :: rest) := by
  intro hnever
  have hself : onBackend s.colls last.backendId = s.colls := by
    simpa [onBackend] using hall
  have hempty : onBackend s.colls first.backendId = [] := by
    simp only [onBackend, List.filter_eq_nil_iff, decide_eq_true_eq]
    intro c hc hcb
    exact hne (hcb.symm.trans (hall c hc))
  have hord := issueOrder_switch front rest hs hs' hempty
  obtain ⟨as, has⟩ := hd.exists_stage_run hmode
  have hpre := run_pre hmode hd.scaleOut front.length (stageColls front) init
    (stageColls front) hord.left.left (hd.not_after_init hs)
  have hstart := callbackStep_pre hmode hd.scaleOut hord.left front.length front.length
    (stageColls front)
  have hnotlast : isCommChangeAfter sh (keyAfter sh (stageColls front ++ init) first).1
      (keyAfter sh (stageColls front ++ init) first).2 front.length = false := by
    rw [Bool.eq_false_iff, Ne, hd.isCommChangeAfter_iff hs]
    exact fun h => hne h.1
  rw [hnotlast] at hstart
  have hlast := callbackStep_pre hmode hd.scaleOut hord front.length front.length
    (stageColls front)
  have hkey : keyAfter sh (stageColls front ++ init ++ [first]) last =
      keyAfter sh (stageColls front ++ init) last := by
    rw [keyAfter, keyAfter, countersAfter_congr rfl]
    simp [hne]
  rw [hkey, hd.after_last hs] at hlast
  obtain ⟨as', completed, has', hstep⟩ := hd.exists_advance hs false (front.length + 1)
    (stageColls front ++ init ++ [first] ++ [last]) (by
      intro b
      rw [hself, hs]
      simp only [onBackend_append, List.length_append]
      omega)
  have hrun : run (callbackStep sh (stageColls (front ++ s :: s' :: rest))) .initial
      (as ++ (init.map (fun c => .pre c.backendId) ++
        (.pre first.backendId :: .pre last.backendId :: as'))) =
      some (.after sh false (front.length + 1) front.length
        (stageColls front ++ init ++ [first] ++ [last]) completed) := by
    rw [run_append_of_run has]
    refine (run_append_of_run hpre _).trans ?_
    refine (run_cons_of_step hstart _).trans ?_
    exact (run_cons_of_step hlast _).trans has'
  have hsafe := (hnever _ _ _ _ hrun hstep (by simp [Process.after])).2
  have hsplit : stageColls (front ++ s :: s' :: rest) =
      stageColls front ++ s.colls ++ first :: (tail ++ stageColls rest) := by simp [hs']
  obtain ⟨hget, hordinal⟩ := ordinal_of_split _ _ hsplit
  have hnext : stageStart (front ++ s :: s' :: rest) (front.length + 2) =
      (stageColls front ++ s.colls ++ s'.colls).length := by
    have hassoc : front ++ s :: s' :: rest = (front ++ [s]) ++ s' :: rest := by simp
    have := stageStart_succ (front ++ [s]) s' rest
    rw [hassoc]
    simpa [stageColls] using this
  have hnotstarted := hsafe _ first
    (by rw [Process.after, stageStart_succ])
    (by
      rw [Process.after]
      simp only
      rw [hnext]
      simp [hs']) hget
  rw [hordinal, Process.after, countersAfter_noCounters_coll] at hnotstarted
  simp only [onBackend_append, List.length_append, hempty, onBackend_singleton_self,
    List.length_nil, List.length_singleton] at hnotstarted
  omega

end Stages

/-! ## One backend -/

section OneBackend

variable {sh : Shim} {stages : List Stage}

theorem stageStart_of_le {k : ℕ} (h : stages.length ≤ k) :
    stageStart stages k = (stageColls stages).length := by
  rw [stageStart, List.take_of_length_le h]

/-- The stage at a position of the list. -/
theorem exists_stage_split {k : ℕ} (hk : k < stages.length) :
    ∃ front s rest, stages = front ++ s :: rest ∧ front.length = k :=
  ⟨stages.take k, stages[k], stages.drop (k + 1),
    by rw [← List.drop_eq_getElem_cons hk, List.take_append_drop], List.length_take_of_le hk.le⟩

theorem stageStart_lt {k : ℕ} (hk : k < stages.length) :
    stageStart stages k < stageStart stages (k + 1) ∧
      stageStart stages (k + 1) ≤ (stageColls stages).length := by
  obtain ⟨front, s, rest, rfl, rfl⟩ := exists_stage_split hk
  have hpos : 0 < s.colls.length := List.length_pos_iff.2 s.nonempty
  rw [stageStart_front, stageStart_succ]
  simp only [stageColls_append, stageColls_cons, List.length_append]
  omega

/-- A collective ends the stage exactly at the last position of the stage. -/
theorem Describes.after_iff (hd : Describes sh stages) {k i : ℕ} (hk : k < stages.length) {c : Coll}
    (hc : (stageColls stages)[i]? = some c) :
    isCommChangeAfter sh (keyAfter sh ((stageColls stages).take i) c).1
        (keyAfter sh ((stageColls stages).take i) c).2 k = true ↔
      i + 1 = stageStart stages (k + 1) := by
  obtain ⟨front, s, rest, rfl, rfl⟩ := exists_stage_split hk
  obtain ⟨init, last, hs⟩ := (List.eq_nil_or_concat' s.colls).resolve_left s.nonempty
  have hn : stageStart (front ++ s :: rest) (front.length + 1) =
      (stageColls front ++ init).length + 1 := by
    rw [stageStart_succ, hs, ← List.append_assoc, List.length_append, List.length_singleton]
  have hi : (keysFrom sh noCounters (stageColls (front ++ s :: rest)))[i]? =
      some (keyAfter sh ((stageColls (front ++ s :: rest)).take i) c) := by
    rw [getElem?_keysFrom, hc]
    rfl
  have hlast : (keysFrom sh noCounters (stageColls (front ++ s :: rest)))[
      (stageColls front ++ init).length]? = some (keyAfter sh (stageColls front ++ init) last) := by
    have hsplit : stageColls (front ++ s :: rest) =
        (stageColls front ++ init) ++ last :: stageColls rest := by simp [hs]
    rw [getElem?_keysFrom, hsplit, List.take_left]
    simp only [List.getElem?_append_right (Nat.le_refl _), Nat.sub_self,
      List.getElem?_cons_zero, Option.map_some]
    rfl
  rw [hd.isCommChangeAfter_iff hs, hn, Nat.add_right_cancel_iff]
  constructor
  · rintro ⟨hb, hcnt⟩
    have heq : keyAfter sh ((stageColls (front ++ s :: rest)).take i) c =
        keyAfter sh (stageColls front ++ init) last := Prod.ext hb hcnt
    rw [heq] at hi
    exact (List.getElem?_inj (List.getElem?_eq_some_iff.1 hi).1 hd.nodup).1 (hi.trans hlast.symm)
  · rintro rfl
    have heq := Option.some.inj (hi.symm.trans hlast)
    exact ⟨congrArg Prod.fst heq, congrArg Prod.snd heq⟩

/-- With one backend, the callbacks run in issue order: `i` collectives have started and `j` have
completed, all of the latter in the stages up to `k`; between the start and the completion of the
last collective of stage `k` nothing else starts. -/
def InOrder (sh : Shim) (stages : List Stage) (p : Process) : Prop :=
  ∃ i j k, j ≤ i ∧ i ≤ (stageColls stages).length ∧ stageStart stages k ≤ j ∧
    ((p = .after sh true k k ((stageColls stages).take i) ((stageColls stages).take j) ∧
        (k < stages.length → i < stageStart stages (k + 1))) ∨
      (p = .after sh false (k + 1) k ((stageColls stages).take i) ((stageColls stages).take j) ∧
        k < stages.length ∧ i = stageStart stages (k + 1) ∧ j < i))

theorem inOrder_initial : InOrder sh stages .initial := by
  refine ⟨0, 0, 0, Nat.le_refl _, Nat.zero_le _, Nat.zero_le _, .inl ⟨rfl, fun hk => ?_⟩⟩
  exact Nat.lt_of_le_of_lt (Nat.zero_le _) (stageStart_lt hk).1

/-- The next collective of the only backend. -/
theorem next_of_backend {cs : List Coll} {b b' n : ℕ} {c : Coll}
    (hall : ∀ c ∈ cs, c.backendId = b) (hn : n ≤ cs.length)
    (h : (onBackend cs b')[(countersAfter sh noCounters (cs.take n) b').coll]? = some c) :
    b' = c.backendId ∧ cs[n]? = some c ∧ cs.take n ++ [c] = cs.take (n + 1) := by
  obtain ⟨hmem, hb'⟩ := List.mem_filter.1 (List.mem_of_getElem? h)
  have hb : c.backendId = b' := of_decide_eq_true hb'
  have hself : ∀ ds : List Coll, (∀ d ∈ ds, d ∈ cs) → onBackend ds b' = ds := by
    intro ds hds
    refine List.filter_eq_self.2 fun d hd => decide_eq_true ?_
    rw [hall d (hds d hd), ← hb, hall c hmem]
  rw [countersAfter_noCounters_coll, hself cs fun _ h => h,
    hself _ fun d hd => List.mem_of_mem_take hd, List.length_take_of_le hn] at h
  exact ⟨hb.symm, h, by rw [List.take_add_one, h]; rfl⟩

/-- On the only backend, the collectives that have started. -/
theorem onBackend_take_length {cs : List Coll} {c : Coll} {n : ℕ}
    (hall : ∀ d ∈ cs, d.backendId = c.backendId) (hn : n ≤ cs.length) :
    (onBackend (cs.take n) c.backendId).length = n := by
  have : onBackend (cs.take n) c.backendId = cs.take n :=
    List.filter_eq_self.2 fun d hd => decide_eq_true (hall d (List.mem_of_mem_take hd))
  rw [this, List.length_take_of_le hn]

section Steps

variable {b i j k : ℕ} {p' : Process}

/-- A callback before a collective: the topology is ready, and the collective is the next one of
the current stage. -/
theorem Describes.pre_cases (hd : Describes sh stages)
    (hmode : sh.mode = .baseline ∨ sh.mode = .provision)
    (hall : ∀ c ∈ stageColls stages, c.backendId = b) (hi : i ≤ (stageColls stages).length)
    {topoReady : Bool} {stage b' : ℕ}
    (h : callbackStep sh (stageColls stages)
      (.after sh topoReady stage k ((stageColls stages).take i) ((stageColls stages).take j))
        (.pre b') = some p') :
    topoReady = true ∧ i < (stageColls stages).length ∧
      (stage < stages.length →
        p' = .after sh (!decide (i + 1 = stageStart stages (stage + 1)))
          (if i + 1 = stageStart stages (stage + 1) then stage + 1 else stage) k
          ((stageColls stages).take (i + 1)) ((stageColls stages).take j)) := by
  have hready : topoReady = true := by
    cases topoReady with
    | true => rfl
    | false =>
      simp [callbackStep, Process.after, preCollCallbackHelper] at h
  subst hready
  obtain ⟨c, hc, -⟩ := Option.bind_eq_some_iff.1 h
  obtain ⟨rfl, hget, htake⟩ := next_of_backend hall hi hc
  have hord : IssueOrder (stageColls stages) ((stageColls stages).take i ++ [c]) :=
    .of_initial (htake ▸ List.take_prefix _ _)
  have hstep := callbackStep_pre hmode hd.scaleOut hord stage k ((stageColls stages).take j)
  refine ⟨rfl, (List.getElem?_eq_some_iff.1 hget).1, fun hk => ?_⟩
  have hafter := Bool.eq_iff_iff.2 ((hd.after_iff hk hget).trans decide_eq_true_iff.symm)
  rw [h, hafter, htake, Option.some.injEq] at hstep
  simpa using hstep

/-- A callback after a collective: the collective is the next one of the current stage. -/
theorem Describes.post_cases (hd : Describes sh stages)
    (hall : ∀ c ∈ stageColls stages, c.backendId = b) (hi : i ≤ (stageColls stages).length)
    (hj : j ≤ i) {topoReady : Bool} {stage b' : ℕ}
    (h : callbackStep sh (stageColls stages)
      (.after sh topoReady stage k ((stageColls stages).take i) ((stageColls stages).take j))
        (.post b') = some p') :
    j < i ∧ (k < stages.length →
      p' = .after sh (if j + 1 = stageStart stages (k + 1) then true else topoReady) stage
        (if j + 1 = stageStart stages (k + 1) then k + 1 else k)
        ((stageColls stages).take i) ((stageColls stages).take (j + 1))) := by
  have hlt : (countersAfter sh noCounters ((stageColls stages).take j) b').coll <
      (countersAfter sh noCounters ((stageColls stages).take i) b').coll := by
    by_contra hge
    simp [callbackStep, Process.after, hge] at h
  have hmap := h
  simp only [callbackStep, Process.after, hlt, if_true, Option.map_eq_some_iff] at hmap
  obtain ⟨c, hc, -⟩ := hmap
  obtain ⟨rfl, hget, htake⟩ := next_of_backend hall (Nat.le_trans hj hi) hc
  have hallc : ∀ d ∈ stageColls stages, d.backendId = c.backendId := fun d hd' => by
    rw [hall d hd', hall c (List.mem_of_getElem? hget)]
  rw [countersAfter_noCounters_coll, countersAfter_noCounters_coll,
    onBackend_take_length hallc (Nat.le_trans hj hi), onBackend_take_length hallc hi] at hlt
  have hord : IssueOrder (stageColls stages) ((stageColls stages).take j ++ [c]) :=
    .of_initial (htake ▸ List.take_prefix _ _)
  have hstep := callbackStep_post sh ((stageColls stages).take i) hord
    (by rw [onBackend_take_length hallc (Nat.le_trans hj hi), onBackend_take_length hallc hi]
        exact hlt) topoReady stage k
  refine ⟨hlt, fun hk => ?_⟩
  have hafter := Bool.eq_iff_iff.2 ((hd.after_iff hk hget).trans decide_eq_true_iff.symm)
  rw [h, hafter, htake, Option.some.injEq] at hstep
  simpa using hstep

end Steps

/-- With one backend, every callback keeps the order. -/
theorem Describes.inOrder_step (hd : Describes sh stages)
    (hmode : sh.mode = .baseline ∨ sh.mode = .provision) {b : ℕ}
    (hall : ∀ c ∈ stageColls stages, c.backendId = b) (p : Process) (a : Callback) (p' : Process)
    (hp : InOrder sh stages p) (h : callbackStep sh (stageColls stages) p a = some p') :
    InOrder sh stages p' := by
  obtain ⟨i, j, k, hji, hi, hkj, ⟨rfl, hki⟩ | ⟨rfl, hk, hki, hlt⟩⟩ := hp
  · cases a with
    | pre b' =>
      obtain ⟨-, hilt, hp'⟩ := hd.pre_cases hmode hall hi h
      have hk : k < stages.length := by
        by_contra hge
        rw [stageStart_of_le (Nat.le_of_not_lt hge)] at hkj
        omega
      have hlt := hki hk
      rw [hp' hk]
      by_cases hlast : i + 1 = stageStart stages (k + 1)
      · refine ⟨i + 1, j, k, by omega, hilt, hkj, .inr ⟨?_, hk, hlast, by omega⟩⟩
        simp [hlast]
      · refine ⟨i + 1, j, k, by omega, hilt, hkj, .inl ⟨?_, fun _ => by omega⟩⟩
        simp [hlast]
    | post b' =>
      obtain ⟨hlt, hp'⟩ := hd.post_cases hall hi hji h
      have hk : k < stages.length := by
        by_contra hge
        rw [stageStart_of_le (Nat.le_of_not_lt hge)] at hkj
        omega
      have hlt' := hki hk
      have hne : j + 1 ≠ stageStart stages (k + 1) := by omega
      rw [hp' hk, if_neg hne, if_neg hne]
      exact ⟨i, j + 1, k, hlt, hi, by omega, .inl ⟨rfl, hki⟩⟩
  · cases a with
    | pre b' =>
      obtain ⟨hready, -⟩ := hd.pre_cases hmode hall hi h
      cases hready
    | post b' =>
      obtain ⟨-, hp'⟩ := hd.post_cases hall hi hji h
      rw [hp' hk]
      by_cases hlast : j + 1 = stageStart stages (k + 1)
      · rw [if_pos hlast, if_pos hlast]
        refine ⟨i, j + 1, k + 1, by omega, hi, hlast.ge, .inl ⟨rfl, fun hk' => ?_⟩⟩
        rw [hki]
        exact (stageStart_lt hk').1
      · rw [if_neg hlast, if_neg hlast]
        exact ⟨i, j + 1, k, by omega, hi, by omega, .inr ⟨rfl, hk, hki, by omega⟩⟩

/-- With one backend, a stage ends when all of its collectives have completed. -/
theorem Describes.neverOvertakes_of_backend (hd : Describes sh stages)
    (hmode : sh.mode = .baseline ∨ sh.mode = .provision) {b : ℕ}
    (hall : ∀ c ∈ stageColls stages, c.backendId = b) : NeverOvertakes sh stages := by
  intro as p p' b' hrun hstep hne
  have hp : InOrder sh stages p := run_invariant (hd.inOrder_step hmode hall) hrun inOrder_initial
  obtain ⟨i, j, k, hji, hi, hkj, ⟨rfl, hki⟩ | ⟨rfl, hk, hki, -⟩⟩ := hp
  · -- the last collective of the stage has not started
    exfalso
    obtain ⟨hlt, hp'⟩ := hd.post_cases hall hi hji hstep
    have hk : k < stages.length := by
      by_contra hge
      rw [stageStart_of_le (Nat.le_of_not_lt hge)] at hkj
      omega
    have hlt' := hki hk
    rw [hp' hk, if_neg (by omega), if_neg (by omega)] at hne
    exact hne rfl
  · obtain ⟨hlt, hp'⟩ := hd.post_cases hall hi hji hstep
    rw [hp' hk] at hne ⊢
    have hlast : j + 1 = stageStart stages (k + 1) := by
      by_contra hnot
      rw [if_neg hnot, if_neg hnot] at hne
      exact hne rfl
    have hordinal : ∀ (n : ℕ) (c : Coll), (stageColls stages)[n]? = some c →
        ordinal (stageColls stages) n c = n ∧
          ∀ m ≤ (stageColls stages).length,
            (onBackend ((stageColls stages).take m) c.backendId).length = m := by
      intro n c hc
      have hallc : ∀ d ∈ stageColls stages, d.backendId = c.backendId := fun d hd' => by
        rw [hall d hd', hall c (List.mem_of_getElem? hc)]
      exact ⟨onBackend_take_length hallc (List.getElem?_eq_some_iff.1 hc).1.le,
        fun m hm => onBackend_take_length hallc hm⟩
    refine ⟨fun n c _ hn hc _ => ?_, fun n c hn _ hc => ?_⟩
    · obtain ⟨hord, hlen⟩ := hordinal n c hc
      simp only [Process.after] at hn ⊢
      rw [hord, countersAfter_noCounters_coll, hlen (j + 1) (by omega)]
      omega
    · obtain ⟨hord, hlen⟩ := hordinal n c hc
      simp only [Process.after] at hn ⊢
      rw [hord, countersAfter_noCounters_coll, hlen i hi]
      omega

end OneBackend

/-! ## All interleavings -/

/-- When every stage is on one backend and consecutive stages are on the same one, all collectives
are on one backend. -/
theorem exists_backend_of_uniform {stages : List Stage}
    (hspread : ∀ front s rest, stages = front ++ s :: rest → ∀ init last,
      s.colls = init ++ [last] → ∀ c ∈ s.colls, c.backendId = last.backendId)
    (hswitch : ∀ front s s' rest, stages = front ++ s :: s' :: rest → ∀ init last first tail,
      s.colls = init ++ [last] → s'.colls = first :: tail → first.backendId = last.backendId) :
    ∃ b, ∀ c ∈ stageColls stages, c.backendId = b := by
  induction stages with
  | nil => exact ⟨0, by simp [stageColls]⟩
  | cons s stages ih =>
    obtain ⟨init, last, hs⟩ := (List.eq_nil_or_concat' s.colls).resolve_left s.nonempty
    obtain ⟨b, hb⟩ := ih
      (fun front s' rest h => hspread (s :: front) s' rest (by rw [h]; rfl))
      (fun front s' s'' rest h => hswitch (s :: front) s' s'' rest (by rw [h]; rfl))
    refine ⟨last.backendId, fun c hc => ?_⟩
    rcases List.mem_append.1 hc with hc | hc
    · exact hspread [] s stages rfl init last hs c hc
    · cases stages with
      | nil => simp at hc
      | cons s' rest =>
        obtain ⟨first, tail, hs'⟩ := List.exists_cons_of_ne_nil s'.nonempty
        have hfirst := hswitch [] s s' rest rfl init last first tail hs hs'
        rw [hb c hc, ← hb first (by simp [hs']), hfirst]

/-- **No interleaving lets a stage change overtake a collective exactly when all collectives are
on one backend.** -/
theorem neverOvertakes_iff {sh : Shim} {stages : List Stage} (hd : Describes sh stages)
    (hmode : sh.mode = .baseline ∨ sh.mode = .provision) :
    NeverOvertakes sh stages ↔ ∃ b, ∀ c ∈ stageColls stages, c.backendId = b := by
  refine ⟨fun hnever => ?_, fun ⟨b, hall⟩ => hd.neverOvertakes_of_backend hmode hall⟩
  refine exists_backend_of_uniform ?_ ?_
  · rintro front s rest rfl init last hs c hc
    by_contra hne
    exact hd.not_neverOvertakes_of_spread hmode hs hc hne hnever
  · rintro front s s' rest rfl init last first tail hs hs'
    by_contra hne
    by_cases hall : ∀ c ∈ s.colls, c.backendId = last.backendId
    · exact hd.not_neverOvertakes_of_switch hmode hs hs' hall hne hnever
    · push Not at hall
      obtain ⟨c, hc, hcne⟩ := hall
      exact hd.not_neverOvertakes_of_spread hmode hs hc hcne hnever

/-- Two stages of one collective each, on one backend. -/
def oneBackendStages : List Stage := [dataStage, dataStage]

/-- One stage with a collective on each of two backends. -/
def twoBackendStages : List Stage := [⟨[⟨1, 2, .collective⟩, ⟨1, 5, .collective⟩], false, by simp⟩]

/-- A process that replays the stages of a list. -/
def stageShim (commStages : List CommStage) : Shim :=
  { pipelineShim 0 with commStages := commStages }

theorem describes_oneBackendStages :
    Describes (stageShim [⟨5, 0, 5, 0⟩, ⟨5, 1, 5, 1⟩]) oneBackendStages where
  commStages_eq := by decide
  scaleOut := by decide
  backend_lt := by decide
  nodup := by decide

theorem neverOvertakes_oneBackendStages :
    NeverOvertakes (stageShim [⟨5, 0, 5, 0⟩, ⟨5, 1, 5, 1⟩]) oneBackendStages :=
  (neverOvertakes_iff describes_oneBackendStages (.inl rfl)).2 ⟨5, by decide⟩

theorem describes_twoBackendStages : Describes (stageShim [⟨2, 0, 5, 0⟩]) twoBackendStages where
  commStages_eq := by decide
  scaleOut := by decide
  backend_lt := by decide
  nodup := by decide

/-- Both collectives of the stage start, and the one on backend 5 ends the stage while the one on
backend 2 is still running. -/
theorem not_neverOvertakes_twoBackendStages :
    Describes (stageShim [⟨2, 0, 5, 0⟩]) twoBackendStages ∧
      ((run (callbackStep (stageShim [⟨2, 0, 5, 0⟩]) (stageColls twoBackendStages)) .initial
        [.pre 2, .pre 5, .post 5]).map fun p =>
          (p.curCommStageIdxPost, (p.pre 2).coll, (p.post 2).coll)) = some (1, 1, 0) ∧
      ¬ NeverOvertakes (stageShim [⟨2, 0, 5, 0⟩]) twoBackendStages := by
  have hd : Describes (stageShim [⟨2, 0, 5, 0⟩]) ([] ++ twoBackendStages) :=
    describes_twoBackendStages
  have hs : [⟨1, 2, .collective⟩, ⟨1, 5, .collective⟩] =
      [(⟨1, 2, .collective⟩ : Coll)] ++ [⟨1, 5, .collective⟩] := rfl
  refine ⟨hd, by decide, ?_⟩
  exact hd.not_neverOvertakes_of_spread (.inl rfl) hs (c := ⟨1, 2, .collective⟩) (by simp)
    (by decide)

end Opus
