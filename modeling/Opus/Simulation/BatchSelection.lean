import Opus.Simulation.StageState

/-!
# The selection of a batch

When the window of a batch has passed, the scheduler goes through the pending requests in order. A
request that the stages selected so far satisfy is skipped, and so is one that needs a stage another
request has touched; every other request is applied and touches its stages.

An applied request keeps its stages. A request that was skipped as satisfied has touched none: where
it needs two stages, and only one of them was written for another request, a later request may still
take the other. It then stays pending.

The order of the requests is total, and the arrival stamp is not part of it, so a batch depends on
the set of pending requests only.

## Main definitions

* `Selection`: what holds of the stages, the touched stages and the applied requests of the loop
* `ServesBatch`: which requests the selected stages satisfy
* `PendingTopoRequest`, `addPending`: requests with their arrival stamp
* `SortsTo`: the lists that `std::sort` may leave
* `selectBatch`, `pendingBatch`: the stages of a batch, their topology id and the requests that remain pending

## Main results

* `selection_selectRequests`, `selectRequests_keeps`: the invariant of the loop, and what later
  steps keep
* `servesBatch`: every batch serves its applied requests, and exactly which of the skipped ones
* `eq_of_sortsTo`: sorting forgets the order of arrival and the repetitions
* `selectBatch_arrivalOrder`: a batch depends on the set of pending requests
* `decimalReconfig_pending`: the pending requests of `pre_reconfig` are those of the arrivals
-/

namespace Opus.Simulation

/-! ## Requests and stages -/

section Requests

variable {r u : TopoRequest} {n d i : ℕ} {stages stages' : List ℕ}

theorem TopoRequest.dst?_eq_some_iff :
    r.dst? n = some d ↔ r.dim = 0 ∧ r.dstStage = d ∧ d < n := by
  unfold TopoRequest.dst?
  split
  · rw [Option.some_inj]
    omega
  · simp only [reduceCtorEq, false_iff]
    omega

/-- The stages a request touches. -/
theorem TopoRequest.mem_stages_iff :
    (i : ℤ) ∈ r.stages n ↔ i < n ∧ (i = r.stage ∨ r.dst? n = some i) := by
  simp only [TopoRequest.stages, List.mem_filter, decide_eq_true_eq, dst?_eq_some_iff]
  split
  · simp only [List.mem_cons, List.not_mem_nil, or_false]
    omega
  · simp only [List.mem_singleton]
    omega

theorem requestSatisfied_iff :
    requestSatisfied r stages = true ↔ stages.length ≤ r.stage ∨
      (stages[r.stage]? = some r.dim ∧ ∀ d, r.dst? stages.length = some d → stages[d]? = some 0) := by
  unfold requestSatisfied
  split
  · next hle => simp [hle]
  · next hlt =>
    split
    · next hne => simp [hlt, hne]
    · next heq =>
      cases hd : r.dst? stages.length with
      | none => simp_all
      | some d => simp_all

/-- Whether a request is satisfied depends on its own stages. -/
theorem requestSatisfied_congr (hlen : stages.length = stages'.length)
    (h : ∀ i : ℕ, (i : ℤ) ∈ r.stages stages.length → stages[i]? = stages'[i]?) :
    requestSatisfied r stages = requestSatisfied r stages' := by
  rw [Bool.eq_iff_iff, requestSatisfied_iff, requestSatisfied_iff, ← hlen]
  by_cases hle : stages.length ≤ r.stage
  · simp [hle]
  · have hstage := h r.stage (TopoRequest.mem_stages_iff.mpr ⟨by omega, .inl rfl⟩)
    have hdst : ∀ d, r.dst? stages.length = some d → stages[d]? = stages'[d]? := fun d hd =>
      h d (TopoRequest.mem_stages_iff.mpr ⟨(TopoRequest.dst?_eq_some_iff.mp hd).2.2, .inr hd⟩)
    rw [hstage]
    refine or_congr Iff.rfl (and_congr Iff.rfl (forall_congr' fun d => ?_))
    refine ⟨fun hall hd => ?_, fun hall hd => ?_⟩
    · rw [← hdst d hd]
      exact hall hd
    · rw [hdst d hd]
      exact hall hd

/-- A request leaves the stages it does not touch. -/
theorem getElem?_applyRequest_of_not_mem (hi : (i : ℤ) ∉ r.stages stages.length) :
    (applyRequest stages r)[i]? = stages[i]? := by
  rw [TopoRequest.mem_stages_iff] at hi
  unfold applyRequest
  by_cases hlt : i < stages.length
  · have hne : r.stage ≠ i := fun h => hi ⟨hlt, .inl h.symm⟩
    cases hd : r.dst? stages.length with
    | none => exact List.getElem?_set_ne hne
    | some d =>
      have hne' : d ≠ i := fun h => hi ⟨hlt, .inr (h ▸ hd)⟩
      simp only []
      rw [List.getElem?_set_ne hne', List.getElem?_set_ne hne]
  · rw [List.getElem?_eq_none (not_lt.mp hlt), List.getElem?_eq_none]
    have hlen := length_applyRequest stages r
    unfold applyRequest at hlen
    omega

/-- What a request writes. -/
theorem getElem?_applyRequest (hs : r.stage < stages.length) :
    (applyRequest stages r)[r.stage]? = some r.dim ∧
      ∀ d, r.dst? stages.length = some d → (applyRequest stages r)[d]? = some 0 := by
  unfold applyRequest
  cases hd : r.dst? stages.length with
  | none => exact ⟨List.getElem?_set_self hs, fun d h => absurd h (by simp)⟩
  | some d =>
    obtain ⟨hdim, -, hlt⟩ := TopoRequest.dst?_eq_some_iff.mp hd
    have hd0 : ((stages.set r.stage r.dim).set d 0)[d]? = some 0 :=
      List.getElem?_set_self (by simpa using hlt)
    refine ⟨?_, fun d' h => ?_⟩
    · by_cases he : d = r.stage
      · -- a transfer to its own stage writes it twice
        subst he
        rw [hdim] at hd0 ⊢
        exact hd0
      · simp only []
        rw [List.getElem?_set_ne he]
        exact List.getElem?_set_self hs
    · cases h
      exact hd0

theorem requestSatisfied_applyRequest (hs : r.stage < stages.length) :
    requestSatisfied r (applyRequest stages r) = true := by
  rw [requestSatisfied_iff, length_applyRequest]
  exact .inr (getElem?_applyRequest hs)

end Requests

/-! ## The loop -/

section Loop

variable {stages : List ℕ} {pending front back : List TopoRequest} {r u : TopoRequest} {i : ℕ}

/-- One step of the loop, at the end of the list. -/
theorem selectRequests_concat (stages : List ℕ) (front : List TopoRequest) (r : TopoRequest) :
    (selectRequests stages (front ++ [r]) = selectRequests stages front ∧
        (requestSatisfied r (selectRequests stages front).1 = true ∨
          ∃ i ∈ r.stages stages.length, i ∈ (selectRequests stages front).2.1)) ∨
      (requestSatisfied r (selectRequests stages front).1 = false ∧
        (∀ i ∈ r.stages stages.length, i ∉ (selectRequests stages front).2.1) ∧
        selectRequests stages (front ++ [r]) =
          (applyRequest (selectRequests stages front).1 r,
            r.stages stages.length ++ (selectRequests stages front).2.1,
            (selectRequests stages front).2.2 ++ [r])) := by
  obtain ⟨acc, hacc⟩ : ∃ acc, acc = selectRequests stages front := ⟨_, rfl⟩
  have hfold : selectRequests stages (front ++ [r]) =
      if requestSatisfied r acc.1 ∨ ∃ i ∈ r.stages stages.length, i ∈ acc.2.1 then acc
      else (applyRequest acc.1 r, r.stages stages.length ++ acc.2.1, acc.2.2 ++ [r]) := by
    rw [hacc, selectRequests, List.foldl_append]
    rfl
  rw [← hacc, hfold]
  by_cases hskip : requestSatisfied r acc.1 ∨ ∃ i ∈ r.stages stages.length, i ∈ acc.2.1
  · rw [if_pos hskip]
    exact .inl ⟨rfl, hskip⟩
  · rw [if_neg hskip]
    push Not at hskip
    exact .inr ⟨by simpa using hskip.1, hskip.2, rfl⟩

/-- A selected batch: stages that are not touched are as before, and the applied requests are
satisfied and have touched their stages. -/
structure Selection (stages : List ℕ) (acc : List ℕ × List ℤ × List TopoRequest) : Prop where
  length_eq : acc.1.length = stages.length
  untouched : ∀ i : ℕ, (i : ℤ) ∉ acc.2.1 → acc.1[i]? = stages[i]?
  applied : ∀ u ∈ acc.2.2, u.stage < stages.length ∧ requestSatisfied u acc.1 = true ∧
    ∀ i ∈ u.stages stages.length, i ∈ acc.2.1

/-- Applying a request that touches no touched stage. -/
theorem Selection.apply {acc : List ℕ × List ℤ × List TopoRequest} (h : Selection stages acc)
    (hr : requestSatisfied r acc.1 = false) (hfree : ∀ i ∈ r.stages stages.length, i ∉ acc.2.1) :
    Selection stages
      (applyRequest acc.1 r, r.stages stages.length ++ acc.2.1, acc.2.2 ++ [r]) where
  length_eq := by rw [length_applyRequest, h.length_eq]
  untouched := by
    intro i hi
    rw [List.mem_append, not_or] at hi
    rw [getElem?_applyRequest_of_not_mem (by rw [h.length_eq]; exact hi.1)]
    exact h.untouched i hi.2
  applied := by
    have hstage : r.stage < acc.1.length := by
      by_contra hle
      rw [requestSatisfied_iff.mpr (.inl (not_lt.mp hle))] at hr
      cases hr
    intro u hu
    rcases List.mem_append.mp hu with hu | hu
    · -- an earlier request has touched its stages, so they are left
      obtain ⟨hlt, hsat, htouched⟩ := h.applied u hu
      refine ⟨hlt, ?_, fun i hi => List.mem_append_right _ (htouched i hi)⟩
      rw [← hsat]
      apply requestSatisfied_congr (length_applyRequest _ _)
      intro i hi
      rw [length_applyRequest, h.length_eq] at hi
      apply getElem?_applyRequest_of_not_mem
      rw [h.length_eq]
      exact fun hmem => hfree i hmem (htouched i hi)
    · rw [List.mem_singleton.mp hu]
      exact ⟨h.length_eq ▸ hstage, requestSatisfied_applyRequest hstage,
        fun i hi => List.mem_append_left _ hi⟩

/-- **The invariant of the selection.** -/
theorem selection_selectRequests (stages : List ℕ) (pending : List TopoRequest) :
    Selection stages (selectRequests stages pending) := by
  induction pending using List.reverseRecOn with
  | nil => exact ⟨rfl, fun _ _ => rfl, fun u hu => absurd hu List.not_mem_nil⟩
  | append_singleton front r ih =>
    rcases selectRequests_concat stages front r with ⟨heq, -⟩ | ⟨hr, hfree, heq⟩
    · rw [heq]
      exact ih
    · rw [heq]
      exact ih.apply hr hfree

/-- Later steps keep the touched stages, and the applied requests. -/
theorem selectRequests_keeps (stages : List ℕ) (front back : List TopoRequest) :
    (∀ i : ℕ, (i : ℤ) ∈ (selectRequests stages front).2.1 →
        (i : ℤ) ∈ (selectRequests stages (front ++ back)).2.1 ∧
          (selectRequests stages (front ++ back)).1[i]? = (selectRequests stages front).1[i]?) ∧
      (selectRequests stages front).2.2 ⊆ (selectRequests stages (front ++ back)).2.2 := by
  induction back using List.reverseRecOn with
  | nil => simp
  | append_singleton back r ih =>
    rw [← List.append_assoc]
    rcases selectRequests_concat stages (front ++ back) r with ⟨heq, -⟩ | ⟨-, hfree, heq⟩
    · rw [heq]
      exact ih
    · rw [heq]
      refine ⟨fun i hi => ?_, fun u hu => List.mem_append_left _ (ih.2 hu)⟩
      obtain ⟨hmem, hget⟩ := ih.1 i hi
      refine ⟨List.mem_append_right _ hmem, ?_⟩
      rw [getElem?_applyRequest_of_not_mem, hget]
      rw [length_selectRequests]
      exact fun hi' => hfree i hi' hmem

/-- A stage that was zero and is no longer has been written by an applied request. -/
theorem exists_applied_of_ne_zero (stages : List ℕ) (front back : List TopoRequest)
    (hzero : (selectRequests stages front).1[i]? = some 0)
    (hne : (selectRequests stages (front ++ back)).1[i]? ≠ some 0) :
    ∃ u ∈ (selectRequests stages (front ++ back)).2.2, u.dim ≠ 0 ∧ u.stage = i := by
  induction back using List.reverseRecOn with
  | nil =>
    rw [List.append_nil] at hne
    exact absurd hzero hne
  | append_singleton back r ih =>
    rw [← List.append_assoc] at hne ⊢
    rcases selectRequests_concat stages (front ++ back) r with ⟨heq, -⟩ | ⟨hr, -, heq⟩
    · rw [heq] at hne ⊢
      exact ih hne
    · rw [heq] at hne ⊢
      by_cases hold : (selectRequests stages (front ++ back)).1[i]? = some 0
      · -- the last request has written it: with its dimension, as its other write is a zero
        refine ⟨r, by simp, ?_⟩
        have hstage : r.stage < (selectRequests stages (front ++ back)).1.length := by
          by_contra hle
          rw [requestSatisfied_iff.mpr (.inl (not_lt.mp hle))] at hr
          cases hr
        obtain ⟨hdim, hdst⟩ := getElem?_applyRequest hstage
        have hmem : (i : ℤ) ∈ r.stages (selectRequests stages (front ++ back)).1.length := by
          by_contra hnot
          exact hne ((getElem?_applyRequest_of_not_mem hnot).trans hold)
        rcases (TopoRequest.mem_stages_iff.mp hmem).2 with rfl | hd
        · refine ⟨fun h0 => hne ?_, rfl⟩
          rw [hdim, h0]
        · exact absurd (hdst i hd) hne
      · obtain ⟨u, hu, hudim, hui⟩ := ih hold
        exact ⟨u, List.mem_append_left _ hu, hudim, hui⟩

end Loop

/-! ## What a batch serves -/

/-- Which requests the stages of a batch satisfy, and which remain pending. -/
structure ServesBatch (stages : List ℕ) (pending : List TopoRequest) : Prop where
  /-- The applied requests are satisfied. -/
  applied : ∀ r ∈ (selectRequests stages pending).2.2,
    requestSatisfied r (selectRequests stages pending).1 = true
  /-- A request that was skipped as satisfied still is, unless it is a transfer and an applied
  request has set the stage of one of its ends to another dimension. -/
  skipped : ∀ front r back, pending = front ++ r :: back →
    requestSatisfied r (selectRequests stages front).1 = true →
    (requestSatisfied r (selectRequests stages pending).1 = true ↔
      ∀ d, r.dst? stages.length = some d → d ≠ r.stage →
        ∀ u ∈ (selectRequests stages pending).2.2, u.dim ≠ 0 → u.stage ≠ r.stage ∧ u.stage ≠ d)
  /-- A request that is not satisfied in the end remains pending. -/
  remains : ∀ r ∈ pending, requestSatisfied r (selectRequests stages pending).1 = false →
    r ∈ pending.filter fun q => !requestSatisfied q (selectRequests stages pending).1
  /-- The first request is applied. -/
  nonempty : pending ≠ [] → (selectRequests stages pending).2.2 ≠ []

section Serves

variable {stages : List ℕ} {pending front back : List TopoRequest} {r u : TopoRequest}

/-- An applied request of another dimension has its stage. -/
theorem getElem?_of_applied (hu : u ∈ (selectRequests stages pending).2.2) :
    (selectRequests stages pending).1[u.stage]? = some u.dim := by
  have hsel := selection_selectRequests stages pending
  obtain ⟨hlt, hsat, -⟩ := hsel.applied u hu
  rcases requestSatisfied_iff.mp hsat with hle | ⟨hdim, -⟩
  · rw [hsel.length_eq] at hle
    omega
  · exact hdim

/-- A request that has become satisfied has one of its stages touched. -/
theorem exists_touched (hunsat : requestSatisfied r stages = false)
    (hsat : requestSatisfied r (selectRequests stages front).1 = true) :
    ∃ i : ℕ, (i : ℤ) ∈ r.stages stages.length ∧ (i : ℤ) ∈ (selectRequests stages front).2.1 := by
  by_contra hnone
  push Not at hnone
  have hsel := selection_selectRequests stages front
  rw [requestSatisfied_congr hsel.length_eq (r := r)] at hsat
  · rw [hunsat] at hsat
    cases hsat
  · intro i hi
    rw [hsel.length_eq] at hi
    exact hsel.untouched i (hnone i hi)

/-- A skipped request with one stage stays satisfied. -/
theorem satisfied_of_single (hunsat : requestSatisfied r stages = false)
    (hsat : requestSatisfied r (selectRequests stages front).1 = true)
    (hsingle : ∀ d, r.dst? stages.length = some d → d = r.stage) :
    requestSatisfied r (selectRequests stages (front ++ back)).1 = true := by
  have hlen : ∀ l, (selectRequests stages l).1.length = stages.length :=
    length_selectRequests stages
  obtain ⟨i, hi, htouched⟩ := exists_touched hunsat hsat
  have hone : ∀ j : ℕ, (j : ℤ) ∈ r.stages stages.length → j = r.stage := by
    intro j hj
    rcases (TopoRequest.mem_stages_iff.mp hj).2 with h | h
    · exact h
    · exact hsingle j h
  rw [← hsat]
  apply requestSatisfied_congr ((hlen _).trans (hlen _).symm)
  intro j hj
  rw [hlen] at hj
  rw [hone j hj, ← hone i hi]
  exact ((selectRequests_keeps stages front back).1 i htouched).2

/-- A skipped transfer stays satisfied exactly when neither of its stages is set to another
dimension. -/
theorem satisfied_iff_of_transfer {d : ℕ} (hd : r.dst? stages.length = some d)
    (hunsat : requestSatisfied r stages = false)
    (hsat : requestSatisfied r (selectRequests stages front).1 = true) :
    requestSatisfied r (selectRequests stages (front ++ back)).1 = true ↔
      ∀ u ∈ (selectRequests stages (front ++ back)).2.2, u.dim ≠ 0 →
        u.stage ≠ r.stage ∧ u.stage ≠ d := by
  have hlen : ∀ l, (selectRequests stages l).1.length = stages.length :=
    length_selectRequests stages
  have hstage : r.stage < stages.length := by
    by_contra hle
    rw [requestSatisfied_iff.mpr (.inl (not_lt.mp hle))] at hunsat
    cases hunsat
  have hdim : r.dim = 0 := (TopoRequest.dst?_eq_some_iff.mp hd).1
  -- a transfer needs a zero at both ends
  have hiff : ∀ l, requestSatisfied r (selectRequests stages l).1 = true ↔
      (selectRequests stages l).1[r.stage]? = some 0 ∧
        (selectRequests stages l).1[d]? = some 0 := by
    intro l
    rw [requestSatisfied_iff, hlen, hd, hdim]
    simp only [not_le.mpr hstage, false_or, Option.some.injEq, forall_eq']
  rw [hiff] at hsat ⊢
  refine ⟨fun ⟨hzero, hzero'⟩ u hu hudim => ⟨fun he => hudim ?_, fun he => hudim ?_⟩, fun hall => ?_⟩
  · rw [← he, getElem?_of_applied hu] at hzero
    exact Option.some.inj hzero
  · rw [← he, getElem?_of_applied hu] at hzero'
    exact Option.some.inj hzero'
  · refine ⟨?_, ?_⟩
    · by_contra hne
      obtain ⟨u, hu, hudim, he⟩ := exists_applied_of_ne_zero stages front back hsat.1 hne
      exact (hall u hu hudim).1 he
    · by_contra hne
      obtain ⟨u, hu, hudim, he⟩ := exists_applied_of_ne_zero stages front back hsat.2 hne
      exact (hall u hu hudim).2 he

end Serves

/-- **A batch serves the requests it applies, and the skipped ones whose stages no applied request
sets to another dimension.** -/
theorem servesBatch {stages : List ℕ} {pending : List TopoRequest}
    (hunsat : ∀ r ∈ pending, requestSatisfied r stages = false) : ServesBatch stages pending where
  applied := fun r hr => ((selection_selectRequests stages pending).applied r hr).2.1
  skipped := by
    rintro front r back rfl hsat
    have hr : requestSatisfied r stages = false := hunsat r (by simp)
    by_cases hsingle : ∀ d, r.dst? stages.length = some d → d = r.stage
    · refine iff_of_true (satisfied_of_single hr hsat hsingle) ?_
      intro d hd hne
      exact absurd (hsingle d hd) hne
    · push Not at hsingle
      obtain ⟨d, hd, hne⟩ := hsingle
      rw [satisfied_iff_of_transfer hd hr hsat]
      refine ⟨fun hall d' hd' _ => ?_, fun hall => hall d hd hne⟩
      rw [hd] at hd'
      cases hd'
      exact hall
  remains := by
    intro r hr hfalse
    rw [List.mem_filter]
    exact ⟨hr, by simp [hfalse]⟩
  nonempty := by
    intro hne
    obtain ⟨r, back, rfl⟩ := List.exists_cons_of_ne_nil hne
    -- the first request finds no touched stage
    have hfirst : r ∈ (selectRequests stages ([] ++ [r])).2.2 := by
      rcases selectRequests_concat stages [] r with ⟨-, hsat | ⟨i, -, hi⟩⟩ | ⟨-, -, heq⟩
      · have hr : requestSatisfied r stages = false := hunsat r (by simp)
        exact absurd hsat (by simp [selectRequests, hr])
      · exact absurd hi List.not_mem_nil
      · rw [heq]
        exact List.mem_append_right _ (List.mem_singleton_self r)
    exact List.ne_nil_of_mem ((selectRequests_keeps stages [r] back).2 hfirst)

/-- A transfer from the first stage to the second, one from the second to the third, and a
data-parallel collective of the third. -/
def chainedRequests : List TopoRequest := [⟨0, 0, 1⟩, ⟨1, 0, 2⟩, ⟨2, 1, -1⟩]

theorem servesBatch_chainedRequests : ServesBatch [1, 1, 0] chainedRequests :=
  servesBatch (by decide)

/-- The first transfer satisfies the second; the collective then takes the third stage. -/
theorem not_served_chainedRequests :
    chainedRequests.Pairwise requestLe ∧ chainedRequests.Nodup ∧
      (∀ r ∈ chainedRequests, requestSatisfied r [1, 1, 0] = false) ∧
      requestSatisfied ⟨1, 0, 2⟩ (selectRequests [1, 1, 0] [⟨0, 0, 1⟩]).1 = true ∧
      (selectRequests [1, 1, 0] chainedRequests).1 = [0, 0, 1] ∧
      requestSatisfied ⟨1, 0, 2⟩ (selectRequests [1, 1, 0] chainedRequests).1 = false := by
  refine ⟨by decide, by decide, by decide, by decide, by decide, by decide⟩

/-! ## The order of arrival -/

/-- `PendingTopoRequest` with its arrival stamp. -/
structure PendingTopoRequest extends TopoRequest where
  seq : ℕ
  deriving DecidableEq, Repr

/-- The static vector of pending requests and the next stamp. -/
structure PendingQueue where
  nextSeq : ℕ
  pending : List PendingTopoRequest

/-- `add_pending_request`. -/
def addPending (q : PendingQueue) (r : TopoRequest) : PendingQueue :=
  if ∃ existing ∈ q.pending, existing.toTopoRequest = r then q
  else ⟨q.nextSeq + 1, q.pending ++ [⟨r, q.nextSeq⟩]⟩

/-- `request_less`. -/
def requestLess (a b : TopoRequest) : Prop :=
  a.stage < b.stage ∨ a.stage = b.stage ∧ (dimPriority a.dim < dimPriority b.dim ∨
    dimPriority a.dim = dimPriority b.dim ∧ a.dstStage < b.dstStage)

instance : DecidableRel requestLess := fun _ _ => inferInstanceAs (Decidable (_ ∨ _))

/-- What `std::sort` with `request_less` may leave: it need not keep the order of equivalent
requests. -/
def SortsTo (pending sorted : List PendingTopoRequest) : Prop :=
  sorted.Perm pending ∧
    sorted.Pairwise fun a b => ¬ requestLess b.toTopoRequest a.toTopoRequest

/-- `Scheduler::pre_reconfig` on the sorted requests: the stages of the batch, the topology id it
asks for, and the requests that remain pending when it is accepted. -/
def selectBatch (stages : List ℕ) (sorted : List PendingTopoRequest) :
    List ℕ × ℕ × List PendingTopoRequest :=
  let pending := sorted.filter fun q => !requestSatisfied q.toTopoRequest stages
  let next := (selectRequests stages (pending.map PendingTopoRequest.toTopoRequest)).1
  (next, topoIdFromStageState 10 next,
    pending.filter fun q => !requestSatisfied q.toTopoRequest next)

section Order

theorem dimPriority_injective : Function.Injective dimPriority := by
  intro a b h
  unfold dimPriority at h
  split at h
  · split at h
    · omega
    · split at h <;> omega
  · split at h
    · split at h
      · omega
      · split at h <;> omega
    · split at h
      · omega
      · split at h <;> omega

theorem requestLe_iff {a b : TopoRequest} : requestLe a b ↔ ¬ requestLess b a := by
  unfold requestLe requestLess
  omega

/-- `request_less` tells distinct requests apart. -/
theorem requestLe_antisymm {a b : TopoRequest} (hab : requestLe a b) (hba : requestLe b a) :
    a = b := by
  have hprio : dimPriority a.dim = dimPriority b.dim := by
    unfold requestLe at hab hba
    omega
  obtain ⟨s, d, e⟩ := a
  obtain ⟨s', d', e'⟩ := b
  have hdim : d = d' := dimPriority_injective hprio
  subst hdim
  unfold requestLe at hab hba
  simp only at hab hba
  have hstage : s = s' := by omega
  have hdst : e = e' := by omega
  rw [hstage, hdst]

instance : Std.Total requestLe := ⟨fun a b => by unfold requestLe; omega⟩

instance : IsTrans TopoRequest requestLe := ⟨fun a b c => by unfold requestLe; omega⟩

/-- Two sorted lists of distinct requests with the same members are equal. -/
theorem eq_of_pairwise_requestLe {l l' : List TopoRequest} (hl : l.Pairwise requestLe)
    (hl' : l'.Pairwise requestLe) (hnd : l.Nodup) (hnd' : l'.Nodup) (h : ∀ r, r ∈ l ↔ r ∈ l') :
    l = l' :=
  ((List.perm_ext_iff_of_nodup hnd hnd').mpr h).eq_of_pairwise
    (fun _ _ _ _ => requestLe_antisymm) hl hl'

end Order

section Arrivals

variable {arrivals arrivals' : List TopoRequest} {stages : List ℕ} {r : TopoRequest}

theorem mem_foldl_addPendingRequest (arrivals pending : List TopoRequest) :
    r ∈ arrivals.foldl addPendingRequest pending ↔ r ∈ pending ∨ r ∈ arrivals := by
  induction arrivals generalizing pending with
  | nil => simp
  | cons a arrivals ih =>
    rw [List.foldl_cons, ih, addPendingRequest]
    split
    · next hmem =>
      rw [List.mem_cons]
      refine ⟨?_, ?_⟩
      · rintro (h | h)
        · exact .inl h
        · exact .inr (.inr h)
      · rintro (h | rfl | h)
        · exact .inl h
        · exact .inl hmem
        · exact .inr h
    · simp only [List.mem_append, List.mem_cons, List.not_mem_nil, or_false, or_assoc]

theorem nodup_addPendingRequest {pending : List TopoRequest} (h : pending.Nodup)
    (r : TopoRequest) : (addPendingRequest pending r).Nodup := by
  unfold addPendingRequest
  split
  · exact h
  · next hmem => exact List.nodup_append.mpr ⟨h, List.nodup_singleton r, by grind⟩

theorem nodup_foldl_addPendingRequest (arrivals : List TopoRequest) {pending : List TopoRequest}
    (h : pending.Nodup) : (arrivals.foldl addPendingRequest pending).Nodup := by
  induction arrivals generalizing pending with
  | nil => exact h
  | cons a arrivals ih => exact ih (nodup_addPendingRequest h a)

/-- Without the stamps, the requests are added as in `addPendingRequest`. -/
theorem map_foldl_addPending (arrivals : List TopoRequest) (q : PendingQueue) :
    (arrivals.foldl addPending q).pending.map PendingTopoRequest.toTopoRequest =
      arrivals.foldl addPendingRequest (q.pending.map PendingTopoRequest.toTopoRequest) := by
  induction arrivals generalizing q with
  | nil => rfl
  | cons a arrivals ih =>
    have hstep : (addPending q a).pending.map PendingTopoRequest.toTopoRequest =
        addPendingRequest (q.pending.map PendingTopoRequest.toTopoRequest) a := by
      unfold addPending addPendingRequest
      by_cases hex : ∃ existing ∈ q.pending, existing.toTopoRequest = a
      · rw [if_pos hex, if_pos (List.mem_map.mpr hex)]
      · rw [if_neg hex, if_neg (mt List.mem_map.mp hex), List.map_append]
        rfl
    rw [List.foldl_cons, ih, hstep, List.foldl_cons]

/-- A sorted queue has each request that arrived once. -/
theorem map_of_sortsTo {k : ℕ} {sorted : List PendingTopoRequest}
    (hs : SortsTo (arrivals.foldl addPending ⟨k, []⟩).pending sorted) :
    (sorted.map PendingTopoRequest.toTopoRequest).Pairwise requestLe ∧
      (sorted.map PendingTopoRequest.toTopoRequest).Nodup ∧
      ∀ r, r ∈ sorted.map PendingTopoRequest.toTopoRequest ↔ r ∈ arrivals := by
  obtain ⟨hperm, hpair⟩ := hs
  have hmap := hperm.map PendingTopoRequest.toTopoRequest
  rw [map_foldl_addPending] at hmap
  refine ⟨?_, ?_, fun r => ?_⟩
  · rw [List.pairwise_map]
    exact hpair.imp fun hab => requestLe_iff.mpr hab
  · exact hmap.nodup_iff.mpr (nodup_foldl_addPendingRequest arrivals List.nodup_nil)
  · rw [hmap.mem_iff, List.map_nil, mem_foldl_addPendingRequest]
    simp

/-- **Sorting forgets the order of arrival and the repetitions.** -/
theorem eq_of_sortsTo {k k' : ℕ} {sorted sorted' : List PendingTopoRequest}
    (h : ∀ r, r ∈ arrivals ↔ r ∈ arrivals')
    (hs : SortsTo (arrivals.foldl addPending ⟨k, []⟩).pending sorted)
    (hs' : SortsTo (arrivals'.foldl addPending ⟨k', []⟩).pending sorted') :
    sorted.map PendingTopoRequest.toTopoRequest = sorted'.map PendingTopoRequest.toTopoRequest := by
  obtain ⟨hp, hnd, hm⟩ := map_of_sortsTo hs
  obtain ⟨hp', hnd', hm'⟩ := map_of_sortsTo hs'
  exact eq_of_pairwise_requestLe hp hp' hnd hnd' fun r => by rw [hm, hm', h]

theorem map_filter_unsatisfied (state : List ℕ) (l : List PendingTopoRequest) :
    (l.filter fun q => !requestSatisfied q.toTopoRequest state).map
        PendingTopoRequest.toTopoRequest =
      (l.map PendingTopoRequest.toTopoRequest).filter fun q => !requestSatisfied q state := by
  rw [List.filter_map]
  rfl

/-- The batch does not read the stamps. -/
theorem selectBatch_congr {sorted sorted' : List PendingTopoRequest}
    (h : sorted.map PendingTopoRequest.toTopoRequest =
      sorted'.map PendingTopoRequest.toTopoRequest) (stages : List ℕ) :
    (selectBatch stages sorted).1 = (selectBatch stages sorted').1 ∧
      (selectBatch stages sorted).2.1 = (selectBatch stages sorted').2.1 ∧
      (selectBatch stages sorted).2.2.map PendingTopoRequest.toTopoRequest =
        (selectBatch stages sorted').2.2.map PendingTopoRequest.toTopoRequest := by
  have hnext : (selectBatch stages sorted).1 = (selectBatch stages sorted').1 := by
    simp only [selectBatch]
    rw [map_filter_unsatisfied, map_filter_unsatisfied, h]
  refine ⟨hnext, ?_, ?_⟩
  · show topoIdFromStageState 10 (selectBatch stages sorted).1 = _
    rw [hnext]
    rfl
  · have hrest : ∀ l, (selectBatch stages l).2.2.map PendingTopoRequest.toTopoRequest =
        ((l.map PendingTopoRequest.toTopoRequest).filter
          fun q => !requestSatisfied q stages).filter
            fun q => !requestSatisfied q (selectBatch stages l).1 := by
      intro l
      rw [← map_filter_unsatisfied, ← map_filter_unsatisfied]
      rfl
    rw [hrest, hrest, h, hnext]

/-- **A batch depends on the set of requests only**: not on their order of arrival, their
repetitions, their stamps or the sorting algorithm. -/
theorem selectBatch_arrivalOrder {k k' : ℕ} {sorted sorted' : List PendingTopoRequest}
    (h : ∀ r, r ∈ arrivals ↔ r ∈ arrivals') (stages : List ℕ)
    (hs : SortsTo (arrivals.foldl addPending ⟨k, []⟩).pending sorted)
    (hs' : SortsTo (arrivals'.foldl addPending ⟨k', []⟩).pending sorted') :
    sorted.map PendingTopoRequest.toTopoRequest =
        sorted'.map PendingTopoRequest.toTopoRequest ∧
      (selectBatch stages sorted).1 = (selectBatch stages sorted').1 ∧
      (selectBatch stages sorted).2.1 = (selectBatch stages sorted').2.1 ∧
      (selectBatch stages sorted).2.2.map PendingTopoRequest.toTopoRequest =
        (selectBatch stages sorted').2.2.map PendingTopoRequest.toTopoRequest := by
  have heq := eq_of_sortsTo h hs hs'
  exact ⟨heq, selectBatch_congr heq stages⟩

theorem selectBatch_arrivalOrder_twoOrders :
    (selectBatch [1, 1] [⟨⟨0, 0, 1⟩, 1⟩, ⟨⟨1, 3, -1⟩, 0⟩]).1 =
      (selectBatch [1, 1] [⟨⟨0, 0, 1⟩, 7⟩, ⟨⟨1, 3, -1⟩, 8⟩]).1 := by
  refine (@selectBatch_arrivalOrder [⟨1, 3, -1⟩, ⟨0, 0, 1⟩]
    [⟨0, 0, 1⟩, ⟨1, 3, -1⟩, ⟨0, 0, 1⟩] 0 7 _ _ ?_ [1, 1] ⟨?_, ?_⟩ ⟨?_, ?_⟩).2.1
  · intro r
    simp only [List.mem_cons, List.not_mem_nil, or_false]
    tauto
  · decide
  · decide
  · decide
  · decide

end Arrivals

/-! ## The requests of a window -/

section Window

variable {E : Stages} {gate : Gate} {s t : SchedulerState} {now : ℕ} {r : TopoRequest}
  {skipInflight b : Bool} {stages : List ℕ} {arrivals : List TopoRequest}

/-- The pending requests of some arrivals, in the order of the selection. -/
def pendingBatch (stages : List ℕ) (arrivals : List TopoRequest) : List TopoRequest :=
  ((arrivals.foldl addPendingRequest []).insertionSort requestLe).filter
    fun q => !requestSatisfied q stages

/-- Adding a request to the sorted pending requests is adding it to the arrivals. -/
theorem pendingBatch_concat (stages : List ℕ) (arrivals : List TopoRequest) (r : TopoRequest) :
    ((addPendingRequest (pendingBatch stages arrivals) r).insertionSort requestLe).filter
        (fun q => !requestSatisfied q stages) =
      pendingBatch stages (arrivals ++ [r]) := by
  have hnodup : (arrivals.foldl addPendingRequest []).Nodup :=
    nodup_foldl_addPendingRequest arrivals List.nodup_nil
  have hbatch : (pendingBatch stages arrivals).Nodup :=
    ((List.perm_insertionSort requestLe _).nodup_iff.mpr hnodup).filter _
  apply eq_of_pairwise_requestLe
  · exact (List.pairwise_insertionSort requestLe _).filter _
  · exact (List.pairwise_insertionSort requestLe _).filter _
  · exact ((List.perm_insertionSort requestLe _).nodup_iff.mpr
      (nodup_addPendingRequest hbatch r)).filter _
  · exact ((List.perm_insertionSort requestLe _).nodup_iff.mpr
      (nodup_foldl_addPendingRequest _ List.nodup_nil)).filter _
  · intro q
    have hadd : ∀ pending : List TopoRequest,
        q ∈ addPendingRequest pending r ↔ q ∈ pending ∨ q = r := by
      intro pending
      have h := mem_foldl_addPendingRequest (r := q) [r] pending
      rwa [List.foldl_cons, List.foldl_nil, List.mem_singleton] at h
    simp only [pendingBatch, List.mem_filter, List.mem_insertionSort, hadd, List.foldl_append,
      List.foldl_cons, List.foldl_nil]
    tauto

/-- A batch is committed, or changes neither the stages nor the pending requests. -/
theorem batchReconfig_cases (h : s.batchReconfig E gate now r skipInflight = some (b, t)) :
    (t.stageDpOrPp = s.stageDpOrPp ∧ t.pending = s.pending) ∨
      ∃ next, next = (selectRequests s.stageDpOrPp s.pending).1 ∧
        t.stageDpOrPp = next ∧ t.curTopoId = topoIdFromStageState 10 next ∧
        t.pending = s.pending.filter fun q => !requestSatisfied q next := by
  simp only [SchedulerState.batchReconfig] at h
  split at h
  · cases h
    exact .inl ⟨rfl, rfl⟩
  · split at h
    · split at h
      · cases h
        exact .inr ⟨_, rfl, rfl, rfl, rfl⟩
      · cases h
        exact .inl ⟨rfl, rfl⟩
    · cases h

/-- **Between two commits the pending requests are those of the arrivals**, and a commit is the batch
of the arrivals. -/
theorem decimalReconfig_pending (hp : s.pending = pendingBatch s.stageDpOrPp arrivals)
    (h : s.decimalReconfig E gate now r skipInflight = some (b, t)) :
    (t.stageDpOrPp = s.stageDpOrPp ∧
        t.pending = pendingBatch s.stageDpOrPp (arrivals ++ [r])) ∨
      ∃ next, next = (selectRequests s.stageDpOrPp
          (pendingBatch s.stageDpOrPp (arrivals ++ [r]))).1 ∧
        t.stageDpOrPp = next ∧ t.curTopoId = topoIdFromStageState 10 next ∧
        t.pending = (pendingBatch s.stageDpOrPp (arrivals ++ [r])).filter
          fun q => !requestSatisfied q next := by
  simp only [SchedulerState.decimalReconfig] at h
  rw [hp, pendingBatch_concat] at h
  split at h
  · next hnil =>
    cases h
    exact .inl ⟨rfl, hnil.symm⟩
  · split at h
    · -- a satisfied request is not among the pending ones
      next hsat =>
      cases h
      refine .inl ⟨rfl, List.erase_of_not_mem fun hmem => ?_⟩
      have hunsat := (List.mem_filter.mp hmem).2
      rw [hsat] at hunsat
      cases hunsat
    · generalize (if s.readyTime = 0 ∨ s.readyTime + topoRequestDebounceNs < now then
        now + topoRequestDebounceNs else s.readyTime) = ready at h
      split at h
      · cases h
        exact .inl ⟨rfl, rfl⟩
      · exact batchReconfig_cases h

/-- The batch of the stamped requests is the one of `pendingBatch`. -/
theorem selectBatch_eq {k : ℕ} {sorted : List PendingTopoRequest}
    (hs : SortsTo (arrivals.foldl addPending ⟨k, []⟩).pending sorted) :
    (selectBatch stages sorted).1 = (selectRequests stages (pendingBatch stages arrivals)).1 ∧
      (selectBatch stages sorted).2.2.map PendingTopoRequest.toTopoRequest =
        (pendingBatch stages arrivals).filter
          fun q => !requestSatisfied q (selectBatch stages sorted).1 := by
  obtain ⟨hp, hnd, hm⟩ := map_of_sortsTo hs
  have hsorted : sorted.map PendingTopoRequest.toTopoRequest =
      (arrivals.foldl addPendingRequest []).insertionSort requestLe := by
    apply eq_of_pairwise_requestLe hp (List.pairwise_insertionSort requestLe _) hnd
    · exact (List.perm_insertionSort requestLe _).nodup_iff.mpr
        (nodup_foldl_addPendingRequest _ List.nodup_nil)
    · intro q
      rw [hm, List.mem_insertionSort, mem_foldl_addPendingRequest]
      simp
  have hbatch : (sorted.filter fun q => !requestSatisfied q.toTopoRequest stages).map
      PendingTopoRequest.toTopoRequest = pendingBatch stages arrivals := by
    rw [map_filter_unsatisfied, hsorted]
    rfl
  refine ⟨?_, ?_⟩
  · simp only [selectBatch, hbatch]
  · rw [← hbatch, ← map_filter_unsatisfied]
    rfl

end Window

end Opus.Simulation
