import Mathlib.Logic.Relation
import Mathlib.Data.List.Basic

/-!
# Runs of a partial step function

A system is given by a computable partial step function: `step s a` is the state after the
action `a`, or `none` when `a` is not enabled in `s`. A run is a list of actions each of
which is enabled where it is taken.

## Main definitions

* `run step s as`: the state after the actions `as`, when each of them is enabled
* `Reaches step s t`: some run leads from `s` to `t`
* `Along step P s as`: every step of the run meets the condition `P`

## Main results

* `run_append`: runs compose
* `run_invariant`: what every step preserves, every run preserves
* `run_invariant_along`: what every step meeting a condition preserves, every run whose steps
  meet it preserves
* `along_congr`: conditions that agree where a run is in the invariant agree along it
* `forall_prefix_iff_along`: when the condition is exact for steps, it is exact for runs
* `not_iff_along`: what only certain steps bring about is absent exactly without such a step
-/

namespace Transition

variable {σ α : Type*}

/-- The state after the actions `as`, when each of them is enabled where it is taken. -/
def run (step : σ → α → Option σ) : σ → List α → Option σ
  | s, [] => some s
  | s, a :: as => (step s a).bind fun t => run step t as

/-- Some run leads from `s` to `t`. -/
def Reaches (step : σ → α → Option σ) (s t : σ) : Prop :=
  ∃ as, run step s as = some t

/-- Every step of the run `as` from `s` meets `P`, a condition on the state before the step and
its action. -/
def Along (step : σ → α → Option σ) (P : σ → α → Prop) : σ → List α → Prop
  | _, [] => True
  | s, a :: as => P s a ∧ ∀ t, step s a = some t → Along step P t as

variable {step : σ → α → Option σ}

instance Along.instDecidable {P : σ → α → Prop} [∀ s a, Decidable (P s a)] :
    ∀ (s : σ) (as : List α), Decidable (Along step P s as)
  | _, [] => inferInstanceAs (Decidable True)
  | s, a :: as =>
    match h : step s a with
    | none => decidable_of_iff (P s a) (by simp [Along, h])
    | some t =>
      have : Decidable (Along step P t as) := Along.instDecidable t as
      decidable_of_iff (P s a ∧ Along step P t as) (by simp [Along, h])

@[simp] theorem run_nil (s : σ) : run step s [] = some s := rfl

theorem run_cons (s : σ) (a : α) (as : List α) :
    run step s (a :: as) = (step s a).bind fun t => run step t as := rfl

theorem run_cons_of_step {s t : σ} {a : α} (h : step s a = some t) (as : List α) :
    run step s (a :: as) = run step t as := by
  rw [run_cons, h]
  rfl

theorem Along.cons {P : σ → α → Prop} {s t : σ} {a : α} {as : List α} (hP : P s a)
    (h : step s a = some t) (has : Along step P t as) : Along step P s (a :: as) :=
  ⟨hP, fun _ hu => Option.some.inj (h.symm.trans hu) ▸ has⟩

theorem Along.of_prefix {P : σ → α → Prop} {s : σ} {as bs : List α} (h : Along step P s as)
    (hbs : bs <+: as) : Along step P s bs := by
  induction bs generalizing s as with
  | nil => trivial
  | cons b bs ih =>
    obtain ⟨cs, rfl⟩ := hbs
    exact ⟨h.1, fun t ht => ih (h.2 t ht) (List.prefix_append bs cs)⟩

theorem Along.at {P : σ → α → Prop} {s t : σ} {a : α} {as bs : List α}
    (h : Along step P s (as ++ a :: bs)) (ht : run step s as = some t) : P t a := by
  induction as generalizing s with
  | nil => exact Option.some.inj ht ▸ h.1
  | cons b as ih =>
    rw [run_cons, Option.bind_eq_some_iff] at ht
    obtain ⟨u, hu, ht⟩ := ht
    exact ih (h.2 u hu) ht

theorem run_append (s : σ) (as bs : List α) :
    run step s (as ++ bs) = (run step s as).bind fun t => run step t bs := by
  induction as generalizing s with
  | nil => rfl
  | cons a as ih =>
    simp only [List.cons_append, run_cons, Option.bind_assoc]
    exact congrArg _ (funext ih)

theorem run_append_of_run {s t : σ} {as : List α} (h : run step s as = some t) (bs : List α) :
    run step s (as ++ bs) = run step t bs := by
  rw [run_append, h]
  rfl

theorem Reaches.refl (s : σ) : Reaches step s s := ⟨[], rfl⟩

theorem Reaches.trans {s t u : σ} (h : Reaches step s t) (h' : Reaches step t u) :
    Reaches step s u := by
  obtain ⟨as, has⟩ := h
  obtain ⟨bs, hbs⟩ := h'
  exact ⟨as ++ bs, (run_append_of_run has bs).trans hbs⟩

theorem Reaches.tail {s t u : σ} {a : α} (h : Reaches step s t) (ha : step t a = some u) :
    Reaches step s u := by
  obtain ⟨as, has⟩ := h
  exact ⟨as ++ [a], by rw [run_append_of_run has, run_cons_of_step ha, run_nil]⟩

/-- **The invariant rule**: what every step preserves, every run preserves. -/
theorem run_invariant {I : σ → Prop} (hstep : ∀ s a t, I s → step s a = some t → I t)
    {s t : σ} {as : List α} (h : run step s as = some t) (hs : I s) : I t := by
  induction as generalizing s with
  | nil => exact Option.some.inj h ▸ hs
  | cons a as ih =>
    rw [run_cons, Option.bind_eq_some_iff] at h
    obtain ⟨u, hu, h⟩ := h
    exact ih h (hstep s a u hs hu)

theorem Reaches.invariant {I : σ → Prop} (hstep : ∀ s a t, I s → step s a = some t → I t)
    {s t : σ} (h : Reaches step s t) (hs : I s) : I t := by
  obtain ⟨as, has⟩ := h
  exact run_invariant hstep has hs

/-- **The invariant rule under a condition on the steps**. -/
theorem run_invariant_along {I : σ → Prop} {P : σ → α → Prop}
    (hstep : ∀ s a t, I s → P s a → step s a = some t → I t)
    {s t : σ} {as : List α} (h : run step s as = some t) (hP : Along step P s as) (hs : I s) :
    I t := by
  induction as generalizing s with
  | nil => exact Option.some.inj h ▸ hs
  | cons a as ih =>
    rw [run_cons, Option.bind_eq_some_iff] at h
    obtain ⟨u, hu, h⟩ := h
    exact ih h (hP.2 u hu) (hstep s a u hs hP.1 hu)

/-- **Conditions that agree along a run**: one of them keeps the invariant in which they agree. -/
theorem along_congr {I : σ → Prop} {P Q : σ → α → Prop}
    (hstep : ∀ s a t, I s → step s a = some t → (P s a ↔ Q s a) ∧ (Q s a → I t))
    {s u : σ} {as : List α} (hrun : run step s as = some u) (hs : I s) :
    Along step P s as ↔ Along step Q s as := by
  induction as generalizing s with
  | nil => exact Iff.rfl
  | cons a as ih =>
    rw [run_cons, Option.bind_eq_some_iff] at hrun
    obtain ⟨t, ht, hrun⟩ := hrun
    obtain ⟨hPQ, hI⟩ := hstep s a t hs ht
    constructor
    · intro h
      have hQ := hPQ.mp h.1
      exact Along.cons hQ ht ((ih hrun (hI hQ)).mp (h.2 t ht))
    · intro h
      exact Along.cons (hPQ.mpr h.1) ht ((ih hrun (hI h.1)).mpr (h.2 t ht))

/-- **The exact condition for an invariant of runs**: when a step from a state with the invariant
keeps it exactly under a condition, all states of a run have it exactly when all steps of the run
meet the condition. The states also have a property `J` that every step preserves. -/
theorem forall_prefix_iff_along {I J : σ → Prop} {P : σ → α → Prop}
    (hstep : ∀ s a t, I s → J s → step s a = some t → J t ∧ (I t ↔ P s a))
    {s u : σ} {as : List α} (hrun : run step s as = some u) (hI : I s) (hJ : J s) :
    (∀ bs, bs <+: as → ∀ t, run step s bs = some t → I t) ↔ Along step P s as := by
  induction as generalizing s with
  | nil =>
    refine ⟨fun _ => trivial, fun _ bs hbs t ht => ?_⟩
    rw [List.prefix_nil.mp hbs] at ht
    exact Option.some.inj ht ▸ hI
  | cons a as ih =>
    rw [run_cons, Option.bind_eq_some_iff] at hrun
    obtain ⟨t, ht, hrun⟩ := hrun
    obtain ⟨hJt, hIt⟩ := hstep s a t hI hJ ht
    constructor
    · intro h
      have hI' : I t := h [a] (List.prefix_cons_inj a |>.mpr (List.nil_prefix)) t
        (by rw [run_cons_of_step ht, run_nil])
      refine Along.cons (hIt.mp hI') ht ((ih hrun hI' hJt).mp fun bs hbs v hv => ?_)
      exact h (a :: bs) ((List.prefix_cons_inj a).mpr hbs) v (by rw [run_cons_of_step ht, hv])
    · intro h bs hbs v hv
      cases bs with
      | nil => exact Option.some.inj hv ▸ hI
      | cons b bs =>
        obtain ⟨rfl, hpre⟩ := List.cons_prefix_cons.mp hbs
        rw [run_cons_of_step ht] at hv
        exact (ih hrun (hIt.mpr h.1) hJt).mpr (h.2 t ht) bs hpre v hv

/-- **What only certain steps bring about**, and what stays, is absent in the end exactly when it was
absent and no step of the run was one of them. -/
theorem not_iff_along {I D : σ → Prop} {P : σ → α → Prop}
    (hstep : ∀ s a t, I s → step s a = some t → I t ∧ (D t ↔ D s ∨ P s a))
    {s u : σ} {as : List α} (hrun : run step s as = some u) (hI : I s) :
    ¬ D u ↔ ¬ D s ∧ Along step (fun s a => ¬ P s a) s as := by
  induction as generalizing s with
  | nil =>
    rw [run_nil, Option.some.injEq] at hrun
    exact hrun ▸ (and_iff_left trivial).symm
  | cons a as ih =>
    rw [run_cons, Option.bind_eq_some_iff] at hrun
    obtain ⟨t, ht, hrun⟩ := hrun
    obtain ⟨hIt, hDt⟩ := hstep s a t hI ht
    rw [ih hrun hIt, hDt, not_or, and_assoc]
    refine and_congr_right fun _ => ⟨fun h => Along.cons h.1 ht h.2, fun h => ⟨h.1, h.2 t ht⟩⟩

end Transition
