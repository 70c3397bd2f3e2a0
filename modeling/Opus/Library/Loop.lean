import Mathlib.Order.Basic

/-!
# While loops with a step bound

A loop makes steps until none is possible. It is run with a bound on their number; a measure that
every step decreases is such a bound.

## Main definitions

* `loop step fuel s`: the state in which the loop ends, within `fuel` steps

## Main results

* `loop_of_measure`: a loop with an invariant and a measure ends, in a state with the invariant
* `loop_mono`: a larger bound does not change the result
-/

namespace Loop

variable {σ : Type*} {step : σ → Option σ}

/-- The state without a further step, if it is reached within `fuel` steps. -/
def loop (step : σ → Option σ) : ℕ → σ → Option σ
  | 0, s => if (step s).isNone then some s else none
  | fuel + 1, s =>
    match step s with
    | none => some s
    | some t => loop step fuel t

theorem loop_of_none {s : σ} (h : step s = none) (fuel : ℕ) : loop step fuel s = some s := by
  cases fuel with
  | zero => simp [loop, h]
  | succ fuel => simp [loop, h]

theorem loop_succ_of_some {s t : σ} (h : step s = some t) (fuel : ℕ) :
    loop step (fuel + 1) s = loop step fuel t := by
  simp [loop, h]

theorem loop_mono {fuel fuel' : ℕ} {s t : σ} (hle : fuel ≤ fuel') (h : loop step fuel s = some t) :
    loop step fuel' s = some t := by
  induction fuel generalizing s fuel' with
  | zero =>
    cases hs : step s with
    | none =>
      rw [loop_of_none hs] at h ⊢
      exact h
    | some u =>
      rw [loop, hs] at h
      exact absurd h (by simp)
  | succ fuel ih =>
    obtain ⟨fuel', rfl⟩ := Nat.exists_eq_add_of_lt (Nat.lt_of_succ_le hle)
    cases hs : step s with
    | none =>
      rw [loop_of_none hs] at h ⊢
      exact h
    | some u =>
      rw [loop_succ_of_some hs] at h ⊢
      exact ih (Nat.le_add_right _ _) h

/-- **A loop with an invariant and a decreasing measure ends**, and the invariant holds there. -/
theorem loop_of_measure (I : σ → Prop) (μ : σ → ℕ)
    (hstep : ∀ s t, I s → step s = some t → I t ∧ μ t < μ s) {s : σ} (hI : I s) {fuel : ℕ}
    (hfuel : μ s ≤ fuel) : ∃ t, loop step fuel s = some t ∧ I t ∧ step t = none := by
  induction fuel generalizing s with
  | zero =>
    -- a step would make the measure negative
    have hnone : step s = none := by
      cases hs : step s with
      | none => rfl
      | some t =>
        have hlt := (hstep s t hI hs).2
        omega
    exact ⟨s, loop_of_none hnone 0, hI, hnone⟩
  | succ fuel ih =>
    cases hs : step s with
    | none => exact ⟨s, loop_of_none hs _, hI, hs⟩
    | some t =>
      obtain ⟨hIt, hlt⟩ := hstep s t hI hs
      obtain ⟨u, hu, hend⟩ := ih hIt (by omega)
      exact ⟨u, by rw [loop_succ_of_some hs, hu], hend⟩

end Loop
