import Mathlib.Data.Nat.Basic
import Mathlib.Tactic.Ring

/-!
# Row-major indexes

An index of three parts, the last of which runs fastest.

## Main results

* `RowMajor.parts`: the parts are quotients and remainders of the index
* `RowMajor.lt`, `RowMajor.exists_eq`: the indexes are exactly the numbers below the size
-/

namespace RowMajor

variable {a b c p x y : ℕ}

/-- Row-major order: the parts of an index are its quotients and remainders. -/
theorem parts (hx : x < b) (hy : y < c) :
    (p * (b * c) + x * c + y) / (b * c) = p ∧ (p * (b * c) + x * c + y) % (b * c) / c = x ∧
      (p * (b * c) + x * c + y) % c = y := by
  have hlt : x * c + y < b * c := by
    calc x * c + y < x * c + c := by omega
      _ = (x + 1) * c := by rw [Nat.succ_mul]
      _ ≤ b * c := Nat.mul_le_mul_right c hx
  have he : p * (b * c) + x * c + y = (x * c + y) + (b * c) * p := by
    rw [Nat.mul_comm p]
    omega
  have hc : 0 < c := by omega
  have hbc : 0 < b * c := by omega
  refine ⟨?_, ?_, ?_⟩
  · rw [he, Nat.add_mul_div_left _ _ hbc, Nat.div_eq_of_lt hlt, Nat.zero_add]
  · rw [he, Nat.add_mul_mod_self_left, Nat.mod_eq_of_lt hlt, Nat.add_comm, Nat.mul_comm x,
      Nat.add_mul_div_left _ _ hc, Nat.div_eq_of_lt hy, Nat.zero_add]
  · have he' : p * (b * c) + x * c + y = y + c * (p * b + x) := by ring
    rw [he', Nat.add_mul_mod_self_left, Nat.mod_eq_of_lt hy]

theorem lt (hp : p < a) (hx : x < b) (hy : y < c) : p * (b * c) + x * c + y < b * c * a := by
  calc p * (b * c) + x * c + y < p * (b * c) + (x + 1) * c := by
        rw [Nat.succ_mul]
        omega
    _ ≤ p * (b * c) + b * c := Nat.add_le_add_left (Nat.mul_le_mul_right c hx) _
    _ = (p + 1) * (b * c) := by rw [Nat.succ_mul]
    _ ≤ a * (b * c) := Nat.mul_le_mul_right (b * c) hp
    _ = b * c * a := Nat.mul_comm a _

theorem exists_eq {i : ℕ} (hi : i < b * c * a) :
    ∃ p < a, ∃ x < b, ∃ y < c, i = p * (b * c) + x * c + y := by
  have hbc : 0 < b * c := Nat.pos_of_ne_zero fun h => by simp [h] at hi
  have hc : 0 < c := Nat.pos_of_mul_pos_left hbc
  refine ⟨i / (b * c), Nat.div_lt_of_lt_mul hi, i % (b * c) / c, ?_, i % (b * c) % c,
    Nat.mod_lt _ hc, ?_⟩
  · exact Nat.div_lt_of_lt_mul (by rw [Nat.mul_comm c]; exact Nat.mod_lt i hbc)
  · have h1 := Nat.div_add_mod i (b * c)
    have h2 := Nat.div_add_mod (i % (b * c)) c
    rw [Nat.mul_comm (i / (b * c)), Nat.mul_comm (i % (b * c) / c)]
    omega

end RowMajor
