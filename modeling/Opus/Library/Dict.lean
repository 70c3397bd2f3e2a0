import Mathlib.Data.List.Basic
import Mathlib.Data.List.Nodup

/-!
# Dictionaries as lists

A dictionary that keeps the order in which its keys were first set, as the list of its entries.

## Main definitions

* `Dict.set d k v`: the value `v` under the key `k`, in the place of an older value

## Main results

* `Dict.lookup_set`: setting a key changes the value under this key only
* `Dict.nodup_set`: keys stay distinct
* `Dict.lookup_eq_some_iff`: with distinct keys, entries are values
-/

namespace Dict

variable {κ β : Type*} [DecidableEq κ]

def set : List (κ × β) → κ → β → List (κ × β)
  | [], k, v => [(k, v)]
  | p :: d, k, v => if p.1 = k then (k, v) :: d else p :: set d k v

theorem lookup_cons_of_ne {k k' : κ} (h : k' ≠ k) (v : β) (d : List (κ × β)) :
    ((k, v) :: d).lookup k' = d.lookup k' := by
  have hne : (k' == k) = false := by simpa using h
  rw [List.lookup_cons, hne]

theorem lookup_set (d : List (κ × β)) (k k' : κ) (v : β) :
    (set d k v).lookup k' = if k' = k then some v else d.lookup k' := by
  induction d with
  | nil =>
    by_cases h : k' = k
    · simp [set, h]
    · simp [set, h]
  | cons p d ih =>
    obtain ⟨k₀, v₀⟩ := p
    by_cases h₀ : k₀ = k
    · subst h₀
      rw [set, if_pos rfl]
      by_cases h : k' = k₀
      · rw [h, List.lookup_cons_self, if_pos rfl]
      · rw [lookup_cons_of_ne h, lookup_cons_of_ne h, if_neg h]
    · rw [set, if_neg h₀]
      by_cases h : k' = k₀
      · rw [h, List.lookup_cons_self, List.lookup_cons_self, if_neg h₀]
      · rw [lookup_cons_of_ne h, lookup_cons_of_ne h, ih]

theorem mem_keys_set (d : List (κ × β)) (k k' : κ) (v : β) :
    k' ∈ (set d k v).map Prod.fst ↔ k' = k ∨ k' ∈ d.map Prod.fst := by
  induction d with
  | nil => simp [set]
  | cons p d ih =>
    by_cases h : p.1 = k
    · simp [set, h]
    · rw [set, if_neg h, List.map_cons, List.mem_cons, ih, List.map_cons, List.mem_cons]
      tauto

theorem nodup_set {d : List (κ × β)} (h : (d.map Prod.fst).Nodup) (k : κ) (v : β) :
    ((set d k v).map Prod.fst).Nodup := by
  induction d with
  | nil => simp [set]
  | cons p d ih =>
    rw [List.map_cons, List.nodup_cons] at h
    by_cases hp : p.1 = k
    · rw [set, if_pos hp, List.map_cons, List.nodup_cons]
      exact ⟨hp ▸ h.1, h.2⟩
    · rw [set, if_neg hp, List.map_cons, List.nodup_cons]
      refine ⟨fun hmem => ?_, ih h.2⟩
      rcases (mem_keys_set d k p.1 v).mp hmem with heq | hmem
      · exact hp heq
      · exact h.1 hmem

/-- A new key goes to the end. -/
theorem set_of_not_mem {d : List (κ × β)} {k : κ} (h : k ∉ d.map Prod.fst) (v : β) :
    set d k v = d ++ [(k, v)] := by
  induction d with
  | nil => rfl
  | cons p d ih =>
    rw [List.map_cons, List.mem_cons, not_or] at h
    rw [set, if_neg (Ne.symm h.1), ih h.2]
    rfl

/-- With distinct keys, an entry is the value under its key. -/
theorem lookup_eq_some_iff {d : List (κ × β)} (h : (d.map Prod.fst).Nodup) (k : κ) (v : β) :
    d.lookup k = some v ↔ (k, v) ∈ d := by
  induction d with
  | nil => simp
  | cons p d ih =>
    obtain ⟨k₀, v₀⟩ := p
    rw [List.map_cons, List.nodup_cons] at h
    by_cases hk : k = k₀
    · subst hk
      rw [List.lookup_cons_self, Option.some_inj, List.mem_cons, Prod.mk.injEq]
      refine ⟨fun heq => .inl ⟨rfl, heq.symm⟩, ?_⟩
      rintro (⟨-, heq⟩ | hmem)
      · exact heq.symm
      · exact absurd (List.mem_map_of_mem hmem) h.1
    · rw [lookup_cons_of_ne hk, ih h.2, List.mem_cons, Prod.mk.injEq]
      simp [hk]

end Dict
