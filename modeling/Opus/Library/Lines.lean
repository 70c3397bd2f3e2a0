import Mathlib.Data.List.Basic

/-!
# Lines of a stream

A stream over any alphabet is cut into lines at a separator. What is behind the last separator is
the part of a line that has not ended yet.

## Main definitions

* `Lines.split sep xs`: the complete lines of `xs` and the part behind them
* `Lines.join sep ls`: the lines `ls`, each followed by the separator

## Main results

* `split_append`: a stream that goes on continues the line that has not ended
* `join_split`, `split_join`: cutting a stream into lines loses nothing, and lines without
  separators are cut apart again
* `split_fst_eq_nil_iff`, `not_mem_of_mem_split`: a line ends at the first separator
-/

namespace Lines

variable {α : Type*} (sep : α)

/-- The lines, each followed by the separator. -/
def join (ls : List (List α)) : List α := ls.flatMap fun l => l ++ [sep]

theorem join_eq_nil {ls : List (List α)} : join sep ls = [] ↔ ls = [] := by
  cases ls with
  | nil => simp [join]
  | cons l ls => simp [join]

variable [DecidableEq α]

/-- The complete lines of a stream, and the part of a line behind them. -/
def split : List α → List (List α) × List α
  | [] => ([], [])
  | x :: xs =>
    let t := split xs
    if x = sep then ([] :: t.1, t.2)
    else
      match t.1 with
      | [] => ([], x :: t.2)
      | l :: ls => ((x :: l) :: ls, t.2)

@[simp] theorem split_nil : split sep [] = ([], []) := rfl

theorem split_cons_sep (xs : List α) :
    split sep (sep :: xs) = ([] :: (split sep xs).1, (split sep xs).2) := by
  rw [split, if_pos rfl]

theorem split_cons_of_nil {x : α} {xs : List α} (hx : x ≠ sep) (h : (split sep xs).1 = []) :
    split sep (x :: xs) = ([], x :: (split sep xs).2) := by
  rw [split, if_neg hx, h]

theorem split_cons_of_cons {x : α} {xs l : List α} {ls : List (List α)} (hx : x ≠ sep)
    (h : (split sep xs).1 = l :: ls) :
    split sep (x :: xs) = ((x :: l) :: ls, (split sep xs).2) := by
  rw [split, if_neg hx, h]

/-- **A stream that goes on continues the line that has not ended.** -/
theorem split_append (xs ys : List α) :
    split sep (xs ++ ys) =
      ((split sep xs).1 ++ (split sep ((split sep xs).2 ++ ys)).1,
        (split sep ((split sep xs).2 ++ ys)).2) := by
  induction xs with
  | nil => rfl
  | cons x xs ih =>
    by_cases hx : x = sep
    · subst hx
      rw [List.cons_append, split_cons_sep, split_cons_sep, ih]
      rfl
    · cases hls : (split sep xs).1 with
      | nil =>
        rw [hls, List.nil_append] at ih
        rw [split_cons_of_nil sep hx hls, List.cons_append, List.nil_append, split, ih]
        rfl
      | cons l ls =>
        rw [hls, List.cons_append] at ih
        have hfst := congrArg Prod.fst ih
        rw [split_cons_of_cons sep hx hls, List.cons_append, split_cons_of_cons sep hx hfst, ih]
        rfl

/-- What is behind the last separator has none. -/
theorem split_rest (xs : List α) : (split sep (split sep xs).2).1 = [] := by
  induction xs with
  | nil => rfl
  | cons x xs ih =>
    by_cases hx : x = sep
    · subst hx
      rw [split_cons_sep]
      exact ih
    · cases hls : (split sep xs).1 with
      | nil => rw [split_cons_of_nil sep hx hls, split_cons_of_nil sep hx ih]
      | cons l ls =>
        rw [split_cons_of_cons sep hx hls]
        exact ih

/-- **Cutting a stream into lines loses nothing.** -/
theorem join_split (xs : List α) : join sep (split sep xs).1 ++ (split sep xs).2 = xs := by
  induction xs with
  | nil => rfl
  | cons x xs ih =>
    by_cases hx : x = sep
    · subst hx
      rw [split_cons_sep]
      exact congrArg (x :: ·) ih
    · cases hls : (split sep xs).1 with
      | nil =>
        rw [hls] at ih
        rw [split_cons_of_nil sep hx hls]
        exact congrArg (x :: ·) ih
      | cons l ls =>
        rw [hls] at ih
        rw [split_cons_of_cons sep hx hls]
        exact congrArg (x :: ·) ih

theorem split_of_not_mem {xs : List α} (h : sep ∉ xs) : split sep xs = ([], xs) := by
  induction xs with
  | nil => rfl
  | cons x xs ih =>
    have hx : x ≠ sep := fun he => h (he ▸ List.mem_cons_self)
    have ih := ih fun hs => h (List.mem_cons_of_mem x hs)
    rw [split_cons_of_nil sep hx (congrArg Prod.fst ih), ih]

/-- A line without separators ends at the separator behind it. -/
theorem split_line {l : List α} (h : sep ∉ l) (xs : List α) :
    split sep (l ++ sep :: xs) = (l :: (split sep xs).1, (split sep xs).2) := by
  induction l with
  | nil => exact split_cons_sep sep xs
  | cons x l ih =>
    have hx : x ≠ sep := fun he => h (he ▸ List.mem_cons_self)
    have ih := ih fun hs => h (List.mem_cons_of_mem x hs)
    rw [List.cons_append, split_cons_of_cons sep hx (congrArg Prod.fst ih), ih]

/-- Lines without separators are cut apart again. -/
theorem split_join {ls : List (List α)} (h : ∀ l ∈ ls, sep ∉ l) :
    split sep (join sep ls) = (ls, []) := by
  induction ls with
  | nil => rfl
  | cons l ls ih =>
    have hjoin : join sep (l :: ls) = l ++ sep :: join sep ls := by
      rw [join, List.flatMap_cons, List.append_assoc]
      rfl
    rw [hjoin, split_line sep (h l List.mem_cons_self),
      ih fun l' hl => h l' (List.mem_cons_of_mem l hl)]

/-- No line ends in a stream without separators. -/
theorem split_fst_eq_nil_iff {xs : List α} : (split sep xs).1 = [] ↔ sep ∉ xs := by
  refine ⟨fun h hs => ?_, fun h => congrArg Prod.fst (split_of_not_mem sep h)⟩
  induction xs with
  | nil => exact absurd hs List.not_mem_nil
  | cons x xs ih =>
    by_cases hx : x = sep
    · subst hx
      rw [split_cons_sep] at h
      exact List.cons_ne_nil _ _ h
    · cases hls : (split sep xs).1 with
      | nil => exact ih hls ((List.mem_cons.mp hs).resolve_left (Ne.symm hx))
      | cons l ls =>
        rw [split_cons_of_cons sep hx hls] at h
        exact List.cons_ne_nil _ _ h

/-- A line ends at the first separator. -/
theorem not_mem_of_mem_split {xs l : List α} (h : l ∈ (split sep xs).1) : sep ∉ l := by
  induction xs generalizing l with
  | nil => exact absurd h List.not_mem_nil
  | cons x xs ih =>
    by_cases hx : x = sep
    · subst hx
      rw [split_cons_sep] at h
      rcases List.mem_cons.mp h with rfl | h
      · exact List.not_mem_nil
      · exact ih h
    · cases hls : (split sep xs).1 with
      | nil =>
        rw [split_cons_of_nil sep hx hls] at h
        exact absurd h List.not_mem_nil
      | cons l' ls =>
        rw [split_cons_of_cons sep hx hls] at h
        rw [hls] at ih
        rcases List.mem_cons.mp h with rfl | h
        · exact List.not_mem_cons_of_ne_of_not_mem (Ne.symm hx) (ih List.mem_cons_self)
        · exact ih (List.mem_cons_of_mem l' h)

end Lines
