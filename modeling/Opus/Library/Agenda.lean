import Mathlib.Data.List.Sort
import Mathlib.Order.Basic

/-!
# Agendas

An agenda is a list of entries in the order of their times. A new entry goes behind the entries of
the same time, so that entries of one time stay in the order in which they came.

## Main definitions

* `insert`: an entry is added
* `Sorts sorted entries`: the entries in the order of their times, and in their own order at each
  time

## Main results

* `Sorts.insert`: an agenda stays sorted
* `sorts_iff`: there is one such order, and the merge sort computes it
-/

namespace Agenda

variable {τ α : Type*} [LinearOrder τ]

/-- The entry behind those that are not later. -/
def insert (agenda : List (τ × α)) (time : τ) (x : α) : List (τ × α) :=
  agenda.takeWhile (fun e => e.1 ≤ time) ++ (time, x) :: agenda.dropWhile (fun e => e.1 ≤ time)

/-- The entries in the order of their times; those of one time are in the order in which they
came. -/
structure Sorts (sorted entries : List (τ × α)) : Prop where
  ordered : sorted.Pairwise fun e f => e.1 ≤ f.1
  stable : ∀ t, (sorted.filter fun e => e.1 = t) = entries.filter fun e => e.1 = t

variable {agenda front rest sorted entries : List (τ × α)} {time : τ} {x : α}

theorem mem_insert {e : τ × α} : e ∈ insert agenda time x ↔ e = (time, x) ∨ e ∈ agenda := by
  have hsplit := List.takeWhile_append_dropWhile (p := fun e : τ × α => e.1 ≤ time) (l := agenda)
  rw [insert, List.mem_append, List.mem_cons, or_left_comm, ← List.mem_append, hsplit]

/-- Entries that are not later stay in front. -/
theorem insert_append (h : ∀ e ∈ front, e.1 ≤ time) :
    insert (front ++ rest) time x = front ++ insert rest time x := by
  have hfront : ∀ e ∈ front, decide (e.1 ≤ time) = true := fun e he => decide_eq_true (h e he)
  rw [insert, List.takeWhile_append_of_pos hfront, List.dropWhile_append_of_pos hfront,
    List.append_assoc]
  rfl

/-- Later entries stay behind. -/
theorem insert_of_lt (h : ∀ e ∈ rest, time < e.1) : insert rest time x = (time, x) :: rest := by
  cases rest with
  | nil => rfl
  | cons e rest =>
    have he : ¬ e.1 ≤ time := not_le.mpr (h e List.mem_cons_self)
    simp [insert, he]

/-- An agenda is divided where the entry goes. -/
theorem exists_insert (h : agenda.Pairwise fun e f => e.1 ≤ f.1) (time : τ) (x : α) :
    ∃ front rest, agenda = front ++ rest ∧ insert agenda time x = front ++ (time, x) :: rest ∧
      (∀ e ∈ front, e.1 ≤ time) ∧ ∀ e ∈ rest, time < e.1 := by
  induction agenda with
  | nil => exact ⟨[], [], rfl, rfl, by simp, by simp⟩
  | cons e agenda ih =>
    obtain ⟨he, hrest⟩ := List.pairwise_cons.mp h
    by_cases hle : e.1 ≤ time
    · obtain ⟨front, rest, rfl, hinsert, hfront, hback⟩ := ih hrest
      refine ⟨e :: front, rest, rfl, ?_, List.forall_mem_cons.mpr ⟨hle, hfront⟩, hback⟩
      rw [← List.singleton_append, insert_append (by simpa using hle), hinsert]
      rfl
    · have hlate : ∀ f ∈ e :: agenda, time < f.1 := by
        rw [List.forall_mem_cons]
        exact ⟨not_le.mp hle, fun f hf => (not_le.mp hle).trans_le (he f hf)⟩
      exact ⟨[], e :: agenda, rfl, insert_of_lt hlate, by simp, hlate⟩

/-- **An agenda stays sorted.** -/
theorem Sorts.insert (h : Sorts sorted entries) (time : τ) (x : α) :
    Sorts (insert sorted time x) (entries ++ [(time, x)]) := by
  obtain ⟨front, rest, rfl, hinsert, hfront, hrest⟩ := exists_insert h.ordered time x
  rw [hinsert]
  refine ⟨?_, fun t => ?_⟩
  · have hordered := List.pairwise_append.mp h.ordered
    refine List.pairwise_append.mpr ⟨hordered.1, ?_, ?_⟩
    · exact List.pairwise_cons.mpr ⟨fun e he => (hrest e he).le, hordered.2.1⟩
    · intro e he f hf
      rcases List.mem_cons.mp hf with rfl | hf
      · exact hfront e he
      · exact hordered.2.2 e he f hf
  · have hstable := h.stable t
    rw [List.filter_append] at hstable
    rw [List.filter_append, List.filter_append, List.filter_cons, ← hstable]
    by_cases ht : time = t
    · -- no later entry has this time
      have hnone : (rest.filter fun e => e.1 = t) = [] := by
        rw [List.filter_eq_nil_iff]
        intro e he
        rw [decide_eq_true_eq]
        exact fun heq => (hrest e he).ne (ht.trans heq.symm)
      simp [ht, hnone]
    · simp [ht]

/-- Sorted lists with the same entries at each time are equal. -/
theorem eq_of_ordered {l l' : List (τ × α)} (h : l.Pairwise fun e f => e.1 ≤ f.1)
    (h' : l'.Pairwise fun e f => e.1 ≤ f.1)
    (hf : ∀ t, (l.filter fun e => e.1 = t) = l'.filter fun e => e.1 = t) : l = l' := by
  have hmem : ∀ e, e ∈ l ↔ e ∈ l' := by
    intro e
    have he : e ∈ l.filter (fun f => f.1 = e.1) ↔ e ∈ l'.filter fun f => f.1 = e.1 := by
      rw [hf]
    simpa using he
  induction l generalizing l' with
  | nil =>
    symm
    rw [List.eq_nil_iff_forall_not_mem]
    exact fun e he => List.not_mem_nil ((hmem e).mpr he)
  | cons a l ih =>
    cases l' with
    | nil => exact absurd ((hmem a).mp List.mem_cons_self) List.not_mem_nil
    | cons b l' =>
      obtain ⟨ha, hl⟩ := List.pairwise_cons.mp h
      obtain ⟨hb, hl'⟩ := List.pairwise_cons.mp h'
      -- both lists start at the earliest time
      have hab : a.1 = b.1 := by
        apply le_antisymm
        · rcases List.mem_cons.mp ((hmem b).mpr List.mem_cons_self) with rfl | hmem
          · exact le_rfl
          · exact ha b hmem
        · rcases List.mem_cons.mp ((hmem a).mp List.mem_cons_self) with rfl | hmem
          · exact le_rfl
          · exact hb a hmem
      have hhead := hf a.1
      rw [List.filter_cons_of_pos (by simp), List.filter_cons_of_pos (by simp [hab])] at hhead
      obtain ⟨rfl, -⟩ := List.cons.inj hhead
      have htail : ∀ t, (l.filter fun e => e.1 = t) = l'.filter fun e => e.1 = t := by
        intro t
        have ht := hf t
        rw [List.filter_cons, List.filter_cons] at ht
        split at ht
        · exact (List.cons.inj ht).2
        · exact ht
      rw [ih hl hl' htail]
      intro e
      have he : e ∈ l.filter (fun f => f.1 = e.1) ↔ e ∈ l'.filter fun f => f.1 = e.1 := by
        rw [htail]
      simpa using he

/-- The merge sort sorts. -/
theorem sorts_mergeSort (entries : List (τ × α)) :
    Sorts (entries.mergeSort fun e f => e.1 ≤ f.1) entries := by
  have htrans : ∀ a b c : τ × α, decide (a.1 ≤ b.1) = true → decide (b.1 ≤ c.1) = true →
      decide (a.1 ≤ c.1) = true := by
    simp only [decide_eq_true_eq]
    exact fun _ _ _ => le_trans
  have htotal : ∀ a b : τ × α, (decide (a.1 ≤ b.1) || decide (b.1 ≤ a.1)) = true := by
    simp only [Bool.or_eq_true, decide_eq_true_eq]
    exact fun a b => le_total a.1 b.1
  refine ⟨?_, fun t => ?_⟩
  · have hsorted := List.pairwise_mergeSort htrans htotal entries
    exact hsorted.imp fun h => of_decide_eq_true h
  · -- the entries of one time are sorted, so that their order stays
    have hsame : (entries.filter fun e => e.1 = t).Pairwise
        fun e f => decide (e.1 ≤ f.1) = true := by
      rw [List.pairwise_iff_forall_sublist]
      intro e f hef
      have hmem := hef.subset
      have he := List.of_mem_filter (hmem List.mem_cons_self)
      have hf := List.of_mem_filter (hmem (List.mem_cons_of_mem _ List.mem_cons_self))
      rw [decide_eq_true_eq] at he hf ⊢
      rw [he, hf]
    have hsub := (List.sublist_mergeSort htrans htotal hsame List.filter_sublist).filter
      fun e => e.1 = t
    rw [List.filter_filter] at hsub
    simp only [Bool.and_self] at hsub
    apply Eq.symm
    apply hsub.eq_of_length
    exact ((List.mergeSort_perm entries _).filter _).length_eq.symm

/-- **There is one such order, and the merge sort computes it.** -/
theorem sorts_iff : Sorts sorted entries ↔ sorted = entries.mergeSort fun e f => e.1 ≤ f.1 := by
  have hsort := sorts_mergeSort entries
  refine ⟨fun h => eq_of_ordered h.ordered hsort.ordered fun t => ?_, ?_⟩
  · rw [h.stable, hsort.stable]
  · rintro rfl
    exact hsort

end Agenda
