import Mathlib.Data.List.Nodup

/-!
# Tasks with dependencies

Tasks are taken when all their dependencies are finished, and are then put back or finished.

## Main definitions

* `Progress`: the tasks that are taken and those that are finished
* `Ready deps tasks p n`: the task `n` can be taken
* `Feasible deps tasks p`: only ready tasks have been taken

## Main results

* `Feasible.take`, `Feasible.putBack`, `Feasible.finish`: the three steps stay consistent
* `ready_take`, `ready_putBack`, `ready_finish`: what can be taken after them
-/

namespace TaskGraph

variable {τ : Type*}

/-- The tasks that are taken and not finished, and the finished ones. -/
structure Progress (τ : Type*) where
  ongoing : List τ
  finished : List τ

namespace Progress

def initial (τ : Type*) : Progress τ := ⟨[], []⟩

def take (p : Progress τ) (n : τ) : Progress τ := { p with ongoing := n :: p.ongoing }

variable [DecidableEq τ]

def putBack (p : Progress τ) (n : τ) : Progress τ := { p with ongoing := p.ongoing.erase n }

def finish (p : Progress τ) (n : τ) : Progress τ := ⟨p.ongoing.erase n, n :: p.finished⟩

end Progress

/-- The task can be taken. -/
structure Ready (deps : τ → List τ) (tasks : List τ) (p : Progress τ) (n : τ) : Prop where
  mem : n ∈ tasks
  not_ongoing : n ∉ p.ongoing
  not_finished : n ∉ p.finished
  deps : ∀ d ∈ deps n, d ∈ p.finished

/-- Every task is taken once, and not before its dependencies are finished. -/
structure Feasible (deps : τ → List τ) (tasks : List τ) (p : Progress τ) : Prop where
  nodup_ongoing : p.ongoing.Nodup
  nodup_finished : p.finished.Nodup
  not_finished : ∀ n ∈ p.ongoing, n ∉ p.finished
  mem : ∀ n, n ∈ p.ongoing ∨ n ∈ p.finished → n ∈ tasks
  deps : ∀ n, n ∈ p.ongoing ∨ n ∈ p.finished → ∀ d ∈ deps n, d ∈ p.finished

variable {deps deps' : τ → List τ} {tasks : List τ} {p : Progress τ} {m n : τ}

theorem feasible_initial : Feasible deps tasks (.initial τ) where
  nodup_ongoing := List.nodup_nil
  nodup_finished := List.nodup_nil
  not_finished _ h := absurd h List.not_mem_nil
  mem _ h := by rcases h with h | h <;> cases h
  deps _ h := by rcases h with h | h <;> cases h

/-- Fewer dependencies. -/
theorem Ready.mono (h : Ready deps tasks p n) (hsub : ∀ d ∈ deps' n, d ∈ deps n) :
    Ready deps' tasks p n :=
  ⟨h.mem, h.not_ongoing, h.not_finished, fun d hd => h.deps d (hsub d hd)⟩

theorem Feasible.mono (h : Feasible deps tasks p) (hsub : ∀ n, ∀ d ∈ deps' n, d ∈ deps n) :
    Feasible deps' tasks p :=
  ⟨h.nodup_ongoing, h.nodup_finished, h.not_finished, h.mem,
    fun n hn d hd => h.deps n hn d (hsub n d hd)⟩

theorem Feasible.take (h : Feasible deps tasks p) (hn : Ready deps tasks p n) :
    Feasible deps tasks (p.take n) where
  nodup_ongoing := List.nodup_cons.mpr ⟨hn.not_ongoing, h.nodup_ongoing⟩
  nodup_finished := h.nodup_finished
  not_finished m hm := by
    rcases List.mem_cons.mp hm with rfl | hm
    · exact hn.not_finished
    · exact h.not_finished m hm
  mem m hm := by
    rcases hm with hm | hm
    · rcases List.mem_cons.mp hm with rfl | hm
      · exact hn.mem
      · exact h.mem m (.inl hm)
    · exact h.mem m (.inr hm)
  deps m hm := by
    rcases hm with hm | hm
    · rcases List.mem_cons.mp hm with rfl | hm
      · exact hn.deps
      · exact h.deps m (.inl hm)
    · exact h.deps m (.inr hm)

theorem ready_take : Ready deps tasks (p.take n) m ↔ Ready deps tasks p m ∧ m ≠ n := by
  constructor
  · intro h
    refine ⟨⟨h.mem, fun hm => ?_, h.not_finished, h.deps⟩, fun heq => ?_⟩
    · exact h.not_ongoing (List.mem_cons_of_mem n hm)
    · subst heq
      exact h.not_ongoing List.mem_cons_self
  · rintro ⟨h, hne⟩
    refine ⟨h.mem, fun hm => ?_, h.not_finished, h.deps⟩
    rcases List.mem_cons.mp hm with heq | hm
    · exact hne heq
    · exact h.not_ongoing hm

variable [DecidableEq τ]

theorem Feasible.mem_erase_ongoing (h : Feasible deps tasks p) :
    m ∈ p.ongoing.erase n ↔ m ≠ n ∧ m ∈ p.ongoing :=
  h.nodup_ongoing.mem_erase_iff

theorem Feasible.putBack (h : Feasible deps tasks p) : Feasible deps tasks (p.putBack n) where
  nodup_ongoing := h.nodup_ongoing.erase n
  nodup_finished := h.nodup_finished
  not_finished m hm := h.not_finished m (List.mem_of_mem_erase hm)
  mem m hm := h.mem m (hm.imp_left List.mem_of_mem_erase)
  deps m hm := h.deps m (hm.imp_left List.mem_of_mem_erase)

theorem Feasible.ready_putBack (h : Feasible deps tasks p) (hn : n ∈ p.ongoing) :
    Ready deps tasks (p.putBack n) m ↔ Ready deps tasks p m ∨ m = n := by
  constructor
  · intro hm
    by_cases heq : m = n
    · exact .inr heq
    · exact .inl ⟨hm.mem, fun hmem => hm.not_ongoing (h.mem_erase_ongoing.mpr ⟨heq, hmem⟩),
        hm.not_finished, hm.deps⟩
  · rintro (hm | rfl)
    · exact ⟨hm.mem, fun hmem => hm.not_ongoing (List.mem_of_mem_erase hmem), hm.not_finished,
        hm.deps⟩
    · exact ⟨h.mem m (.inl hn), fun hmem => (h.mem_erase_ongoing.mp hmem).1 rfl,
        h.not_finished m hn, h.deps m (.inl hn)⟩

theorem Feasible.finish (h : Feasible deps tasks p) (hn : n ∈ p.ongoing) :
    Feasible deps tasks (p.finish n) where
  nodup_ongoing := h.nodup_ongoing.erase n
  nodup_finished := List.nodup_cons.mpr ⟨h.not_finished n hn, h.nodup_finished⟩
  not_finished m hm hfin := by
    obtain ⟨hne, hm⟩ := h.mem_erase_ongoing.mp hm
    rcases List.mem_cons.mp hfin with heq | hfin
    · exact hne heq
    · exact h.not_finished m hm hfin
  mem m hm := by
    rcases hm with hm | hm
    · exact h.mem m (.inl (List.mem_of_mem_erase hm))
    · rcases List.mem_cons.mp hm with rfl | hm
      · exact h.mem m (.inl hn)
      · exact h.mem m (.inr hm)
  deps m hm d hd := by
    apply List.mem_cons_of_mem
    rcases hm with hm | hm
    · exact h.deps m (.inl (List.mem_of_mem_erase hm)) d hd
    · rcases List.mem_cons.mp hm with rfl | hm
      · exact h.deps m (.inl hn) d hd
      · exact h.deps m (.inr hm) d hd

/-- A task becomes ready when its last dependency is finished. -/
theorem Feasible.ready_finish (h : Feasible deps tasks p) (hn : n ∈ p.ongoing) :
    Ready deps tasks (p.finish n) m ↔
      Ready deps tasks p m ∨
        (m ∈ tasks ∧ n ∈ deps m ∧ ∀ d ∈ deps m, d ≠ n → d ∈ p.finished) := by
  have hready : Ready deps tasks p m → m ≠ n := fun hm heq => hm.not_ongoing (heq ▸ hn)
  constructor
  · intro hm
    have hnot : m ∉ p.finished := fun hfin => hm.not_finished (List.mem_cons_of_mem n hfin)
    have hne : m ≠ n := by
      rintro rfl
      exact hm.not_finished List.mem_cons_self
    have hdeps : ∀ d ∈ deps m, d ≠ n → d ∈ p.finished := fun d hd hdn =>
      (List.mem_cons.mp (hm.deps d hd)).resolve_left hdn
    by_cases hdep : n ∈ deps m
    · exact .inr ⟨hm.mem, hdep, hdeps⟩
    · left
      refine ⟨hm.mem, fun hmem => ?_, hnot, fun d hd => hdeps d hd ?_⟩
      · exact hm.not_ongoing (h.mem_erase_ongoing.mpr ⟨hne, hmem⟩)
      · rintro rfl
        exact hdep hd
  · rintro (hm | ⟨hmem, hdep, hdeps⟩)
    · refine ⟨hm.mem, fun hmem => hm.not_ongoing (List.mem_of_mem_erase hmem), fun hfin => ?_,
        fun d hd => List.mem_cons_of_mem n (hm.deps d hd)⟩
      rcases List.mem_cons.mp hfin with heq | hfin
      · exact hready hm heq
      · exact hm.not_finished hfin
    · -- a started task has no unfinished dependency
      have hstarted : ¬ (m ∈ p.ongoing ∨ m ∈ p.finished) := fun hs =>
        h.not_finished n hn (h.deps m hs n hdep)
      rw [not_or] at hstarted
      refine ⟨hmem, fun hm => hstarted.1 (List.mem_of_mem_erase hm), fun hfin => ?_, fun d hd => ?_⟩
      · rcases List.mem_cons.mp hfin with rfl | hfin
        · exact hstarted.1 hn
        · exact hstarted.2 hfin
      · by_cases hdn : d = n
        · exact hdn ▸ List.mem_cons_self
        · exact List.mem_cons_of_mem n (hdeps d hd hdn)

end TaskGraph
