import Mathlib.Data.List.Sort
import Opus.Library.Run
import Opus.Simulation.IssueLoop

/-!
# Every node is issued once

A loop runs over the nodes that were free when it started. While it waits for a call of another
rank, a second loop of the same rank can issue nodes that the first one still has ahead. The
hardware keeps the first loop from issuing them again, except those that do not occupy it: receives,
and nodes that end as soon as they are issued.

## Main definitions

* `RankOf`, `SimOf`: the invariants of a rank and of the machine, for the progress of the ranks
* `Ahead`: what is known of a node that a loop has ahead
* `keepsAhead`: the condition on a step
* `IssuedOnce`: no assertion has failed, and every node has been issued once

## Main results

* `RankOf.take`, `RankOf.giveBack`, `RankOf.skipInvalid`, `RankOf.complete`: the steps of a rank
* `SimOf.issue`, `SimOf.callFinished`: the steps of the machine that take or finish a node
* `SimOf.step`: every step that meets the condition keeps the invariant
* `issuedOnce_of_keepsAhead`: in every run whose steps meet the condition, nodes are issued once
* `not_issuedOnce_nestedReceive`: a receive that is issued twice
-/

namespace Opus.Simulation

open TaskGraph Transition

/-! ## A rank -/

def Node.isComm (node : Node) : Bool :=
  node.type = .commColl || node.type = .commSend || node.type = .commRecv

/-- The state of a rank whose progress is `p`. -/
structure RankOf (T : Trace) (p : Progress ℕ) (x : RankState) : Prop where
  resolver : ResolverOf T p x.resolver
  hardware : HardwareOf T p.ongoing x.hardware
  taken : ∀ n, x.taken n = x.pushedBack n + x.finished n + if n ∈ p.ongoing then 1 else 0
  finished : ∀ n, x.finished n = if n ∈ p.finished then 1 else 0
  pushedBack : ∀ n, 0 < x.pushedBack n →
    ∃ node, T.lookupNode n = some node ∧ node.isComm = true

section Rank

variable {T : Trace} {p : Progress ℕ} {x : RankState} {node : Node} {n : ℕ}

theorem rankOf_initial (T : Trace) : RankOf T (.initial ℕ) (.initial T) where
  resolver := resolverOf_ofTrace T
  hardware := hardwareOf_idle T
  taken _ := rfl
  finished _ := rfl
  pushedBack _ h := absurd h (lt_irrefl 0)

theorem RankOf.await (h : RankOf T p x) (n : ℕ) : RankOf T p (x.await n) :=
  ⟨h.resolver, h.hardware, h.taken, h.finished, h.pushedBack⟩

/-- A node that is free and available is taken. -/
theorem RankOf.take (h : RankOf T p x) (hn : T.lookupNode n = some node)
    (hready : Ready T.enabledDeps T.ids p n) (hav : x.hardware.isAvailable node = true) :
    ∃ x', x.take node = .ok x' ∧ RankOf T (p.take n) x' ∧ x'.awaiting = x.awaiting := by
  obtain ⟨-, rfl⟩ := Trace.mem_of_lookupNode hn
  obtain ⟨R, hR, hresolver⟩ := h.resolver.takeNode hready
  obtain ⟨hw, hocc, hhardware⟩ := h.hardware.occupy hn hav
  have htake : x.take node = .ok { x with
      resolver := R, hardware := hw
      taken := Function.update x.taken node.id (x.taken node.id + 1) } := by
    simp only [RankState.take, hR, hocc]
  refine ⟨_, htake, ⟨hresolver, hhardware, fun m => ?_, h.finished, h.pushedBack⟩, rfl⟩
  have htaken := h.taken m
  by_cases hm : m = node.id
  · subst hm
    rw [if_neg hready.not_ongoing] at htaken
    simp only [Function.update_self, Progress.take, List.mem_cons_self, if_true]
    omega
  · simp only [Function.update_of_ne hm, Progress.take, List.mem_cons, hm, false_or]
    exact htaken

/-- A taken communication is given back. -/
theorem RankOf.giveBack (h : RankOf T p x) (hn : T.lookupNode n = some node)
    (hmem : n ∈ p.ongoing) (hcomm : node.isComm = true) :
    ∃ x', x.giveBack node = .ok x' ∧ RankOf T (p.putBack n) x' ∧ x'.awaiting = x.awaiting := by
  obtain ⟨-, rfl⟩ := Trace.mem_of_lookupNode hn
  obtain ⟨hw, hrel, hhardware⟩ := h.hardware.release hn hmem
  obtain ⟨R, hR, hresolver⟩ := h.resolver.pushBackNode hmem
  have hback : x.giveBack node = .ok { x with
      resolver := R, hardware := hw
      pushedBack := Function.update x.pushedBack node.id (x.pushedBack node.id + 1) } := by
    simp only [RankState.giveBack, hR, hrel]
  refine ⟨_, hback, ⟨hresolver, hhardware, fun m => ?_, h.finished, fun m hm => ?_⟩, rfl⟩
  · have htaken := h.taken m
    have hnodup := h.resolver.feasible.nodup_ongoing
    by_cases hm : m = node.id
    · subst hm
      rw [if_pos hmem] at htaken
      simp only [Function.update_self, Progress.putBack, hnodup.mem_erase_iff, ne_eq,
        not_true_eq_false, false_and, if_false]
      omega
    · simp only [Function.update_of_ne hm, Progress.putBack, hnodup.mem_erase_iff, ne_eq, hm,
        not_false_eq_true, true_and]
      exact htaken
  · by_cases hmn : m = node.id
    · exact ⟨node, hmn ▸ hn, hcomm⟩
    · dsimp only at hm
      rw [Function.update_of_ne hmn] at hm
      exact h.pushedBack m hm

/-- The counts after the end of a taken node. -/
theorem RankOf.finish {R : DependancyResolver} {hw : HardwareResource} {awaiting : List ℕ}
    (h : RankOf T p x) (hmem : n ∈ p.ongoing) (hresolver : ResolverOf T (p.finish n) R)
    (hhardware : HardwareOf T (p.ongoing.erase n) hw) :
    RankOf T (p.finish n) ⟨R, hw, awaiting, x.taken, x.pushedBack,
      Function.update x.finished n (x.finished n + 1)⟩ := by
  have hnot : n ∉ p.finished := h.resolver.feasible.not_finished n hmem
  have hnodup := h.resolver.feasible.nodup_ongoing
  refine ⟨hresolver, hhardware, fun m => ?_, fun m => ?_, h.pushedBack⟩
  · have htaken := h.taken m
    by_cases hm : m = n
    · subst hm
      rw [if_pos hmem] at htaken
      simp only [Function.update_self, Progress.finish, hnodup.mem_erase_iff, ne_eq,
        not_true_eq_false, false_and, if_false]
      omega
    · simp only [Function.update_of_ne hm, Progress.finish, hnodup.mem_erase_iff, ne_eq, hm,
        not_false_eq_true, true_and]
      exact htaken
  · have hfinished := h.finished m
    by_cases hm : m = n
    · subst hm
      rw [if_neg hnot] at hfinished
      simp only [Function.update_self, Progress.finish, List.mem_cons_self, if_true]
      omega
    · simp only [Function.update_of_ne hm, Progress.finish, List.mem_cons, hm, false_or]
      exact hfinished

theorem RankOf.skipInvalid (h : RankOf T p x) (hn : T.lookupNode n = some node)
    (hmem : n ∈ p.ongoing) :
    ∃ x', x.skipInvalid node = .ok x' ∧ RankOf T (p.finish n) x' ∧ x'.awaiting = x.awaiting := by
  obtain ⟨-, rfl⟩ := Trace.mem_of_lookupNode hn
  obtain ⟨R, hR, hresolver⟩ := h.resolver.finishNode hmem
  obtain ⟨hw, hrel, hhardware⟩ := h.hardware.release hn hmem
  refine ⟨_, ?_, h.finish hmem hresolver hhardware, rfl⟩
  simp only [RankState.skipInvalid, hR, hrel]

theorem RankOf.complete (h : RankOf T p x) (hn : T.lookupNode n = some node)
    (hmem : n ∈ p.ongoing) :
    ∃ x', x.complete node = .ok x' ∧ RankOf T (p.finish n) x' ∧
      x'.awaiting = x.awaiting.erase n := by
  obtain ⟨-, rfl⟩ := Trace.mem_of_lookupNode hn
  obtain ⟨hw, hrel, hhardware⟩ := h.hardware.release hn hmem
  obtain ⟨R, hR, hresolver⟩ := h.resolver.finishNode hmem
  refine ⟨_, ?_, h.finish hmem hresolver hhardware, rfl⟩
  simp only [RankState.complete, hR, hrel]

end Rank

/-! ## The machine -/

/-- The nodes of a rank whose collective is generated after the calls of the other members. -/
def generating (r : ℕ) (stack : List Frame) : List ℕ :=
  stack.filterMap fun
    | .generate r' n => if r' = r then some n else none
    | _ => none

/-- A node that a loop has ahead: it was free, and what has been taken since is not available. -/
structure Ahead (T : Trace) (p : Progress ℕ) (n : ℕ) : Prop where
  mem : n ∈ T.ids
  not_finished : n ∉ p.finished
  deps : ∀ d ∈ T.enabledDeps n, d ∈ p.finished
  unit : n ∈ p.ongoing → T.unitOf n ≠ none

/-- The state of the machine, when the progress of each rank is `p`. -/
structure SimOf (S : SimConfig) (p : ℕ → Progress ℕ) (s : SimState) : Prop where
  fault : s.fault = none
  rank : ∀ r, RankOf (S.trace r) (p r) (s.rank r)
  nodup : ∀ r, ((s.rank r).awaiting ++ generating r s.stack).Nodup
  ongoing : ∀ r, ∀ n ∈ (s.rank r).awaiting ++ generating r s.stack, n ∈ (p r).ongoing
  nodup_loop : ∀ r rest, .loop r rest ∈ s.stack → rest.Nodup
  ahead : ∀ r rest, .loop r rest ∈ s.stack → ∀ n ∈ rest, Ahead (S.trace r) (p r) n

section Machine

variable {S : SimConfig} {p : ℕ → Progress ℕ} {s t : SimState} {r n : ℕ} {node : Node}

theorem simOf_initial (S : SimConfig) (scheduler : SchedulerState) :
    SimOf S (fun _ => .initial ℕ) (.initial S scheduler) where
  fault := rfl
  rank r := rankOf_initial (S.trace r)
  nodup _ := List.nodup_nil
  ongoing _ _ h := absurd h List.not_mem_nil
  nodup_loop _ _ h := absurd h List.not_mem_nil
  ahead _ _ h := absurd h List.not_mem_nil

/-- What the ranks do not see does not matter. -/
theorem SimOf.congr (h : SimOf S p s) (hrank : t.rank = s.rank) (hstack : t.stack = s.stack)
    (hfault : t.fault = s.fault) : SimOf S p t :=
  ⟨hfault.trans h.fault, fun r => hrank ▸ h.rank r, fun r => hrank ▸ hstack ▸ h.nodup r,
    fun r => hrank ▸ hstack ▸ h.ongoing r, fun r => hstack ▸ h.nodup_loop r,
    fun r => hstack ▸ h.ahead r⟩

/-- A free node is ahead. -/
theorem Ahead.of_ready {T : Trace} {q : Progress ℕ} (h : Ready T.enabledDeps T.ids q n) :
    Ahead T q n :=
  ⟨h.mem, h.not_finished, h.deps, fun hmem => absurd hmem h.not_ongoing⟩

/-- **The loop reaches a node**: when it is available, it is still free. -/
theorem Ahead.ready {T : Trace} {q : Progress ℕ} {x : RankState} (h : Ahead T q n)
    (hx : RankOf T q x) (hn : T.lookupNode n = some node)
    (hav : x.hardware.isAvailable node = true) : Ready T.enabledDeps T.ids q n := by
  refine ⟨h.mem, fun hmem => ?_, h.not_finished, h.deps⟩
  have hunit := h.unit hmem
  rw [unitOf_eq hn] at hunit
  exact absurd hav (by simp [hx.hardware.not_isAvailable hn hmem hunit])

/-- A call of the issue loop. -/
theorem SimOf.enter (h : SimOf S p s) (r : ℕ) : SimOf S p (s.enter r) := by
  have hloop : ∀ r' rest, .loop r' rest ∈ (s.enter r).stack →
      (r' = r ∧ rest = (s.rank r).dependancyFreeNodesSet) ∨ .loop r' rest ∈ s.stack := by
    intro r' rest hmem
    rcases List.mem_cons.mp hmem with heq | hmem
    · cases heq
      exact .inl ⟨rfl, rfl⟩
    · exact .inr hmem
  refine ⟨h.fault, h.rank, h.nodup, h.ongoing, fun r' rest hmem => ?_, fun r' rest hmem n hn => ?_⟩
  · rcases hloop r' rest hmem with ⟨rfl, rfl⟩ | hmem
    · exact (List.perm_insertionSort _ _).nodup_iff.mpr (List.nodup_dedup _)
    · exact h.nodup_loop r' rest hmem
  · rcases hloop r' rest hmem with ⟨rfl, rfl⟩ | hmem
    · rw [RankState.dependancyFreeNodesSet, List.mem_insertionSort, List.mem_dedup] at hn
      exact .of_ready (((h.rank r').resolver.free n).mp hn)
    · exact h.ahead r' rest hmem n hn

/-- A stack whose calls are rests of calls of the old one. -/
theorem SimOf.restack (h : SimOf S p s) {stack : List Frame}
    (hgen : ∀ r, List.Sublist (generating r stack) (generating r s.stack))
    (hloop : ∀ r rest, .loop r rest ∈ stack →
      ∃ all, .loop r all ∈ s.stack ∧ List.Sublist rest all) :
    SimOf S p { s with stack := stack } := by
  refine ⟨h.fault, h.rank, fun r => ?_, fun r n hn => ?_, fun r rest hmem => ?_,
    fun r rest hmem n hn => ?_⟩
  · exact (h.nodup r).sublist ((hgen r).append_left _)
  · exact h.ongoing r n (((hgen r).append_left _).subset hn)
  · obtain ⟨all, hall, hsub⟩ := hloop r rest hmem
    exact (h.nodup_loop r all hall).sublist hsub
  · obtain ⟨all, hall, hsub⟩ := hloop r rest hmem
    exact h.ahead r all hall n (hsub.subset hn)

/-- The end of a call. -/
theorem SimOf.pop (h : SimOf S p s) {frame : Frame} {stack : List Frame}
    (hs : s.stack = frame :: stack) : SimOf S p { s with stack := stack } := by
  apply h.restack
  · intro r
    rw [hs]
    exact (List.sublist_cons_self frame stack).filterMap _
  · intro r rest hmem
    exact ⟨rest, hs ▸ List.mem_cons_of_mem frame hmem, .refl rest⟩

/-- The loop goes to the next node. -/
theorem SimOf.advance (h : SimOf S p s) {rest : List ℕ} {stack : List Frame}
    (hs : s.stack = .loop r (n :: rest) :: stack) :
    SimOf S p { s with stack := .loop r rest :: stack } := by
  apply h.restack
  · intro r'
    rw [hs]
    exact .refl _
  · intro r' rest' hmem
    rw [hs]
    rcases List.mem_cons.mp hmem with heq | hmem
    · cases heq
      exact ⟨n :: rest, List.mem_cons_self, List.sublist_cons_self n rest⟩
    · exact ⟨rest', List.mem_cons_of_mem _ hmem, .refl rest'⟩

/-- The leader calls the next member. -/
theorem SimOf.wakeNext (h : SimOf S p s) {npu : ℕ} {npus : List ℕ} {stack : List Frame}
    (hs : s.stack = .wake (npu :: npus) :: stack) :
    SimOf S p { s with stack := .wakeUp npu :: .wake npus :: stack } := by
  apply h.restack
  · intro r
    rw [hs]
    exact .refl _
  · intro r rest hmem
    rw [hs]
    have hmem' : Frame.loop r rest ∈ stack := by simpa using hmem
    exact ⟨rest, List.mem_cons_of_mem _ hmem', .refl rest⟩

/-- A step of one rank. -/
theorem SimOf.setRank (h : SimOf S p s) {x : RankState} {q : Progress ℕ}
    (hx : RankOf (S.trace r) q x) (hnodup : (x.awaiting ++ generating r s.stack).Nodup)
    (hongoing : ∀ n ∈ x.awaiting ++ generating r s.stack, n ∈ q.ongoing)
    (hahead : ∀ rest, .loop r rest ∈ s.stack → ∀ n ∈ rest, Ahead (S.trace r) q n) :
    SimOf S (Function.update p r q) (s.setRank r x) := by
  refine ⟨h.fault, fun r' => ?_, fun r' => ?_, fun r' n hn => ?_, h.nodup_loop,
    fun r' rest hloop n hn => ?_⟩
  all_goals
    dsimp only [SimState.setRank] at *
    by_cases hr : r' = r
  · subst hr
    rw [Function.update_self, Function.update_self]
    exact hx
  · rw [Function.update_of_ne hr, Function.update_of_ne hr]
    exact h.rank r'
  · subst hr
    rw [Function.update_self]
    exact hnodup
  · rw [Function.update_of_ne hr]
    exact h.nodup r'
  · subst hr
    rw [Function.update_self] at hn ⊢
    exact hongoing n hn
  · rw [Function.update_of_ne hr] at hn ⊢
    exact h.ongoing r' n hn
  · subst hr
    rw [Function.update_self]
    exact hahead rest hloop n hn
  · rw [Function.update_of_ne hr]
    exact h.ahead r' rest hloop n hn

/-- A node that has been taken and is being issued. -/
structure Issuing (S : SimConfig) (p : ℕ → Progress ℕ) (s : SimState) (r : ℕ) (node : Node) :
    Prop where
  sim : SimOf S p s
  lookup : (S.trace r).lookupNode node.id = some node
  ongoing : node.id ∈ (p r).ongoing
  fresh : node.id ∉ (s.rank r).awaiting ++ generating r s.stack

theorem Issuing.congr (h : Issuing S p s r node) (hrank : t.rank = s.rank)
    (hstack : t.stack = s.stack) (hfault : t.fault = s.fault) : Issuing S p t r node :=
  ⟨h.sim.congr hrank hstack hfault, h.lookup, h.ongoing, by rw [hrank, hstack]; exact h.fresh⟩

/-- A free node is taken. No loop of the rank has it ahead when it does not occupy the hardware. -/
theorem SimOf.take (h : SimOf S p s) (hn : (S.trace r).lookupNode node.id = some node)
    (hready : Ready (S.trace r).enabledDeps (S.trace r).ids (p r) node.id)
    (hav : (s.rank r).hardware.isAvailable node = true)
    (hahead : node.unit = none → ∀ rest, .loop r rest ∈ s.stack → node.id ∉ rest) :
    ∃ q, Issuing S q (s.onRank r fun x => x.take node) r node := by
  obtain ⟨x, hx, hrank, hawaiting⟩ := (h.rank r).take hn hready hav
  have hfresh : node.id ∉ x.awaiting ++ generating r s.stack := by
    rw [hawaiting]
    exact fun hmem => hready.not_ongoing (h.ongoing r _ hmem)
  have hstep : (s.onRank r fun x => x.take node) = s.setRank r x := by
    rw [SimState.onRank, hx]
  refine ⟨Function.update p r ((p r).take node.id), ?_⟩
  rw [hstep]
  refine ⟨h.setRank hrank ?_ ?_ ?_, hn, ?_, ?_⟩
  · rw [hawaiting]
    exact h.nodup r
  · rw [hawaiting]
    exact fun n hmem => List.mem_cons_of_mem _ (h.ongoing r n hmem)
  · intro rest hloop m hm
    have hm' := h.ahead r rest hloop m hm
    refine ⟨hm'.mem, hm'.not_finished, hm'.deps, fun hmem => ?_⟩
    rcases List.mem_cons.mp hmem with rfl | hmem
    · rw [unitOf_eq hn]
      exact fun hunit => hahead hunit rest hloop hm
    · exact hm'.unit hmem
  · rw [Function.update_self]
    exact List.mem_cons_self
  · simpa only [SimState.setRank, Function.update_self] using hfresh

/-- The end of the node is awaited. -/
theorem Issuing.await (h : Issuing S p s r node) : SimOf S p (s.await r node.id) := by
  have hset : SimOf S (Function.update p r (p r))
      ((s.clearRefused r node.id).setRank r ((s.rank r).await node.id)) := by
    apply (h.sim.congr rfl rfl rfl : SimOf S p (s.clearRefused r node.id)).setRank
    · exact (h.sim.rank r).await node.id
    · exact List.nodup_cons.mpr ⟨h.fresh, h.sim.nodup r⟩
    · intro n hn
      rcases List.mem_cons.mp hn with rfl | hn
      · exact h.ongoing
      · exact h.sim.ongoing r n hn
    · exact h.sim.ahead r
  rwa [Function.update_eq_self] at hset

/-- The rest of `issue_coll_comm` is left to the stack. -/
theorem Issuing.lead (h : Issuing S p s r node) (others : List ℕ) :
    SimOf S p { s with stack := .wake others :: .generate r node.id :: s.stack } := by
  have hgen : ∀ r', generating r' (.wake others :: .generate r node.id :: s.stack) =
      if r = r' then node.id :: generating r' s.stack else generating r' s.stack := by
    intro r'
    by_cases hr : r = r' <;> simp [generating, hr]
  have hmem : ∀ r' rest, .loop r' rest ∈ Frame.wake others :: .generate r node.id :: s.stack →
      .loop r' rest ∈ s.stack := by
    intro r' rest hmem
    simpa using hmem
  refine ⟨h.sim.fault, h.sim.rank, fun r' => ?_, fun r' n hn => ?_,
    fun r' rest hloop => h.sim.nodup_loop r' rest (hmem r' rest hloop),
    fun r' rest hloop => h.sim.ahead r' rest (hmem r' rest hloop)⟩
  · rw [hgen]
    split
    · next hr =>
      subst hr
      exact List.nodup_middle.mpr (List.nodup_cons.mpr ⟨h.fresh, h.sim.nodup r⟩)
    · exact h.sim.nodup r'
  · rw [hgen] at hn
    split at hn
    · next hr =>
      subst hr
      rcases List.mem_append.mp hn with hn | hn
      · exact h.sim.ongoing r n (List.mem_append_left _ hn)
      · rcases List.mem_cons.mp hn with rfl | hn
        · exact h.ongoing
        · exact h.sim.ongoing r n (List.mem_append_right _ hn)
    · exact h.sim.ongoing r' n hn

/-- The collective of a leader is generated. -/
theorem SimOf.generate (h : SimOf S p s) {stack : List Frame}
    (hs : s.stack = .generate r n :: stack) :
    SimOf S p (({ s with stack := stack }).await r n) := by
  have hgen : generating r s.stack = n :: generating r stack := by
    rw [hs]
    simp [generating]
  have hpop := h.pop hs
  have hset : SimOf S (Function.update p r (p r))
      ((({ s with stack := stack } : SimState).clearRefused r n).setRank r
        ((s.rank r).await n)) := by
    apply (hpop.congr rfl rfl rfl : SimOf S p
      (({ s with stack := stack } : SimState).clearRefused r n)).setRank
    · exact (h.rank r).await n
    · have hnodup := h.nodup r
      rw [hgen] at hnodup
      exact List.nodup_middle.mp hnodup
    · intro m hm
      apply h.ongoing r m
      have hm' : m ∈ n :: (s.rank r).awaiting ++ generating r stack := hm
      rw [hgen]
      simpa [or_left_comm] using hm'
    · exact hpop.ahead r
  rwa [Function.update_eq_self] at hset

/-- The node ends at once. No loop of the rank has it ahead. -/
theorem Issuing.skipInvalid (h : Issuing S p s r node)
    (hahead : ∀ rest, .loop r rest ∈ s.stack → node.id ∉ rest) :
    ∃ q, SimOf S q (s.onRank r fun x => x.skipInvalid node) := by
  obtain ⟨x, hx, hrank, hawaiting⟩ := (h.sim.rank r).skipInvalid h.lookup h.ongoing
  have hfeasible := (h.sim.rank r).resolver.feasible
  refine ⟨Function.update p r ((p r).finish node.id), ?_⟩
  rw [SimState.onRank, hx]
  apply h.sim.setRank hrank
  · rw [hawaiting]
    exact h.sim.nodup r
  · rw [hawaiting]
    intro n hn
    refine hfeasible.mem_erase_ongoing.mpr ⟨?_, h.sim.ongoing r n hn⟩
    rintro rfl
    exact h.fresh hn
  · intro rest hloop m hm
    have hm' := h.sim.ahead r rest hloop m hm
    refine ⟨hm'.mem, fun hfin => ?_, fun d hd => List.mem_cons_of_mem _ (hm'.deps d hd),
      fun hmem => hm'.unit (List.mem_of_mem_erase hmem)⟩
    rcases List.mem_cons.mp hfin with rfl | hfin
    · exact hahead rest hloop hm
    · exact hm'.not_finished hfin

/-- The node is given back. -/
theorem Issuing.refuse (h : Issuing S p s r node) (hcomm : node.isComm = true) :
    ∃ q, SimOf S q (s.refuse r node) := by
  obtain ⟨x, hx, hrank, hawaiting⟩ := (h.sim.rank r).giveBack h.lookup h.ongoing hcomm
  have hfeasible := (h.sim.rank r).resolver.feasible
  have hmark : SimOf S p (s.markRefused r node.id) := h.sim.congr rfl rfl rfl
  have hstep : s.refuse r node = (s.markRefused r node.id).setRank r x := by
    rw [SimState.refuse, SimState.onRank]
    have hx' : ((s.markRefused r node.id).rank r).giveBack node = .ok x := hx
    rw [hx']
  refine ⟨Function.update p r ((p r).putBack node.id), ?_⟩
  rw [hstep]
  apply hmark.setRank hrank
  · rw [hawaiting]
    exact h.sim.nodup r
  · rw [hawaiting]
    intro n hn
    refine hfeasible.mem_erase_ongoing.mpr ⟨?_, h.sim.ongoing r n hn⟩
    rintro rfl
    exact h.fresh hn
  · intro rest hloop m hm
    have hm' := h.sim.ahead r rest hloop m hm
    exact ⟨hm'.mem, hm'.not_finished, hm'.deps, fun hmem => hm'.unit (List.mem_of_mem_erase hmem)⟩

/-- The end of an awaited node, when no call is on the stack. -/
theorem SimOf.complete (h : SimOf S p s) (hn : (S.trace r).lookupNode node.id = some node)
    (hmem : node.id ∈ (s.rank r).awaiting) (hs : s.stack = []) :
    ∃ q, SimOf S q (s.onRank r fun x => x.complete node) := by
  have hongoing := h.ongoing r node.id (List.mem_append_left _ hmem)
  obtain ⟨x, hx, hrank, hawaiting⟩ := (h.rank r).complete hn hongoing
  have hfeasible := (h.rank r).resolver.feasible
  have hnodup := h.nodup r
  have hgen : generating r s.stack = [] := by rw [hs]; rfl
  rw [hgen, List.append_nil] at hnodup
  refine ⟨Function.update p r ((p r).finish node.id), ?_⟩
  rw [SimState.onRank, hx]
  apply h.setRank hrank
  · rw [hawaiting, hgen, List.append_nil]
    exact hnodup.erase _
  · rw [hawaiting, hgen, List.append_nil]
    intro n hn
    obtain ⟨hne, hn⟩ := hnodup.mem_erase_iff.mp hn
    exact hfeasible.mem_erase_ongoing.mpr
      ⟨hne, h.ongoing r n (List.mem_append_left _ hn)⟩
  · intro rest hloop
    rw [hs] at hloop
    cases hloop

end Machine

/-! ## Steps -/

/-- The node is not protected by the hardware once it has been issued: a receive, or a node that
ends at once. -/
def SimConfig.reenters (S : SimConfig) (node : Node) : Bool :=
  (node.type = .commRecv && !node.isCpuOp) || S.skipsAtOnce node

/-- The loop of the rank has the node ahead. -/
def Frame.hasAhead (r n : ℕ) : Frame → Bool
  | .loop r' rest => r' = r && n ∈ rest
  | _ => false

/-- The condition on a step: a loop does not issue a receive, or a node that ends at once, while a
suspended loop of the same rank has it ahead. -/
def keepsAhead (S : SimConfig) (s : SimState) : SimAct → Bool
  | .resume gate now =>
    match s.stack with
    | .loop r (n :: _) :: stack =>
      match (S.trace r).lookupNode n with
      | none => true
      | some node =>
        !(S.reenters node && (s.rank r).hardware.isAvailable node &&
          (issueReconfig S gate now s r node).map Prod.fst = some true &&
          stack.any fun frame => frame.hasAhead r n)
    | _ => true
  | _ => true

section Step

variable {S : SimConfig} {gate : Gate} {now : ℕ} {p : ℕ → Progress ℕ} {s t : SimState} {r n : ℕ}
  {node : Node}

theorem not_hasAhead {stack : List Frame} (h : (stack.any fun frame => frame.hasAhead r n) = false)
    (rest : List ℕ) (hmem : .loop r rest ∈ stack) : n ∉ rest := by
  have hframe := List.any_eq_false.mp h _ hmem
  simpa [Frame.hasAhead] using hframe

/-- Asking for a topology touches no rank. -/
theorem issueReconfig_eq {b : Bool} (h : issueReconfig S gate now s r node = some (b, t)) :
    t.rank = s.rank ∧ t.stack = s.stack ∧ t.fault = s.fault := by
  simp only [issueReconfig] at h
  obtain ⟨⟨canConfig, scheduler⟩, -, heq⟩ := Option.map_eq_some_iff.mp h
  dsimp only at heq
  split at heq
  · cases heq
    exact ⟨rfl, rfl, rfl⟩
  · cases heq
    exact ⟨rfl, rfl, rfl⟩

theorem Issuing.register (h : Issuing S p s r node) (runtime : ℕ) :
    SimOf S p (s.register r node runtime) :=
  (h.congr rfl rfl rfl : Issuing S p (s.emit [.register r node.id runtime]) r node).await

theorem Issuing.issueCollComm (h : Issuing S p s r node) (hcomm : node.isComm = true)
    (hs : issueCollComm S gate now s r node = some t) : ∃ q, SimOf S q t := by
  unfold Opus.Simulation.issueCollComm at hs
  split at hs
  · cases hs
    exact ⟨p, h.await⟩
  · obtain ⟨⟨granted, scheduler⟩, -, heq⟩ := Option.map_eq_some_iff.mp hs
    dsimp only at heq
    -- the vote and the answer of the scheduler touch no rank
    split at heq
    · subst heq
      refine @Issuing.refuse S p _ r node ?_ hcomm
      exact h.congr rfl rfl rfl
    · subst heq
      refine ⟨p, Issuing.await ?_⟩
      exact h.congr rfl rfl rfl
    · split at heq
      · subst heq
        refine ⟨p, Issuing.lead ?_ _⟩
        exact h.congr rfl rfl rfl
      · subst heq
        refine ⟨p, Issuing.await ?_⟩
        exact h.congr rfl rfl rfl

theorem Issuing.issueSendComm (h : Issuing S p s r node) (hcomm : node.isComm = true)
    (hs : issueSendComm S gate now s r node = some t) : ∃ q, SimOf S q t := by
  unfold Opus.Simulation.issueSendComm at hs
  obtain ⟨⟨granted, scheduler⟩, -, heq⟩ := Option.map_eq_some_iff.mp hs
  dsimp only at heq
  split at heq
  · subst heq
    refine ⟨p, Issuing.await ?_⟩
    exact h.congr rfl rfl rfl
  · subst heq
    refine @Issuing.refuse S p _ r node ?_ hcomm
    exact h.congr rfl rfl rfl

/-- **Issuing by type**: a node that ends at once is not ahead of another loop. -/
theorem Issuing.issueTaken (h : Issuing S p s r node)
    (hahead : S.skipsAtOnce node = true → ∀ rest, .loop r rest ∈ s.stack → node.id ∉ rest)
    (hs : issueTaken S gate now s r node = some t) : ∃ q, SimOf S q t := by
  unfold Opus.Simulation.issueTaken at hs
  split at hs
  · cases hs
    exact ⟨p, h.register _⟩
  · next hreplay =>
    split at hs
    · cases hs
      exact ⟨p, h.await⟩
    · cases hs
      exact ⟨p, h.await⟩
    · next htype =>
      split at hs
      · next hroofline =>
        split at hs
        · next hsize =>
          cases hs
          apply h.skipInvalid
          apply hahead
          simp only [Bool.and_eq_true, Bool.not_eq_true'] at hroofline
          simp [SimConfig.skipsAtOnce, hreplay, htype, hroofline.1, hroofline.2, hsize]
        · cases hs
          exact ⟨p, h.register _⟩
      · cases hs
        exact ⟨p, h.register _⟩
    · next htype =>
      split at hs
      · cases hs
      · exact h.issueCollComm (by simp [Node.isComm, htype]) hs
    · next htype =>
      split at hs
      · cases hs
      · exact h.issueSendComm (by simp [Node.isComm, htype]) hs
    · split at hs
      · cases hs
      · cases hs
        exact ⟨p, h.await⟩
    · next htype =>
      cases hs
      apply h.skipInvalid
      apply hahead
      simp [SimConfig.skipsAtOnce, hreplay, htype]
    · next htype =>
      cases hs
      apply h.skipInvalid
      apply hahead
      simp [SimConfig.skipsAtOnce, hreplay, htype]

/-- A node that the loop has reached is issued. -/
theorem SimOf.issue {rest : List ℕ} {stack : List Frame} (h : SimOf S p s)
    (hs : s.stack = .loop r (node.id :: rest) :: stack)
    (hn : (S.trace r).lookupNode node.id = some node)
    (hav : (s.rank r).hardware.isAvailable node = true)
    (hkeep : S.reenters node = true →
      (issueReconfig S gate now { s with stack := .loop r rest :: stack } r node).map Prod.fst =
        some true → (stack.any fun frame => frame.hasAhead r node.id) = false)
    (ht : issue S gate now { s with stack := .loop r rest :: stack } r node = some t) :
    ∃ q, SimOf S q t := by
  have hloop : Frame.loop r (node.id :: rest) ∈ s.stack := hs ▸ List.mem_cons_self
  have hready := (h.ahead r _ hloop node.id List.mem_cons_self).ready (h.rank r) hn hav
  have hnot : node.id ∉ rest := (List.nodup_cons.mp (h.nodup_loop r _ hloop)).1
  obtain ⟨⟨canConfig, u⟩, hu, ht⟩ := Option.bind_eq_some_iff.mp ht
  obtain ⟨hrank, hstack, hfault⟩ := issueReconfig_eq hu
  have hsim : SimOf S p u := (h.advance hs).congr hrank hstack hfault
  dsimp only at ht
  split at ht
  · next hcan =>
    -- no loop of the rank has the node ahead, when nothing else keeps it from being issued again
    have hahead : S.reenters node = true → ∀ rest', .loop r rest' ∈ u.stack →
        node.id ∉ rest' := by
      intro hre rest' hmem
      rw [hstack] at hmem
      rcases List.mem_cons.mp hmem with heq | hmem
      · cases heq
        exact hnot
      · exact not_hasAhead (hkeep hre (by rw [hu, hcan]; rfl)) rest' hmem
    obtain ⟨q, htaken⟩ := hsim.take hn hready (by rw [hrank]; exact hav) fun hunit =>
      hahead (by
        rcases unit_cases node with ⟨-, hu⟩ | ⟨-, -, hu⟩ | ⟨hcpu, hrecv, -⟩ | ⟨-, -, -, hu⟩
        · exact absurd hunit (by simp [hu])
        · exact absurd hunit (by simp [hu])
        · simp [SimConfig.reenters, hcpu, hrecv]
        · exact absurd hunit (by simp [hu]))
    rw [htaken.sim.fault] at ht
    refine htaken.issueTaken (fun hskip => ?_) ht
    have hstack' : (u.onRank r fun x => x.take node).stack = u.stack := by
      rw [SimState.onRank]
      split <;> rfl
    rw [hstack']
    exact hahead (by simp [SimConfig.reenters, hskip])
  · cases ht
    exact ⟨p, hsim⟩

/-- Outside its rank the end of a communication changes no calls. -/
theorem finishComm_eq (h : finishComm S gate now s r node = some t) :
    t.rank = s.rank ∧ t.stack = s.stack ∧ t.fault = s.fault := by
  have hprovision : ∀ {u : SimState} {cur : ℤ}, u.rank = s.rank → u.stack = s.stack →
      u.fault = s.fault → provisionNext S gate now u r cur = some t →
      t.rank = s.rank ∧ t.stack = s.stack ∧ t.fault = s.fault := by
    intro u cur hrank hstack hfault hu
    unfold provisionNext at hu
    split at hu
    · cases hu
      exact ⟨hrank, hstack, hfault⟩
    · obtain ⟨scheduler, -, rfl⟩ := Option.map_eq_some_iff.mp hu
      exact ⟨hrank, hstack, hfault⟩
  have hround : (finishRound S s r node.group).rank = s.rank ∧
      (finishRound S s r node.group).stack = s.stack ∧
      (finishRound S s r node.group).fault = s.fault := by
    simp only [finishRound]
    split <;> exact ⟨rfl, rfl, rfl⟩
  unfold finishComm at h
  split at h
  · split at h
    · exact hprovision (by rfl) (by rfl) (by rfl) h
    · exact hprovision hround.1 hround.2.1 hround.2.2 h
  · exact hprovision (by rfl) (by rfl) (by rfl) h
  · exact hprovision (by rfl) (by rfl) (by rfl) h
  · cases h
    exact ⟨rfl, rfl, rfl⟩

/-- An awaited node ends. -/
theorem SimOf.callFinished (h : SimOf S p s)
    (hn : (S.trace r).lookupNode node.id = some node)
    (hmem : node.id ∈ (s.rank r).awaiting) (hs : s.stack = [])
    (ht : callFinished S gate now s r node = some t) : ∃ q, SimOf S q t := by
  obtain ⟨u, hu, rfl⟩ := Option.map_eq_some_iff.mp ht
  have hsame : u.rank = s.rank ∧ u.stack = s.stack ∧ u.fault = s.fault := by
    split at hu
    · cases hu
      exact ⟨rfl, rfl, rfl⟩
    · exact finishComm_eq hu
  obtain ⟨hrank, hstack, hfault⟩ := hsame
  have hsim : SimOf S p u := h.congr hrank hstack hfault
  obtain ⟨q, hq⟩ := hsim.complete hn (by rw [hrank]; exact hmem) (by rw [hstack]; exact hs)
  refine ⟨q, ?_⟩
  dsimp only
  rw [hq.fault]
  exact hq.enter r

/-- **Every step that meets the condition** keeps the invariant. -/
theorem SimOf.step {act : SimAct} (h : SimOf S p s) (hkeep : keepsAhead S s act = true)
    (ht : simStep S s act = some t) : ∃ q, SimOf S q t := by
  have hclear : SimOf S p { s with effects := [] } := h.congr rfl rfl rfl
  have hrunning : ¬ s.fault.isSome = true := by simp [h.fault]
  unfold simStep at ht
  rw [if_neg hrunning] at ht
  dsimp only at ht
  split at ht
  · -- a call of the loop
    split at ht
    · cases ht
      exact ⟨p, hclear.enter _⟩
    · cases ht
  · next gate now r n hs =>
    split at ht
    · next hmem =>
      obtain ⟨node, hn, hcall⟩ := Option.bind_eq_some_iff.mp ht
      obtain ⟨-, rfl⟩ := Trace.mem_of_lookupNode hn
      exact hclear.callFinished hn hmem hs hcall
    · cases ht
  · next gate now r n rest stack hs =>
    obtain ⟨node, hn, hissue⟩ := Option.bind_eq_some_iff.mp ht
    obtain ⟨-, rfl⟩ := Trace.mem_of_lookupNode hn
    split at hissue
    · next hav =>
      refine hclear.issue hs hn hav (fun hre hcan => ?_) hissue
      have hsame : (issueReconfig S gate now s r node).map Prod.fst = some true := by
        rw [← hcan]
        simp only [issueReconfig, Option.map_map]
        congr 1
        funext ⟨b, scheduler⟩
        dsimp only [Function.comp]
        split <;> rfl
      have hav' : (s.rank r).hardware.isAvailable node = true := hav
      simpa only [keepsAhead, hs, hn, hre, hav', hsame, decide_true, Bool.true_and,
        Bool.not_eq_true'] using hkeep
    · cases hissue
      exact ⟨p, hclear.advance hs⟩
  · next hs =>
    cases ht
    exact ⟨p, hclear.pop hs⟩
  · next hs =>
    cases ht
    exact ⟨p, (hclear.wakeNext hs).enter _⟩
  · next hs =>
    cases ht
    exact ⟨p, hclear.pop hs⟩
  · next hs =>
    cases ht
    exact ⟨p, (hclear.pop hs).congr rfl rfl rfl⟩
  · next hs =>
    cases ht
    exact ⟨p, hclear.generate hs⟩
  · cases ht

end Step

/-! ## Runs -/

namespace RankState

/-- The node can be taken. -/
def IsFree (x : RankState) (n : ℕ) : Prop := n ∈ x.resolver.dependancyFreeNodes

/-- The node is taken and not finished. -/
def IsOngoing (x : RankState) (n : ℕ) : Prop := n ∈ x.resolver.enabledDependancy.ongoingNodes

instance (x : RankState) (n : ℕ) : Decidable (x.IsFree n) := inferInstanceAs (Decidable (_ ∈ _))

instance (x : RankState) (n : ℕ) : Decidable (x.IsOngoing n) := inferInstanceAs (Decidable (_ ∈ _))

end RankState

/-- Nodes have been issued once: no assertion has failed and nothing has been thrown, a node has
been taken once for each time it was given back or has finished, and once more while it is ongoing; a
finished node stays finished, and only communications are given back. -/
structure IssuedOnce (S : SimConfig) (s : SimState) : Prop where
  fault : s.fault = none
  taken : ∀ r n, (s.rank r).taken n = (s.rank r).pushedBack n + (s.rank r).finished n +
    if (s.rank r).IsOngoing n then 1 else 0
  not_both : ∀ r n, ¬ ((s.rank r).IsFree n ∧ (s.rank r).IsOngoing n)
  finished : ∀ r n, 0 < (s.rank r).finished n →
    (s.rank r).finished n = 1 ∧ ¬ (s.rank r).IsFree n ∧ ¬ (s.rank r).IsOngoing n
  pushedBack : ∀ r n, 0 < (s.rank r).pushedBack n →
    ∃ node, (S.trace r).lookupNode n = some node ∧ node.isComm = true

theorem SimOf.issuedOnce {S : SimConfig} {p : ℕ → Progress ℕ} {s : SimState} (h : SimOf S p s) :
    IssuedOnce S s := by
  have hongoing : ∀ r n, (s.rank r).IsOngoing n ↔ n ∈ (p r).ongoing := fun r =>
    (h.rank r).resolver.enabled.ongoing
  have hfree : ∀ r n, (s.rank r).IsFree n ↔
      Ready (S.trace r).enabledDeps (S.trace r).ids (p r) n := fun r => (h.rank r).resolver.free
  refine ⟨h.fault, fun r n => ?_, fun r n hboth => ?_, fun r n hfin => ?_,
    fun r n => (h.rank r).pushedBack n⟩
  · rw [(h.rank r).taken n]
    simp only [hongoing]
  · exact ((hfree r n).mp hboth.1).not_ongoing ((hongoing r n).mp hboth.2)
  · have hcount := (h.rank r).finished n
    split at hcount
    · next hmem =>
      refine ⟨hcount, fun hn => ?_, fun hn => ?_⟩
      · exact ((hfree r n).mp hn).not_finished hmem
      · exact (h.rank r).resolver.feasible.not_finished n ((hongoing r n).mp hn) hmem
    · omega

/-- **Every node is issued once**, in every run whose steps meet the condition. -/
theorem issuedOnce_of_keepsAhead (S : SimConfig) (scheduler : SchedulerState)
    {acts : List SimAct} {s : SimState}
    (hrun : run (simStep S) (.initial S scheduler) acts = some s)
    (hkeep : Along (simStep S) (fun s act => keepsAhead S s act = true) (.initial S scheduler)
      acts) : IssuedOnce S s := by
  have hinv : ∃ p, SimOf S p s := by
    apply run_invariant_along _ hrun hkeep
    · exact ⟨_, simOf_initial S scheduler⟩
    · rintro s act t ⟨p, hp⟩ hk ht
      exact hp.step hk ht
  obtain ⟨p, hp⟩ := hinv
  exact hp.issuedOnce

/-! ## Two ranks that call each other -/

/-- A node on the gpu that asks for no topology. -/
def plainNode (id : ℕ) (type : NodeType) (dataDeps : List ℕ) (group peer : ℕ) : Node where
  id := id
  type := type
  isCpuOp := false
  dataDeps := dataDeps
  ctrlDeps := []
  runtime := 1
  tensorSize := 1
  group := group
  peer := peer
  reconfigDim := none
  reconfigTopoId := none
  reconfigSkipInflight := false
  skipSchedulerReconfig := false

/-- A collective of the group `1`, a computation, and after it a collective of the group `0` and a
receive. -/
def receiverTrace : Trace where
  nodes := [plainNode 0 .commColl [] 1 0, plainNode 1 .comp [] 0 0,
    plainNode 2 .commColl [1] 0 0, plainNode 3 .commRecv [1] 0 1]
  nodup := by decide
  deps_mem := by decide

/-- The collective of the group `1` is behind a metadata node, and before that of the group `0`; a
send is behind both. -/
def senderTrace : Trace where
  nodes := [plainNode 0 .metadata [] 0 0, plainNode 1 .commColl [0] 1 0,
    plainNode 2 .commColl [] 0 0, plainNode 3 .commSend [1, 2] 0 0]
  nodup := by decide
  deps_mem := by decide

/-- One stage of two ranks, in the decimal mode; both are members of both groups. -/
def nestedPair : SimConfig where
  stages := ⟨true, 2, [1], by decide, fun _ => []⟩
  npus := 2
  trace := fun r => if r = 0 then receiverTrace else senderTrace
  group := fun _ => ⟨[0, 1], by decide⟩
  commToTopo := fun _ => []
  replayOnly := false
  rooflineEnabled := false
  compTime := fun _ => 1

/-- Both ranks are called at the start, and the computation ends. -/
def nestedStart : List SimAct :=
  [.issueDepFreeNodes 0] ++ List.replicate 3 (.resume idleGate 0) ++
    [.issueDepFreeNodes 1] ++ List.replicate 3 (.resume idleGate 0) ++
    [.finished idleGate 1000 0 1]

/-- The rank `0` leads the group `0`, calls the rank `1`, which leads the group `1` and calls the
rank `0` again; then the calls end. -/
def nestedCalls : List SimAct := nestedStart ++ List.replicate 17 (.resume idleGate 1000)

/-- The calls are nested, and the innermost loop has not reached the receive. -/
theorem issuedOnce_nestedCalls_take :
    ∃ s, run (simStep nestedPair) (.initial nestedPair (.initial nestedPair.stages))
      (nestedCalls.take 15) = some s ∧ IssuedOnce nestedPair s := by
  have hsome : (run (simStep nestedPair) (.initial nestedPair (.initial nestedPair.stages))
      (nestedCalls.take 15)).isSome = true := by
    decide +kernel
  obtain ⟨s, hs⟩ := Option.isSome_iff_exists.mp hsome
  exact ⟨s, hs, issuedOnce_of_keepsAhead nestedPair _ hs (by decide +kernel)⟩

/-- **A receive is issued twice**: the nested loop of the rank `0` issues it, and the first loop,
which has it ahead, takes it again. -/
theorem not_issuedOnce_nestedReceive :
    ∃ s, run (simStep nestedPair) (.initial nestedPair (.initial nestedPair.stages)) nestedCalls =
      some s ∧ s.fault = some .takeNode ∧ (s.rank 0).awaiting = [2, 3] ∧
      ¬ IssuedOnce nestedPair s := by
  have hrun : (run (simStep nestedPair) (.initial nestedPair (.initial nestedPair.stages))
      nestedCalls).map (fun s => (s.fault, (s.rank 0).awaiting)) =
        some (some .takeNode, [2, 3]) := by
    decide +kernel
  obtain ⟨s, hs, heq⟩ := Option.map_eq_some_iff.mp hrun
  obtain ⟨hfault, hawaiting⟩ := Prod.mk.inj heq
  refine ⟨s, hs, hfault, hawaiting, fun h => ?_⟩
  rw [h.fault] at hfault
  cases hfault

end Opus.Simulation
