import Mathlib.Algebra.BigOperators.Fin
import Mathlib.Algebra.Order.BigOperators.Group.Finset
import Opus.Library.Loop
import Opus.Library.ShortestPath
import Opus.Simulation.BitmaskTopology

/-!
# Breadth-first routes

For each source, `bfs_routes` visits the devices with a queue and remembers from which device each of
them was found; a route follows these parents back. A device counts as not visited while its
distance is the sentinel `10^9`.

The queue holds devices of two consecutive distances, the smaller first, and nothing has been visited
farther away. So a device that is found gets its distance, as long as no distance is the sentinel.

## Main definitions

* `Linked`: a link of positive bandwidth
* `BfsState`, `bfsStep`: the loop over the queue
* `bfsRoutes`: the routes of a source and a destination, within a number of steps
* `ShortestHops`: what the routes should be
* `WithinSentinel`: every device that can be reached is reached in fewer hops than the sentinel

## Main results

* `bfsInv_step`: the invariant of the queue
* `bfsRoutes_shortest`: the routes are shortest, within the sentinel
* `withinSentinel_of_le`: up to `10^9` devices that is no restriction
* `not_shortestHops_line`: two devices farther there is a route with a detour
-/

namespace Opus.Simulation

open Loop ShortestPath

/-! ## The search -/

/-- The sentinel `INF` of the distances. -/
def infDist : ℕ := 1000000000

/-- A link of positive bandwidth. -/
def Linked (N : ℕ) (bw : BwMatrix) (u v : ℕ) : Prop := u < N ∧ v < N ∧ 0 < bw u v

/-- `dist`, `parent` and the queue. -/
structure BfsState where
  dist : ℕ → ℕ
  parent : ℕ → Option ℕ
  queue : List ℕ

section

variable (inf N : ℕ) (bw : BwMatrix)

/-- The inner loop for one device `v`. -/
def bfsVisit (u : ℕ) (st : BfsState) (v : ℕ) : BfsState :=
  if v ≠ u ∧ 0 < bw u v ∧ st.dist v = inf then
    { dist := Function.update st.dist v (st.dist u + 1)
      parent := Function.update st.parent v (some u)
      queue := st.queue ++ [v] }
  else st

/-- One pass of the loop over the queue. -/
def bfsStep (st : BfsState) : Option BfsState :=
  match st.queue with
  | [] => none
  | u :: rest => some ((List.range N).foldl (bfsVisit inf bw u) { st with queue := rest })

/-- The state before the loop. -/
def bfsStart (s : ℕ) : BfsState where
  dist := Function.update (fun _ => inf) s 0
  parent := fun _ => none
  queue := [s]

end

/-- The loop that follows the parents of a device, with the path reversed. -/
def followParents (parent : ℕ → Option ℕ) : ℕ → ℕ → Option (List ℕ)
  | 0, _ => none
  | fuel + 1, cur =>
    match parent cur with
    | none => some [cur]
    | some p => (followParents parent fuel p).map fun path => path ++ [cur]

/-- `bfs_routes` for one source and destination: `none` when a loop does not end within `fuel`
passes. -/
def bfsRoutes (fuel N : ℕ) (bw : BwMatrix) (s t : ℕ) : Option (List (List ℕ)) :=
  (loop (bfsStep infDist N bw) fuel (bfsStart infDist s)).bind fun st =>
    if s = t then some [[s]]
    else
      match st.parent t with
      | none => some []
      | some _ => (followParents st.parent fuel t).map fun path => [path]

/-! ## The invariant -/

/-- The sum of all distances, which bounds the number of devices that may still be found. -/
def totalDist (N : ℕ) (dist : ℕ → ℕ) : ℕ := ∑ v ∈ Finset.range N, dist v

theorem totalDist_update_lt {N v x : ℕ} {dist : ℕ → ℕ} (hv : v < N) (hx : x < dist v) :
    totalDist N (Function.update dist v x) < totalDist N dist := by
  refine Finset.sum_lt_sum (fun y _ => ?_) ⟨v, Finset.mem_range.mpr hv, ?_⟩
  · by_cases hy : y = v
    · rw [hy, Function.update_self]
      exact hx.le
    · rw [Function.update_of_ne hy]
  · rw [Function.update_self]
    exact hx

theorem totalDist_start_lt {N s inf : ℕ} (hs : s < N) (hinf : 0 < inf) :
    totalDist N (Function.update (fun _ => inf) s 0) < N * inf := by
  refine (totalDist_update_lt hs hinf).trans_le ?_
  simp [totalDist]

/-- What every pass keeps: the queue is sorted by distance, and no visited device is farther than
one hop behind its front. -/
structure BfsInv (inf N : ℕ) (bw : BwMatrix) (s : ℕ) (st : BfsState) : Prop where
  labels : Labels (Linked N bw) (fun _ _ => 1) s inf st.dist (fun v => (st.parent v).toList)
    (· ∈ st.queue)
  bound : ∀ y ∈ st.queue, y < N ∧ st.dist y < inf
  sorted : st.queue.Pairwise fun x y => st.dist x ≤ st.dist y
  window : ∀ y ∈ st.queue, ∀ x, st.dist x < inf → st.dist x ≤ st.dist y + 1

/-- What the inner loop of `u` keeps, after the devices `seen`. -/
structure BfsScan (inf N : ℕ) (bw : BwMatrix) (s u : ℕ) (seen : List ℕ) (st : BfsState) : Prop where
  labels : Labels (Linked N bw) (fun _ _ => 1) s inf st.dist (fun v => (st.parent v).toList)
    fun x => x ∈ st.queue ∨ x = u
  front : u < N ∧ st.dist u < inf
  bound : ∀ y ∈ st.queue, y < N ∧ st.dist y < inf ∧ st.dist u ≤ st.dist y
  sorted : st.queue.Pairwise fun x y => st.dist x ≤ st.dist y
  window : ∀ x, st.dist x < inf → st.dist x ≤ st.dist u + 1
  done : ∀ v ∈ seen, Linked N bw u v → st.dist v ≤ st.dist u + 1

/-- Every device that can be reached from `s` is reached in fewer hops than the sentinel. -/
def WithinSentinel (inf N : ℕ) (bw : BwMatrix) (s : ℕ) : Prop :=
  ∀ v l, IsWalk (Linked N bw) s v l → ∃ l', IsWalk (Linked N bw) s v l' ∧
    cost (fun _ _ => 1) l' < inf

section Invariant

variable {inf N : ℕ} {bw : BwMatrix} {s u v : ℕ} {seen : List ℕ} {st : BfsState}

/-- A device that has not been visited is found within the sentinel. -/
theorem BfsScan.dist_succ_lt (h : BfsScan inf N bw s u seen st)
    (hclose : WithinSentinel inf N bw s) (hv : v < N) (hbw : 0 < bw u v) (hinf : st.dist v = inf) :
    st.dist u + 1 < inf := by
  obtain ⟨l, hl⟩ := h.labels.exists_traced (fun _ _ _ => Nat.one_pos) h.front.2
  have hwalk := (hl.isWalk h.labels fun _ _ _ => Nat.one_pos).1
  obtain ⟨l', hl', hlt⟩ := hclose v _ (hwalk.concat ⟨h.front.1, hv, hbw⟩)
  -- a walk to it passes the queue, where no device is nearer than `u`
  obtain ⟨y, hy, hdist⟩ := h.labels.exists_pending (fun _ _ _ => Nat.one_pos) hl' hlt
    (by rw [hinf]; exact hlt)
  have hle : st.dist u ≤ st.dist y := by
    rcases hy with hy | rfl
    · exact (h.bound y hy).2.2
    · exact le_rfl
  omega

theorem BfsScan.visit (h : BfsScan inf N bw s u seen st) (hclose : WithinSentinel inf N bw s)
    (hv : v < N) :
    BfsScan inf N bw s u (seen ++ [v]) (bfsVisit inf bw u st v) ∧
      totalDist N (bfsVisit inf bw u st v).dist + (bfsVisit inf bw u st v).queue.length ≤
        totalDist N st.dist + st.queue.length := by
  unfold bfsVisit
  split
  · next hnew =>
    obtain ⟨hvu, hbw, hinf⟩ := hnew
    have hlt := h.dist_succ_lt hclose hv hbw hinf
    have hu : Function.update st.dist v (st.dist u + 1) u = st.dist u :=
      Function.update_of_ne (Ne.symm hvu) ..
    -- queued devices have been visited, so their distances stay
    have hqueue : ∀ y ∈ st.queue, Function.update st.dist v (st.dist u + 1) y = st.dist y := by
      intro y hy
      apply Function.update_of_ne
      rintro rfl
      have hy' := (h.bound y hy).2.1
      omega
    refine ⟨⟨?_, ?_, ?_, ?_, ?_, ?_⟩, ?_⟩
    · have himprove := h.labels.improve ⟨h.front.1, hv, hbw⟩ (by rw [hinf]; exact hlt)
      have hpreds : Function.update (fun x => (st.parent x).toList) v [u] =
          fun x => (Function.update st.parent v (some u) x).toList := by
        ext1 x
        by_cases hx : x = v
        · rw [hx, Function.update_self, Function.update_self]
          rfl
        · rw [Function.update_of_ne hx, Function.update_of_ne hx]
      rw [hpreds] at himprove
      apply himprove.settle
      rintro x (rfl | hx | rfl)
      · exact .inl (.inl (by simp))
      · exact .inl (.inl (by simp [hx]))
      · exact .inl (.inr rfl)
    · dsimp only
      rw [hu]
      exact h.front
    · intro y hy
      dsimp only at hy ⊢
      rw [hu]
      rcases List.mem_append.mp hy with hy | hy
      · rw [hqueue y hy]
        exact h.bound y hy
      · rw [List.mem_singleton.mp hy, Function.update_self]
        exact ⟨hv, hlt, Nat.le_succ _⟩
    · rw [List.pairwise_append]
      refine ⟨?_, List.pairwise_singleton _ v, fun y hy x hx => ?_⟩
      · refine h.sorted.imp_of_mem fun {a b} ha hb hab => ?_
        dsimp only
        rwa [hqueue a ha, hqueue b hb]
      · dsimp only
        rw [List.mem_singleton.mp hx, Function.update_self, hqueue y hy]
        exact h.window y (h.bound y hy).2.1
    · intro x hx
      dsimp only at hx ⊢
      rw [hu]
      by_cases hxv : x = v
      · rw [hxv, Function.update_self]
      · rw [Function.update_of_ne hxv] at hx ⊢
        exact h.window x hx
    · intro x hx hlink
      dsimp only
      rw [hu]
      by_cases hxv : x = v
      · rw [hxv, Function.update_self]
      · rw [Function.update_of_ne hxv]
        rcases List.mem_append.mp hx with hx | hx
        · exact h.done x hx hlink
        · exact absurd (List.mem_singleton.mp hx) hxv
    · have htotal : totalDist N (Function.update st.dist v (st.dist u + 1)) < totalDist N st.dist :=
        totalDist_update_lt hv (by omega)
      dsimp only
      rw [List.length_append, List.length_singleton]
      omega
  · next hold =>
    refine ⟨⟨h.labels, h.front, h.bound, h.sorted, h.window, ?_⟩, le_rfl⟩
    intro x hx hlink
    rcases List.mem_append.mp hx with hx | hx
    · exact h.done x hx hlink
    · rw [List.mem_singleton.mp hx] at hlink ⊢
      by_cases hvu : v = u
      · rw [hvu]
        exact Nat.le_succ _
      · have hne : st.dist v ≠ inf := fun hinf => hold ⟨hvu, hlink.2.2, hinf⟩
        exact h.window v (lt_of_le_of_ne (h.labels.le_inf v) hne)

theorem BfsScan.foldl (h : BfsScan inf N bw s u seen st) (hclose : WithinSentinel inf N bw s)
    (vs : List ℕ) (hvs : ∀ v ∈ vs, v < N) :
    BfsScan inf N bw s u (seen ++ vs) (vs.foldl (bfsVisit inf bw u) st) ∧
      totalDist N (vs.foldl (bfsVisit inf bw u) st).dist +
          (vs.foldl (bfsVisit inf bw u) st).queue.length ≤
        totalDist N st.dist + st.queue.length := by
  induction vs generalizing seen st with
  | nil => exact ⟨by simpa using h, le_rfl⟩
  | cons v vs ih =>
    obtain ⟨hvisit, hle⟩ := h.visit hclose (hvs v (by simp))
    obtain ⟨hrest, hle'⟩ := ih hvisit fun x hx => hvs x (by simp [hx])
    rw [List.foldl_cons]
    refine ⟨?_, hle'.trans hle⟩
    rwa [List.append_assoc, List.singleton_append] at hrest

/-- **The invariant of the queue**, and the measure of the loop. -/
theorem bfsInv_step {st' : BfsState} (hclose : WithinSentinel inf N bw s)
    (h : BfsInv inf N bw s st) (hs : bfsStep inf N bw st = some st') :
    BfsInv inf N bw s st' ∧
      totalDist N st'.dist + st'.queue.length < totalDist N st.dist + st.queue.length := by
  unfold bfsStep at hs
  split at hs
  · cases hs
  · next u rest hq =>
    have hu : u ∈ st.queue := by rw [hq]; exact List.mem_cons_self
    have hsorted := h.sorted
    rw [hq, List.pairwise_cons] at hsorted
    have hmem : ∀ y ∈ rest, y ∈ st.queue := fun y hy => by rw [hq]; exact List.mem_cons_of_mem u hy
    have hscan : BfsScan inf N bw s u [] { st with queue := rest } := by
      refine ⟨?_, h.bound u hu, ?_, hsorted.2, h.window u hu, fun v hv => absurd hv List.not_mem_nil⟩
      · apply h.labels.settle
        intro x hx
        rw [hq, List.mem_cons] at hx
        exact .inl hx.symm
      · exact fun y hy => ⟨(h.bound y (hmem y hy)).1, (h.bound y (hmem y hy)).2, hsorted.1 y hy⟩
    obtain ⟨hend, hle⟩ := hscan.foldl hclose (List.range N) fun v hv => List.mem_range.mp hv
    rw [List.nil_append] at hend
    cases hs
    refine ⟨⟨?_, fun y hy => ⟨(hend.bound y hy).1, (hend.bound y hy).2.1⟩, hend.sorted, ?_⟩, ?_⟩
    · -- all devices have been seen, so `u` has relaxed its links
      apply hend.labels.settle
      rintro x (hx | rfl)
      · exact .inl hx
      · exact .inr fun v hlink => hend.done v (List.mem_range.mpr hlink.2.1) hlink
    · intro y hy x hx
      exact (hend.window x hx).trans (Nat.add_le_add_right (hend.bound y hy).2.2 1)
    · refine hle.trans_lt ?_
      rw [hq, List.length_cons]
      exact Nat.lt_succ_self _

theorem bfsInv_start (hs : s < N) (hinf : 0 < inf) : BfsInv inf N bw s (bfsStart inf s) where
  labels := by
    apply (Labels.initial (Linked N bw) (fun _ _ => 1) s inf).settle
    rintro x rfl
    exact .inl (List.mem_singleton_self x)
  bound := by
    intro y hy
    rw [List.mem_singleton.mp hy]
    exact ⟨hs, by simpa [bfsStart] using hinf⟩
  sorted := List.pairwise_singleton _ s
  window := by
    intro y hy x hx
    by_cases hxs : x = s
    · rw [hxs]
      simp [bfsStart]
    · simp [bfsStart, hxs] at hx

/-- The loop ends, and its distances have no pending device. -/
theorem exists_bfs_end (hs : s < N) (hinf : 0 < inf) (hclose : WithinSentinel inf N bw s) {fuel : ℕ}
    (hfuel : N * inf ≤ fuel) :
    ∃ st, loop (bfsStep inf N bw) fuel (bfsStart inf s) = some st ∧
      Labels (Linked N bw) (fun _ _ => 1) s inf st.dist (fun v => (st.parent v).toList)
        fun _ => False := by
  have hstart : totalDist N (bfsStart inf s).dist + (bfsStart inf s).queue.length ≤ fuel := by
    have hlt := totalDist_start_lt hs hinf
    simp only [bfsStart, List.length_singleton]
    omega
  obtain ⟨st, hloop, hinv, hend⟩ := loop_of_measure (BfsInv inf N bw s)
    (fun st => totalDist N st.dist + st.queue.length) (fun _ _ h => bfsInv_step hclose h)
    (bfsInv_start hs hinf) hstart
  refine ⟨st, hloop, hinv.labels.settle fun x hx => ?_⟩
  unfold bfsStep at hend
  split at hend
  · next hq =>
    rw [hq] at hx
    exact absurd hx List.not_mem_nil
  · cases hend

end Invariant

/-! ## Routes -/

/-- Following the parents of a traced device gives its walk. -/
theorem followParents_of_traced {parent : ℕ → Option ℕ} {s t fuel : ℕ} {l : List ℕ}
    (hs : parent s = none) (hl : Labels.Traced (fun v => (parent v).toList) s t l)
    (hfuel : l.length ≤ fuel) : followParents parent fuel t = some l := by
  induction hl generalizing fuel with
  | source =>
    obtain ⟨fuel, rfl⟩ := Nat.exists_eq_succ_of_ne_zero (Nat.pos_iff_ne_zero.mp hfuel)
    simp [followParents, hs]
  | @step p t ps l hne hpreds hl ih =>
    rw [List.length_append, List.length_singleton] at hfuel
    obtain ⟨fuel, rfl⟩ := Nat.exists_eq_succ_of_ne_zero (n := fuel) (by omega)
    have hp : parent t = some p := by
      cases hpt : parent t with
      | none => simp [hpt] at hpreds
      | some q => simp_all
    simp [followParents, hp, ih (Nat.le_of_succ_le_succ hfuel)]

/-- No route exactly when the destination cannot be reached, and otherwise one shortest route. -/
structure ShortestHops (N : ℕ) (bw : BwMatrix) (s t : ℕ) (routes : List (List ℕ)) : Prop where
  none_iff : routes = [] ↔ ¬ ∃ l, IsWalk (Linked N bw) s t l
  shortest : (∃ l, IsWalk (Linked N bw) s t l) → ∃ route, routes = [route] ∧
    IsWalk (Linked N bw) s t route ∧ route.Nodup ∧
    ∀ l, IsWalk (Linked N bw) s t l → route.length ≤ l.length

section Routes

variable {N : ℕ} {bw : BwMatrix} {s t : ℕ}

theorem IsWalk.length_le_of_cost {adj : ℕ → ℕ → Prop} {l l' : List ℕ} (hl' : IsWalk adj s t l')
    (h : cost (fun _ _ => 1) l ≤ cost (fun _ _ => 1) l') : l.length ≤ l'.length := by
  have hpos : 0 < l'.length := by
    rw [List.length_pos_iff]
    rintro rfl
    exact absurd hl'.head (by simp)
  rw [cost_one, cost_one] at h
  omega

/-- All devices of a walk are among the `N`. -/
theorem lt_of_mem_walk (hs : s < N) {l : List ℕ} (hl : IsWalk (Linked N bw) s t l) :
    ∀ x ∈ l, x < N := by
  obtain ⟨n, hn⟩ : ∃ n, n = l.length := ⟨_, rfl⟩
  induction n generalizing l t with
  | zero =>
    rw [eq_comm, List.length_eq_zero_iff] at hn
    simp [hn]
  | succ n ih =>
    rcases hl.eq_or_concat with ⟨rfl, -⟩ | ⟨u, l', rfl, hl', hut⟩
    · simpa using hs
    · intro x hx
      rcases List.mem_append.mp hx with hx | hx
      · exact ih hl' (by simpa using hn) x hx
      · rw [List.mem_singleton.mp hx]
        exact hut.2.1

theorem length_le_of_nodup {l : List ℕ} (hnd : l.Nodup) (hlt : ∀ x ∈ l, x < N) : l.length ≤ N := by
  have hsub : l ⊆ List.range N := fun x hx => List.mem_range.mpr (hlt x hx)
  simpa using (List.subperm_of_subset hnd hsub).length_le

/-- Up to `10^9` devices, all distances are below the sentinel. -/
theorem withinSentinel_of_le {inf : ℕ} (hN : N ≤ inf) (hs : s < N) :
    WithinSentinel inf N bw s := by
  intro v l hl
  obtain ⟨l', hl', hnd, -⟩ := exists_simple hl
  refine ⟨l', hl', ?_⟩
  have hle := length_le_of_nodup hnd (lt_of_mem_walk hs hl')
  rw [cost_one]
  omega

/-- **Breadth-first routes are shortest**, when every device that can be reached is reached in fewer
than `10^9` hops. -/
theorem bfsRoutes_shortest (hs : s < N) (hst : s ≠ t) (hclose : WithinSentinel infDist N bw s)
    {fuel : ℕ} (hfuel : N * infDist ≤ fuel) :
    ∃ routes, bfsRoutes fuel N bw s t = some routes ∧ ShortestHops N bw s t routes := by
  have hone : ∀ u v, Linked N bw u v → 0 < (fun _ _ => 1 : ℕ → ℕ → ℕ) u v :=
    fun _ _ _ => Nat.one_pos
  have hinf : 0 < infDist := Nat.succ_pos _
  obtain ⟨st, hloop, hlabels⟩ := exists_bfs_end hs hinf hclose hfuel
  have hsource : st.parent s = none := by
    have hnil := hlabels.preds_source hone
    cases hp : st.parent s with
    | none => rfl
    | some p => simp [hp] at hnil
  by_cases hreach : ∃ l, IsWalk (Linked N bw) s t l
  · obtain ⟨l, hl⟩ := hreach
    have hlt : st.dist t < infDist := (hlabels.dist_lt_inf_iff hone).mpr (hclose t l hl)
    obtain ⟨route, htraced⟩ := hlabels.exists_traced hone hlt
    obtain ⟨hwalk, -, -, -⟩ := htraced.isWalk hlabels hone
    have hnodup := htraced.nodup hlabels hone
    have hmin := (htraced.cost_eq hlabels hone hlt).2
    have hlen : route.length ≤ fuel :=
      (length_le_of_nodup hnodup (lt_of_mem_walk hs hwalk)).trans
        ((Nat.le_mul_of_pos_right N hinf).trans hfuel)
    obtain ⟨p, hp⟩ : ∃ p, st.parent t = some p := by
      obtain ⟨p, ps, hps, -⟩ := hlabels.exists_pred hone (Ne.symm hst) hlt
      cases hpt : st.parent t with
      | none => simp [hpt] at hps
      | some q => exact ⟨q, rfl⟩
    refine ⟨[route], ?_, ?_, fun _ => ⟨route, rfl, hwalk, hnodup, fun l' hl' => ?_⟩⟩
    · simp [bfsRoutes, hloop, hst, hp, followParents_of_traced hsource htraced hlen]
    · exact iff_of_false (List.cons_ne_nil _ _) (not_not.mpr ⟨l, hl⟩)
    · exact IsWalk.length_le_of_cost hl' (hmin l' hl')
  · -- a device with a parent has been reached
    have hnone : st.parent t = none := by
      cases hp : st.parent t with
      | none => rfl
      | some p =>
        have hmem : p ∈ (st.parent t).toList := by rw [hp]; exact List.mem_singleton_self p
        obtain ⟨hadj, hle⟩ := hlabels.pred_spec t p hmem
        have hlt : st.dist p < infDist := by
          have hinf' := hlabels.le_inf t
          omega
        obtain ⟨l, hl⟩ := hlabels.exists_traced hone hlt
        exact absurd ⟨_, (hl.isWalk hlabels hone).1.concat hadj⟩ hreach
    refine ⟨[], ?_, iff_of_true rfl hreach, fun h => absurd h hreach⟩
    simp [bfsRoutes, hloop, hst, hnone]

end Routes

/-- Two routes from device 0 to device 4: over 1 and 2, and over 3. -/
def twoRoutes : BwMatrix := fun u v =>
  if (u, v) ∈ [(0, 1), (1, 2), (2, 4), (0, 3), (3, 4)] then 1 else 0

theorem bfsRoutes_shortest_twoRoutes :
    ∃ routes, bfsRoutes (5 * infDist) 5 twoRoutes 0 4 = some routes ∧
      ShortestHops 5 twoRoutes 0 4 routes := by
  refine bfsRoutes_shortest (by decide) (by decide) ?_ le_rfl
  refine withinSentinel_of_le ?_ (by decide)
  unfold infDist
  norm_num

/-! ## Beyond the sentinel -/

/-- A line of `M + 2` devices, with a link past the last but one. -/
def lineMatrix (M : ℕ) : BwMatrix := fun u v =>
  if v = u + 1 ∨ u + 1 = M ∧ v = M + 1 then 1 else 0

/-- The search on the line when the devices up to `k` have been found, with their distances. -/
def lineState (M k : ℕ) (queue : List ℕ) : BfsState where
  dist := fun i => if i ≤ k then i else M
  parent := fun i => if 1 ≤ i ∧ i ≤ k then some (i - 1) else none
  queue := queue

section Line

variable {M k u v : ℕ}

theorem lineMatrix_pos_iff : 0 < lineMatrix M u v ↔ v = u + 1 ∨ u + 1 = M ∧ v = M + 1 := by
  unfold lineMatrix
  split
  · next h => simp [h]
  · next h => simp [h]

/-- Devices that are not linked to, or have been visited, are passed over. -/
theorem foldl_bfsVisit_of_forall {inf : ℕ} {bw : BwMatrix} {st : BfsState} {vs : List ℕ}
    (h : ∀ v ∈ vs, 0 < bw u v → st.dist v ≠ inf) : vs.foldl (bfsVisit inf bw u) st = st := by
  induction vs with
  | nil => rfl
  | cons v vs ih =>
    have hv : bfsVisit inf bw u st v = st :=
      if_neg fun hnew => h v (by simp) hnew.2.1 hnew.2.2
    rw [List.foldl_cons, hv]
    exact ih fun x hx => h x (by simp [hx])

/-- When one device only can be found, the pass is its visit. -/
theorem foldl_bfsVisit_of_unique {inf N : ℕ} {bw : BwMatrix} {st : BfsState} (hv : v < N)
    (h : ∀ x, x < N → 0 < bw u x → st.dist x = inf → x = v) :
    (List.range N).foldl (bfsVisit inf bw u) st = bfsVisit inf bw u st v := by
  have hsplit : List.range N = List.range v ++ v :: List.range' (v + 1) (N - (v + 1)) := by
    have hN : N = v + (N - (v + 1) + 1) := by omega
    have happend : List.range' 0 v ++ List.range' (0 + v) (N - (v + 1) + 1) =
        List.range' 0 (v + (N - (v + 1) + 1)) := List.range'_append_1
    rw [List.range_eq_range', List.range_eq_range', ← List.range'_succ]
    rw [Nat.zero_add, ← hN] at happend
    exact happend.symm
  have hbefore : (List.range v).foldl (bfsVisit inf bw u) st = st := by
    apply foldl_bfsVisit_of_forall
    intro x hx hbw hinf
    have hxv := List.mem_range.mp hx
    have heq := h x (by omega) hbw hinf
    omega
  rw [hsplit, List.foldl_append, hbefore, List.foldl_cons]
  apply foldl_bfsVisit_of_forall
  intro x hx hbw hinf
  rw [List.mem_range'_1] at hx
  have hne : x ≠ v := by omega
  have hold : (bfsVisit inf bw u st v).dist x = st.dist x := by
    unfold bfsVisit
    split
    · exact Function.update_of_ne hne ..
    · rfl
  rw [hold] at hinf
  exact hne (h x (by omega) hbw hinf)

/-- Before the sentinel, the search goes along the line. -/
theorem bfsStep_lineState (hk : k + 1 < M) :
    bfsStep M (M + 2) (lineMatrix M) (lineState M k [k]) = some (lineState M (k + 1) [k + 1]) := by
  have hvisit : (List.range (M + 2)).foldl (bfsVisit M (lineMatrix M) k) (lineState M k []) =
      bfsVisit M (lineMatrix M) k (lineState M k []) (k + 1) := by
    apply foldl_bfsVisit_of_unique (by omega)
    intro x _ hx _
    rcases lineMatrix_pos_iff.mp hx with hx | hx <;> omega
  have hnew : k + 1 ≠ k ∧ 0 < lineMatrix M k (k + 1) ∧ (lineState M k []).dist (k + 1) = M :=
    ⟨by omega, lineMatrix_pos_iff.mpr (.inl rfl), by simp [lineState]⟩
  show some ((List.range (M + 2)).foldl (bfsVisit M (lineMatrix M) k) (lineState M k [])) = _
  rw [hvisit, bfsVisit, if_pos hnew]
  simp only [lineState, le_refl, if_true, List.nil_append, Option.some.injEq, BfsState.mk.injEq,
    and_true]
  refine ⟨?_, ?_⟩
  · ext i
    by_cases hi : i = k + 1
    · simp [hi]
    · rw [Function.update_of_ne hi]
      split <;> split <;> omega
  · ext1 i
    by_cases hi : i = k + 1
    · simp [hi]
    · rw [Function.update_of_ne hi]
      have hiff : (1 ≤ i ∧ i ≤ k) ↔ (1 ≤ i ∧ i ≤ k + 1) := by omega
      rw [if_congr hiff rfl rfl]

theorem loop_lineState (hk : k < M) (fuel : ℕ) :
    loop (bfsStep M (M + 2) (lineMatrix M)) (k + fuel) (lineState M 0 [0]) =
      loop (bfsStep M (M + 2) (lineMatrix M)) fuel (lineState M k [k]) := by
  induction k generalizing fuel with
  | zero => rw [Nat.zero_add]
  | succ k ih =>
    rw [Nat.add_assoc, ih (by omega), Nat.add_comm 1 fuel, loop_succ_of_some (bfsStep_lineState hk)]

theorem bfsStart_eq_lineState (M : ℕ) : bfsStart M 0 = lineState M 0 [0] := by
  simp only [bfsStart, lineState, BfsState.mk.injEq, and_true]
  refine ⟨?_, ?_⟩
  · ext i
    by_cases hi : i = 0
    · simp [hi]
    · rw [Function.update_of_ne hi, if_neg (by omega)]
  · ext1 i
    rw [if_neg (by omega)]

/-- The last but two finds both ends at the sentinel; they do not count as visited. -/
theorem bfsStep_lineState_last (hM : 0 < M) :
    bfsStep M (M + 2) (lineMatrix M) (lineState M (M - 1) [M - 1]) =
      some ⟨(lineState M (M - 1) []).dist,
        Function.update (lineState M M []).parent (M + 1) (some (M - 1)), [M, M + 1]⟩ := by
  have hrange : List.range (M + 2) = List.range M ++ [M, M + 1] := by
    rw [List.range_succ, List.range_succ, List.append_assoc]
    rfl
  have hbefore : (List.range M).foldl (bfsVisit M (lineMatrix M) (M - 1))
      (lineState M (M - 1) []) = lineState M (M - 1) [] := by
    apply foldl_bfsVisit_of_forall
    intro x hx hbw
    have hxM := List.mem_range.mp hx
    rcases lineMatrix_pos_iff.mp hbw with h | h <;> omega
  have hdist : (lineState M (M - 1) []).dist (M - 1) + 1 = M := by
    simp only [lineState, le_refl, if_true]
    omega
  have hend : ∀ i, M ≤ i → (lineState M (M - 1) []).dist i = M := by
    intro i hi
    simp only [lineState]
    rw [if_neg (by omega)]
  have hsame : ∀ i, M ≤ i → Function.update (lineState M (M - 1) []).dist i M =
      (lineState M (M - 1) []).dist := fun i hi =>
    Function.update_eq_self_iff.mpr (hend i hi).symm
  have hfirst : bfsVisit M (lineMatrix M) (M - 1) (lineState M (M - 1) []) M =
      ⟨(lineState M (M - 1) []).dist,
        Function.update (lineState M (M - 1) []).parent M (some (M - 1)), [M]⟩ := by
    rw [bfsVisit, if_pos ⟨by omega, lineMatrix_pos_iff.mpr (.inl (by omega)), hend M le_rfl⟩,
      hdist, hsame M le_rfl]
    rfl
  have hparent : Function.update (lineState M (M - 1) []).parent M (some (M - 1)) =
      (lineState M M []).parent := by
    ext1 i
    simp only [lineState]
    by_cases hi : i = M
    · rw [hi, Function.update_self, if_pos (by omega)]
    · rw [Function.update_of_ne hi]
      have hiff : (1 ≤ i ∧ i ≤ M - 1) ↔ (1 ≤ i ∧ i ≤ M) := by omega
      rw [if_congr hiff rfl rfl]
  show some ((List.range (M + 2)).foldl (bfsVisit M (lineMatrix M) (M - 1))
    (lineState M (M - 1) [])) = _
  rw [hrange, List.foldl_append, hbefore, List.foldl_cons, hfirst, hparent, List.foldl_cons,
    List.foldl_nil, bfsVisit, if_pos ⟨by omega, lineMatrix_pos_iff.mpr (.inr (by omega)),
      hend (M + 1) (by omega)⟩]
  dsimp only
  rw [hdist, hsame (M + 1) (by omega)]
  rfl

/-- The end of the line is found once more, from the device before it. -/
theorem exists_line_end (hM : 0 < M) :
    ∃ st, loop (bfsStep M (M + 2) (lineMatrix M)) (M + 3) (bfsStart M 0) = some st ∧
      st.parent = (lineState M (M + 1) []).parent := by
  obtain ⟨dist, hdist⟩ : ∃ dist, dist = (lineState M (M - 1) []).dist := ⟨_, rfl⟩
  have hend : ∀ i, M ≤ i → dist i = M := by
    intro i hi
    rw [hdist]
    simp only [lineState]
    rw [if_neg (by omega)]
  have hsecond : bfsStep M (M + 2) (lineMatrix M)
      ⟨dist, Function.update (lineState M M []).parent (M + 1) (some (M - 1)), [M, M + 1]⟩ =
      some ⟨Function.update dist (M + 1) (M + 1), (lineState M (M + 1) []).parent,
        [M + 1, M + 1]⟩ := by
    have hvisit : ∀ st : BfsState, (List.range (M + 2)).foldl (bfsVisit M (lineMatrix M) M) st =
        bfsVisit M (lineMatrix M) M st (M + 1) := by
      intro st
      apply foldl_bfsVisit_of_unique (by omega)
      intro x _ hx _
      rcases lineMatrix_pos_iff.mp hx with hx | hx <;> omega
    have hparent : Function.update (Function.update (lineState M M []).parent (M + 1)
        (some (M - 1))) (M + 1) (some M) = (lineState M (M + 1) []).parent := by
      rw [Function.update_idem]
      ext1 i
      simp only [lineState]
      by_cases hi : i = M + 1
      · rw [hi, Function.update_self, if_pos (by omega)]
        rfl
      · rw [Function.update_of_ne hi]
        have hiff : (1 ≤ i ∧ i ≤ M) ↔ (1 ≤ i ∧ i ≤ M + 1) := by omega
        rw [if_congr hiff rfl rfl]
    show some ((List.range (M + 2)).foldl (bfsVisit M (lineMatrix M) M) _) = _
    rw [hvisit, bfsVisit, if_pos ⟨by omega, lineMatrix_pos_iff.mpr (.inl rfl), hend _ (by omega)⟩]
    dsimp only
    rw [hparent, hend M le_rfl]
    rfl
  -- no link leaves the end of the line
  have hlast : ∀ (dist : ℕ → ℕ) (parent : ℕ → Option ℕ) (queue : List ℕ),
      bfsStep M (M + 2) (lineMatrix M) ⟨dist, parent, (M + 1) :: queue⟩ =
        some ⟨dist, parent, queue⟩ := by
    intro dist parent queue
    show some ((List.range (M + 2)).foldl (bfsVisit M (lineMatrix M) (M + 1)) _) = _
    rw [foldl_bfsVisit_of_forall]
    intro x hx hbw
    have hlt := List.mem_range.mp hx
    rcases lineMatrix_pos_iff.mp hbw with h | h <;> omega
  have hfuel : M + 3 = (M - 1) + 4 := by omega
  refine ⟨⟨Function.update dist (M + 1) (M + 1), _, []⟩, ?_, rfl⟩
  rw [bfsStart_eq_lineState, hfuel, loop_lineState (by omega),
    loop_succ_of_some (bfsStep_lineState_last hM), ← hdist, loop_succ_of_some hsecond,
    loop_succ_of_some (hlast ..), loop_succ_of_some (hlast ..)]
  apply loop_of_none
  rfl

theorem followParents_line {i fuel : ℕ} (hi : i ≤ M + 1) (hfuel : i < fuel) :
    followParents (lineState M (M + 1) []).parent fuel i = some (List.range (i + 1)) := by
  induction i generalizing fuel with
  | zero =>
    obtain ⟨fuel, rfl⟩ := Nat.exists_eq_succ_of_ne_zero (Nat.ne_of_gt hfuel)
    rfl
  | succ i ih =>
    obtain ⟨fuel, rfl⟩ := Nat.exists_eq_succ_of_ne_zero (n := fuel) (by omega)
    have hp : (lineState M (M + 1) []).parent (i + 1) = some i := by
      simp only [lineState]
      rw [if_pos (by omega)]
      rfl
    simp only [followParents, hp]
    rw [ih (by omega) (by omega), List.range_succ (n := i + 1)]
    rfl

theorem isWalk_line (hk : k ≤ M + 1) :
    IsWalk (Linked (M + 2) (lineMatrix M)) 0 k (List.range (k + 1)) := by
  induction k with
  | zero => exact isWalk_singleton _ 0
  | succ k ih =>
    rw [List.range_succ]
    exact (ih (by omega)).concat ⟨by omega, by omega, lineMatrix_pos_iff.mpr (.inl rfl)⟩

end Line

/-- On a line of `10^9 + 2` devices the route to the end has one hop too many. -/
theorem not_shortestHops_line :
    bfsRoutes (infDist + 3) (infDist + 2) (lineMatrix infDist) 0 (infDist + 1) =
        some [List.range (infDist + 2)] ∧
      ¬ ShortestHops (infDist + 2) (lineMatrix infDist) 0 (infDist + 1)
        [List.range (infDist + 2)] := by
  have hM : 0 < infDist := Nat.succ_pos _
  generalize hgen : infDist = M at hM
  refine ⟨?_, fun h => ?_⟩
  · obtain ⟨st, hloop, hparent⟩ := exists_line_end hM
    have hlast : st.parent (M + 1) = some M := by
      rw [hparent]
      simp only [lineState]
      rw [if_pos (by omega)]
      rfl
    have hfollow : followParents st.parent (M + 3) (M + 1) = some (List.range (M + 2)) := by
      rw [hparent]
      exact followParents_line le_rfl (by omega)
    simp [bfsRoutes, hgen, hloop, hlast, hfollow]
  · have hwalk := isWalk_line (M := M) (k := M + 1) le_rfl
    -- the shortcut leaves out the last device but one
    have hshort : IsWalk (Linked (M + 2) (lineMatrix M)) 0 (M + 1) (List.range M ++ [M + 1]) := by
      have hfront := isWalk_line (M := M) (k := M - 1) (by omega)
      rw [Nat.sub_add_cancel hM] at hfront
      exact hfront.concat ⟨by omega, by omega, lineMatrix_pos_iff.mpr (.inr (by omega))⟩
    obtain ⟨route, heq, -, -, hmin⟩ := h.shortest ⟨_, hwalk⟩
    have hle := hmin _ hshort
    rw [← (List.cons.inj heq).1] at hle
    simp at hle

end Opus.Simulation
