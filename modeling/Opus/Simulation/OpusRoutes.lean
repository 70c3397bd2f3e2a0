import Opus.Simulation.BfsRoutes

/-!
# Hierarchical routes

`opus_routes` runs Dijkstra's search from each source with two weights: `1` for the links of at least
half the largest bandwidth, which are those within a node, and `N + 1` for all others. It keeps all
predecessors of equal distance, and a depth-first search back from the destination stops at the first
route.

A simple path has fewer than `N` links within nodes, so one link between nodes weighs more than all
of them: the smallest weight is the smallest number of links between nodes, and among those the
smallest number of links within nodes.

## Main definitions

* `maxBandwidth`, `intraThreshold`, `linkWeight`: the weights of the links
* `DijkstraState`, `dijkstraStep`: the loop over the priority queue, with lazy deletion
* `dfs`: the enumeration of the routes, which stops at the first
* `opusRoutes`: the routes of a source and a destination, within a number of steps
* `HierarchicalRoutes`: what the routes should be, for a threshold between the two kinds of links

## Main results

* `intraThreshold_eq`: the running maximum is the narrowed maximum
* `dijkstraInv_step`: the invariant of the loop
* `dfs_of_traced`: the enumeration gives the route over first predecessors
* `lex_of_cost_le`: a smallest weight is lexicographically smallest
* `opusRoutes_hierarchical`: the routes are hierarchical shortest paths, for half the maximum as a
  `float`
* `not_hierarchicalRoutes_halfShortcut`: they need not be for half the maximum itself
-/

namespace Opus.Simulation

open Loop ShortestPath

/-! ## Weights -/

section Weights

variable (narrow : Bandwidth → Bandwidth) (N : ℕ) (bw : BwMatrix)

/-- The running maximum of the bandwidths. It is a `float`: `narrow` is the conversion of a
bandwidth, a `double`. -/
def maxBandwidth : Bandwidth :=
  (List.range N).foldl (fun m i =>
    (List.range N).foldl (fun m j => if m < bw i j then narrow (bw i j) else m) m) 0

/-- Half the largest bandwidth. -/
def intraThreshold : Bandwidth := maxBandwidth narrow N bw / (1 + 1)

/-- The weight of a link: `INTRA_W` or `INTER_W`. -/
def linkWeight (u v : ℕ) : ℕ := if intraThreshold narrow N bw ≤ bw u v then 1 else N + 1

/-- The maximum of the bandwidths. -/
def peak : Bandwidth := ((List.range N).flatMap fun i => (List.range N).map (bw i)).foldl max 0

/-- Half the maximum of the bandwidths, as a `float`. -/
def halfPeak : Bandwidth := narrow (peak N bw) / (1 + 1)

/-- The number of links between nodes: those below `half`. -/
def interWeight (half : Bandwidth) (bw : BwMatrix) (u v : ℕ) : ℕ := if bw u v < half then 1 else 0

/-- The number of links within nodes. -/
def intraWeight (half : Bandwidth) (bw : BwMatrix) (u v : ℕ) : ℕ := if bw u v < half then 0 else 1

end Weights

/-! ## The search -/

/-- `dist`, `preds` and the priority queue, as the list of its entries. -/
structure DijkstraState where
  dist : ℕ → ℕ
  preds : ℕ → List ℕ
  queue : List (ℕ × ℕ)

/-- Pairs are compared by the distance first. -/
def pairLe (a b : ℕ × ℕ) : Bool := a.1 < b.1 || a.1 = b.1 && a.2 ≤ b.2

/-- The smallest entry. -/
def top : List (ℕ × ℕ) → Option (ℕ × ℕ)
  | [] => none
  | a :: as => some (as.foldl (fun m b => if pairLe m b then m else b) a)

section

variable (narrow : Bandwidth → Bandwidth) (inf N : ℕ) (bw : BwMatrix)

/-- The inner loop for one device `v`. -/
def relax (u : ℕ) (st : DijkstraState) (v : ℕ) : DijkstraState :=
  if v = u ∨ bw u v ≤ 0 then st
  else
    let nd := st.dist u + linkWeight narrow N bw u v
    if nd < st.dist v then
      { dist := Function.update st.dist v nd
        preds := Function.update st.preds v [u]
        queue := st.queue ++ [(nd, v)] }
    else if nd = st.dist v then
      { st with preds := Function.update st.preds v (st.preds v ++ [u]) }
    else st

/-- One pass of the loop over the queue; outdated entries are dropped. -/
def dijkstraStep (st : DijkstraState) : Option DijkstraState :=
  match top st.queue with
  | none => none
  | some (d, u) =>
    let st := { st with queue := st.queue.erase (d, u) }
    if d > st.dist u then some st
    else some ((List.range N).foldl (relax narrow N bw u) st)

/-- The state before the loop. -/
def dijkstraStart (s : ℕ) : DijkstraState where
  dist := Function.update (fun _ => inf) s 0
  preds := fun _ => []
  queue := [(0, s)]

end

/-- `kMaxEcmpRoutes`. -/
def maxEcmpRoutes : ℕ := 1

/-- `dfs`: the routes found so far, and those through `cur`, as long as there are not enough. -/
def dfs (preds : ℕ → List ℕ) (s : ℕ) :
    ℕ → ℕ → List ℕ → List (List ℕ) → Option (List (List ℕ))
  | 0, _, _, _ => none
  | fuel + 1, cur, pathIds, paths =>
    if maxEcmpRoutes ≤ paths.length then some paths
    else
      let pathIds := pathIds ++ [cur]
      if cur = s then some (paths ++ [pathIds.reverse])
      else
        (preds cur).foldlM (fun paths pred =>
          -- the loop over the predecessors breaks when there are enough routes
          if maxEcmpRoutes ≤ paths.length then some paths
          else dfs preds s fuel pred pathIds paths) paths

/-- The search of `opus_routes` from one source. -/
def opusSearch (narrow : Bandwidth → Bandwidth) (fuel N : ℕ) (bw : BwMatrix) (s : ℕ) :
    Option DijkstraState :=
  loop (dijkstraStep narrow N bw) fuel (dijkstraStart infDist s)

/-- `opus_routes` for one source and destination: `none` when a loop does not end within `fuel`
passes. -/
def opusRoutes (narrow : Bandwidth → Bandwidth) (fuel N : ℕ) (bw : BwMatrix) (s t : ℕ) :
    Option (List (List ℕ)) :=
  (opusSearch narrow fuel N bw s).bind fun st =>
    if s = t then some [[s]]
    else if st.dist t = infDist then some []
    else dfs st.preds s fuel t [] []

/-! ## The weights -/

section Weights

variable {narrow : Bandwidth → Bandwidth} {N : ℕ} {bw : BwMatrix} {u v : ℕ}

theorem linkWeight_pos (narrow : Bandwidth → Bandwidth) (N : ℕ) (bw : BwMatrix) (u v : ℕ) :
    0 < linkWeight narrow N bw u v := by
  unfold linkWeight
  split <;> omega

theorem linkWeight_le (narrow : Bandwidth → Bandwidth) (N : ℕ) (bw : BwMatrix) (u v : ℕ) :
    linkWeight narrow N bw u v ≤ N + 1 := by
  unfold linkWeight
  split <;> omega

/-- The conversion to a smaller floating-point format: it rounds monotonically and keeps what it has
rounded. -/
structure Narrows (narrow : Bandwidth → Bandwidth) : Prop where
  mono : Monotone narrow
  idem : ∀ b, narrow (narrow b) = narrow b
  zero : narrow 0 = 0

/-- The running maximum of narrowed values is the narrowed maximum. -/
theorem foldl_max_narrow (hnarrow : Narrows narrow) (bs : List Bandwidth) (m : Bandwidth) :
    bs.foldl (fun m b => if m < b then narrow b else m) (narrow m) =
      narrow (bs.foldl max m) := by
  induction bs generalizing m with
  | nil => rfl
  | cons b bs ih =>
    rw [List.foldl_cons, List.foldl_cons, ← ih]
    congr 1
    split
    · next hlt =>
      -- the larger of the two narrows to the larger
      rcases le_total m b with hle | hle
      · rw [max_eq_right hle]
      · rw [max_eq_left hle]
        apply le_antisymm (hnarrow.mono hle)
        rw [← hnarrow.idem m]
        exact hnarrow.mono hlt.le
    · next hge =>
      rcases le_total m b with hle | hle
      · rw [max_eq_right hle]
        apply le_antisymm (hnarrow.mono hle)
        rw [← hnarrow.idem m]
        exact hnarrow.mono (not_lt.mp hge)
      · rw [max_eq_left hle]

/-- The threshold is half of the narrowed maximum. -/
theorem intraThreshold_eq (hnarrow : Narrows narrow) (N : ℕ) (bw : BwMatrix) :
    intraThreshold narrow N bw = halfPeak narrow N bw := by
  rw [intraThreshold, halfPeak, peak, ← foldl_max_narrow hnarrow, hnarrow.zero, maxBandwidth,
    List.foldl_flatMap]
  simp only [List.foldl_map]

/-- The weight of a link, by the hierarchy. -/
theorem linkWeight_eq (hnarrow : Narrows narrow) (u v : ℕ) :
    linkWeight narrow N bw u v =
      (N + 1) * interWeight (halfPeak narrow N bw) bw u v +
        intraWeight (halfPeak narrow N bw) bw u v := by
  unfold linkWeight interWeight intraWeight
  rw [intraThreshold_eq hnarrow]
  by_cases h : bw u v < halfPeak narrow N bw
  · rw [if_neg (not_le.mpr h), if_pos h, if_pos h]
    omega
  · rw [if_pos (not_lt.mp h), if_neg h, if_neg h]
    omega

end Weights

/-! ## The invariant -/

theorem top_eq_none_iff {queue : List (ℕ × ℕ)} : top queue = none ↔ queue = [] := by
  cases queue with
  | nil => simp [top]
  | cons a as => simp [top]

theorem mem_of_top {queue : List (ℕ × ℕ)} {a : ℕ × ℕ} (h : top queue = some a) : a ∈ queue := by
  cases queue with
  | nil => cases h
  | cons b bs =>
    cases h
    have hfold : ∀ (l : List (ℕ × ℕ)) (m : ℕ × ℕ),
        l.foldl (fun m b => if pairLe m b then m else b) m ∈ m :: l := by
      intro l
      induction l with
      | nil => exact fun m => List.mem_singleton_self m
      | cons c l ih =>
        intro m
        rw [List.foldl_cons]
        by_cases hle : pairLe m c
        · rw [if_pos hle]
          rcases List.mem_cons.mp (ih m) with h | h
          · rw [h]
            exact List.mem_cons_self
          · exact List.mem_cons_of_mem m (List.mem_cons_of_mem c h)
        · rw [if_neg hle]
          exact List.mem_cons_of_mem m (ih c)
    exact hfold bs b

/-- What every pass keeps: a device is pending while its current distance is in the queue. -/
structure DijkstraInv (narrow : Bandwidth → Bandwidth) (inf N : ℕ) (bw : BwMatrix) (s : ℕ)
    (st : DijkstraState) : Prop where
  labels : Labels (Linked N bw) (linkWeight narrow N bw) s inf st.dist st.preds
    fun x => (st.dist x, x) ∈ st.queue
  bound : ∀ p ∈ st.queue, p.2 < N

/-- What the inner loop of `u` keeps, after the devices `seen`. -/
structure DijkstraScan (narrow : Bandwidth → Bandwidth) (inf N : ℕ) (bw : BwMatrix) (s u : ℕ)
    (seen : List ℕ) (st : DijkstraState) : Prop where
  labels : Labels (Linked N bw) (linkWeight narrow N bw) s inf st.dist st.preds
    fun x => (st.dist x, x) ∈ st.queue ∨ x = u
  front : u < N
  bound : ∀ p ∈ st.queue, p.2 < N
  done : ∀ v ∈ seen, Linked N bw u v → st.dist v ≤ st.dist u + linkWeight narrow N bw u v

section Invariant

variable {narrow : Bandwidth → Bandwidth} {inf N : ℕ} {bw : BwMatrix} {s u v : ℕ} {seen : List ℕ}
  {st : DijkstraState}

theorem DijkstraScan.improve (h : DijkstraScan narrow inf N bw s u seen st) (hv : v < N)
    (hvu : v ≠ u) (hbw : 0 < bw u v)
    (hlt : st.dist u + linkWeight narrow N bw u v < st.dist v) :
    DijkstraScan narrow inf N bw s u (seen ++ [v])
      { dist := Function.update st.dist v (st.dist u + linkWeight narrow N bw u v)
        preds := Function.update st.preds v [u]
        queue := st.queue ++ [(st.dist u + linkWeight narrow N bw u v, v)] } := by
  obtain ⟨dist, hdist⟩ : ∃ dist, dist =
    Function.update st.dist v (st.dist u + linkWeight narrow N bw u v) := ⟨_, rfl⟩
  have hself : dist v = st.dist u + linkWeight narrow N bw u v := by
    rw [hdist, Function.update_self]
  have hother : ∀ x, x ≠ v → dist x = st.dist x := fun x hx => by
    rw [hdist, Function.update_of_ne hx]
  have himprove := h.labels.improve ⟨h.front, hv, hbw⟩ hlt
  rw [← hdist] at himprove ⊢
  refine ⟨?_, h.front, ?_, ?_⟩
  · apply himprove.settle
    intro x hx
    dsimp only
    by_cases hxv : x = v
    · subst hxv
      exact .inl (.inl (by simp [hself]))
    · rcases hx with hx | hx | hx
      · exact absurd hx hxv
      · rw [hother x hxv]
        exact .inl (.inl (List.mem_append_left _ hx))
      · exact .inl (.inr hx)
  · intro p hp
    rcases List.mem_append.mp hp with hp | hp
    · exact h.bound p hp
    · rw [List.mem_singleton.mp hp]
      exact hv
  · intro x hx hlink
    dsimp only
    rw [hother u (Ne.symm hvu)]
    by_cases hxv : x = v
    · rw [hxv, hself]
    · rw [hother x hxv]
      rcases List.mem_append.mp hx with hx | hx
      · exact h.done x hx hlink
      · exact absurd (List.mem_singleton.mp hx) hxv

/-- A device that gets no smaller distance is done. -/
theorem DijkstraScan.snoc (h : DijkstraScan narrow inf N bw s u seen st)
    (hle : Linked N bw u v → st.dist v ≤ st.dist u + linkWeight narrow N bw u v) :
    DijkstraScan narrow inf N bw s u (seen ++ [v]) st := by
  refine ⟨h.labels, h.front, h.bound, fun x hx hlink => ?_⟩
  rcases List.mem_append.mp hx with hx | hx
  · exact h.done x hx hlink
  · rw [List.mem_singleton.mp hx] at hlink ⊢
    exact hle hlink

theorem DijkstraScan.relax (h : DijkstraScan narrow inf N bw s u seen st) (hv : v < N) :
    DijkstraScan narrow inf N bw s u (seen ++ [v]) (relax narrow N bw u st v) ∧
      totalDist N (Simulation.relax narrow N bw u st v).dist +
          (Simulation.relax narrow N bw u st v).queue.length ≤
        totalDist N st.dist + st.queue.length := by
  unfold Simulation.relax
  split
  -- `u` itself, or no link: nothing to do for this device
  · next hskip =>
    refine ⟨h.snoc fun hlink => ?_, le_rfl⟩
    rcases hskip with rfl | hbw
    · exact Nat.le_add_right _ _
    · exact absurd hlink.2.2 (not_lt.mpr hbw)
  · next hnew =>
    push Not at hnew
    dsimp only
    split
    · next hlt =>
      -- the entry pushed is paid for by the distance that drops
      refine ⟨h.improve hv hnew.1 hnew.2 hlt, ?_⟩
      have htotal := totalDist_update_lt hv hlt
      dsimp only
      rw [List.length_append, List.length_singleton]
      omega
    · next hge =>
      split
      · next heq =>
        refine ⟨?_, le_rfl⟩
        -- a further predecessor at the same distance
        have hsnoc := h.snoc fun _ => heq.ge
        exact ⟨hsnoc.labels.tie ⟨h.front, hv, hnew.2⟩ heq, hsnoc.front, hsnoc.bound, hsnoc.done⟩
      · exact ⟨h.snoc fun _ => not_lt.mp hge, le_rfl⟩

theorem DijkstraScan.foldl (h : DijkstraScan narrow inf N bw s u seen st) (vs : List ℕ)
    (hvs : ∀ v ∈ vs, v < N) :
    DijkstraScan narrow inf N bw s u (seen ++ vs) (vs.foldl (Simulation.relax narrow N bw u) st) ∧
      totalDist N (vs.foldl (Simulation.relax narrow N bw u) st).dist +
          (vs.foldl (Simulation.relax narrow N bw u) st).queue.length ≤
        totalDist N st.dist + st.queue.length := by
  induction vs generalizing seen st with
  | nil => exact ⟨by simpa using h, le_rfl⟩
  | cons v vs ih =>
    obtain ⟨hrelax, hle⟩ := h.relax (hvs v (by simp))
    obtain ⟨hrest, hle'⟩ := ih hrelax fun x hx => hvs x (by simp [hx])
    rw [List.foldl_cons]
    refine ⟨?_, hle'.trans hle⟩
    rwa [List.append_assoc, List.singleton_append] at hrest

/-- **The invariant of the loop**, and its measure. -/
theorem dijkstraInv_step {st' : DijkstraState} (h : DijkstraInv narrow inf N bw s st)
    (hs : dijkstraStep narrow N bw st = some st') :
    DijkstraInv narrow inf N bw s st' ∧
      totalDist N st'.dist + st'.queue.length < totalDist N st.dist + st.queue.length := by
  unfold dijkstraStep at hs
  split at hs
  · cases hs
  · next d u htop =>
    have hmem := mem_of_top htop
    have hlen : (st.queue.erase (d, u)).length + 1 = st.queue.length := by
      have hpos := List.length_pos_of_mem hmem
      rw [List.length_erase_of_mem hmem]
      omega
    have hbound : ∀ p ∈ st.queue.erase (d, u), p.2 < N := fun p hp =>
      h.bound p (List.mem_of_mem_erase hp)
    -- every other device keeps its entry
    have hpending : ∀ x, (st.dist x, x) ∈ st.queue →
        (st.dist x, x) ∈ st.queue.erase (d, u) ∨ (x = u ∧ st.dist x = d) := by
      intro x hx
      by_cases he : (st.dist x, x) = (d, u)
      · exact .inr ⟨congrArg Prod.snd he, congrArg Prod.fst he⟩
      · exact .inl ((List.mem_erase_of_ne he).mpr hx)
    dsimp only at hs
    split at hs
    -- a stale entry, the device has been reached over a shorter walk
    · next hold =>
      cases hs
      refine ⟨⟨?_, hbound⟩, ?_⟩
      · apply h.labels.settle
        intro x hx
        rcases hpending x hx with hx | ⟨rfl, hd⟩
        · exact .inl hx
        · omega
      · dsimp only
        omega
    -- the device is scanned, and no longer pending
    · have hscan : DijkstraScan narrow inf N bw s u []
          { st with queue := st.queue.erase (d, u) } := by
        refine ⟨?_, h.bound _ hmem, hbound, fun v hv => absurd hv List.not_mem_nil⟩
        apply h.labels.settle
        intro x hx
        rcases hpending x hx with hx | ⟨rfl, -⟩
        · exact .inl (.inl hx)
        · exact .inl (.inr rfl)
      obtain ⟨hend, hle⟩ := hscan.foldl (List.range N) fun v hv => List.mem_range.mp hv
      rw [List.nil_append] at hend
      cases hs
      refine ⟨⟨?_, hend.bound⟩, ?_⟩
      · apply hend.labels.settle
        rintro x (hx | rfl)
        · exact .inl hx
        · exact .inr fun v hlink => hend.done v (List.mem_range.mpr hlink.2.1) hlink
      · dsimp only at hle
        omega

theorem dijkstraInv_start (hs : s < N) :
    DijkstraInv narrow inf N bw s (dijkstraStart inf s) where
  labels := by
    apply (Labels.initial (Linked N bw) (linkWeight narrow N bw) s inf).settle
    rintro x rfl
    exact .inl (by simp [dijkstraStart])
  bound := by
    intro p hp
    rw [List.mem_singleton.mp hp]
    exact hs

/-- The loop ends, and its distances have no pending device. -/
theorem exists_opusSearch (narrow : Bandwidth → Bandwidth) (bw : BwMatrix) (hs : s < N) {fuel : ℕ}
    (hfuel : N * infDist ≤ fuel) :
    ∃ st, opusSearch narrow fuel N bw s = some st ∧
      Labels (Linked N bw) (linkWeight narrow N bw) s infDist st.dist st.preds fun _ => False := by
  have hinf : 0 < infDist := Nat.succ_pos _
  have hstart : totalDist N (dijkstraStart infDist s).dist +
      (dijkstraStart infDist s).queue.length ≤ fuel := by
    have hlt := totalDist_start_lt hs hinf
    simp only [dijkstraStart, List.length_singleton]
    omega
  obtain ⟨st, hloop, hinv, hend⟩ := loop_of_measure (DijkstraInv narrow infDist N bw s)
    (fun st => totalDist N st.dist + st.queue.length) (fun _ _ h => dijkstraInv_step h)
    (dijkstraInv_start hs) hstart
  -- the loop ends with an empty queue, so no device is pending
  refine ⟨st, hloop, hinv.labels.settle fun x hx => ?_⟩
  unfold dijkstraStep at hend
  split at hend
  · next htop =>
    rw [top_eq_none_iff.mp htop] at hx
    exact absurd hx List.not_mem_nil
  · dsimp only at hend
    split at hend <;> cases hend

end Invariant

/-! ## The enumeration -/

/-- With enough routes nothing is added. -/
theorem foldlM_of_enough (f : List (List ℕ) → ℕ → Option (List (List ℕ)))
    (hf : ∀ paths pred, maxEcmpRoutes ≤ paths.length → f paths pred = some paths)
    {paths : List (List ℕ)} (h : maxEcmpRoutes ≤ paths.length) (ps : List ℕ) :
    ps.foldlM f paths = some paths := by
  induction ps with
  | nil => rfl
  | cons p ps ih =>
    rw [List.foldlM_cons, hf paths p h]
    exact ih

/-- The enumeration from a traced device stops at its route over first predecessors. -/
theorem dfs_of_traced {preds : ℕ → List ℕ} {s t fuel : ℕ} {l : List ℕ}
    (hl : Labels.Traced preds s t l) (hfuel : l.length ≤ fuel) (pathIds : List ℕ) :
    dfs preds s fuel t pathIds [] = some [l ++ pathIds.reverse] := by
  have hmax : ¬ maxEcmpRoutes ≤ ([] : List (List ℕ)).length := by decide
  induction hl generalizing fuel pathIds with
  | source =>
    obtain ⟨fuel, rfl⟩ := Nat.exists_eq_succ_of_ne_zero (Nat.pos_iff_ne_zero.mp hfuel)
    rw [dfs, if_neg hmax]
    simp
  | @step p t ps l hne hpreds hl ih =>
    rw [List.length_append, List.length_singleton] at hfuel
    obtain ⟨fuel, rfl⟩ := Nat.exists_eq_succ_of_ne_zero (n := fuel) (by omega)
    have hfirst := ih (Nat.le_of_succ_le_succ hfuel) (pathIds ++ [t])
    rw [dfs, if_neg hmax]
    dsimp only
    rw [if_neg hne, hpreds, List.foldlM_cons, if_neg hmax, hfirst]
    refine (foldlM_of_enough _ (fun paths pred h => if_pos h) ?_ ps).trans ?_
    · exact Nat.le_refl 1
    · simp

/-! ## Hierarchical shortest paths -/

/-- No route exactly when the destination cannot be reached, and otherwise one simple route, which
is smallest first in the number of links between nodes, those below `half`, and then in the number
of links within nodes. -/
structure HierarchicalRoutes (half : Bandwidth) (N : ℕ) (bw : BwMatrix) (s t : ℕ)
    (routes : List (List ℕ)) : Prop where
  none_iff : routes = [] ↔ ¬ ∃ l, IsWalk (Linked N bw) s t l
  shortest : (∃ l, IsWalk (Linked N bw) s t l) → ∃ route, routes = [route] ∧
    IsWalk (Linked N bw) s t route ∧ route.Nodup ∧
    ∀ l, IsWalk (Linked N bw) s t l →
      cost (interWeight half bw) route < cost (interWeight half bw) l ∨
        (cost (interWeight half bw) route = cost (interWeight half bw) l ∧
          cost (intraWeight half bw) route ≤ cost (intraWeight half bw) l)

section Hierarchical

variable {narrow : Bandwidth → Bandwidth} {N : ℕ} {bw : BwMatrix} {s t : ℕ} {l route : List ℕ}

theorem cost_linkWeight (hnarrow : Narrows narrow) (N : ℕ) (bw : BwMatrix) (l : List ℕ) :
    cost (linkWeight narrow N bw) l =
      (N + 1) * cost (interWeight (halfPeak narrow N bw) bw) l +
        cost (intraWeight (halfPeak narrow N bw) bw) l := by
  rw [← cost_mul, ← cost_add]
  congr 1
  ext u v
  exact linkWeight_eq hnarrow u v

/-- A walk can be shortened to a simple one of at most `N` devices. -/
theorem exists_short (hs : s < N) (hl : IsWalk (Linked N bw) s t l) :
    ∃ l', IsWalk (Linked N bw) s t l' ∧ l'.length ≤ N ∧ ∀ w, cost w l' ≤ cost w l := by
  obtain ⟨l', hl', hnd, hcost⟩ := exists_simple hl
  exact ⟨l', hl', length_le_of_nodup hnd (lt_of_mem_walk hs hl'), hcost⟩

/-- **The weight `N + 1` realises the hierarchy.** A walk of smallest weight is smallest in the
number of links between nodes, and then within nodes. -/
theorem lex_of_cost_le (hnarrow : Narrows narrow) (hs : s < N)
    (hmin : ∀ l, IsWalk (Linked N bw) s t l →
      cost (linkWeight narrow N bw) route ≤ cost (linkWeight narrow N bw) l)
    (hl : IsWalk (Linked N bw) s t l) :
    cost (interWeight (halfPeak narrow N bw) bw) route <
        cost (interWeight (halfPeak narrow N bw) bw) l ∨
      (cost (interWeight (halfPeak narrow N bw) bw) route =
          cost (interWeight (halfPeak narrow N bw) bw) l ∧
        cost (intraWeight (halfPeak narrow N bw) bw) route ≤
          cost (intraWeight (halfPeak narrow N bw) bw) l) := by
  have hweigh := cost_linkWeight hnarrow N bw
  generalize halfPeak narrow N bw = half at hweigh ⊢
  obtain ⟨l', hl', hlen, hcost⟩ := exists_short hs hl
  have hintra : cost (intraWeight half bw) l' ≤ N := by
    calc cost (intraWeight half bw) l' ≤ cost (fun _ _ => 1) l' :=
          cost_mono (fun u v => by unfold intraWeight; split <;> omega) l'
      _ ≤ N := by rw [cost_one]; omega
  have hle : cost (interWeight half bw) route ≤ cost (interWeight half bw) l := by
    by_contra hlt
    -- one link between nodes less would outweigh all links within nodes
    have hinter : cost (interWeight half bw) l' + 1 ≤ cost (interWeight half bw) route :=
      (Nat.succ_le_succ (hcost _)).trans (not_le.mp hlt)
    have hweight := hmin l' hl'
    rw [hweigh, hweigh] at hweight
    have hmul := Nat.mul_le_mul_left (N + 1) hinter
    rw [Nat.mul_add, Nat.mul_one] at hmul
    omega
  rcases hle.lt_or_eq with hlt | heq
  · exact .inl hlt
  · refine .inr ⟨heq, ?_⟩
    have hweight := hmin l hl
    rw [hweigh, hweigh, heq] at hweight
    omega

/-- Below `31622` devices no walk has to reach the sentinel. -/
theorem exists_cost_lt (hN : N < 31622) (hs : s < N) (hl : IsWalk (Linked N bw) s t l) :
    ∃ l', IsWalk (Linked N bw) s t l' ∧ cost (linkWeight narrow N bw) l' < infDist := by
  obtain ⟨l', hl', hlen, -⟩ := exists_short hs hl
  refine ⟨l', hl', ?_⟩
  have hcost : cost (linkWeight narrow N bw) l' ≤ (N + 1) * (l'.length - 1) := by
    calc cost (linkWeight narrow N bw) l' ≤ cost (fun _ _ => (N + 1) * 1) l' :=
          cost_mono (fun u v => by rw [Nat.mul_one]; exact linkWeight_le narrow N bw u v) l'
      _ = (N + 1) * (l'.length - 1) := by rw [cost_mul, cost_one]
  have hle : (N + 1) * (l'.length - 1) ≤ 31622 * 31621 :=
    Nat.mul_le_mul (by omega) (by omega)
  have hinf : 31622 * 31621 < infDist := by
    unfold infDist
    norm_num
  omega

/-- **OPUS routes are hierarchical shortest paths**, and no distance reaches the sentinel. -/
theorem opusRoutes_hierarchical (hnarrow : Narrows narrow) (hN : N < 31622) (hs : s < N)
    (hst : s ≠ t) {fuel : ℕ} (hfuel : N * infDist ≤ fuel) :
    (∃ routes, opusRoutes narrow fuel N bw s t = some routes ∧
      HierarchicalRoutes (halfPeak narrow N bw) N bw s t routes) ∧
    ∃ st, opusSearch narrow fuel N bw s = some st ∧
      ∀ v l, IsWalk (Linked N bw) s v l → st.dist v < infDist := by
  have hpos : ∀ u v, Linked N bw u v → 0 < linkWeight narrow N bw u v :=
    fun u v _ => linkWeight_pos narrow N bw u v
  obtain ⟨st, hsearch, hlabels⟩ := exists_opusSearch narrow bw hs hfuel
  have hreached : ∀ v l, IsWalk (Linked N bw) s v l → st.dist v < infDist := fun v l hl =>
    (hlabels.dist_lt_inf_iff hpos).mpr (exists_cost_lt hN hs hl)
  refine ⟨?_, st, hsearch, hreached⟩
  by_cases hreach : ∃ l, IsWalk (Linked N bw) s t l
  · obtain ⟨l, hl⟩ := hreach
    have hlt := hreached t l hl
    obtain ⟨route, htraced⟩ := hlabels.exists_traced hpos hlt
    obtain ⟨hwalk, -, -, -⟩ := htraced.isWalk hlabels hpos
    have hnodup := htraced.nodup hlabels hpos
    have hmin := (htraced.cost_eq hlabels hpos hlt).2
    have hlen : route.length ≤ fuel :=
      (length_le_of_nodup hnodup (lt_of_mem_walk hs hwalk)).trans
        ((Nat.le_mul_of_pos_right N (Nat.succ_pos _)).trans hfuel)
    refine ⟨[route], ?_, ?_, fun _ => ⟨route, rfl, hwalk, hnodup, fun l' hl' => ?_⟩⟩
    · simp [opusRoutes, hsearch, hst, hlt.ne, dfs_of_traced htraced hlen]
    · exact iff_of_false (List.cons_ne_nil _ _) (not_not.mpr ⟨l, hl⟩)
    -- smallest in weight, so smallest first in the links between nodes
    · exact lex_of_cost_le hnarrow hs hmin hl'
  -- not reached: the distance is still the sentinel
  · have hinf : st.dist t = infDist := by
      by_contra hne
      obtain ⟨l, hl, -⟩ := (hlabels.dist_lt_inf_iff hpos).mp
        (lt_of_le_of_ne (hlabels.le_inf t) hne)
      exact hreach ⟨l, hl⟩
    refine ⟨[], ?_, iff_of_true rfl hreach, fun h => absurd h hreach⟩
    simp [opusRoutes, hsearch, hst, hinf]

end Hierarchical

/-! ## Bandwidths of a tenth -/

/-- Conversion to `float` of a bandwidth from `1 / 16` to `1 / 8`, where the multiples of `2 ^ (-27)`
are the values of a `float`. -/
def roundTenth (b : Bandwidth) : Bandwidth := ⌊b * (2 ^ 27 : ℕ) + 1 / (1 + 1)⌋₊ / (2 ^ 27 : ℕ)

theorem narrows_roundTenth : Narrows roundTenth where
  mono b b' h := by
    unfold roundTenth
    gcongr
  idem b := by
    have hback : roundTenth b * (2 ^ 27 : ℕ) = ⌊b * (2 ^ 27 : ℕ) + 1 / (1 + 1)⌋₊ :=
      div_mul_cancel₀ _ (by positivity)
    rw [roundTenth, hback, add_comm, Nat.floor_add_natCast (by positivity)]
    norm_num [roundTenth]
  zero := by
    norm_num [roundTenth]

/-- The `double` next to `0.1`. -/
def tenth : Bandwidth := (3602879701896397 : ℕ) / (2 ^ 55 : ℕ)

/-- Two routes from device 0 to device 3: over 1 and 2 with one link between nodes, and over 4 with
two. -/
def twoLevels : BwMatrix := fun u v =>
  if (u, v) = (0, 1) ∨ (u, v) = (1, 2) then tenth
  else if (u, v) = (2, 3) ∨ (u, v) = (0, 4) ∨ (u, v) = (4, 3) then tenth / (8 : ℕ)
  else 0

theorem opusRoutes_hierarchical_twoLevels :
    (∃ routes, opusRoutes roundTenth (5 * infDist) 5 twoLevels 0 3 = some routes ∧
      HierarchicalRoutes (halfPeak roundTenth 5 twoLevels) 5 twoLevels 0 3 routes) ∧
    ∃ st, opusSearch roundTenth (5 * infDist) 5 twoLevels 0 = some st ∧
      ∀ v l, IsWalk (Linked 5 twoLevels) 0 v l → st.dist v < infDist :=
  opusRoutes_hierarchical narrows_roundTenth (by decide) (by decide) (by decide) le_rfl

/-- Devices 0, 1 and 2 in a row, and a link of half the bandwidth from 0 to 2. -/
def halfShortcut : BwMatrix := fun u v =>
  if (u, v) = (0, 1) ∨ (u, v) = (1, 2) then tenth
  else if (u, v) = (0, 2) then tenth / (1 + 1)
  else 0

/-- As a `float` the maximum is larger, so a link of half the maximum is taken for one between
nodes: the route goes over device 1, where one link within a node would do. -/
theorem not_hierarchicalRoutes_halfShortcut :
    opusRoutes roundTenth 10 3 halfShortcut 0 2 = some [[0, 1, 2]] ∧
      ¬ HierarchicalRoutes (peak 3 halfShortcut / 2) 3 halfShortcut 0 2 [[0, 1, 2]] := by
  refine ⟨by decide +kernel, fun h => ?_⟩
  have hdirect : IsWalk (Linked 3 halfShortcut) 0 2 [0, 2] :=
    (isWalk_singleton _ 0).concat ⟨by decide, by decide, by decide +kernel⟩
  obtain ⟨route, heq, -, -, hmin⟩ := h.shortest ⟨_, hdirect⟩
  have hle := hmin _ hdirect
  rw [← (List.cons.inj heq).1] at hle
  exact absurd hle (by decide +kernel)

end Opus.Simulation
