import Mathlib.Data.List.Chain
import Mathlib.Data.List.Nodup
import Mathlib.Logic.Function.Basic

/-!
# Shortest paths from labels

A search from a source keeps a distance and a list of predecessors for each vertex. Vertices that it
still has to scan are pending. Whatever the order in which they are scanned, three facts are kept:
a label is witnessed by its predecessors, a vertex that is not pending has relaxed its edges, and
labels only decrease. When nothing is pending the labels are the distances, and the predecessors
lead back along shortest walks.

A walk is the list of its vertices. The sentinel `inf` stands for an unreachable vertex; labels are
exact below it.

## Main definitions

* `IsWalk adj s t l`: the vertices `l` lead from `s` to `t`
* `cost w l`: the sum of the weights along `l`
* `Labels`: the invariant of a search

## Main results

* `exists_simple`: a walk can be shortened to one without repetitions
* `Labels.initial`, `Labels.improve`, `Labels.tie`, `Labels.settle`: how a search may go on
* `Labels.exists_pending`: a walk to a vertex with a larger label passes a pending vertex
* `Labels.dist_le_cost`, `Labels.exists_walk`: labels without a pending vertex are distances
-/

namespace ShortestPath

variable {V : Type*}

/-! ## Walks -/

/-- The vertices of a walk, from the first to the last. -/
structure IsWalk (adj : V → V → Prop) (s t : V) (l : List V) : Prop where
  head : l.head? = some s
  last : l.getLast? = some t
  chain : l.IsChain adj

/-- The sum of the weights of the edges. -/
def cost (w : V → V → ℕ) : List V → ℕ
  | a :: b :: l => w a b + cost w (b :: l)
  | [_] => 0
  | [] => 0

section Walks

variable {adj : V → V → Prop} {w w' : V → V → ℕ} {s t u v : V} {l l' : List V}

@[simp] theorem cost_singleton (w : V → V → ℕ) (a : V) : cost w [a] = 0 := rfl

@[simp] theorem cost_cons_cons (w : V → V → ℕ) (a b : V) (l : List V) :
    cost w (a :: b :: l) = w a b + cost w (b :: l) := rfl

theorem isWalk_singleton (adj : V → V → Prop) (s : V) : IsWalk adj s s [s] := ⟨rfl, rfl, by simp⟩

/-- A walk that goes on by one edge. -/
theorem cost_concat (w : V → V → ℕ) {l : List V} (h : l.getLast? = some u) (v : V) :
    cost w (l ++ [v]) = cost w l + w u v := by
  induction l with
  | nil => cases h
  | cons a l ih =>
    cases l with
    | nil =>
      cases h
      simp
    | cons b l =>
      have hrest := ih (by simpa using h)
      rw [List.cons_append, List.cons_append, cost_cons_cons, cost_cons_cons,
        ← List.cons_append, hrest, Nat.add_assoc]

theorem IsWalk.concat (h : IsWalk adj s u l) (huv : adj u v) : IsWalk adj s v (l ++ [v]) where
  head := by
    rw [List.head?_append, h.head]
    rfl
  last := by simp
  chain := by
    rw [List.isChain_append]
    refine ⟨h.chain, by simp, ?_⟩
    intro x hx y hy
    rw [h.last] at hx
    cases hx
    cases hy
    exact huv

/-- A walk is its source, or a shorter one that goes on by one edge. -/
theorem IsWalk.eq_or_concat (h : IsWalk adj s t l) :
    (l = [s] ∧ s = t) ∨ ∃ u l', l = l' ++ [t] ∧ IsWalk adj s u l' ∧ adj u t := by
  rcases List.eq_nil_or_concat' l with rfl | ⟨l', x, rfl⟩
  · exact absurd h.head (by simp)
  · have hx : x = t := by simpa using h.last
    subst hx
    rcases List.eq_nil_or_concat' l' with rfl | ⟨l'', u, rfl⟩
    · have hs : x = s := by simpa using h.head
      exact .inl ⟨by rw [hs]; rfl, hs.symm⟩
    · refine .inr ⟨u, _, rfl, ⟨?_, by simp, ?_⟩, ?_⟩
      · have hhead := h.head
        rwa [List.head?_append_of_ne_nil _ (by simp)] at hhead
      · exact (List.isChain_append.mp h.chain).1
      · exact (List.isChain_append.mp h.chain).2.2 u (by simp) x (by simp)

theorem cost_add (w w' : V → V → ℕ) (l : List V) :
    cost (fun u v => w u v + w' u v) l = cost w l + cost w' l := by
  induction l with
  | nil => rfl
  | cons a l ih =>
    cases l with
    | nil => rfl
    | cons b l =>
      rw [cost_cons_cons, cost_cons_cons, cost_cons_cons, ih]
      omega

theorem cost_mul (k : ℕ) (w : V → V → ℕ) (l : List V) :
    cost (fun u v => k * w u v) l = k * cost w l := by
  induction l with
  | nil => rfl
  | cons a l ih =>
    cases l with
    | nil => rfl
    | cons b l => rw [cost_cons_cons, cost_cons_cons, ih, Nat.mul_add]

theorem cost_one (l : List V) : cost (fun _ _ => 1) l = l.length - 1 := by
  induction l with
  | nil => rfl
  | cons a l ih =>
    cases l with
    | nil => rfl
    | cons b l =>
      rw [cost_cons_cons, ih]
      simp only [List.length_cons]
      omega

theorem cost_mono {w w' : V → V → ℕ} (h : ∀ u v, w u v ≤ w' u v) (l : List V) :
    cost w l ≤ cost w' l := by
  induction l with
  | nil => exact le_rfl
  | cons a l ih =>
    cases l with
    | nil => exact le_rfl
    | cons b l => exact Nat.add_le_add (h a b) ih

/-- Dropping the first vertices does not add to the cost. -/
theorem cost_append_le (w : V → V → ℕ) (l : List V) (a : V) (l' : List V) :
    cost w (a :: l') ≤ cost w (l ++ a :: l') := by
  induction l with
  | nil => exact le_rfl
  | cons b l ih =>
    refine ih.trans ?_
    cases l with
    | nil => exact Nat.le_add_left _ _
    | cons c l => exact Nat.le_add_left _ _

/-- **A walk can be shortened to one that visits no vertex twice.** -/
theorem exists_simple [DecidableEq V] (h : IsWalk adj s t l) :
    ∃ l', IsWalk adj s t l' ∧ l'.Nodup ∧ ∀ w : V → V → ℕ, cost w l' ≤ cost w l := by
  induction l generalizing s with
  | nil => exact absurd h.head (by simp)
  | cons a l ih =>
    have ha : a = s := by simpa using h.head
    subst ha
    cases l with
    | nil => exact ⟨[a], h, List.nodup_singleton a, fun _ => le_rfl⟩
    | cons b l =>
      obtain ⟨hab, hchain⟩ := List.isChain_cons_cons.mp h.chain
      obtain ⟨l', hl', hnd, hcost⟩ := ih ⟨rfl, by simpa using h.last, hchain⟩
      by_cases hmem : a ∈ l'
      · -- the walk returns to its source: what is before the return is dropped
        obtain ⟨pre, post, rfl⟩ := List.append_of_mem hmem
        refine ⟨a :: post, ⟨rfl, ?_, (List.isChain_append.mp hl'.chain).2.1⟩,
          (List.nodup_append.mp hnd).2.1, fun w => ?_⟩
        · have hlast := hl'.last
          rwa [List.getLast?_append_of_ne_nil _ (by simp)] at hlast
        · calc cost w (a :: post) ≤ cost w (pre ++ a :: post) := cost_append_le w pre a post
            _ ≤ cost w (b :: l) := hcost w
            _ ≤ cost w (a :: b :: l) := Nat.le_add_left _ _
      · obtain ⟨c, l'', rfl⟩ : ∃ c l'', l' = c :: l'' := by
          cases l' with
          | nil => exact absurd hl'.head (by simp)
          | cons c l'' => exact ⟨c, l'', rfl⟩
        have hc : c = b := by simpa using hl'.head
        subst hc
        refine ⟨a :: c :: l'', ⟨rfl, by simpa using hl'.last, hl'.chain.cons_cons hab⟩,
          List.nodup_cons.mpr ⟨hmem, hnd⟩, fun w => Nat.add_le_add_left (hcost w) _⟩

end Walks

/-! ## Labels -/

/-- The invariant of a search from `s`. -/
structure Labels (adj : V → V → Prop) (w : V → V → ℕ) (s : V) (inf : ℕ) (dist : V → ℕ)
    (preds : V → List V) (pending : V → Prop) : Prop where
  source : dist s = 0
  le_inf : ∀ v, dist v ≤ inf
  pred_exists : ∀ v, v ≠ s → dist v < inf → preds v ≠ []
  pred_spec : ∀ v, ∀ p ∈ preds v, adj p v ∧ dist p + w p v ≤ dist v
  relaxed : ∀ u, dist u < inf → pending u ∨ ∀ v, adj u v → dist v ≤ dist u + w u v

namespace Labels

variable {adj : V → V → Prop} {w : V → V → ℕ} {s t u v : V} {inf : ℕ} {dist : V → ℕ}
  {preds : V → List V} {pending pending' : V → Prop} {l : List V}

section Steps

variable [DecidableEq V]

/-- At the start only the source has a label. -/
theorem initial (adj : V → V → Prop) (w : V → V → ℕ) (s : V) (inf : ℕ) :
    Labels adj w s inf (Function.update (fun _ => inf) s 0) (fun _ => []) (· = s) where
  source := Function.update_self ..
  le_inf := by
    intro v
    by_cases hv : v = s
    · subst hv
      rw [Function.update_self]
      exact Nat.zero_le _
    · rw [Function.update_of_ne hv]
  pred_exists := by
    intro v hv hlt
    rw [Function.update_of_ne hv] at hlt
    exact absurd hlt (lt_irrefl inf)
  pred_spec := fun v p hp => absurd hp List.not_mem_nil
  relaxed := by
    intro u hlt
    by_cases hu : u = s
    · exact .inl hu
    · rw [Function.update_of_ne hu] at hlt
      exact absurd hlt (lt_irrefl inf)

/-- A vertex gets a smaller label over an edge, and is pending. -/
theorem improve (h : Labels adj w s inf dist preds pending) (huv : adj u v)
    (hlt : dist u + w u v < dist v) :
    Labels adj w s inf (Function.update dist v (dist u + w u v)) (Function.update preds v [u])
      (fun x => x = v ∨ pending x) := by
  have hvs : s ≠ v := by
    rintro rfl
    rw [h.source] at hlt
    exact absurd hlt (Nat.not_lt_zero _)
  have huv' : u ≠ v := by
    rintro rfl
    omega
  -- no label grows
  have hle : ∀ x, Function.update dist v (dist u + w u v) x ≤ dist x := by
    intro x
    by_cases hx : x = v
    · rw [hx, Function.update_self]
      exact hlt.le
    · rw [Function.update_of_ne hx]
  refine ⟨?_, fun x => (hle x).trans (h.le_inf x), ?_, ?_, ?_⟩
  · rw [Function.update_of_ne hvs]
    exact h.source
  · intro x hxs hx
    by_cases hxv : x = v
    · rw [hxv, Function.update_self]
      exact List.cons_ne_nil _ _
    · rw [Function.update_of_ne hxv] at hx ⊢
      exact h.pred_exists x hxs hx
  · intro x p hp
    by_cases hxv : x = v
    · subst hxv
      rw [Function.update_self] at hp
      rw [List.mem_singleton.mp hp, Function.update_self, Function.update_of_ne huv']
      exact ⟨huv, le_rfl⟩
    · rw [Function.update_of_ne hxv] at hp ⊢
      obtain ⟨hadj, hpx⟩ := h.pred_spec x p hp
      exact ⟨hadj, (Nat.add_le_add_right (hle p) _).trans hpx⟩
  · intro x hx
    by_cases hxv : x = v
    · exact .inl (.inl hxv)
    · rw [Function.update_of_ne hxv] at hx ⊢
      rcases h.relaxed x hx with hpend | hrel
      · exact .inl (.inr hpend)
      · exact .inr fun y hxy => (hle y).trans (hrel y hxy)

/-- A vertex gets another predecessor for its label. -/
theorem tie (h : Labels adj w s inf dist preds pending) (huv : adj u v)
    (heq : dist u + w u v = dist v) :
    Labels adj w s inf dist (Function.update preds v (preds v ++ [u])) pending := by
  refine ⟨h.source, h.le_inf, ?_, ?_, h.relaxed⟩
  · intro x hxs hx
    by_cases hxv : x = v
    · rw [hxv, Function.update_self]
      simp
    · rw [Function.update_of_ne hxv]
      exact h.pred_exists x hxs hx
  · intro x p hp
    by_cases hxv : x = v
    · subst hxv
      rw [Function.update_self] at hp
      rcases List.mem_append.mp hp with hp | hp
      · exact h.pred_spec x p hp
      · rw [List.mem_singleton.mp hp]
        exact ⟨huv, heq.le⟩
    · rw [Function.update_of_ne hxv] at hp
      exact h.pred_spec x p hp

end Steps

/-- A pending vertex that has relaxed its edges is settled. -/
theorem settle (h : Labels adj w s inf dist preds pending)
    (hpending : ∀ x, pending x →
      pending' x ∨ ∀ v, adj x v → dist v ≤ dist x + w x v) :
    Labels adj w s inf dist preds pending' :=
  ⟨h.source, h.le_inf, h.pred_exists, h.pred_spec, fun x hx =>
    (h.relaxed x hx).elim (hpending x) .inr⟩

/-- **The frontier.** A walk to a vertex with a larger label passes a pending vertex, before its
end. -/
theorem exists_pending (h : Labels adj w s inf dist preds pending)
    (hw : ∀ u v, adj u v → 0 < w u v) (hl : IsWalk adj s t l) (hinf : cost w l < inf)
    (hlt : cost w l < dist t) : ∃ y, pending y ∧ dist y < cost w l := by
  obtain ⟨n, hn⟩ : ∃ n, n = l.length := ⟨_, rfl⟩
  induction n generalizing l t with
  | zero =>
    rw [eq_comm, List.length_eq_zero_iff] at hn
    subst hn
    exact absurd hl.head (by simp)
  | succ n ih =>
    rcases hl.eq_or_concat with ⟨rfl, rfl⟩ | ⟨u, l', rfl, hl', hut⟩
    · rw [h.source] at hlt
      exact absurd hlt (Nat.not_lt_zero _)
    · rw [cost_concat w hl'.last] at hinf hlt ⊢
      have hpos := hw u t hut
      by_cases hu : cost w l' < dist u
      · obtain ⟨y, hy, hdist⟩ := ih hl' (by omega) hu (by simpa using hn)
        exact ⟨y, hy, by omega⟩
      · -- the label of the last vertex but one is exact, so it has not relaxed its edges
        rcases h.relaxed u (by omega) with hpend | hrel
        · exact ⟨u, hpend, by omega⟩
        · have hle := hrel t hut
          omega

/-- Without pending vertices, no walk is shorter than the label. -/
theorem dist_le_cost (h : Labels adj w s inf dist preds fun _ => False)
    (hw : ∀ u v, adj u v → 0 < w u v) (hl : IsWalk adj s t l) (hinf : cost w l < inf) :
    dist t ≤ cost w l := by
  by_contra hlt
  obtain ⟨y, hy, -⟩ := h.exists_pending hw hl hinf (not_le.mp hlt)
  exact hy

/-- The first predecessor of a labelled vertex has a smaller label. -/
theorem exists_pred (h : Labels adj w s inf dist preds pending)
    (hw : ∀ u v, adj u v → 0 < w u v) (hv : v ≠ s) (hlt : dist v < inf) :
    ∃ p ps, preds v = p :: ps ∧ adj p v ∧ dist p + w p v ≤ dist v ∧ dist p < dist v := by
  obtain ⟨p, ps, hps⟩ := List.exists_cons_of_ne_nil (h.pred_exists v hv hlt)
  obtain ⟨hadj, hle⟩ := h.pred_spec v p (by rw [hps]; exact List.mem_cons_self)
  have hpos := hw p v hadj
  exact ⟨p, ps, hps, hadj, hle, by omega⟩

/-- The source has no predecessors. -/
theorem preds_source (h : Labels adj w s inf dist preds pending)
    (hw : ∀ u v, adj u v → 0 < w u v) : preds s = [] := by
  cases hps : preds s with
  | nil => rfl
  | cons p ps =>
    obtain ⟨hadj, hle⟩ := h.pred_spec s p (by rw [hps]; exact List.mem_cons_self)
    have hpos := hw p s hadj
    rw [h.source] at hle
    omega

/-- The walk back over first predecessors: its labels increase towards `t`. -/
inductive Traced (preds : V → List V) (s : V) : V → List V → Prop where
  | source : Traced preds s s [s]
  | step {p t : V} {ps l : List V} (hne : t ≠ s) (hpreds : preds t = p :: ps)
      (hl : Traced preds s p l) : Traced preds s t (l ++ [t])

/-- Every labelled vertex has been reached over first predecessors. -/
theorem exists_traced (h : Labels adj w s inf dist preds pending)
    (hw : ∀ u v, adj u v → 0 < w u v) (hlt : dist t < inf) : ∃ l, Traced preds s t l := by
  obtain ⟨d, hd⟩ : ∃ d, d = dist t := ⟨_, rfl⟩
  induction d using Nat.strongRecOn generalizing t with
  | ind d ih =>
    by_cases hts : t = s
    · subst hts
      exact ⟨_, .source⟩
    · obtain ⟨p, ps, hps, -, -, hp⟩ := h.exists_pred hw hts hlt
      obtain ⟨l, hl⟩ := ih (dist p) (by omega) (hp.trans hlt) rfl
      exact ⟨_, .step hts hps hl⟩

/-- The walk back is a walk that costs no more than the label, and its labels increase. -/
theorem Traced.isWalk (h : Labels adj w s inf dist preds pending)
    (hw : ∀ u v, adj u v → 0 < w u v) (hl : Traced preds s t l) :
    IsWalk adj s t l ∧ cost w l ≤ dist t ∧ l.Pairwise (dist · < dist ·) ∧
      ∀ x ∈ l, dist x ≤ dist t := by
  induction hl with
  | source => exact ⟨isWalk_singleton adj s, Nat.zero_le _, List.pairwise_singleton _ s, by simp⟩
  | @step p t ps l hne hpreds hl ih =>
    obtain ⟨hwalk, hcost, hpair, hle⟩ := ih
    obtain ⟨hadj, hdist⟩ := h.pred_spec t p (by rw [hpreds]; exact List.mem_cons_self)
    have hpos := hw p t hadj
    refine ⟨hwalk.concat hadj, ?_, ?_, ?_⟩
    · rw [cost_concat w hwalk.last]
      omega
    · rw [List.pairwise_append]
      refine ⟨hpair, List.pairwise_singleton _ t, fun x hx y hy => ?_⟩
      have hx' := hle x hx
      rw [List.mem_singleton.mp hy]
      omega
    · intro x hx
      rcases List.mem_append.mp hx with hx | hx
      · have hx' := hle x hx
        omega
      · rw [List.mem_singleton.mp hx]

theorem Traced.nodup (h : Labels adj w s inf dist preds pending)
    (hw : ∀ u v, adj u v → 0 < w u v) (hl : Traced preds s t l) : l.Nodup :=
  (hl.isWalk h hw).2.2.1.imp fun hlt heq => by
    rw [heq] at hlt
    exact lt_irrefl _ hlt

/-- **Without pending vertices the walk back is shortest**, and its cost is the label. -/
theorem Traced.cost_eq (h : Labels adj w s inf dist preds fun _ => False)
    (hw : ∀ u v, adj u v → 0 < w u v) (hlt : dist t < inf) (hl : Traced preds s t l) :
    cost w l = dist t ∧ ∀ l', IsWalk adj s t l' → cost w l ≤ cost w l' := by
  obtain ⟨hwalk, hcost, -, -⟩ := hl.isWalk h hw
  have heq : cost w l = dist t :=
    le_antisymm hcost (h.dist_le_cost hw hwalk (hcost.trans_lt hlt))
  refine ⟨heq, fun l' hl' => ?_⟩
  by_cases hinf : cost w l' < inf
  · rw [heq]
    exact h.dist_le_cost hw hl' hinf
  · omega

/-- A vertex is labelled exactly when some walk to it costs less than the sentinel. -/
theorem dist_lt_inf_iff (h : Labels adj w s inf dist preds fun _ => False)
    (hw : ∀ u v, adj u v → 0 < w u v) :
    dist t < inf ↔ ∃ l, IsWalk adj s t l ∧ cost w l < inf := by
  refine ⟨fun hlt => ?_, ?_⟩
  · obtain ⟨l, hl⟩ := h.exists_traced hw hlt
    obtain ⟨hwalk, hcost, -, -⟩ := hl.isWalk h hw
    exact ⟨l, hwalk, hcost.trans_lt hlt⟩
  · rintro ⟨l, hl, hinf⟩
    exact (h.dist_le_cost hw hl hinf).trans_lt hinf

end Labels

end ShortestPath
