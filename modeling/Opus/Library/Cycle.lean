import Mathlib.Data.List.Rotate
import Mathlib.Data.Sym.Sym2
import Mathlib.Logic.Relation

/-!
# Cycles given by their vertices

A list of vertices stands for the cycle that visits them in order and returns to the first one.

## Main definitions

* `cycleEdges vs`: the edges of the cycle

## Main results

* `mem_of_mem_cycleEdges`: edges connect vertices of the cycle
* `reflTransGen_of_cycleEdges`: all vertices of a cycle reach each other
-/

namespace VertexCycle

variable {α : Type*}

/-- The edges of a cycle, from each vertex to the next one. -/
def cycleEdges (vs : List α) : List (Sym2 α) := List.zipWith (fun a b => s(a, b)) vs (vs.rotate 1)

theorem mem_cycleEdges {vs : List α} {e : Sym2 α} :
    e ∈ cycleEdges vs ↔
      ∃ i a b, vs[i]? = some a ∧ vs[(i + 1) % vs.length]? = some b ∧ e = s(a, b) := by
  have hget : ∀ i, (cycleEdges vs)[i]? =
      vs[i]?.bind fun a => vs[(i + 1) % vs.length]?.map fun b => s(a, b) := by
    intro i
    rw [cycleEdges, List.getElem?_zipWith]
    by_cases hi : i < vs.length
    · rw [List.getElem?_rotate hi]
      cases vs[i]? <;> cases vs[(i + 1) % vs.length]? <;> rfl
    · rw [List.getElem?_eq_none (by omega)]
      rfl
  rw [List.mem_iff_getElem?]
  constructor
  · rintro ⟨i, h⟩
    rw [hget, Option.bind_eq_some_iff] at h
    obtain ⟨a, ha, h⟩ := h
    obtain ⟨b, hb, rfl⟩ := Option.map_eq_some_iff.mp h
    exact ⟨i, a, b, ha, hb, rfl⟩
  · rintro ⟨i, a, b, ha, hb, rfl⟩
    exact ⟨i, by rw [hget, ha, hb]; rfl⟩

theorem mem_of_mem_cycleEdges {vs : List α} {a b : α} (h : s(a, b) ∈ cycleEdges vs) :
    a ∈ vs ∧ b ∈ vs := by
  obtain ⟨i, a', b', ha, hb, he⟩ := mem_cycleEdges.mp h
  rcases Sym2.eq_iff.mp he with ⟨rfl, rfl⟩ | ⟨rfl, rfl⟩
  · exact ⟨List.mem_of_getElem? ha, List.mem_of_getElem? hb⟩
  · exact ⟨List.mem_of_getElem? hb, List.mem_of_getElem? ha⟩

/-- **All vertices of a cycle reach each other** over its edges. -/
theorem reflTransGen_of_cycleEdges {vs : List α} {r : α → α → Prop}
    (hr : ∀ a b, s(a, b) ∈ cycleEdges vs → a ≠ b → r a b) {a b : α} (ha : a ∈ vs) (hb : b ∈ vs) :
    Relation.ReflTransGen r a b := by
  have hstep : ∀ a b, s(a, b) ∈ cycleEdges vs → Relation.ReflTransGen r a b := by
    intro a b h
    by_cases hab : a = b
    · rw [hab]
    · exact .single (hr a b h hab)
  obtain ⟨v, hv⟩ : ∃ v, vs[0]? = some v :=
    ⟨_, List.getElem?_eq_getElem (List.length_pos_of_mem ha)⟩
  -- forth and back between the first vertex and the vertex at each position
  have hpath : ∀ (i : ℕ) (x : α), vs[i]? = some x →
      Relation.ReflTransGen r v x ∧ Relation.ReflTransGen r x v := by
    intro i
    induction i with
    | zero =>
      intro x hx
      obtain rfl := Option.some.inj (hv.symm.trans hx)
      exact ⟨.refl, .refl⟩
    | succ i ih =>
      intro x hx
      have hlt : i + 1 < vs.length := (List.getElem?_eq_some_iff.mp hx).1
      obtain ⟨y, hy⟩ : ∃ y, vs[i]? = some y := ⟨_, List.getElem?_eq_getElem (by omega)⟩
      have he : s(y, x) ∈ cycleEdges vs :=
        mem_cycleEdges.mpr ⟨i, y, x, hy, by rw [Nat.mod_eq_of_lt hlt]; exact hx, rfl⟩
      obtain ⟨hto, hfrom⟩ := ih y hy
      exact ⟨hto.trans (hstep y x he), (hstep x y (Sym2.eq_swap ▸ he)).trans hfrom⟩
  obtain ⟨i, hi⟩ := List.mem_iff_getElem?.mp ha
  obtain ⟨j, hj⟩ := List.mem_iff_getElem?.mp hb
  exact (hpath i a hi).2.trans (hpath j b hj).1

end VertexCycle
