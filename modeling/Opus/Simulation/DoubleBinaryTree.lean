import Opus.Simulation.BinaryTree
import Opus.Simulation.Collective

/-!
# All-reduce on a binary tree

A leaf sends its data to its parent and waits for the result. A node with two children waits for the
data of both, reduces twice, sends to its parent, and passes the result of the parent on. The root
has one child, whose data it turns into the result. The bundles of the two reductions may come back
in any order, also before the data of the second child arrives.

## Main definitions

* `DoubleBinaryTreeAllReduce.run`: the state machine of a node
* `LeafInv`, `ForkInv`, `RootInv`: the states a node goes through
* `treeMessages`: what a node exchanges with its neighbours

## Main results

* `treeInv`: every event leads a node to the next of its states
* `doubleBinaryTree_completes`: every run ends with one message up and one down along each edge, and
  no node goes on before all nodes have started
-/

namespace Opus.Simulation

/-! ## The algorithm -/

inductive TreeState where
  | begin
  | waitingForTwoChildData
  | waitingForOneChildData
  | sendingDataToParent
  | waitingDataFromParent
  | sendingDataToChilds
  | end
  deriving DecidableEq, Repr

/-- The state of a node; there is no neighbour where the code has `-1`. -/
structure DoubleBinaryTreeAllReduce where
  parent : Option ℕ
  leftChild : Option ℕ
  rightChild : Option ℕ
  type : BinaryTree.NodeType
  dataSize : ℕ
  state : TreeState
  reductions : ℕ
  deriving DecidableEq, Repr

namespace DoubleBinaryTreeAllReduce

/-- The stream of a node on a tree. -/
abbrev Stream := StreamBaseline DoubleBinaryTreeAllReduce

/-- The constructor, for a node of the tree. -/
def new (t : BinaryTree) (dataSize id : ℕ) : DoubleBinaryTreeAllReduce :=
  ⟨t.getParentId id, t.getLeftChildId id, t.getRightChildId id, (t.getNodeType id).getD .root,
    dataSize, .begin, 0⟩

def setState (x : Stream) (state : TreeState) : Stream :=
  { x with algorithm := { x.algorithm with state := state } }

/-- A send to a neighbour. -/
def sendTo (x : Stream) (dst : Option ℕ) : Stream :=
  x.frontEndSimSend (dst.getD 0) x.algorithm.dataSize

/-- A receive from a neighbour. -/
def recvFrom (x : Stream) (src : Option ℕ) : Stream :=
  x.frontEndSimRecv (src.getD 0) x.algorithm.dataSize

def onlyChild (a : DoubleBinaryTreeAllReduce) : Option ℕ :=
  if a.leftChild.isSome then a.leftChild else a.rightChild

/-- `run`. -/
def run (event : EventType) (x : Stream) : Stream :=
  let a := x.algorithm
  -- leaf.1 to leaf.5
  if a.state = .begin ∧ a.type = .leaf then
    setState (x.sendBundle ⟨true, false, false, a.dataSize⟩) .sendingDataToParent
  else if a.state = .sendingDataToParent ∧ a.type = .leaf then
    setState (recvFrom (sendTo x a.parent) a.parent) .waitingDataFromParent
  else if a.state = .waitingDataFromParent ∧ a.type = .leaf then
    setState (x.sendBundle ⟨false, false, false, a.dataSize⟩) .end
  else if a.state = .end ∧ a.type = .leaf then x.proceedToNextVnet
  -- int.1 to int.6
  else if a.state = .begin ∧ a.type = .intermediate then
    setState (recvFrom (recvFrom x a.leftChild) a.rightChild) .waitingForTwoChildData
  else if a.state = .waitingForTwoChildData ∧ a.type = .intermediate ∧ event = .packetReceived then
    setState (x.sendBundle ⟨false, true, false, a.dataSize⟩) .waitingForOneChildData
  else if a.state = .waitingForOneChildData ∧ a.type = .intermediate ∧ event = .packetReceived then
    setState (x.sendBundle ⟨false, true, true, a.dataSize⟩) .sendingDataToParent
  -- the first reduction comes back, whether or not the second one has started
  else if a.reductions < 1 ∧ a.type = .intermediate ∧ event = .general then
    { x with algorithm := { a with reductions := a.reductions + 1 } }
  else if a.state = .sendingDataToParent ∧ a.type = .intermediate then
    setState (recvFrom (sendTo x a.parent) a.parent) .waitingDataFromParent
  else if a.state = .waitingDataFromParent ∧ a.type = .intermediate ∧ event = .packetReceived then
    setState (x.sendBundle ⟨false, true, true, a.dataSize⟩) .sendingDataToChilds
  -- the second request also names the left child; the network layer reads the argument
  else if a.state = .sendingDataToChilds ∧ a.type = .intermediate then
    (sendTo (sendTo x a.leftChild) a.rightChild).proceedToNextVnet
  -- root.1 and root.2
  else if a.state = .begin ∧ a.type = .root then
    setState (recvFrom x a.onlyChild) .waitingForOneChildData
  else if a.state = .waitingForOneChildData ∧ a.type = .root then
    setState (x.sendBundle ⟨false, true, true, a.dataSize⟩) .sendingDataToChilds
  else if a.state = .sendingDataToChilds ∧ a.type = .root then
    (sendTo x a.onlyChild).proceedToNextVnet
  else x

theorem grows_run (event : EventType) (x : Stream) : x.Grows (run event x) := by
  have hpost : ∀ (dst src : Option ℕ) (state : TreeState),
      x.Grows (setState (recvFrom (sendTo x dst) src) state) := fun _ _ _ =>
    ⟨rfl, rfl, List.prefix_append _ _, List.prefix_append _ _⟩
  have hbundle : ∀ (b : PacketBundle) (state : TreeState),
      x.Grows (setState (x.sendBundle b) state) := fun _ _ =>
    ⟨rfl, rfl, List.prefix_rfl, List.prefix_rfl⟩
  have hleaf : x.Grows x.proceedToNextVnet := ⟨rfl, rfl, List.prefix_rfl, List.prefix_rfl⟩
  have hreduce : ∀ a : DoubleBinaryTreeAllReduce, x.Grows { x with algorithm := a } := fun _ =>
    ⟨rfl, rfl, List.prefix_rfl, List.prefix_rfl⟩
  have hchildren : ∀ (l r : Option ℕ) (state : TreeState),
      x.Grows (setState (recvFrom (recvFrom x l) r) state) := fun _ _ _ =>
    ⟨rfl, rfl, List.prefix_rfl, (List.prefix_append _ _).trans (List.prefix_append _ _)⟩
  have hserve : ∀ l r : Option ℕ, x.Grows (sendTo (sendTo x l) r).proceedToNextVnet := fun _ _ =>
    ⟨rfl, rfl, (List.prefix_append _ _).trans (List.prefix_append _ _), List.prefix_rfl⟩
  have hchild : ∀ (c : Option ℕ) (state : TreeState), x.Grows (setState (recvFrom x c) state) :=
    fun _ _ => ⟨rfl, rfl, List.prefix_rfl, List.prefix_append _ _⟩
  have hroot : ∀ c : Option ℕ, x.Grows (sendTo x c).proceedToNextVnet := fun _ =>
    ⟨rfl, rfl, List.prefix_append _ _, List.prefix_rfl⟩
  exact ((hbundle _ _).ite <| (hpost _ _ _).ite <| (hbundle _ _).ite <| hleaf.ite <|
    (hchildren _ _ _).ite <| (hbundle _ _).ite <| (hbundle _ _).ite <| (hreduce _).ite <|
    (hpost _ _ _).ite <| (hbundle _ _).ite <| (hserve _ _).ite <| (hchild _ _).ite <|
    (hbundle _ _).ite <| (hroot _).ite <| .refl x)

/-- The algorithm on all nodes of a tree. -/
def algorithm (t : BinaryTree) (dataSize : ℕ) : Algorithm DoubleBinaryTreeAllReduce where
  initial := new t dataSize
  run := run
  grows := grows_run

end DoubleBinaryTreeAllReduce

/-! ## The states of a node -/

open DoubleBinaryTreeAllReduce (Stream)

/-- A leaf sends up when its data has come from memory, and goes on when the result is stored. -/
inductive LeafInv (p d : ℕ) : Stream → Prop where
  | idle : LeafInv p d ⟨⟨some p, none, none, .leaf, d, .begin, 0⟩, false, [], [], [], [], 0, false⟩
  | sending (b : PacketBundle) :
      LeafInv p d ⟨⟨some p, none, none, .leaf, d, .sendingDataToParent, 0⟩, true, [b], [], [], [],
        0, false⟩
  | waiting :
      LeafInv p d ⟨⟨some p, none, none, .leaf, d, .waitingDataFromParent, 0⟩, true, [], [(p, d)],
        [(p, d)], [], 0, false⟩
  | storing (b : PacketBundle) :
      LeafInv p d ⟨⟨some p, none, none, .leaf, d, .end, 0⟩, true, [b], [(p, d)], [(p, d)],
        [(p, d)], 0, false⟩
  | done :
      LeafInv p d ⟨⟨some p, none, none, .leaf, d, .end, 0⟩, true, [], [(p, d)], [(p, d)],
        [(p, d)], 1, false⟩

/-- A node with two children counts the reduction that comes back first, in `reductions`; the second
one lets it send up. -/
inductive ForkInv (p l r d : ℕ) : Stream → Prop where
  | idle :
      ForkInv p l r d ⟨⟨some p, some l, some r, .intermediate, d, .begin, 0⟩, false, [], [], [], [],
        0, false⟩
  | waitingTwo :
      ForkInv p l r d ⟨⟨some p, some l, some r, .intermediate, d, .waitingForTwoChildData, 0⟩, true,
        [], [], [(l, d), (r, d)], [], 0, false⟩
  | waitingOne (m : ℕ × ℕ) (bs : List PacketBundle) (reductions : ℕ)
      (hcount : bs.length + reductions = 1) :
      ForkInv p l r d ⟨⟨some p, some l, some r, .intermediate, d, .waitingForOneChildData,
        reductions⟩, true, bs, [], [(l, d), (r, d)], [m], 0, false⟩
  | sending (ms : List (ℕ × ℕ)) (hms : ms.Perm [(l, d), (r, d)]) (bs : List PacketBundle)
      (reductions : ℕ) (hcount : bs.length + reductions = 2) (hone : reductions ≤ 1) :
      ForkInv p l r d ⟨⟨some p, some l, some r, .intermediate, d, .sendingDataToParent, reductions⟩,
        true, bs, [], [(l, d), (r, d)], ms, 0, false⟩
  | waitingParent (ms : List (ℕ × ℕ)) (hms : ms.Perm [(l, d), (r, d)]) :
      ForkInv p l r d ⟨⟨some p, some l, some r, .intermediate, d, .waitingDataFromParent, 1⟩, true,
        [], [(p, d)], [(l, d), (r, d), (p, d)], ms, 0, false⟩
  | serving (ms : List (ℕ × ℕ)) (hms : ms.Perm [(l, d), (r, d)]) (b : PacketBundle) :
      ForkInv p l r d ⟨⟨some p, some l, some r, .intermediate, d, .sendingDataToChilds, 1⟩, true,
        [b], [(p, d)], [(l, d), (r, d), (p, d)], ms ++ [(p, d)], 0, false⟩
  | done (ms : List (ℕ × ℕ)) (hms : ms.Perm [(l, d), (r, d)]) :
      ForkInv p l r d ⟨⟨some p, some l, some r, .intermediate, d, .sendingDataToChilds, 1⟩, true,
        [], [(p, d), (l, d), (r, d)], [(l, d), (r, d), (p, d)], ms ++ [(p, d)], 1, false⟩

/-- The root turns the data of its child into the result. -/
inductive RootInv (left right : Option ℕ) (c d : ℕ) : Stream → Prop where
  | idle :
      RootInv left right c d ⟨⟨none, left, right, .root, d, .begin, 0⟩, false, [], [], [], [], 0,
        false⟩
  | waiting :
      RootInv left right c d ⟨⟨none, left, right, .root, d, .waitingForOneChildData, 0⟩, true, [],
        [], [(c, d)], [], 0, false⟩
  | serving (b : PacketBundle) :
      RootInv left right c d ⟨⟨none, left, right, .root, d, .sendingDataToChilds, 0⟩, true, [b], [],
        [(c, d)], [(c, d)], 0, false⟩
  | done :
      RootInv left right c d ⟨⟨none, left, right, .root, d, .sendingDataToChilds, 0⟩, true, [],
        [(c, d)], [(c, d)], [(c, d)], 1, false⟩

section States

variable {t : BinaryTree} {d : ℕ} {x y : Stream}

theorem eq_of_getElem?_singleton {b b' : PacketBundle} {k : ℕ} (h : [b][k]? = some b') :
    k = 0 ∧ b = b' := by
  cases k with
  | zero => exact ⟨rfl, by simpa using h⟩
  | succ k => simp at h

theorem eq_of_count_lt_singleton {m m' : ℕ × ℕ} {l : List (ℕ × ℕ)}
    (h : l.count m < [m'].count m) : m = m' := by
  rw [List.count_singleton] at h
  by_contra hne
  rw [if_neg (by simpa using Ne.symm hne)] at h
  exact Nat.not_lt_zero _ h

/-- A node that has received what it awaits waits for no message. -/
theorem not_awaiting_of_perm {ms ms' : List (ℕ × ℕ)} (h : ms.Perm ms') (m : ℕ × ℕ) :
    ¬ ms.count m < ms'.count m := by
  rw [h.count_eq]
  exact Nat.lt_irrefl _

/-- **Every event leads a leaf to its next state.** -/
theorem LeafInv.step {p : ℕ} (h : LeafInv p d x)
    (hy : NodeStep (DoubleBinaryTreeAllReduce.algorithm t d) x y) : LeafInv p d y := by
  cases h with
  | idle =>
    cases hy with
    | init _ => exact .sending _
    | processed k b hb _ => simp at hb
    | general k b hb _ => simp at hb
    | received m hm => simp at hm
  | sending b =>
    cases hy with
    | init hinit => cases hinit
    | processed k b' hb _ =>
      obtain ⟨rfl, rfl⟩ := eq_of_getElem?_singleton hb
      exact .sending _
    | general k b' hb _ =>
      obtain ⟨rfl, rfl⟩ := eq_of_getElem?_singleton hb
      exact .waiting
    | received m hm => simp at hm
  | waiting =>
    cases hy with
    | init hinit => cases hinit
    | processed k b hb _ => simp at hb
    | general k b hb _ => simp at hb
    | received m hm =>
      obtain rfl := eq_of_count_lt_singleton hm
      exact .storing _
  | storing b =>
    cases hy with
    | init hinit => cases hinit
    | processed k b' hb _ =>
      obtain ⟨rfl, rfl⟩ := eq_of_getElem?_singleton hb
      exact .storing _
    | general k b' hb _ =>
      obtain ⟨rfl, rfl⟩ := eq_of_getElem?_singleton hb
      exact .done
    | received m hm => exact absurd hm (Nat.lt_irrefl _)
  | done =>
    cases hy with
    | init hinit => cases hinit
    | processed k b hb _ => simp at hb
    | general k b hb _ => simp at hb
    | received m hm => exact absurd hm (Nat.lt_irrefl _)

/-- **Every event leads the root to its next state.** -/
theorem RootInv.step {left right : Option ℕ} {c : ℕ}
    (hc : left = some c ∧ right = none ∨ left = none ∧ right = some c)
    (h : RootInv left right c d x)
    (hy : NodeStep (DoubleBinaryTreeAllReduce.algorithm t d) x y) : RootInv left right c d y := by
  cases h with
  | idle =>
    cases hy with
    | init _ =>
      rcases hc with ⟨rfl, rfl⟩ | ⟨rfl, rfl⟩ <;> exact .waiting
    | processed k b hb _ => simp at hb
    | general k b hb _ => simp at hb
    | received m hm => simp at hm
  | waiting =>
    cases hy with
    | init hinit => cases hinit
    | processed k b hb _ => simp at hb
    | general k b hb _ => simp at hb
    | received m hm =>
      obtain rfl := eq_of_count_lt_singleton hm
      exact .serving _
  | serving b =>
    cases hy with
    | init hinit => cases hinit
    | processed k b' hb _ =>
      obtain ⟨rfl, rfl⟩ := eq_of_getElem?_singleton hb
      exact .serving _
    | general k b' hb _ =>
      obtain ⟨rfl, rfl⟩ := eq_of_getElem?_singleton hb
      rcases hc with ⟨rfl, rfl⟩ | ⟨rfl, rfl⟩ <;> exact .done
    | received m hm => exact absurd hm (Nat.lt_irrefl _)
  | done =>
    cases hy with
    | init hinit => cases hinit
    | processed k b hb _ => simp at hb
    | general k b hb _ => simp at hb
    | received m hm => exact absurd hm (Nat.lt_irrefl _)

/-- **Every event leads a node with two children to its next state.** -/
theorem ForkInv.step {p l r : ℕ} (h : ForkInv p l r d x) (ha : Awaited x)
    (hy : NodeStep (DoubleBinaryTreeAllReduce.algorithm t d) x y) : ForkInv p l r d y := by
  cases h with
  | idle =>
    cases hy with
    | init _ => exact .waitingTwo
    | processed k b hb _ => simp at hb
    | general k b hb _ => simp at hb
    | received m hm => simp at hm
  | waitingTwo =>
    cases hy with
    | init hinit => cases hinit
    | processed k b hb _ => simp at hb
    | general k b hb _ => simp at hb
    | received m hm => exact .waitingOne m [_] 0 rfl
  | waitingOne m bs reductions hcount =>
    cases hy with
    | init hinit => cases hinit
    | processed k b hb _ =>
      exact .waitingOne m _ reductions (by rwa [List.length_set])
    | general k b hb _ =>
      -- the first reduction has come back
      have hlt := (List.getElem?_eq_some_iff.mp hb).1
      obtain rfl : reductions = 0 := by
        simp only at hlt
        omega
      refine .waitingOne m _ 1 ?_
      rw [List.length_eraseIdx_of_lt hlt]
      simp only
      omega
    | received m' hm =>
      have hms : ([m] ++ [m']).Perm [(l, d), (r, d)] :=
        (List.subperm_ext_iff.mpr fun a _ => count_append_singleton_le hm
          (ha a)).perm_of_length_le (Nat.le_refl _)
      refine .sending ([m] ++ [m']) hms (bs ++ [⟨false, true, true, d⟩]) reductions ?_ ?_
      · rw [List.length_append, List.length_singleton]
        omega
      · omega
  | sending ms hms bs reductions hcount hone =>
    cases hy with
    | init hinit => cases hinit
    | processed k b hb _ =>
      exact .sending ms hms _ reductions (by rwa [List.length_set]) hone
    | general k b hb _ =>
      -- the second reduction that comes back sends to the parent
      have hlt := (List.getElem?_eq_some_iff.mp hb).1
      have hlen := List.length_eraseIdx_of_lt hlt
      simp only at hlt hlen
      by_cases hzero : reductions = 0
      · subst hzero
        exact .sending ms hms (bs.eraseIdx k) 1 (by omega) (Nat.le_refl 1)
      · obtain rfl : reductions = 1 := by omega
        have hnil : bs.eraseIdx k = [] := List.eq_nil_of_length_eq_zero (by omega)
        have hsent : ForkInv p l r d (DoubleBinaryTreeAllReduce.run .general
            ⟨⟨some p, some l, some r, .intermediate, d, .sendingDataToParent, 1⟩, true, [], [],
              [(l, d), (r, d)], ms, 0, false⟩) := .waitingParent ms hms
        rw [← hnil] at hsent
        exact hsent
    | received m hm => exact absurd hm (not_awaiting_of_perm hms m)
  | waitingParent ms hms =>
    cases hy with
    | init hinit => cases hinit
    | processed k b hb _ => simp at hb
    | general k b hb _ => simp at hb
    | received m hm =>
      -- the data of the children has been received, so this is the result
      obtain rfl : m = (p, d) := by
        refine eq_of_count_lt_singleton (l := []) ?_
        have hcount := hms.count_eq m
        have hall : ([(l, d), (r, d), (p, d)] : List (ℕ × ℕ)).count m =
            [(l, d), (r, d)].count m + [(p, d)].count m := by
          rw [← List.count_append]
          rfl
        simp only at hm
        rw [List.count_nil]
        omega
      exact .serving ms hms _
  | serving ms hms b =>
    cases hy with
    | init hinit => cases hinit
    | processed k b' hb _ =>
      obtain ⟨rfl, rfl⟩ := eq_of_getElem?_singleton hb
      exact .serving ms hms _
    | general k b' hb _ =>
      obtain ⟨rfl, rfl⟩ := eq_of_getElem?_singleton hb
      exact .done ms hms
    | received m hm =>
      exact absurd hm (not_awaiting_of_perm (hms.append_right [(p, d)]) m)
  | done ms hms =>
    cases hy with
    | init hinit => cases hinit
    | processed k b hb _ => simp at hb
    | general k b hb _ => simp at hb
    | received m hm =>
      exact absurd hm (not_awaiting_of_perm (hms.append_right [(p, d)]) m)

/-- A node with these neighbours goes through its states. -/
inductive LinkInv (d : ℕ) : TreeLinks → Stream → Prop where
  | leaf {p : ℕ} {x : Stream} (h : LeafInv p d x) : LinkInv d ⟨some p, none, none⟩ x
  | fork {p l r : ℕ} {x : Stream} (h : ForkInv p l r d x) : LinkInv d ⟨some p, some l, some r⟩ x
  | root {left right : Option ℕ} {c : ℕ} {x : Stream}
      (hc : left = some c ∧ right = none ∨ left = none ∧ right = some c)
      (h : RootInv left right c d x) :
      LinkInv d ⟨none, left, right⟩ x

theorem LinkInv.step {links : TreeLinks} (h : LinkInv d links x) (ha : Awaited x)
    (hy : NodeStep (DoubleBinaryTreeAllReduce.algorithm t d) x y) : LinkInv d links y := by
  cases h with
  | leaf h => exact .leaf (h.step hy)
  | fork h => exact .fork (h.step ha hy)
  | root hc h => exact .root hc (h.step hc hy)

/-- Each node of a tree with the neighbours it has there. -/
def TreeInv (t : BinaryTree) (d i : ℕ) (x : Stream) : Prop :=
  ∀ links, (i, links) ∈ t.nodeList → LinkInv d links x

theorem LinkInv.of_mem_links {u : TreeNode ℕ} {p : ℕ} {e : ℕ × TreeLinks} (he : e ∈ u.links p) :
    (∃ q, e.2 = ⟨some q, none, none⟩) ∨ ∃ q l r, e.2 = ⟨some q, some l, some r⟩ := by
  induction u generalizing p with
  | leaf id =>
    obtain rfl := List.mem_singleton.mp he
    exact .inl ⟨p, rfl⟩
  | fork left id right ihl ihr =>
    rw [TreeNode.links, List.mem_append, List.mem_cons] at he
    rcases he with he | rfl | he
    · exact ihl he
    · exact .inr ⟨p, left.id, right.id, rfl⟩
    · exact ihr he

/-- **Every event leads a node of the tree to its next state.** -/
theorem treeInv (hnodup : t.ids.Nodup) :
    LocalInv (DoubleBinaryTreeAllReduce.algorithm t d) t.ids.toFinset (TreeInv t d) where
  idle i _ links hlinks := by
    have hkeys : (t.nodeList.map Prod.fst).Nodup := t.map_fst_nodeList ▸ hnodup
    have hlookup := (Dict.lookup_eq_some_iff hkeys _ _).mpr hlinks
    have hnew : (DoubleBinaryTreeAllReduce.algorithm t d).initial i =
        ⟨links.parent, links.left, links.right,
          if links.parent = none then .root
          else if links.left = none ∧ links.right = none then .leaf else .intermediate,
          d, .begin, 0⟩ := by
      simp only [DoubleBinaryTreeAllReduce.algorithm, DoubleBinaryTreeAllReduce.new,
        BinaryTree.getParentId, BinaryTree.getLeftChildId, BinaryTree.getRightChildId,
        BinaryTree.getNodeType, hlookup, Option.bind_some, Option.map_some, Option.getD_some]
    rw [hnew]
    rcases BinaryTree.mem_nodeList.mp hlinks with hroot | hmem
    · obtain rfl := (Prod.mk.inj hroot).2
      unfold BinaryTree.rootLinks
      split
      · exact .root (.inr ⟨rfl, rfl⟩) .idle
      · exact .root (.inl ⟨rfl, rfl⟩) .idle
    · rcases LinkInv.of_mem_links hmem with ⟨q, hq⟩ | ⟨q, l, r, hq⟩
      · obtain rfl : links = ⟨some q, none, none⟩ := hq
        exact .leaf .idle
      · obtain rfl : links = ⟨some q, some l, some r⟩ := hq
        exact .fork .idle
  step _ _ _ _ hx ha hy links hlinks := (hx links hlinks).step ha hy

/-! ## The work of a node -/

theorem LinkInv.bundles_init {links : TreeLinks} (h : LinkInv d links x)
    (hinit : x.initialized = false) :
    bundleWork (DoubleBinaryTreeAllReduce.run .streamInit { x with initialized := true }).bundles ≤
      bundleWork x.bundles + 2 := by
  cases h with
  | leaf h =>
    cases h with
    | idle => exact bundleWork_singleton_le _
    | _ => cases hinit
  | fork h =>
    cases h with
    | idle => exact Nat.zero_le _
    | _ => cases hinit
  | root hc h =>
    cases h with
    | idle => exact Nat.zero_le _
    | _ => cases hinit

theorem LinkInv.bundles_general {links : TreeLinks} (h : LinkInv d links x) {k : ℕ}
    {b : PacketBundle} (hb : x.bundles[k]? = some b) :
    (DoubleBinaryTreeAllReduce.run .general
      { x with bundles := x.bundles.eraseIdx k }).bundles = x.bundles.eraseIdx k := by
  cases h with
  | leaf h =>
    cases h with
    | sending b => rfl
    | storing b => rfl
    | _ => simp at hb
  | fork h =>
    cases h with
    | waitingOne m bs reductions hcount =>
      have hlt := (List.getElem?_eq_some_iff.mp hb).1
      obtain rfl : reductions = 0 := by
        simp only at hlt
        omega
      rfl
    | sending ms hms bs reductions hcount hone =>
      rcases Nat.le_one_iff_eq_zero_or_eq_one.mp hone with rfl | rfl <;> rfl
    | serving ms hms b => rfl
    | _ => simp at hb
  | root hc h =>
    cases h with
    | serving b => rfl
    | _ => simp at hb

theorem LinkInv.bundles_received {links : TreeLinks} (h : LinkInv d links x) {m : ℕ × ℕ}
    (hm : x.received.count m < x.recvs.count m) :
    bundleWork (DoubleBinaryTreeAllReduce.run .packetReceived
      { x with received := x.received ++ [m] }).bundles ≤ bundleWork x.bundles + 2 := by
  cases h with
  | leaf h =>
    cases h with
    | waiting => exact bundleWork_singleton_le _
    | idle => simp at hm
    | sending b => simp at hm
    | storing b => exact absurd hm (Nat.lt_irrefl _)
    | done => exact absurd hm (Nat.lt_irrefl _)
  | fork h =>
    cases h with
    | idle => simp at hm
    | waitingTwo => exact bundleWork_singleton_le _
    | waitingOne m' bs reductions hcount =>
      -- the bundle of the first child may still be on its way
      have happ := bundleWork_append bs [⟨false, true, true, d⟩]
      have hle := bundleWork_singleton_le ⟨false, true, true, d⟩
      exact (Nat.le_of_eq happ).trans (Nat.add_le_add_left hle _)
    | sending ms hms bs reductions hcount hone => exact absurd hm (not_awaiting_of_perm hms m)
    | waitingParent ms hms => exact bundleWork_singleton_le _
    | serving ms hms b =>
      exact absurd hm (not_awaiting_of_perm (hms.append_right [(_, d)]) m)
    | done ms hms =>
      exact absurd hm (not_awaiting_of_perm (hms.append_right [(_, d)]) m)
  | root hc h =>
    cases h with
    | idle => simp at hm
    | waiting => exact bundleWork_singleton_le _
    | serving b => exact absurd hm (Nat.lt_irrefl _)
    | done => exact absurd hm (Nat.lt_irrefl _)

/-- The messages of a node with these neighbours. -/
def TreeLinks.messages (links : TreeLinks) (d : ℕ) : List (ℕ × ℕ) :=
  (links.parent.toList ++ links.left.toList ++ links.right.toList).map (·, d)

/-- A node awaits at most one message of each neighbour. -/
theorem LinkInv.recvs_subperm {links : TreeLinks} (h : LinkInv d links x) :
    x.recvs.Subperm (links.messages d) := by
  have hnil : ∀ ms : List (ℕ × ℕ), [].Subperm ms := fun _ => List.nil_subperm
  cases h with
  | leaf h =>
    cases h with
    | idle => exact hnil _
    | sending b => exact hnil _
    | _ => exact List.Subperm.refl _
  | @fork p l r x h =>
    -- the node awaits its children first
    have hchildren : List.Subperm [(l, d), (r, d)] [(p, d), (l, d), (r, d)] :=
      (List.sublist_cons_self _ _).subperm
    have hall : List.Subperm [(l, d), (r, d), (p, d)] [(p, d), (l, d), (r, d)] :=
      (@List.perm_append_comm _ [(l, d), (r, d)] [(p, d)]).subperm
    cases h with
    | idle => exact hnil _
    | waitingTwo => exact hchildren
    | waitingOne m bs reductions hcount => exact hchildren
    | sending ms hms bs reductions hcount hone => exact hchildren
    | waitingParent ms hms => exact hall
    | serving ms hms b => exact hall
    | done ms hms => exact hall
  | root hc h =>
    cases h with
    | idle => exact hnil _
    | _ => rcases hc with ⟨rfl, rfl⟩ | ⟨rfl, rfl⟩ <;> exact List.Subperm.refl _

theorem TreeLinks.length_messages_le (links : TreeLinks) (d : ℕ) :
    (links.messages d).length ≤ 3 := by
  obtain ⟨parent, left, right⟩ := links
  cases parent <;> cases left <;> cases right <;> simp [messages]

/-- Every node of a tree has its neighbours. -/
theorem BinaryTree.exists_links {i : ℕ} (h : i ∈ t.ids) : ∃ links, (i, links) ∈ t.nodeList := by
  rw [← t.map_fst_nodeList] at h
  obtain ⟨⟨j, links⟩, he, rfl⟩ := List.mem_map.mp h
  exact ⟨links, he⟩

/-- A node asks for a bundle at the start, one for each message, and at most three messages. -/
theorem treeFrugal :
    Frugal (DoubleBinaryTreeAllReduce.algorithm t d) t.ids.toFinset (TreeInv t d) 1 3 where
  init i hi x hx _ hinit := by
    obtain ⟨links, hlinks⟩ := BinaryTree.exists_links (List.mem_toFinset.mp hi)
    exact (hx links hlinks).bundles_init hinit
  general i hi x k b hx hb _ := by
    obtain ⟨links, hlinks⟩ := BinaryTree.exists_links (List.mem_toFinset.mp hi)
    exact (hx links hlinks).bundles_general hb
  received i hi x m hx _ hm := by
    obtain ⟨links, hlinks⟩ := BinaryTree.exists_links (List.mem_toFinset.mp hi)
    exact (hx links hlinks).bundles_received hm
  recvs i hi x hx := by
    obtain ⟨links, hlinks⟩ := BinaryTree.exists_links (List.mem_toFinset.mp hi)
    exact (hx links hlinks).recvs_subperm.length_le.trans (links.length_messages_le d)

/-! ## What a state tells -/

/-- A node that goes on has exchanged a message with each neighbour. -/
theorem LinkInv.of_exits {links : TreeLinks} (h : LinkInv d links x) (hexits : x.exits = 1) :
    x.initialized = true ∧ x.sends = links.messages d ∧ x.received.Perm (links.messages d) := by
  cases h with
  | leaf h =>
    cases h with
    | done => exact ⟨rfl, rfl, List.Perm.refl _⟩
    | _ => cases hexits
  | fork h =>
    cases h with
    | done ms hms =>
      exact ⟨rfl, rfl, (hms.append_right _).trans (@List.perm_append_comm _ [_, _] [_])⟩
    | _ => cases hexits
  | root hc h =>
    cases h with
    | done => rcases hc with ⟨rfl, rfl⟩ | ⟨rfl, rfl⟩ <;> exact ⟨rfl, rfl, List.Perm.refl _⟩
    | _ => cases hexits

theorem LinkInv.sound {links : TreeLinks} (h : LinkInv d links x) :
    x.panicked = false ∧ x.exits ≤ 1 ∧ (x.exits = 1 → x.Quiet) := by
  cases h with
  | leaf h =>
    cases h with
    | done => exact ⟨rfl, Nat.le_refl 1, fun _ => ⟨rfl, rfl, rfl⟩⟩
    | _ => exact ⟨rfl, Nat.zero_le 1, fun hexits => nomatch hexits⟩
  | fork h =>
    cases h with
    | done ms hms =>
      exact ⟨rfl, Nat.le_refl 1, fun _ => ⟨rfl, rfl, (hms.append_right [(_, d)]).length_eq⟩⟩
    | _ => exact ⟨rfl, Nat.zero_le 1, fun hexits => nomatch hexits⟩
  | root hc h =>
    cases h with
    | done => exact ⟨rfl, Nat.le_refl 1, fun _ => ⟨rfl, rfl, rfl⟩⟩
    | _ => exact ⟨rfl, Nat.zero_le 1, fun hexits => nomatch hexits⟩

/-- A node that has started, is done with its bundles and has all it awaits has gone on. -/
theorem LinkInv.exits_of_received {links : TreeLinks} (h : LinkInv d links x)
    (hinit : x.initialized = true) (hbundles : x.bundles = [])
    (hreceived : x.received.Perm x.recvs) : x.exits = 1 := by
  cases h with
  | leaf h =>
    cases h with
    | idle => cases hinit
    | sending b => cases hbundles
    | waiting => cases hreceived.length_eq
    | storing b => cases hbundles
    | done => rfl
  | fork h =>
    cases h with
    | idle => cases hinit
    | waitingTwo => cases hreceived.length_eq
    | waitingOne m bs reductions hcount => cases hreceived.length_eq
    | sending ms hms bs reductions hcount hone =>
      have hlen : bs.length = 0 := congrArg List.length hbundles
      omega
    | waitingParent ms hms =>
      have hlen : ms.length = 3 := hreceived.length_eq
      cases hlen.symm.trans hms.length_eq
    | serving ms hms b => cases hbundles
    | done ms hms => rfl
  | root hc h =>
    cases h with
    | idle => cases hinit
    | waiting => cases hreceived.length_eq
    | serving b => cases hbundles
    | done => rfl

/-- A node that has the data of its children has sent to its parent. -/
theorem ForkInv.mem_sends {p l r : ℕ} (h : ForkInv p l r d x) (hinit : x.initialized = true)
    (hbundles : x.bundles = [])
    (hreceived : x.recvs = [(l, d), (r, d)] → x.received.Perm x.recvs) : (p, d) ∈ x.sends := by
  cases h with
  | idle => cases hinit
  | waitingTwo => cases (hreceived rfl).length_eq
  | waitingOne m bs reductions hcount => cases (hreceived rfl).length_eq
  | sending ms hms bs reductions hcount hone =>
    have hlen : bs.length = 0 := congrArg List.length hbundles
    omega
  | waitingParent ms hms => exact List.mem_singleton_self _
  | serving ms hms b => exact List.mem_singleton_self _
  | done ms hms => exact List.mem_cons_self

/-- A node that has sent has the data of its children. -/
theorem ForkInv.children_of_mem {p l r : ℕ} (h : ForkInv p l r d x) {m : ℕ × ℕ}
    (hm : m ∈ x.sends) :
    x.initialized = true ∧ (l, d) ∈ x.received ∧ (r, d) ∈ x.received := by
  cases h with
  | idle => cases hm
  | waitingTwo => cases hm
  | waitingOne m bs reductions hcount => cases hm
  | sending ms hms bs reductions hcount hone => cases hm
  | waitingParent ms hms => exact ⟨rfl, hms.mem_iff.mpr (by simp), hms.mem_iff.mpr (by simp)⟩
  | serving ms hms b =>
    exact ⟨rfl, List.mem_append_left _ (hms.mem_iff.mpr (by simp)),
      List.mem_append_left _ (hms.mem_iff.mpr (by simp))⟩
  | done ms hms =>
    exact ⟨rfl, List.mem_append_left _ (hms.mem_iff.mpr (by simp)),
      List.mem_append_left _ (hms.mem_iff.mpr (by simp))⟩

/-- A node that has sent to another neighbour than its parent has gone on. -/
theorem ForkInv.exits_of_mem {p l r c : ℕ} (h : ForkInv p l r d x) (hc : c ≠ p)
    (hm : (c, d) ∈ x.sends) : x.exits = 1 := by
  have hparent : (c, d) ∉ [(p, d)] := fun hmem =>
    hc (Prod.mk.inj (List.mem_singleton.mp hmem)).1
  cases h with
  | idle => cases hm
  | waitingTwo => cases hm
  | waitingOne m bs reductions hcount => cases hm
  | sending ms hms bs reductions hcount hone => cases hm
  | waitingParent ms hms => exact absurd hm hparent
  | serving ms hms b => exact absurd hm hparent
  | done ms hms => rfl

theorem RootInv.exits_of_mem {left right : Option ℕ} {c : ℕ} (h : RootInv left right c d x)
    {m : ℕ × ℕ} (hm : m ∈ x.sends) : x.exits = 1 := by
  cases h with
  | done => rfl
  | _ => cases hm

theorem RootInv.of_exits {left right : Option ℕ} {c : ℕ} (h : RootInv left right c d x)
    (hexits : x.exits = 1) : x.initialized = true ∧ (c, d) ∈ x.received ∧ (c, d) ∈ x.sends := by
  cases h with
  | done => exact ⟨rfl, List.mem_singleton_self _, List.mem_singleton_self _⟩
  | _ => cases hexits

theorem LeafInv.mem_sends {p : ℕ} (h : LeafInv p d x) (hinit : x.initialized = true)
    (hbundles : x.bundles = []) : (p, d) ∈ x.sends := by
  cases h with
  | idle => cases hinit
  | sending b => cases hbundles
  | _ => exact List.mem_singleton_self _

theorem LeafInv.initialized_of_mem {p : ℕ} (h : LeafInv p d x) {m : ℕ × ℕ} (hm : m ∈ x.sends) :
    x.initialized = true := by
  cases h with
  | idle => cases hm
  | _ => rfl

end States

/-! ## The whole tree -/

theorem TreeNode.id_mem_ids {α : Type} (u : TreeNode α) : u.id ∈ u.ids := by
  cases u with
  | leaf id => exact List.mem_singleton_self _
  | fork left id right => exact List.mem_append_right _ List.mem_cons_self

/-- The neighbours of a node with two children are different nodes. -/
theorem TreeNode.nodup_fork {left right : TreeNode ℕ} {id p : ℕ}
    (h : (p :: (fork left id right).ids).Nodup) :
    (id :: left.ids).Nodup ∧ (id :: right.ids).Nodup ∧ [p, left.id, right.id].Nodup := by
  rw [List.nodup_cons, TreeNode.ids, List.nodup_append, List.nodup_cons] at h
  obtain ⟨hp, hl, ⟨hid, hr⟩, hdisj⟩ := h
  rw [List.mem_append, List.mem_cons, not_or, not_or] at hp
  refine ⟨List.nodup_cons.mpr ⟨fun hmem => ?_, hl⟩, List.nodup_cons.mpr ⟨hid, hr⟩, ?_⟩
  · exact hdisj _ hmem _ List.mem_cons_self rfl
  · have hpl : p ≠ left.id := fun heq => hp.1 (heq ▸ left.id_mem_ids)
    have hpr : p ≠ right.id := fun heq => hp.2.2 (heq ▸ right.id_mem_ids)
    have hlr : left.id ≠ right.id :=
      hdisj _ left.id_mem_ids _ (List.mem_cons_of_mem _ right.id_mem_ids)
    simp [hpl, hpr, hlr]

section Tree

variable {t : BinaryTree} {d : ℕ} {s : CollectiveState DoubleBinaryTreeAllReduce}

/-- The states of all nodes, with what they have exchanged. -/
structure TreeRun (t : BinaryTree) (d : ℕ) (s : CollectiveState DoubleBinaryTreeAllReduce) :
    Prop where
  links : ∀ e ∈ t.nodeList, LinkInv d e.2 (s e.1)
  matched : Matched t.ids.toFinset s

theorem TreeRun.of_reached (hnodup : t.ids.Nodup)
    (hs : s.Reached (DoubleBinaryTreeAllReduce.algorithm t d) t.ids.toFinset) : TreeRun t d s where
  links e he := by
    have hmem : e.1 ∈ t.ids := t.map_fst_nodeList ▸ List.mem_map_of_mem he
    exact (treeInv hnodup).reaches hs e.1 (List.mem_toFinset.mpr hmem) e.2 he
  matched := Matched.reaches hs

/-- The entries of the children of a node. -/
theorem TreeNode.links_fork_subset {left right : TreeNode ℕ} {id p : ℕ}
    {entries : List (ℕ × TreeLinks)} (h : (fork left id right).links p ⊆ entries) :
    left.links id ⊆ entries ∧ (id, ⟨some p, some left.id, some right.id⟩) ∈ entries ∧
      right.links id ⊆ entries :=
  ⟨fun _ he => h (List.mem_append_left _ he), h (List.mem_append_right _ List.mem_cons_self),
    fun _ he => h (List.mem_append_right _ (List.mem_cons_of_mem _ he))⟩

theorem TreeRun.fork {id p l r : ℕ} (h : TreeRun t d s)
    (he : (id, ⟨some p, some l, some r⟩) ∈ t.nodeList) : ForkInv p l r d (s id) := by
  cases h.links _ he with
  | fork h => exact h

theorem TreeRun.leaf {id p : ℕ} (h : TreeRun t d s)
    (he : (id, ⟨some p, none, none⟩) ∈ t.nodeList) : LeafInv p d (s id) := by
  cases h.links _ he with
  | leaf h => exact h

theorem TreeRun.root (h : TreeRun t d s) :
    ∃ left right, RootInv left right t.child.id d (s t.root) := by
  have hroot := h.links _ (BinaryTree.mem_nodeList.mpr (.inl rfl))
  unfold BinaryTree.rootLinks at hroot
  split at hroot
  · cases hroot with
    | root hc h =>
      rcases hc with ⟨hc, -⟩ | ⟨-, hc⟩
      · cases hc
      · obtain rfl := Option.some.inj hc
        exact ⟨_, _, h⟩
  · cases hroot with
    | root hc h =>
      rcases hc with ⟨hc, -⟩ | ⟨hc, -⟩
      · obtain rfl := Option.some.inj hc
        exact ⟨_, _, h⟩
      · cases hc

theorem mem_ids_of_mem_nodeList {e : ℕ × TreeLinks} (he : e ∈ t.nodeList) :
    e.1 ∈ t.ids.toFinset :=
  List.mem_toFinset.mpr (t.map_fst_nodeList ▸ List.mem_map_of_mem he)

/-! ### No node is left behind -/

section Blocked

variable (h : TreeRun t d s)
  (hblocked : s.Blocked (DoubleBinaryTreeAllReduce.algorithm t d) t.ids.toFinset)

include h hblocked

/-- **The data of a subtree goes up**, when nothing else can happen. -/
theorem TreeRun.sent_up {u : TreeNode ℕ} {p : ℕ} (hsub : u.links p ⊆ t.nodeList)
    (hnodup : (p :: u.ids).Nodup) : (p, d) ∈ (s u.id).sends := by
  induction u generalizing p with
  | leaf id =>
    have he := hsub (List.mem_singleton_self _)
    exact (h.leaf he).mem_sends (Blocked.initialized hblocked (mem_ids_of_mem_nodeList he))
      (Blocked.bundles hblocked id)
  | fork left id right ihl ihr =>
    obtain ⟨hleft, he, hright⟩ := TreeNode.links_fork_subset hsub
    obtain ⟨hnl, hnr, hne⟩ := TreeNode.nodup_fork hnodup
    refine (h.fork he).mem_sends (Blocked.initialized hblocked (mem_ids_of_mem_nodeList he))
      (Blocked.bundles hblocked id) fun hrecvs => ?_
    -- both children have sent
    refine received_perm_of_mem_sends hblocked h.matched ?_ ?_
    · rw [hrecvs]
      exact (List.nodup_cons.mp hne).2.map fun _ _ heq => (Prod.mk.inj heq).1
    · rw [hrecvs]
      intro m hm
      rcases List.mem_cons.mp hm with rfl | hm
      · exact ihl hleft hnl
      · obtain rfl := List.mem_singleton.mp hm
        exact ihr hright hnr

/-- A node whose neighbours have sent goes on. -/
theorem TreeRun.exits_of_sent {i : ℕ} {links : TreeLinks} (he : (i, links) ∈ t.nodeList)
    (hnodup : (links.messages d).Nodup) (hsent : ∀ m ∈ links.messages d, (i, m.2) ∈ (s m.1).sends) :
    (s i).exits = 1 := by
  have hlinks := h.links _ he
  obtain ⟨ms, hperm, hms⟩ := hlinks.recvs_subperm
  refine hlinks.exits_of_received (Blocked.initialized hblocked (mem_ids_of_mem_nodeList he))
    (Blocked.bundles hblocked i) ?_
  exact received_perm_of_mem_sends hblocked h.matched (hperm.nodup_iff.mp (hnodup.sublist hms))
    fun m hm => hsent m (hms.subset (hperm.mem_iff.mpr hm))

/-- **The result goes down** from a node that has sent it. -/
theorem TreeRun.exits_below {u : TreeNode ℕ} {p : ℕ} (hsub : u.links p ⊆ t.nodeList)
    (hnodup : (p :: u.ids).Nodup) (hsent : (u.id, d) ∈ (s p).sends) :
    ∀ i ∈ u.ids, (s i).exits = 1 := by
  induction u generalizing p with
  | leaf id =>
    intro i hi
    obtain rfl := List.mem_singleton.mp hi
    refine h.exits_of_sent hblocked (hsub (List.mem_singleton_self _)) (List.nodup_singleton _) ?_
    intro m hm
    obtain rfl := List.mem_singleton.mp hm
    exact hsent
  | fork left id right ihl ihr =>
    obtain ⟨hleft, he, hright⟩ := TreeNode.links_fork_subset hsub
    obtain ⟨hnl, hnr, hne⟩ := TreeNode.nodup_fork hnodup
    have hexits : (s id).exits = 1 := by
      refine h.exits_of_sent hblocked he (hne.map fun _ _ heq => (Prod.mk.inj heq).1) ?_
      intro m hm
      obtain ⟨j, hj, rfl⟩ := List.mem_map.mp hm
      rcases List.mem_cons.mp hj with rfl | hj
      · exact hsent
      · rcases List.mem_cons.mp hj with rfl | hj
        · exact h.sent_up hblocked hleft hnl
        · obtain rfl := List.mem_singleton.mp hj
          exact h.sent_up hblocked hright hnr
    have hsends := ((h.links _ he).of_exits hexits).2.1
    intro i hi
    rcases List.mem_append.mp hi with hi | hi
    · exact ihl hleft hnl (hsends ▸ List.mem_cons_of_mem _ List.mem_cons_self) i hi
    · rcases List.mem_cons.mp hi with rfl | hi
      · exact hexits
      · exact ihr hright hnr (hsends ▸ List.mem_cons_of_mem _
          (List.mem_cons_of_mem _ (List.mem_singleton_self _))) i hi

end Blocked

/-! ### No node goes on too early -/

/-- A node that has sent up has heard of all nodes below it. -/
theorem TreeRun.initialized_below (h : TreeRun t d s) {u : TreeNode ℕ} {p : ℕ}
    (hsub : u.links p ⊆ t.nodeList) (hsent : (p, d) ∈ (s u.id).sends) :
    ∀ i ∈ u.ids, (s i).initialized = true := by
  induction u generalizing p with
  | leaf id =>
    intro i hi
    obtain rfl := List.mem_singleton.mp hi
    exact (h.leaf (hsub (List.mem_singleton_self _))).initialized_of_mem hsent
  | fork left id right ihl ihr =>
    obtain ⟨hleft, he, hright⟩ := TreeNode.links_fork_subset hsub
    obtain ⟨hinit, hl, hr⟩ := (h.fork he).children_of_mem hsent
    intro i hi
    rcases List.mem_append.mp hi with hi | hi
    · exact ihl hleft (h.matched.mem_sends hl) i hi
    · rcases List.mem_cons.mp hi with rfl | hi
      · exact hinit
      · exact ihr hright (h.matched.mem_sends hr) i hi

/-- When a node below has gone on, the parent has sent the result. -/
theorem TreeRun.sent_of_exits (h : TreeRun t d s) {u : TreeNode ℕ} {p : ℕ}
    (hsub : u.links p ⊆ t.nodeList) (hnodup : (p :: u.ids).Nodup) :
    ∀ i ∈ u.ids, (s i).exits = 1 → (u.id, d) ∈ (s p).sends := by
  -- a node that has gone on has received the result
  have hself : ∀ {j q : ℕ} {left right : Option ℕ}, (j, ⟨some q, left, right⟩) ∈ t.nodeList →
      (s j).exits = 1 → (j, d) ∈ (s q).sends := fun he hexits =>
    h.matched.mem_sends
      (((h.links _ he).of_exits hexits).2.2.mem_iff.mpr List.mem_cons_self)
  induction u generalizing p with
  | leaf id =>
    intro i hi hexits
    obtain rfl := List.mem_singleton.mp hi
    exact hself (hsub (List.mem_singleton_self _)) hexits
  | fork left id right ihl ihr =>
    obtain ⟨hleft, he, hright⟩ := TreeNode.links_fork_subset hsub
    obtain ⟨hnl, hnr, hne⟩ := TreeNode.nodup_fork hnodup
    rw [List.nodup_cons, List.mem_cons, List.mem_singleton, not_or] at hne
    intro i hi hexits
    rcases List.mem_append.mp hi with hi | hi
    · exact hself he ((h.fork he).exits_of_mem (Ne.symm hne.1.1) (ihl hleft hnl i hi hexits))
    · rcases List.mem_cons.mp hi with rfl | hi
      · exact hself he hexits
      · exact hself he ((h.fork he).exits_of_mem (Ne.symm hne.1.2) (ihr hright hnr i hi hexits))

theorem BinaryTree.mem_ids {i : ℕ} : i ∈ t.ids ↔ i = t.root ∨ i ∈ t.child.ids := by
  unfold ids
  split
  · exact List.mem_cons
  · rw [List.mem_append, List.mem_singleton, or_comm]

/-- When a node has gone on, all nodes have started. -/
theorem TreeRun.initialized_of_exits (h : TreeRun t d s) (hnodup : t.ids.Nodup) {i : ℕ}
    (hi : i ∈ t.ids) (hexits : (s i).exits = 1) : ∀ j ∈ t.ids, (s j).initialized = true := by
  obtain ⟨hchild, hroot⟩ := BinaryTree.child_nodup hnodup
  obtain ⟨left, right, hinv⟩ := h.root
  have he : (t.root, t.rootLinks) ∈ t.nodeList := BinaryTree.mem_nodeList.mpr (.inl rfl)
  have hexits' : (s t.root).exits = 1 := by
    rcases BinaryTree.mem_ids.mp hi with rfl | hi
    · exact hexits
    · exact hinv.exits_of_mem (h.sent_of_exits t.links_subset
        (List.nodup_cons.mpr ⟨hroot, hchild⟩) i hi hexits)
  obtain ⟨hinit, hreceived, -⟩ := hinv.of_exits hexits'
  intro j hj
  rcases BinaryTree.mem_ids.mp hj with rfl | hj
  · exact hinit
  · exact h.initialized_below t.links_subset (h.matched.mem_sends hreceived) j hj

/-- When nothing can happen, all nodes have gone on. -/
theorem TreeRun.exits_of_blocked (h : TreeRun t d s) (hnodup : t.ids.Nodup)
    (hblocked : s.Blocked (DoubleBinaryTreeAllReduce.algorithm t d) t.ids.toFinset) :
    ∀ i ∈ t.ids, (s i).exits = 1 := by
  obtain ⟨hchild, hroot⟩ := BinaryTree.child_nodup hnodup
  obtain ⟨left, right, hinv⟩ := h.root
  have hbelow : (t.root :: t.child.ids).Nodup := List.nodup_cons.mpr ⟨hroot, hchild⟩
  have he : (t.root, t.rootLinks) ∈ t.nodeList := BinaryTree.mem_nodeList.mpr (.inl rfl)
  have hmessages : t.rootLinks.messages d = [(t.child.id, d)] := by
    unfold BinaryTree.rootLinks
    split <;> rfl
  -- the data reaches the root, and the result all nodes below it
  have hexits : (s t.root).exits = 1 := by
    refine h.exits_of_sent hblocked he ?_ fun m hm => ?_
    · rw [hmessages]
      exact List.nodup_singleton _
    · rw [hmessages] at hm
      obtain rfl := List.mem_singleton.mp hm
      exact h.sent_up hblocked t.links_subset hbelow
  intro i hi
  rcases BinaryTree.mem_ids.mp hi with rfl | hi
  · exact hexits
  · exact h.exits_below hblocked t.links_subset hbelow (hinv.of_exits hexits).2.2 i hi

end Tree

/-- What a node of the tree exchanges with its parent and its children. -/
def treeMessages (t : BinaryTree) (dataSize i : ℕ) : List (ℕ × ℕ) :=
  ((t.getParentId i).toList ++ (t.getLeftChildId i).toList ++ (t.getRightChildId i).toList).map
    (·, dataSize)

theorem treeMessages_eq {t : BinaryTree} (hnodup : t.ids.Nodup) {d i : ℕ} {links : TreeLinks}
    (he : (i, links) ∈ t.nodeList) : treeMessages t d i = links.messages d := by
  have hkeys : (t.nodeList.map Prod.fst).Nodup := t.map_fst_nodeList ▸ hnodup
  have hlookup := (Dict.lookup_eq_some_iff hkeys _ _).mpr he
  simp only [treeMessages, TreeLinks.messages, BinaryTree.getParentId, BinaryTree.getLeftChildId,
    BinaryTree.getRightChildId, hlookup, Option.bind_some]

/-- **The all-reduce on a binary tree completes.** In every run, whatever the order of the nodes,
their bundles and their messages, each node sends one message to each of its neighbours and receives
one from it, and then goes on once. No node goes on before all nodes have started. -/
theorem doubleBinaryTree_completes {t : BinaryTree} (hnodup : t.ids.Nodup) (dataSize : ℕ) :
    Completes (DoubleBinaryTreeAllReduce.algorithm t dataSize) t.ids.toFinset (t.ids.length * 12)
      (treeMessages t dataSize) (treeMessages t dataSize) ∧
    ∀ s, CollectiveState.Reached (DoubleBinaryTreeAllReduce.algorithm t dataSize) t.ids.toFinset s →
      ∀ i ∈ t.ids, (s i).exits = 1 → ∀ j ∈ t.ids, (s j).initialized = true := by
  refine ⟨⟨fun as s hs => ?_, fun s hs i hi => ?_, fun s hs hblocked i hi => ?_⟩,
    fun s hs i hi hexits => ?_⟩
  · have hle := (treeInv hnodup).length_le treeFrugal hs
    rwa [List.toFinset_card_of_nodup hnodup] at hle
  · obtain ⟨links, he⟩ := BinaryTree.exists_links (List.mem_toFinset.mp hi)
    exact ((TreeRun.of_reached hnodup hs).links _ he).sound
  · have hrun := TreeRun.of_reached hnodup hs
    have hexits := hrun.exits_of_blocked hnodup hblocked i (List.mem_toFinset.mp hi)
    obtain ⟨links, he⟩ := BinaryTree.exists_links (List.mem_toFinset.mp hi)
    rw [treeMessages_eq hnodup he]
    exact ⟨hexits, ((hrun.links _ he).of_exits hexits).2⟩
  · exact (TreeRun.of_reached hnodup hs).initialized_of_exits hnodup hi hexits

/-- Eight nodes below the root `0`: the node `4` has the children `2` and `6`. -/
theorem doubleBinaryTree_completes_eightNodes :
    Completes (DoubleBinaryTreeAllReduce.algorithm (.new .rootMin 8 0 1) 64) (.range 8) 96
      (treeMessages (.new .rootMin 8 0 1) 64) (treeMessages (.new .rootMin 8 0 1) 64) ∧
    treeMessages (.new .rootMin 8 0 1) 64 4 = [(0, 64), (2, 64), (6, 64)] :=
  ⟨(doubleBinaryTree_completes (@BinaryTree.nodup_new .rootMin 3 (by decide) 0 1 Nat.one_pos) 64).1,
    by decide +kernel⟩

end Opus.Simulation
