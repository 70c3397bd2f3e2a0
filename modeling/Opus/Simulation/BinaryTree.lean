import Mathlib.Data.Nat.Log
import Mathlib.Tactic.Ring
import Opus.Library.Dict

/-!
# Double binary trees

A binary tree has a root with one child, below which all nodes have two children or none. The nodes
are numbered in order, so the root has the least number or the greatest. A double binary tree is one
of each kind over the same nodes: a node that passes data on in one of them only has to send and to
receive once in the other.

## Main definitions

* `TreeNode`: the tree below a root
* `initializeTree`, `buildTree`, `BinaryTree.new`: the constructor
* `BinaryTree.nodeList`: the parents and children of all nodes

## Main results

* `BinaryTree.ids_new`: the constructor numbers as many nodes as there are, for a power of two
* `leaf_in_exactly_one_tree`: every node is a leaf in exactly one of the two trees
-/

namespace Opus.Simulation

/-- A node made by `initialize_tree` has two children or none. -/
inductive TreeNode (α : Type) where
  | leaf (id : α)
  | fork (left : TreeNode α) (id : α) (right : TreeNode α)
  deriving DecidableEq, Repr

namespace TreeNode

variable {α : Type}

def id : TreeNode α → α
  | leaf id => id
  | fork _ id _ => id

/-- The nodes in order. -/
def ids : TreeNode α → List α
  | leaf id => [id]
  | fork left id right => left.ids ++ id :: right.ids

/-- The nodes without children. -/
def leaves : TreeNode α → List α
  | leaf id => [id]
  | fork left _ right => left.leaves ++ right.leaves

end TreeNode

/-- `initialize_tree`, before the nodes are numbered. -/
def initializeTree : ℕ → TreeNode Unit
  | 0 => .leaf ()
  | 1 => .leaf ()
  | depth + 2 => .fork (initializeTree (depth + 1)) () (initializeTree (depth + 1))

/-- `build_tree`: the numbered tree, and the number that comes next. -/
def buildTree (stride : ℕ) : TreeNode Unit → ℕ → TreeNode ℕ × ℕ
  | .leaf _, start => (.leaf start, start + stride)
  | .fork left _ right, start =>
    let l := buildTree stride left start
    let r := buildTree stride right (l.2 + stride)
    (.fork l.1 l.2 r.1, r.2)

inductive TreeType where
  | rootMax
  | rootMin
  deriving DecidableEq, Repr

/-- The left child of the root is set in a tree with the greatest root, the right child in one with
the least. -/
structure BinaryTree where
  treeType : TreeType
  root : ℕ
  child : TreeNode ℕ
  deriving DecidableEq, Repr

namespace BinaryTree

/-- The constructor; its loop counts how often the number of nodes can be halved. -/
def new (treeType : TreeType) (totalTreeNodes start stride : ℕ) : BinaryTree :=
  let depth := Nat.log 2 totalTreeNodes + 1
  let child := initializeTree (depth - 1)
  match treeType with
  | .rootMin => ⟨treeType, start, (buildTree stride child (start + stride)).1⟩
  | .rootMax =>
    let built := buildTree stride child start
    ⟨treeType, built.2, built.1⟩

/-- The nodes in order. -/
def ids (t : BinaryTree) : List ℕ :=
  match t.treeType with
  | .rootMin => t.root :: t.child.ids
  | .rootMax => t.child.ids ++ [t.root]

end BinaryTree

/-! ## Parents and children -/

/-- The neighbours of a node in its tree; there is no node where the code returns `-1`. -/
structure TreeLinks where
  parent : Option ℕ
  left : Option ℕ
  right : Option ℕ
  deriving DecidableEq, Repr

/-- The entries of `node_list` for the nodes below a parent. -/
def TreeNode.links (parent : ℕ) : TreeNode ℕ → List (ℕ × TreeLinks)
  | leaf id => [(id, ⟨some parent, none, none⟩)]
  | fork left id right =>
    left.links id ++ (id, ⟨some parent, some left.id, some right.id⟩) :: right.links id

namespace BinaryTree

inductive NodeType where
  | leaf
  | root
  | intermediate
  deriving DecidableEq, Repr

def nodeList (t : BinaryTree) : List (ℕ × TreeLinks) :=
  match t.treeType with
  | .rootMin => (t.root, ⟨none, none, some t.child.id⟩) :: t.child.links t.root
  | .rootMax => t.child.links t.root ++ [(t.root, ⟨none, some t.child.id, none⟩)]

def getParentId (t : BinaryTree) (id : ℕ) : Option ℕ := (t.nodeList.lookup id).bind (·.parent)

def getLeftChildId (t : BinaryTree) (id : ℕ) : Option ℕ := (t.nodeList.lookup id).bind (·.left)

def getRightChildId (t : BinaryTree) (id : ℕ) : Option ℕ := (t.nodeList.lookup id).bind (·.right)

/-- `get_node_type`, for a node of the tree. -/
def getNodeType (t : BinaryTree) (id : ℕ) : Option NodeType :=
  (t.nodeList.lookup id).map fun links =>
    if links.parent = none then .root
    else if links.left = none ∧ links.right = none then .leaf
    else .intermediate

end BinaryTree

/-! ## Numbers -/

/-- The nodes from a number on. -/
def numbered (stride start n : ℕ) : List ℕ := (List.range n).map fun k => start + k * stride

theorem numbered_add (stride start m n : ℕ) :
    numbered stride start (m + n) =
      numbered stride start m ++ numbered stride (start + m * stride) n := by
  simp only [numbered, List.range_add, List.map_append, List.map_map]
  congr 1
  refine List.map_congr_left fun k _ => ?_
  simp only [Function.comp_apply]
  ring

theorem numbered_one (stride start : ℕ) : numbered stride start 1 = [start] := by
  simp [numbered]

/-- The tree below a root of this depth has one node less than a power of two. -/
theorem length_ids_initializeTree (d : ℕ) :
    (initializeTree (d + 1)).ids.length = 2 ^ (d + 1) - 1 := by
  induction d with
  | zero => rfl
  | succ d ih =>
    have hpos := Nat.two_pow_pos (d + 1)
    simp only [initializeTree, TreeNode.ids, List.length_append, List.length_cons, ih]
    rw [Nat.pow_succ 2 (d + 1)]
    omega

/-- **The nodes are numbered in order.** -/
theorem buildTree_spec (stride : ℕ) (t : TreeNode Unit) (start : ℕ) :
    (buildTree stride t start).1.ids = numbered stride start t.ids.length ∧
      (buildTree stride t start).2 = start + t.ids.length * stride := by
  induction t generalizing start with
  | leaf id => exact ⟨(numbered_one stride start).symm, by simp [buildTree, TreeNode.ids]⟩
  | fork left id right ihl ihr =>
    obtain ⟨hleft, hnext⟩ := ihl start
    obtain ⟨hright, hnext'⟩ := ihr ((buildTree stride left start).2 + stride)
    simp only [buildTree, TreeNode.ids, List.length_append, List.length_cons]
    rw [hnext] at hright hnext'
    rw [hleft, hnext, hright, hnext']
    constructor
    · rw [numbered_add, Nat.add_comm right.ids.length 1, numbered_add, numbered_one, Nat.one_mul]
      rfl
    · ring

/-- **The constructor numbers all nodes**, when their number is a power of two. -/
theorem BinaryTree.ids_new (treeType : TreeType) {d : ℕ} (hd : 0 < d) (start stride : ℕ) :
    (new treeType (2 ^ d) start stride).ids = numbered stride start (2 ^ d) := by
  obtain ⟨d, rfl⟩ : ∃ e, d = e + 1 := ⟨d - 1, by omega⟩
  have hlength := length_ids_initializeTree d
  have hpos := Nat.two_pow_pos (d + 1)
  have hdepth : Nat.log 2 (2 ^ (d + 1)) + 1 - 1 = d + 1 := by
    rw [Nat.log_pow (by decide), Nat.add_sub_cancel]
  cases treeType with
  | rootMin =>
    simp only [new, ids, hdepth]
    rw [(buildTree_spec stride _ _).1, hlength,
      show (2 : ℕ) ^ (d + 1) = 1 + (2 ^ (d + 1) - 1) by omega, numbered_add, numbered_one,
      Nat.one_mul, Nat.add_sub_cancel_left]
    rfl
  | rootMax =>
    simp only [new, ids, hdepth]
    obtain ⟨hids, hnext⟩ := buildTree_spec stride (initializeTree (d + 1)) start
    rw [hids, hnext, hlength]
    conv_rhs => rw [show (2 : ℕ) ^ (d + 1) = (2 ^ (d + 1) - 1) + 1 by omega, numbered_add,
      numbered_one]

/-! ## Leaves -/

/-- Every other node is a leaf. -/
theorem leaves_buildTree (stride d start : ℕ) :
    (buildTree stride (initializeTree (d + 1)) start).1.leaves =
      numbered (2 * stride) start (2 ^ d) := by
  induction d generalizing start with
  | zero => exact (numbered_one _ _).symm
  | succ d ih =>
    have hpos := Nat.two_pow_pos (d + 1)
    have hnext := (buildTree_spec stride (initializeTree (d + 1)) start).2
    rw [length_ids_initializeTree] at hnext
    simp only [initializeTree, buildTree, TreeNode.leaves, ih, hnext]
    rw [Nat.pow_succ, Nat.mul_two, numbered_add]
    -- the right half starts after the left one and the node between them
    have hhalf := Nat.two_pow_pos d
    obtain ⟨m, hm⟩ : ∃ m, 2 ^ d + 2 ^ d = m + 1 := ⟨2 ^ d + 2 ^ d - 1, by omega⟩
    congr 2
    rw [hm, Nat.add_sub_cancel, Nat.add_assoc, ← Nat.succ_mul, Nat.succ_eq_add_one, ← hm]
    ring

theorem TreeNode.leaves_subset {α : Type} (t : TreeNode α) : t.leaves ⊆ t.ids := by
  induction t with
  | leaf id => exact List.Subset.refl _
  | fork left id right ihl ihr =>
    intro v hv
    rw [TreeNode.leaves, List.mem_append] at hv
    rw [TreeNode.ids, List.mem_append, List.mem_cons]
    exact hv.imp (@ihl v) fun hv => .inr (ihr hv)

theorem TreeNode.map_fst_links (parent : ℕ) (t : TreeNode ℕ) :
    (t.links parent).map Prod.fst = t.ids := by
  induction t generalizing parent with
  | leaf id => rfl
  | fork left id right ihl ihr => simp [TreeNode.links, TreeNode.ids, ihl, ihr]

/-- The nodes below a root have a parent, and those without children are the leaves. -/
theorem TreeNode.links_spec {t : TreeNode ℕ} (hnodup : t.ids.Nodup) (parent : ℕ) :
    ∀ e ∈ t.links parent, e.2.parent ≠ none ∧
      ((e.2.left = none ∧ e.2.right = none) ↔ e.1 ∈ t.leaves) := by
  induction t generalizing parent with
  | leaf id => simp [TreeNode.links, TreeNode.leaves]
  | fork left id right ihl ihr =>
    rw [TreeNode.ids, List.nodup_append, List.nodup_cons] at hnodup
    obtain ⟨hl, ⟨hid, hr⟩, hdisj⟩ := hnodup
    intro e he
    rw [TreeNode.links, List.mem_append, List.mem_cons] at he
    rw [TreeNode.leaves, List.mem_append]
    rcases he with he | rfl | he
    · have hmem : e.1 ∈ left.ids := left.map_fst_links id ▸ List.mem_map_of_mem he
      have hnot : e.1 ∉ right.leaves := fun h =>
        hdisj _ hmem _ (List.mem_cons_of_mem _ (right.leaves_subset h)) rfl
      rw [or_iff_left hnot]
      exact ihl hl id e he
    · have hnot : ¬ (id ∈ left.leaves ∨ id ∈ right.leaves) := by
        rintro (h | h)
        · exact hdisj _ (left.leaves_subset h) _ List.mem_cons_self rfl
        · exact hid (right.leaves_subset h)
      simpa using hnot
    · have hmem : e.1 ∈ right.ids := right.map_fst_links id ▸ List.mem_map_of_mem he
      have hnot : e.1 ∉ left.leaves := fun h =>
        hdisj _ (left.leaves_subset h) _ (List.mem_cons_of_mem _ hmem) rfl
      rw [or_iff_right hnot]
      exact ihr hr id e he

namespace BinaryTree

theorem map_fst_nodeList (t : BinaryTree) : t.nodeList.map Prod.fst = t.ids := by
  unfold nodeList ids
  split <;> simp [TreeNode.map_fst_links]

/-- The neighbours of the root. -/
def rootLinks (t : BinaryTree) : TreeLinks :=
  match t.treeType with
  | .rootMin => ⟨none, none, some t.child.id⟩
  | .rootMax => ⟨none, some t.child.id, none⟩

theorem parent_rootLinks (t : BinaryTree) : t.rootLinks.parent = none := by
  unfold rootLinks
  split <;> rfl

/-- The root and the nodes below it. -/
theorem mem_nodeList {t : BinaryTree} {e : ℕ × TreeLinks} :
    e ∈ t.nodeList ↔ e = (t.root, t.rootLinks) ∨ e ∈ t.child.links t.root := by
  unfold nodeList rootLinks
  split
  · rw [List.mem_cons]
  · rw [List.mem_append, List.mem_singleton, or_comm]

theorem links_subset (t : BinaryTree) : t.child.links t.root ⊆ t.nodeList :=
  fun _ h => mem_nodeList.mpr (.inr h)

theorem child_nodup {t : BinaryTree} (hnodup : t.ids.Nodup) :
    t.child.ids.Nodup ∧ t.root ∉ t.child.ids := by
  unfold ids at hnodup
  split at hnodup
  · rw [List.nodup_cons] at hnodup
    exact ⟨hnodup.2, hnodup.1⟩
  · rw [List.nodup_append] at hnodup
    exact ⟨hnodup.1, fun h => hnodup.2.2 _ h _ (List.mem_singleton_self _) rfl⟩

/-- **The leaves of a tree.** -/
theorem getNodeType_eq_leaf_iff {t : BinaryTree} (hnodup : t.ids.Nodup) {id : ℕ} :
    t.getNodeType id = some .leaf ↔ id ∈ t.child.leaves := by
  have hspec := t.child.links_spec (child_nodup hnodup).1 t.root
  have hkeys : (t.nodeList.map Prod.fst).Nodup := t.map_fst_nodeList ▸ hnodup
  rw [getNodeType, Option.map_eq_some_iff]
  constructor
  · rintro ⟨links, hlookup, htype⟩
    rcases mem_nodeList.mp ((Dict.lookup_eq_some_iff hkeys _ _).mp hlookup) with hroot | hmem
    · rw [(Prod.mk.inj hroot).2, if_pos t.parent_rootLinks] at htype
      cases htype
    · obtain ⟨hparent, hleaf⟩ := hspec _ hmem
      refine hleaf.mp ?_
      by_contra hnot
      dsimp only at htype hparent hnot
      rw [if_neg hparent, if_neg hnot] at htype
      cases htype
  · intro hmem
    have hid : id ∈ (t.child.links t.root).map Prod.fst :=
      t.child.map_fst_links t.root ▸ t.child.leaves_subset hmem
    obtain ⟨e, he, rfl⟩ := List.mem_map.mp hid
    obtain ⟨hparent, hleaf⟩ := hspec e he
    exact ⟨e.2, (Dict.lookup_eq_some_iff hkeys _ _).mpr (t.links_subset he), by
      rw [if_neg hparent, if_pos (hleaf.mpr hmem)]⟩

theorem leaves_new (treeType : TreeType) (d start stride : ℕ) :
    (new treeType (2 ^ (d + 1)) start stride).child.leaves =
      numbered (2 * stride) (if treeType = .rootMin then start + stride else start) (2 ^ d) := by
  have hdepth : Nat.log 2 (2 ^ (d + 1)) + 1 - 1 = d + 1 := by
    rw [Nat.log_pow (by decide), Nat.add_sub_cancel]
  cases treeType <;> simp only [new, hdepth] <;> exact leaves_buildTree _ _ _

end BinaryTree

theorem nodup_numbered {stride : ℕ} (hs : 0 < stride) (start n : ℕ) :
    (numbered stride start n).Nodup := by
  refine List.Nodup.map (fun k l h => ?_) List.nodup_range
  exact Nat.eq_of_mul_eq_mul_right hs (Nat.add_left_cancel h)

theorem BinaryTree.nodup_new (treeType : TreeType) {d : ℕ} (hd : 0 < d) (start : ℕ) {stride : ℕ}
    (hs : 0 < stride) : (new treeType (2 ^ d) start stride).ids.Nodup := by
  rw [ids_new treeType hd]
  exact nodup_numbered hs start _

/-- Of the nodes from a number on, those at twice the distance are every other one. -/
theorem mem_numbered_two_mul {stride : ℕ} (hs : 0 < stride) (start : ℕ) {off k m : ℕ}
    (hoff : off < 2) (hk : k < 2 * m) :
    start + k * stride ∈ numbered (2 * stride) (start + off * stride) m ↔ k % 2 = off := by
  have hdouble : ∀ l, start + off * stride + l * (2 * stride) = start + (2 * l + off) * stride :=
    fun l => by ring
  rw [numbered, List.mem_map]
  constructor
  · rintro ⟨l, -, h⟩
    rw [hdouble] at h
    have hl : 2 * l + off = k := Nat.eq_of_mul_eq_mul_right hs (Nat.add_left_cancel h)
    omega
  · intro h
    refine ⟨k / 2, List.mem_range.mpr (by omega), ?_⟩
    rw [hdouble, ← h, Nat.div_add_mod]

/-- A single node is the child of the root of one tree, and the root of the other. -/
theorem leaf_in_one_tree_of_single (start stride : ℕ) :
    (BinaryTree.new .rootMax 1 start stride).getNodeType start = some .leaf ∧
      (BinaryTree.new .rootMin 1 start stride).getNodeType start = some .root := by
  simp [BinaryTree.new, BinaryTree.getNodeType, BinaryTree.nodeList, initializeTree, buildTree,
    TreeNode.links, TreeNode.id]

/-- **Every node is a leaf in exactly one of the two trees**, so that it has children to serve in at
most one of them. -/
theorem leaf_in_exactly_one_tree {d start stride : ℕ} (hs : 0 < stride) {id : ℕ}
    (hid : id ∈ numbered stride start (2 ^ d)) :
    (BinaryTree.new .rootMax (2 ^ d) start stride).getNodeType id = some .leaf ↔
      ¬ (BinaryTree.new .rootMin (2 ^ d) start stride).getNodeType id = some .leaf := by
  cases d with
  | zero =>
    obtain rfl : id = start := by simpa [numbered] using hid
    obtain ⟨hmax, hmin⟩ := leaf_in_one_tree_of_single id stride
    rw [Nat.pow_zero, hmax, hmin]
    simp
  | succ d =>
    rw [BinaryTree.getNodeType_eq_leaf_iff (BinaryTree.nodup_new _ d.succ_pos start hs),
      BinaryTree.getNodeType_eq_leaf_iff (BinaryTree.nodup_new _ d.succ_pos start hs),
      BinaryTree.leaves_new, BinaryTree.leaves_new, if_neg (by decide), if_pos rfl]
    -- the leaves are the even numbers in one tree, and the odd ones in the other
    obtain ⟨k, hk, rfl⟩ := List.mem_map.mp hid
    rw [List.mem_range, Nat.pow_succ] at hk
    have heven := @mem_numbered_two_mul stride hs start 0 k (2 ^ d) (by decide) (by omega)
    have hodd := @mem_numbered_two_mul stride hs start 1 k (2 ^ d) (by decide) (by omega)
    rw [Nat.zero_mul, Nat.add_zero] at heven
    rw [Nat.one_mul] at hodd
    rw [heven, hodd]
    omega

/-- Eight nodes at a distance of two from each other. -/
theorem leaf_in_exactly_one_tree_eightNodes :
    (BinaryTree.new .rootMax 8 3 2).getNodeType 7 = some .leaf ↔
      ¬ (BinaryTree.new .rootMin 8 3 2).getNodeType 7 = some .leaf :=
  @leaf_in_exactly_one_tree 3 3 2 (by decide) 7 (by decide)

end Opus.Simulation
