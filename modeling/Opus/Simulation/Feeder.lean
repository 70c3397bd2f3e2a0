import Mathlib.Data.Int.Notation
import Mathlib.Logic.Function.Basic
import Opus.Library.TaskGraph

/-!
# Nodes, dependencies and hardware of a rank

A rank executes the nodes of its trace. The dependency resolver keeps three layers of
dependencies, each with its nodes that can be taken and those that are taken; the hardware runs at
most one operation of each kind, and any number of receives.

## Main definitions

* `Node`, `Trace`: the nodes of a rank
* `DependancyLayer.takeNode`, `DependancyLayer.pushBackNode`, `DependancyLayer.finishNode`, and the
  same of `DependancyResolver`: what a step does to the nodes, or that it throws
* `HardwareResource.occupy`, `HardwareResource.release`, `HardwareResource.isAvailable`

## Main results

* `LayerOf.takeNode`, `LayerOf.pushBackNode`, `LayerOf.finishNode`: a layer refines the tasks
* `ResolverOf.takeNode`, `ResolverOf.pushBackNode`, `ResolverOf.finishNode`: so does the resolver
* `HardwareOf.occupy`, `HardwareOf.release`: the counters are those of the taken nodes
-/

namespace Opus.Simulation

open TaskGraph

/-! ## Nodes -/

/-- `ChakraNodeType`. -/
inductive NodeType where
  | invalid
  | metadata
  | memLoad
  | memStore
  | comp
  | commSend
  | commRecv
  | commColl
  deriving DecidableEq, Repr

/-- A node of a trace. `group` is the communicator group of a collective and `peer` the other end of
a transfer. -/
structure Node where
  id : ℕ
  type : NodeType
  isCpuOp : Bool
  dataDeps : List ℕ
  ctrlDeps : List ℕ
  runtime : ℕ
  tensorSize : ℕ
  group : ℕ
  peer : ℕ
  reconfigDim : Option ℤ
  reconfigTopoId : Option ℕ
  reconfigSkipInflight : Bool
  skipSchedulerReconfig : Bool
  deriving DecidableEq, Repr

/-- The trace of a rank: ids are unique, and dependencies are nodes. -/
structure Trace where
  nodes : List Node
  nodup : (nodes.map Node.id).Nodup
  deps_mem : ∀ node ∈ nodes, ∀ d ∈ node.dataDeps ++ node.ctrlDeps, d ∈ nodes.map Node.id

namespace Trace

def ids (T : Trace) : List ℕ := T.nodes.map Node.id

/-- `ETFeeder::lookupNode`. -/
def lookupNode (T : Trace) (n : ℕ) : Option Node := T.nodes.find? fun node => node.id = n

/-- The dependencies of a node in one of the layers. -/
def depsOf (T : Trace) (deps : Node → List ℕ) (n : ℕ) : List ℕ :=
  match T.lookupNode n with
  | some node => deps node
  | none => []

def dataDeps (T : Trace) : ℕ → List ℕ := T.depsOf Node.dataDeps

def ctrlDeps (T : Trace) : ℕ → List ℕ := T.depsOf Node.ctrlDeps

/-- Both kinds of dependencies are enabled. -/
def enabledDeps (T : Trace) : ℕ → List ℕ := T.depsOf fun node => node.dataDeps ++ node.ctrlDeps

variable {T : Trace} {n : ℕ} {node : Node}

theorem mem_of_lookupNode (h : T.lookupNode n = some node) : node ∈ T.nodes ∧ node.id = n :=
  ⟨List.mem_of_find?_eq_some h, by simpa using List.find?_some h⟩

theorem dataDeps_subset (T : Trace) (n : ℕ) : ∀ d ∈ T.dataDeps n, d ∈ T.enabledDeps n := by
  simp only [dataDeps, enabledDeps, depsOf]
  split
  · exact fun d hd => List.mem_append_left _ hd
  · exact fun d hd => hd

theorem ctrlDeps_subset (T : Trace) (n : ℕ) : ∀ d ∈ T.ctrlDeps n, d ∈ T.enabledDeps n := by
  simp only [ctrlDeps, enabledDeps, depsOf]
  split
  · exact fun d hd => List.mem_append_right _ hd
  · exact fun d hd => hd

end Trace

/-! ## Dependencies -/

/-- `_DependancyLayer`, when its free nodes have been resolved: the unfinished parents and the
children of each node, the nodes that can be taken and those that are taken. -/
structure DependancyLayer where
  childMapParent : ℕ → List ℕ
  parentMapChild : ℕ → List ℕ
  dependancyFreeNodes : List ℕ
  ongoingNodes : List ℕ

namespace DependancyLayer

/-- The layer after `add_node` for each node and `resolve_dependancy_free_nodes`. -/
def resolved (ids : List ℕ) (deps : ℕ → List ℕ) : DependancyLayer where
  childMapParent := deps
  parentMapChild := fun d => ids.filter fun n => d ∈ deps n
  dependancyFreeNodes := ids.filter fun n => deps n = []
  ongoingNodes := []

/-- `take_node`; it throws when the node cannot be taken. -/
def takeNode (L : DependancyLayer) (n : ℕ) : Option DependancyLayer :=
  if n ∉ L.dependancyFreeNodes then none
  else if n ∈ L.ongoingNodes then none
  else some { L with
    ongoingNodes := n :: L.ongoingNodes
    dependancyFreeNodes := L.dependancyFreeNodes.filter (· ≠ n) }

/-- `push_back_node`; it throws when the node is not taken. -/
def pushBackNode (L : DependancyLayer) (n : ℕ) : Option DependancyLayer :=
  if n ∉ L.ongoingNodes then none
  else some { L with
    ongoingNodes := L.ongoingNodes.filter (· ≠ n)
    dependancyFreeNodes := L.dependancyFreeNodes.insert n }

/-- One pass of the loop of `finish_node` over the children. -/
def releaseChild (n : ℕ) (L : DependancyLayer) (child : ℕ) : Option DependancyLayer :=
  if n ∉ L.childMapParent child then none
  else
    let parents := (L.childMapParent child).filter (· ≠ n)
    some { L with
      childMapParent := Function.update L.childMapParent child parents
      dependancyFreeNodes :=
        if parents = [] then L.dependancyFreeNodes.insert child else L.dependancyFreeNodes }

/-- `finish_node`; it throws when the node is not taken. -/
def finishNode (L : DependancyLayer) (n : ℕ) : Option DependancyLayer :=
  if n ∉ L.ongoingNodes then none
  else
    ((L.parentMapChild n).foldlM (releaseChild n)
      { L with ongoingNodes := L.ongoingNodes.filter (· ≠ n) }).map fun L =>
        { L with
          childMapParent := Function.update L.childMapParent n []
          parentMapChild := Function.update L.parentMapChild n [] }

end DependancyLayer

/-- The layer keeps the tasks: the invariant of `_DependancyLayer`. -/
structure LayerOf (deps : ℕ → List ℕ) (tasks : List ℕ) (p : Progress ℕ) (L : DependancyLayer) :
    Prop where
  ongoing : ∀ n, n ∈ L.ongoingNodes ↔ n ∈ p.ongoing
  free : ∀ n, n ∈ L.dependancyFreeNodes ↔ Ready deps tasks p n
  parents : ∀ n ∈ tasks, n ∉ p.finished →
    ∀ d, d ∈ L.childMapParent n ↔ d ∈ deps n ∧ d ∉ p.finished
  children : ∀ d, d ∉ p.finished → ∀ n, n ∈ L.parentMapChild d ↔ n ∈ tasks ∧ d ∈ deps n
  nodup : ∀ d, (L.parentMapChild d).Nodup

section Layer

variable {deps : ℕ → List ℕ} {tasks : List ℕ} {p : Progress ℕ} {L : DependancyLayer} {n : ℕ}

theorem layerOf_resolved (hnodup : tasks.Nodup) :
    LayerOf deps tasks (.initial ℕ) (.resolved tasks deps) where
  ongoing n := by simp [DependancyLayer.resolved, Progress.initial]
  free n := by
    rw [DependancyLayer.resolved, List.mem_filter, decide_eq_true_iff]
    constructor
    · rintro ⟨hmem, hdeps⟩
      exact ⟨hmem, List.not_mem_nil, List.not_mem_nil, fun d hd => by rw [hdeps] at hd; cases hd⟩
    · intro h
      exact ⟨h.mem, List.eq_nil_iff_forall_not_mem.mpr fun d hd => by cases h.deps d hd⟩
  parents n _ _ d := by simp [DependancyLayer.resolved, Progress.initial]
  children d _ n := by simp [DependancyLayer.resolved]
  nodup d := hnodup.filter _

theorem LayerOf.takeNode (h : LayerOf deps tasks p L) (hn : Ready deps tasks p n) :
    ∃ L', L.takeNode n = some L' ∧ LayerOf deps tasks (p.take n) L' := by
  have hfree : n ∈ L.dependancyFreeNodes := (h.free n).mpr hn
  have hongoing : n ∉ L.ongoingNodes := fun hmem => hn.not_ongoing ((h.ongoing n).mp hmem)
  refine ⟨_, by rw [DependancyLayer.takeNode, if_neg (not_not.mpr hfree), if_neg hongoing], ?_⟩
  refine ⟨fun m => ?_, fun m => ?_, h.parents, h.children, h.nodup⟩
  · simp [Progress.take, h.ongoing]
  · rw [ready_take, ← h.free, List.mem_filter, decide_eq_true_iff]

theorem LayerOf.pushBackNode (h : LayerOf deps tasks p L) (hp : Feasible deps tasks p)
    (hn : n ∈ p.ongoing) :
    ∃ L', L.pushBackNode n = some L' ∧ LayerOf deps tasks (p.putBack n) L' := by
  have hongoing : n ∈ L.ongoingNodes := (h.ongoing n).mpr hn
  refine ⟨_, by rw [DependancyLayer.pushBackNode, if_neg (not_not.mpr hongoing)], ?_⟩
  refine ⟨fun m => ?_, fun m => ?_, h.parents, h.children, h.nodup⟩
  · rw [Progress.putBack, hp.mem_erase_ongoing, List.mem_filter, decide_eq_true_iff, h.ongoing,
      and_comm]
  · rw [hp.ready_putBack hn, List.mem_insert_iff, h.free, or_comm]

/-- The loop over the children. -/
theorem foldlM_releaseChild (n : ℕ) {children : List ℕ} (hnodup : children.Nodup)
    (L : DependancyLayer) (hmem : ∀ c ∈ children, n ∈ L.childMapParent c) :
    ∃ L', children.foldlM (DependancyLayer.releaseChild n) L = some L' ∧
      L'.ongoingNodes = L.ongoingNodes ∧ L'.parentMapChild = L.parentMapChild ∧
      (∀ m, L'.childMapParent m = if m ∈ children then (L.childMapParent m).filter (· ≠ n)
        else L.childMapParent m) ∧
      ∀ m, m ∈ L'.dependancyFreeNodes ↔ m ∈ L.dependancyFreeNodes ∨
        (m ∈ children ∧ (L.childMapParent m).filter (· ≠ n) = []) := by
  induction children generalizing L with
  | nil => exact ⟨L, rfl, rfl, rfl, by simp, by simp⟩
  | cons c children ih =>
    obtain ⟨hc, hnodup⟩ := List.nodup_cons.mp hnodup
    obtain ⟨M, hM⟩ : ∃ M, DependancyLayer.releaseChild n L c = some M := by
      rw [DependancyLayer.releaseChild, if_neg (not_not.mpr (hmem c List.mem_cons_self))]
      exact ⟨_, rfl⟩
    have hrelease := hM
    rw [DependancyLayer.releaseChild, if_neg (not_not.mpr (hmem c List.mem_cons_self)),
      Option.some_inj] at hrelease
    -- the other children keep their parents
    have hother : ∀ m, m ≠ c → M.childMapParent m = L.childMapParent m := by
      intro m hm
      rw [← hrelease]
      exact Function.update_of_ne hm _ _
    have hself : M.childMapParent c = (L.childMapParent c).filter (· ≠ n) := by
      rw [← hrelease]
      exact Function.update_self _ _ _
    have hfree : ∀ m, m ∈ M.dependancyFreeNodes ↔ m ∈ L.dependancyFreeNodes ∨
        (m = c ∧ (L.childMapParent c).filter (· ≠ n) = []) := by
      intro m
      rw [← hrelease]
      dsimp only
      split
      · next hnil => simp only [List.mem_insert_iff, hnil, and_true, or_comm]
      · next hne => simp only [hne, and_false, or_false]
    obtain ⟨L', hL', hongoing, hchildren, hparents, hfree'⟩ := ih hnodup M fun m hm => by
      rw [hother m (fun heq => hc (heq ▸ hm))]
      exact hmem m (List.mem_cons_of_mem c hm)
    refine ⟨L', ?_, ?_, ?_, fun m => ?_, fun m => ?_⟩
    · rw [List.foldlM_cons, hM]
      exact hL'
    · rw [hongoing, ← hrelease]
    · rw [hchildren, ← hrelease]
    · rw [hparents]
      by_cases hm : m = c
      · subst hm
        rw [if_neg hc, if_pos List.mem_cons_self, hself]
      · simp [hm, hother m hm]
    · rw [hfree', hfree]
      by_cases hm : m = c
      · subst hm
        simp [hc]
      · simp [hm, hother m hm]

theorem LayerOf.finishNode (h : LayerOf deps tasks p L) (hp : Feasible deps tasks p)
    (hn : n ∈ p.ongoing) :
    ∃ L', L.finishNode n = some L' ∧ LayerOf deps tasks (p.finish n) L' := by
  have hnot : n ∉ p.finished := hp.not_finished n hn
  have hchildren := h.children n hnot
  -- a child has not started, since its parent has not finished
  have hchild : ∀ c ∈ L.parentMapChild n, c ∉ p.finished := by
    intro c hc hfin
    exact hnot (hp.deps c (.inr hfin) n ((hchildren c).mp hc).2)
  have hparent : ∀ c ∈ L.parentMapChild n, n ∈ L.childMapParent c := by
    intro c hc
    obtain ⟨hmem, hdep⟩ := (hchildren c).mp hc
    exact (h.parents c hmem (hchild c hc) n).mpr ⟨hdep, hnot⟩
  obtain ⟨M, hM, hongoing, hparentMap, hparents, hfree⟩ := foldlM_releaseChild n (h.nodup n)
    { L with ongoingNodes := L.ongoingNodes.filter (· ≠ n) } hparent
  refine ⟨_, by rw [DependancyLayer.finishNode, if_neg (not_not.mpr ((h.ongoing n).mpr hn)), hM,
    Option.map_some], ?_⟩
  have hfin : ∀ m, m ∉ (p.finish n).finished ↔ m ≠ n ∧ m ∉ p.finished := by
    intro m
    simp [Progress.finish]
  refine ⟨fun m => ?_, fun m => ?_, fun m hm hmfin d => ?_, fun d hd m => ?_, fun d => ?_⟩
  · dsimp only
    rw [hongoing, Progress.finish, hp.mem_erase_ongoing, List.mem_filter, decide_eq_true_iff,
      h.ongoing, and_comm]
  · dsimp only
    rw [hp.ready_finish hn, hfree, h.free]
    apply or_congr_right
    constructor
    · rintro ⟨hc, hnil⟩
      obtain ⟨hmem, hdep⟩ := (hchildren m).mp hc
      refine ⟨hmem, hdep, fun d hd hdn => ?_⟩
      by_contra hdfin
      have hdmem : d ∈ (L.childMapParent m).filter (· ≠ n) :=
        List.mem_filter.mpr ⟨(h.parents m hmem (hchild m hc) d).mpr ⟨hd, hdfin⟩, by simpa using hdn⟩
      rw [hnil] at hdmem
      cases hdmem
    · rintro ⟨hmem, hdep, hdeps⟩
      have hc : m ∈ L.parentMapChild n := (hchildren m).mpr ⟨hmem, hdep⟩
      refine ⟨hc, List.eq_nil_iff_forall_not_mem.mpr fun d hd => ?_⟩
      obtain ⟨hd, hdn⟩ := List.mem_filter.mp hd
      obtain ⟨hd, hdfin⟩ := (h.parents m hmem (hchild m hc) d).mp hd
      exact hdfin (hdeps d hd (by simpa using hdn))
  · obtain ⟨hmn, hmfin⟩ := (hfin m).mp hmfin
    dsimp only
    rw [Function.update_of_ne hmn, hparents, hfin]
    split
    · rw [List.mem_filter, decide_eq_true_iff, h.parents m hm hmfin]
      tauto
    · next hc =>
      rw [h.parents m hm hmfin]
      have hdn : d ∈ deps m → d ≠ n := by
        rintro hd rfl
        exact hc ((hchildren m).mpr ⟨hm, hd⟩)
      tauto
  · obtain ⟨hdn, hdfin⟩ := (hfin d).mp hd
    dsimp only
    rw [Function.update_of_ne hdn, hparentMap]
    exact h.children d hdfin m
  · dsimp only
    by_cases hd : d = n
    · rw [hd, Function.update_self]
      exact List.nodup_nil
    · rw [Function.update_of_ne hd, hparentMap]
      exact h.nodup d

end Layer

/-- `DependancyResolver`. -/
structure DependancyResolver where
  dataDependancy : DependancyLayer
  ctrlDependancy : DependancyLayer
  enabledDependancy : DependancyLayer

namespace DependancyResolver

/-- The resolver that `ETFeeder` builds for a trace. -/
def ofTrace (T : Trace) : DependancyResolver where
  dataDependancy := .resolved T.ids T.dataDeps
  ctrlDependancy := .resolved T.ids T.ctrlDeps
  enabledDependancy := .resolved T.ids T.enabledDeps

/-- The same step in the three layers, one after the other. -/
def step (R : DependancyResolver) (f : DependancyLayer → Option DependancyLayer) :
    Option DependancyResolver := do
  let dataDependancy ← f R.dataDependancy
  let ctrlDependancy ← f R.ctrlDependancy
  let enabledDependancy ← f R.enabledDependancy
  return ⟨dataDependancy, ctrlDependancy, enabledDependancy⟩

def takeNode (R : DependancyResolver) (n : ℕ) : Option DependancyResolver :=
  R.step fun L => L.takeNode n

def pushBackNode (R : DependancyResolver) (n : ℕ) : Option DependancyResolver :=
  R.step fun L => L.pushBackNode n

def finishNode (R : DependancyResolver) (n : ℕ) : Option DependancyResolver :=
  R.step fun L => L.finishNode n

def dependancyFreeNodes (R : DependancyResolver) : List ℕ :=
  R.enabledDependancy.dependancyFreeNodes

end DependancyResolver

/-- The resolver keeps the tasks of a trace, whose dependencies are those of both kinds. -/
structure ResolverOf (T : Trace) (p : Progress ℕ) (R : DependancyResolver) : Prop where
  feasible : Feasible T.enabledDeps T.ids p
  data : LayerOf T.dataDeps T.ids p R.dataDependancy
  ctrl : LayerOf T.ctrlDeps T.ids p R.ctrlDependancy
  enabled : LayerOf T.enabledDeps T.ids p R.enabledDependancy

section Resolver

variable {T : Trace} {p : Progress ℕ} {R : DependancyResolver} {n : ℕ}

theorem resolverOf_ofTrace (T : Trace) : ResolverOf T (.initial ℕ) (.ofTrace T) where
  feasible := feasible_initial
  data := layerOf_resolved T.nodup
  ctrl := layerOf_resolved T.nodup
  enabled := layerOf_resolved T.nodup

theorem ResolverOf.free (h : ResolverOf T p R) (n : ℕ) :
    n ∈ R.dependancyFreeNodes ↔ Ready T.enabledDeps T.ids p n :=
  h.enabled.free n

theorem DependancyResolver.step_eq {f : DependancyLayer → Option DependancyLayer}
    {A B C : DependancyLayer} (hA : f R.dataDependancy = some A) (hB : f R.ctrlDependancy = some B)
    (hC : f R.enabledDependancy = some C) : R.step f = some ⟨A, B, C⟩ := by
  rw [DependancyResolver.step, hA, hB, hC]
  rfl

/-- A node that is free for all dependencies is free in the other two layers. -/
theorem ResolverOf.takeNode (h : ResolverOf T p R) (hn : Ready T.enabledDeps T.ids p n) :
    ∃ R', R.takeNode n = some R' ∧ ResolverOf T (p.take n) R' := by
  obtain ⟨A, hA, hdata⟩ := h.data.takeNode (hn.mono (T.dataDeps_subset n))
  obtain ⟨B, hB, hctrl⟩ := h.ctrl.takeNode (hn.mono (T.ctrlDeps_subset n))
  obtain ⟨C, hC, henabled⟩ := h.enabled.takeNode hn
  exact ⟨_, DependancyResolver.step_eq hA hB hC, h.feasible.take hn, hdata, hctrl, henabled⟩

theorem ResolverOf.pushBackNode (h : ResolverOf T p R) (hn : n ∈ p.ongoing) :
    ∃ R', R.pushBackNode n = some R' ∧ ResolverOf T (p.putBack n) R' := by
  obtain ⟨A, hA, hdata⟩ := h.data.pushBackNode (h.feasible.mono T.dataDeps_subset) hn
  obtain ⟨B, hB, hctrl⟩ := h.ctrl.pushBackNode (h.feasible.mono T.ctrlDeps_subset) hn
  obtain ⟨C, hC, henabled⟩ := h.enabled.pushBackNode h.feasible hn
  exact ⟨_, DependancyResolver.step_eq hA hB hC, h.feasible.putBack, hdata, hctrl, henabled⟩

theorem ResolverOf.finishNode (h : ResolverOf T p R) (hn : n ∈ p.ongoing) :
    ∃ R', R.finishNode n = some R' ∧ ResolverOf T (p.finish n) R' := by
  obtain ⟨A, hA, hdata⟩ := h.data.finishNode (h.feasible.mono T.dataDeps_subset) hn
  obtain ⟨B, hB, hctrl⟩ := h.ctrl.finishNode (h.feasible.mono T.ctrlDeps_subset) hn
  obtain ⟨C, hC, henabled⟩ := h.enabled.finishNode h.feasible hn
  exact ⟨_, DependancyResolver.step_eq hA hB hC, h.feasible.finish hn, hdata, hctrl, henabled⟩

end Resolver

/-! ## Hardware -/

/-- `HardwareResource`: the operations in flight of each kind. -/
structure HardwareResource where
  numInFlightCpuOps : ℕ
  numInFlightGpuCommOps : ℕ
  numInFlightGpuCompOps : ℕ
  deriving DecidableEq, Repr

namespace HardwareResource

def idle : HardwareResource := ⟨0, 0, 0⟩

/-- `HardwareResource::occupy`; the assertions fail when the kind is in use. -/
def occupy (h : HardwareResource) (node : Node) : Option HardwareResource :=
  if node.isCpuOp then
    if h.numInFlightCpuOps = 0 then
      some { h with numInFlightCpuOps := h.numInFlightCpuOps + 1 }
    else none
  else if node.type = .comp then
    if h.numInFlightGpuCompOps = 0 then
      some { h with numInFlightGpuCompOps := h.numInFlightGpuCompOps + 1 }
    else none
  else if node.type = .commRecv then some h
  else if h.numInFlightGpuCommOps = 0 then
    some { h with numInFlightGpuCommOps := h.numInFlightGpuCommOps + 1 }
  else none

/-- `HardwareResource::release`; the assertions fail when the kind has not exactly one operation. -/
def release (h : HardwareResource) (node : Node) : Option HardwareResource :=
  if node.isCpuOp then
    if h.numInFlightCpuOps = 1 then some { h with numInFlightCpuOps := 0 } else none
  else if node.type = .comp then
    if h.numInFlightGpuCompOps = 1 then some { h with numInFlightGpuCompOps := 0 } else none
  else if node.type = .commRecv then some h
  else if h.numInFlightGpuCommOps = 1 then some { h with numInFlightGpuCommOps := 0 } else none

/-- `HardwareResource::is_available`: a receive is always available. -/
def isAvailable (h : HardwareResource) (node : Node) : Bool :=
  if node.isCpuOp then h.numInFlightCpuOps = 0
  else if node.type = .comp then h.numInFlightGpuCompOps = 0
  else if h.numInFlightGpuCommOps = 0 then true
  else node.type = .commRecv

end HardwareResource

/-- The kinds of operations of which one can be in flight. -/
inductive HardwareUnit where
  | cpu
  | gpuComm
  | gpuComp
  deriving DecidableEq, Repr

/-- The kind of a node. -/
def Node.unit (node : Node) : Option HardwareUnit :=
  if node.isCpuOp then some .cpu
  else if node.type = .comp then some .gpuComp
  else if node.type = .commRecv then none
  else some .gpuComm

def HardwareResource.inFlight (h : HardwareResource) : HardwareUnit → ℕ
  | .cpu => h.numInFlightCpuOps
  | .gpuComm => h.numInFlightGpuCommOps
  | .gpuComp => h.numInFlightGpuCompOps

/-- The kind of a node of a trace. -/
def Trace.unitOf (T : Trace) (n : ℕ) : Option HardwareUnit :=
  (T.lookupNode n).bind Node.unit

/-- Each counter counts the taken nodes of its kind, of which there is at most one. -/
structure HardwareOf (T : Trace) (ongoing : List ℕ) (h : HardwareResource) : Prop where
  eq : ∀ u, h.inFlight u = ongoing.countP fun n => T.unitOf n = some u
  le_one : ∀ u, h.inFlight u ≤ 1

section Hardware

variable {T : Trace} {ongoing : List ℕ} {h : HardwareResource} {node : Node} {n : ℕ}

/-- The four kinds of nodes, in the order in which the code asks for them. -/
theorem unit_cases (node : Node) :
    (node.isCpuOp = true ∧ node.unit = some .cpu) ∨
    (node.isCpuOp = false ∧ node.type = .comp ∧ node.unit = some .gpuComp) ∨
    (node.isCpuOp = false ∧ node.type = .commRecv ∧ node.unit = none) ∨
    (node.isCpuOp = false ∧ node.type ≠ .comp ∧ node.type ≠ .commRecv ∧
      node.unit = some .gpuComm) := by
  cases hcpu : node.isCpuOp with
  | true => simp [Node.unit, hcpu]
  | false =>
    by_cases hcomp : node.type = .comp
    · simp [Node.unit, hcpu, hcomp]
    · by_cases hrecv : node.type = .commRecv
      · simp [Node.unit, hcpu, hrecv]
      · simp [Node.unit, hcpu, hcomp, hrecv]

theorem isAvailable_iff : h.isAvailable node = true ↔ ∀ u, node.unit = some u → h.inFlight u = 0 := by
  rcases unit_cases node with ⟨hcpu, hu⟩ | ⟨hcpu, hcomp, hu⟩ | ⟨hcpu, hrecv, hu⟩ |
    ⟨hcpu, hcomp, hrecv, hu⟩
  · simp [HardwareResource.isAvailable, HardwareResource.inFlight, hcpu, hu]
  · simp [HardwareResource.isAvailable, HardwareResource.inFlight, hcpu, hcomp, hu]
  · simp [HardwareResource.isAvailable, hcpu, hrecv, hu]
  · simp [HardwareResource.isAvailable, HardwareResource.inFlight, hcpu, hcomp, hrecv, hu]

theorem occupy_eq (hunit : ∀ u, node.unit = some u → h.inFlight u = 0) :
    ∃ h', h.occupy node = some h' ∧
      ∀ u, h'.inFlight u = h.inFlight u + if node.unit = some u then 1 else 0 := by
  rcases unit_cases node with ⟨hcpu, hu⟩ | ⟨hcpu, hcomp, hu⟩ | ⟨hcpu, hrecv, hu⟩ |
    ⟨hcpu, hcomp, hrecv, hu⟩
  · have hzero : h.numInFlightCpuOps = 0 := hunit _ hu
    refine ⟨_, by rw [HardwareResource.occupy, if_pos hcpu, if_pos hzero], fun u => ?_⟩
    cases u <;> simp [HardwareResource.inFlight, hu]
  · have hzero : h.numInFlightGpuCompOps = 0 := hunit _ hu
    refine ⟨_, by rw [HardwareResource.occupy, if_neg (by simp [hcpu]), if_pos hcomp,
      if_pos hzero], fun u => ?_⟩
    cases u <;> simp [HardwareResource.inFlight, hu]
  · refine ⟨h, by simp [HardwareResource.occupy, hcpu, hrecv], fun u => ?_⟩
    simp [hu]
  · have hzero : h.numInFlightGpuCommOps = 0 := hunit _ hu
    refine ⟨_, by rw [HardwareResource.occupy, if_neg (by simp [hcpu]), if_neg hcomp,
      if_neg hrecv, if_pos hzero], fun u => ?_⟩
    cases u <;> simp [HardwareResource.inFlight, hu]

theorem release_eq (hunit : ∀ u, node.unit = some u → h.inFlight u = 1) :
    ∃ h', h.release node = some h' ∧
      ∀ u, h'.inFlight u + (if node.unit = some u then 1 else 0) = h.inFlight u := by
  rcases unit_cases node with ⟨hcpu, hu⟩ | ⟨hcpu, hcomp, hu⟩ | ⟨hcpu, hrecv, hu⟩ |
    ⟨hcpu, hcomp, hrecv, hu⟩
  · have hone : h.numInFlightCpuOps = 1 := hunit _ hu
    refine ⟨_, by rw [HardwareResource.release, if_pos hcpu, if_pos hone], fun u => ?_⟩
    cases u <;> simp [HardwareResource.inFlight, hu, hone]
  · have hone : h.numInFlightGpuCompOps = 1 := hunit _ hu
    refine ⟨_, by rw [HardwareResource.release, if_neg (by simp [hcpu]), if_pos hcomp,
      if_pos hone], fun u => ?_⟩
    cases u <;> simp [HardwareResource.inFlight, hu, hone]
  · refine ⟨h, by simp [HardwareResource.release, hcpu, hrecv], fun u => ?_⟩
    simp [hu]
  · have hone : h.numInFlightGpuCommOps = 1 := hunit _ hu
    refine ⟨_, by rw [HardwareResource.release, if_neg (by simp [hcpu]), if_neg hcomp,
      if_neg hrecv, if_pos hone], fun u => ?_⟩
    cases u <;> simp [HardwareResource.inFlight, hu, hone]

theorem hardwareOf_idle (T : Trace) : HardwareOf T [] .idle :=
  ⟨fun u => by cases u <;> rfl, fun u => by cases u <;> exact Nat.zero_le 1⟩

theorem unitOf_eq (hn : T.lookupNode n = some node) : T.unitOf n = node.unit := by
  rw [Trace.unitOf, hn]
  rfl

/-- An available node can be occupied. -/
theorem HardwareOf.occupy (ho : HardwareOf T ongoing h) (hn : T.lookupNode n = some node)
    (hav : h.isAvailable node = true) :
    ∃ h', h.occupy node = some h' ∧ HardwareOf T (n :: ongoing) h' := by
  have hzero := isAvailable_iff.mp hav
  obtain ⟨h', hocc, hcount⟩ := occupy_eq hzero
  refine ⟨h', hocc, fun u => ?_, fun u => ?_⟩
  · rw [hcount, ho.eq, List.countP_cons, unitOf_eq hn]
    simp only [decide_eq_true_eq]
  · rw [hcount]
    split
    · next hu =>
      have hz := hzero u hu
      omega
    · exact ho.le_one u

/-- A taken node can be released. -/
theorem HardwareOf.release (ho : HardwareOf T ongoing h) (hn : T.lookupNode n = some node)
    (hmem : n ∈ ongoing) :
    ∃ h', h.release node = some h' ∧ HardwareOf T (ongoing.erase n) h' := by
  have hperm := List.perm_cons_erase hmem
  have hsplit : ∀ u, h.inFlight u = (ongoing.erase n).countP (fun m => T.unitOf m = some u) +
      if node.unit = some u then 1 else 0 := by
    intro u
    rw [ho.eq, hperm.countP_eq, List.countP_cons, unitOf_eq hn]
    simp only [decide_eq_true_eq]
  obtain ⟨h', hrel, hcount⟩ := @release_eq h node fun u hu => by
    have hle := ho.le_one u
    have heq := hsplit u
    rw [if_pos hu] at heq
    omega
  refine ⟨h', hrel, fun u => ?_, fun u => ?_⟩
  · have heq := hsplit u
    have heq' := hcount u
    omega
  · have hle := ho.le_one u
    have heq := hcount u
    omega

/-- A node that is taken is not available, unless it is a receive. -/
theorem HardwareOf.not_isAvailable (ho : HardwareOf T ongoing h) (hn : T.lookupNode n = some node)
    (hmem : n ∈ ongoing) (hunit : node.unit ≠ none) : h.isAvailable node = false := by
  obtain ⟨u, hu⟩ := Option.ne_none_iff_exists'.mp hunit
  rw [Bool.eq_false_iff]
  intro hav
  have hzero := isAvailable_iff.mp hav u hu
  rw [ho.eq, List.countP_eq_zero] at hzero
  exact hzero n hmem (by simpa using (unitOf_eq hn).trans hu)

end Hardware

end Opus.Simulation
