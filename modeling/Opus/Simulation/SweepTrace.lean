import Mathlib.Data.Prod.Lex
import Mathlib.Logic.Relation
import Opus.Simulation.SweepWorkload

/-!
# The trace of a rank

All ranks of a stage write the same nodes under the same ids, and only what the nodes do depends on
the rank. A trace is written as a chain: the next node depends on the last one, and a microbatch
also on a receive. What a node depends on is never of a later microbatch of its phase.

## Main definitions

* `NodeName.slot`: the phase of a node and the turn of its microbatch
* `Generator.opOf`: what a node does, from its name
* `Alike`: two files with the same nodes up to what they do
* `Sound`, `Writing`: the invariants of a file, and of one whose chain is being written
* `Generator.stageTransfers`: the names of the transfers of a stage

## Main results

* `map_plan_rankTrace`: the ranks of a stage write the same nodes
* `Sound.put`: a node is written
* `Writing.writeForwardLayer`, `Writing.writeBackwardLayer`: a layer keeps the invariant
* `Writing.forwardPhase`, `Writing.backwardPhase`: so do the loops over the microbatches
* `sound_rankTrace`: a trace is sound, and has the transfers of its stage
-/

namespace Opus.Simulation

open Relation

/-! ## Names -/

/-- The node belongs to the backward phase. -/
def Part.backward : Part → Bool
  | .dpAgAttn | .attnFwd | .tpArFwd | .routerFwd | .epDispatchFwd | .expertFwd | .epCombineFwd
  | .ppRecv .activation | .ppSend .activation => false
  | .epCombineBwd | .expertBwd | .epDispatchBwd | .topoSwitchToDp | .routerBwd | .attnBwd | .tpArBwd
  | .dpRsAttn | .dpRsExpert | .dpAgExpert | .ppRecv .grad | .ppSend .grad => true

def Part.isTransfer : Part → Bool
  | .ppRecv _ | .ppSend _ => true
  | _ => false

/-- The phase of a node and the turn of its microbatch in the phase. -/
def NodeName.slot (mbs : ℕ) (name : NodeName) : ℕ ×ₗ ℕ :=
  if name.part.backward then toLex (1, mbs - 1 - name.mb) else toLex (0, name.mb)

/-- The rank that a transfer comes from. -/
def Transfer.src (t : Transfer) (rps rank : ℕ) : ℕ :=
  match t with
  | .activation => rank - rps
  | .grad => rank + rps

/-- The rank that a transfer goes to. -/
def Transfer.dst (t : Transfer) (rps rank : ℕ) : ℕ :=
  match t with
  | .activation => rank + rps
  | .grad => rank - rps

/-- What the node of a name does. -/
def Generator.opOf (G : Generator) (g : RankGroups) (rank : ℕ) (name : NodeName) : SweepOp :=
  let allToAll :=
    if G.epSize = 1 then SweepOp.comp 0 none
    else
      .coll .allToAll g.epGroup (G.epCommSize g.epGroup) G.epDim (G.all2allvLoadKey g.epGroup)
  match name.part with
  | .dpAgAttn => .coll .allGather g.dpGroup G.shape.attnGradSize none none
  | .attnFwd => .comp G.shape.attnComputeUs none
  | .tpArFwd | .tpArBwd => .coll .allReduce g.tpGroup G.shape.commSize none none
  | .routerFwd | .routerBwd => .comp G.shape.routerComputeUs none
  | .epDispatchFwd | .epCombineFwd | .epCombineBwd | .epDispatchBwd => allToAll
  | .expertFwd => .comp G.shape.expertComputeUs none
  | .expertBwd => .comp (2 * G.shape.expertComputeUs) none
  | .topoSwitchToDp => .comp 0 G.reconfigForDp
  | .attnBwd => .comp (2 * G.shape.attnComputeUs) none
  | .dpRsAttn => .coll .reduceScatter g.dpGroup G.shape.attnGradSize none none
  | .dpRsExpert => .coll .reduceScatter g.dpGroup G.shape.expertGradSize none none
  | .dpAgExpert => .coll .allGather g.dpGroup G.shape.expertGradSize none none
  | .ppRecv t =>
    .recv (t.src G.shape.rps rank) rank G.shape.commSize
      (G.tag t name.mb (t.src G.shape.rps rank))
  | .ppSend t =>
    .send rank (t.dst G.shape.rps rank) G.shape.commSize (G.tag t name.mb rank)

/-! ## Ranks of one stage -/

/-- A node without what it does. -/
def SweepNode.plan (n : SweepNode) : ℕ × NodeName × List ℕ := (n.id, n.name, n.dataDeps)

/-- Two files with the same nodes up to what they do. -/
structure Alike (c c' : Cursor) : Prop where
  plan : c.nodes.map SweepNode.plan = c'.nodes.map SweepNode.plan
  nextId : c.nextId = c'.nextId
  deps : c.deps = c'.deps

section Alike

variable {G : Generator} {g g' : RankGroups} {c c' : Cursor} {mb layer rank rank' : ℕ}

theorem Alike.put (h : Alike c c') (name : NodeName) (op op' : SweepOp) (deps : List ℕ) :
    Alike (c.put name op deps) (c'.put name op' deps) where
  plan := by
    simp only [Cursor.put, List.map_append, List.map_cons, List.map_nil, SweepNode.plan, h.nextId]
    exact congrArg (· ++ _) h.plan
  nextId := congrArg (· + 1) h.nextId
  deps := h.deps

theorem Alike.write (h : Alike c c') (name : NodeName) (op op' : SweepOp) :
    Alike (c.write name op) (c'.write name op') where
  plan := by
    have hput := h.put name op op' c.deps
    simp only [Cursor.write, ← h.deps]
    exact hput.plan
  nextId := congrArg (· + 1) h.nextId
  deps := congrArg (fun n => [n]) h.nextId

theorem Alike.withDeps (h : Alike c c') (deps : List ℕ) :
    Alike (c.withDeps deps) (c'.withDeps deps) :=
  ⟨h.plan, h.nextId, rfl⟩

theorem Alike.epAllToAll (h : Alike c c') (name : NodeName) :
    Alike (G.epAllToAll g name c) (G.epAllToAll g' name c') := by
  unfold Generator.epAllToAll
  split
  · exact h.write ..
  · exact h.write ..

theorem Alike.writeForwardLayer (h : Alike c c') (mb layer : ℕ) :
    Alike (G.writeForwardLayer g mb c layer) (G.writeForwardLayer g' mb c' layer) := by
  apply Alike.epAllToAll
  apply Alike.write
  apply Alike.epAllToAll
  apply Alike.write
  apply Alike.write
  apply Alike.write
  exact h.write ..

/-- The ids that a node depends on besides the chain. -/
theorem Alike.withDeps_cons (h : Alike c c') {d d' : ℕ} (hd : d = d') :
    Alike (c.withDeps (d :: c.deps)) (c'.withDeps (d' :: c'.deps)) := by
  rw [← h.deps, ← hd]
  exact h.withDeps _

theorem Alike.writeBackwardLayer (h : Alike c c') (mb layer : ℕ) :
    Alike (G.writeBackwardLayer g mb c layer) (G.writeBackwardLayer g' mb c' layer) := by
  have hep : Alike
      (G.epAllToAll g ⟨mb, layer, .epDispatchBwd⟩ ((G.epAllToAll g ⟨mb, layer, .epCombineBwd⟩
        c).write ⟨mb, layer, .expertBwd⟩ (.comp (2 * G.shape.expertComputeUs) none)))
      (G.epAllToAll g' ⟨mb, layer, .epDispatchBwd⟩ ((G.epAllToAll g' ⟨mb, layer, .epCombineBwd⟩
        c').write ⟨mb, layer, .expertBwd⟩ (.comp (2 * G.shape.expertComputeUs) none))) := by
    apply Alike.epAllToAll
    apply Alike.write
    exact h.epAllToAll _
  apply Alike.write
  apply Alike.write
  apply Alike.write
  -- the switch of the topology is what the first collective depends on besides the chain
  apply Alike.withDeps_cons _ hep.nextId
  apply Alike.write
  apply Alike.write
  apply Alike.write
  rw [← hep.deps]
  exact hep.put ..

theorem Alike.foldl {α : Type*} {f f' : Cursor → α → Cursor}
    (hstep : ∀ c c' a, Alike c c' → Alike (f c a) (f' c' a)) (h : Alike c c') (l : List α) :
    Alike (l.foldl f c) (l.foldl f' c') := by
  induction l generalizing c c' with
  | nil => exact h
  | cons a l ih => exact ih (hstep c c' a h)

theorem Alike.writeForwardStack (h : Alike c c') (mb : ℕ) (localLayers : List ℕ) :
    Alike (G.writeForwardStack g mb localLayers c) (G.writeForwardStack g' mb localLayers c') :=
  Alike.foldl (fun _ _ layer h => h.writeForwardLayer mb layer) h localLayers

theorem Alike.writeBackwardStack (h : Alike c c') (mb : ℕ) (localLayers : List ℕ) :
    Alike (G.writeBackwardStack g mb localLayers c) (G.writeBackwardStack g' mb localLayers c') :=
  Alike.foldl (fun _ _ layer h => h.writeBackwardLayer mb layer) h localLayers.reverse

/-- Two files alike, with the same ids kept for later. -/
structure AlikeWith {β : Type} (s s' : Cursor × β) : Prop where
  alike : Alike s.1 s'.1
  eq : s.2 = s'.2

theorem AlikeWith.foldl {α β : Type} {f f' : Cursor × β → α → Cursor × β} {s s' : Cursor × β}
    (hstep : ∀ s s' a, AlikeWith s s' → AlikeWith (f s a) (f' s' a)) (h : AlikeWith s s')
    (l : List α) : AlikeWith (l.foldl f s) (l.foldl f' s') := by
  induction l generalizing s s' with
  | nil => exact h
  | cons a l ih => exact ih (hstep s s' a h)

theorem Alike.writeRecvs (h : Alike c c') (t : Transfer) (src src' : ℕ) :
    AlikeWith (G.writeRecvs t src rank c) (G.writeRecvs t src' rank' c') := by
  unfold Generator.writeRecvs
  apply AlikeWith.foldl
  · intro s s' mb hs
    exact ⟨hs.alike.put .., by rw [hs.eq, hs.alike.nextId]⟩
  · exact ⟨h, rfl⟩

theorem Alike.recvPhase (h : Alike c c') (t : Transfer) (stage : ℕ) :
    AlikeWith (G.recvPhase t rank stage c) (G.recvPhase t rank' stage c') := by
  cases t with
  | activation =>
    unfold Generator.recvPhase
    dsimp only
    split
    · exact h.writeRecvs ..
    · exact ⟨h, rfl⟩
  | grad =>
    unfold Generator.recvPhase
    dsimp only
    split
    · exact h.writeRecvs ..
    · exact ⟨h, rfl⟩

theorem AlikeWith.writeForwardPass {s s' : Cursor × (ℕ → List ℕ)} {stage : ℕ}
    {localLayers : List ℕ} {recvs : ℕ → ℕ} (h : AlikeWith s s') (mb : ℕ) :
    AlikeWith (G.writeForwardPass g rank stage localLayers recvs s mb)
      (G.writeForwardPass g' rank' stage localLayers recvs s' mb) := by
  have hstack : Alike
      (G.writeForwardStack g mb localLayers
        (if 0 < stage then s.1.withDeps (recvs mb :: s.1.deps) else s.1))
      (G.writeForwardStack g' mb localLayers
        (if 0 < stage then s'.1.withDeps (recvs mb :: s'.1.deps) else s'.1)) := by
    apply Alike.writeForwardStack
    split
    · exact h.alike.withDeps_cons rfl
    · exact h.alike
  have hend : Alike (G.writeForwardPass g rank stage localLayers recvs s mb).1
      (G.writeForwardPass g' rank' stage localLayers recvs s' mb).1 := by
    unfold Generator.writeForwardPass
    dsimp only
    split
    · exact hstack.write ..
    · exact hstack
  refine ⟨hend, ?_⟩
  show Function.update s.2 mb _ = Function.update s'.2 mb _
  rw [h.eq]
  exact congrArg _ hend.deps

theorem Alike.writeBackwardPass {stage : ℕ} {localLayers : List ℕ} {fwdDone : ℕ → List ℕ}
    {recvs : ℕ → ℕ} (h : Alike c c') (mb : ℕ) :
    Alike (G.writeBackwardPass g rank stage localLayers fwdDone recvs c mb)
      (G.writeBackwardPass g' rank' stage localLayers fwdDone recvs c' mb) := by
  have hdone : Alike (c.withDeps (fwdDone mb ++ c.deps)) (c'.withDeps (fwdDone mb ++ c'.deps)) := by
    rw [← h.deps]
    exact h.withDeps _
  unfold Generator.writeBackwardPass
  dsimp only
  obtain ⟨d, hd⟩ : ∃ d, d = c.withDeps (fwdDone mb ++ c.deps) := ⟨_, rfl⟩
  obtain ⟨d', hd'⟩ : ∃ d', d' = c'.withDeps (fwdDone mb ++ c'.deps) := ⟨_, rfl⟩
  rw [← hd, ← hd'] at hdone ⊢
  have hstack : Alike
      (G.writeBackwardStack g mb localLayers
        (if stage + 1 < G.shape.pp then d.withDeps (recvs mb :: d.deps) else d))
      (G.writeBackwardStack g' mb localLayers
        (if stage + 1 < G.shape.pp then d'.withDeps (recvs mb :: d'.deps) else d')) := by
    apply Alike.writeBackwardStack
    split
    · exact hdone.withDeps_cons rfl
    · exact hdone
  split
  · exact hstack.write ..
  · exact hstack

/-- **The ranks of a stage write the same nodes.** -/
theorem map_plan_rankTrace (epGroup epGroup' : ℕ)
    (hstage : rank / G.shape.rps = rank' / G.shape.rps) :
    (G.rankTrace epGroup rank).map SweepNode.plan =
      (G.rankTrace epGroup' rank').map SweepNode.plan := by
  unfold Generator.rankTrace
  rw [← hstage]
  obtain ⟨stage, he⟩ : ∃ e, e = rank / G.shape.rps := ⟨_, rfl⟩
  rw [← he]
  dsimp only
  have hstart : Alike .start .start := ⟨rfl, rfl, rfl⟩
  have hrecvs := @Alike.recvPhase G _ _ rank rank' hstart .activation stage
  have hfwd : AlikeWith
      (G.forwardPhase (G.rankGroups epGroup rank) rank stage
        (List.range' (stage * G.shape.layersPerStage) G.shape.layersPerStage)
        (G.recvPhase .activation rank stage .start))
      (G.forwardPhase (G.rankGroups epGroup' rank') rank' stage
        (List.range' (stage * G.shape.layersPerStage) G.shape.layersPerStage)
        (G.recvPhase .activation rank' stage .start)) := by
    unfold Generator.forwardPhase
    rw [← hrecvs.eq]
    apply AlikeWith.foldl
    · intro s s' mb hs
      exact hs.writeForwardPass mb
    · exact ⟨hrecvs.alike, rfl⟩
  have hgrads := @Alike.recvPhase G _ _ rank rank' hfwd.alike .grad stage
  unfold Generator.backwardPhase
  rw [← hfwd.eq, ← hgrads.eq]
  apply Alike.plan
  apply Alike.foldl _ (hgrads.alike.withDeps [])
  intro c c' mb hc
  exact hc.writeBackwardPass mb

end Alike

/-! ## The trace of a rank -/

/-- The node `a` depends on the node `b` at once. -/
def DependsOn (nodes : List SweepNode) (a b : ℕ) : Prop :=
  ∃ n ∈ nodes, n.id = a ∧ b ∈ n.dataDeps

def SweepNode.isColl (n : SweepNode) : Prop :=
  ∃ type pg size dim key, n.op = .coll type pg size dim key

/-- The id of a node that is no later than the slot. -/
def Available (mbs : ℕ) (nodes : List SweepNode) (slot : ℕ ×ₗ ℕ) (d : ℕ) : Prop :=
  ∃ m ∈ nodes, m.id = d ∧ m.name.slot mbs ≤ slot

/-- All collectives are behind the ids. -/
def Covers (nodes : List SweepNode) (deps : List ℕ) : Prop :=
  ∀ m ∈ nodes, m.isColl → ∃ d ∈ deps, ReflTransGen (DependsOn nodes) d m.id

/-- The names of the transfers of a file, in their order. -/
def transferNames (nodes : List SweepNode) : List NodeName :=
  (nodes.map SweepNode.name).filter fun name => name.part.isTransfer

/-- The invariant of a file: ids count the nodes, names say what the nodes do, dependencies are
earlier nodes that are not of a later slot, receives have none, and every collective depends on all
collectives before it. -/
structure Sound (G : Generator) (g : RankGroups) (rank : ℕ) (c : Cursor) : Prop where
  ids : c.nodes.map SweepNode.id = List.range' 1 c.nodes.length
  nextId : c.nextId = c.nodes.length + 1
  op : ∀ n ∈ c.nodes, n.op = G.opOf g rank n.name
  deps : ∀ n ∈ c.nodes, ∀ d ∈ n.dataDeps,
    d < n.id ∧ Available G.shape.microbatches c.nodes (n.name.slot G.shape.microbatches) d
  recv : ∀ n ∈ c.nodes, ∀ t, n.name.part = .ppRecv t → n.dataDeps = []
  chain : ∀ m ∈ c.nodes, ∀ n ∈ c.nodes, m.isColl → n.isColl → m.id < n.id →
    TransGen (DependsOn c.nodes) n.id m.id

section Sound

variable {G : Generator} {g : RankGroups} {rank : ℕ} {c : Cursor} {nodes more : List SweepNode}
  {name : NodeName} {op : SweepOp} {deps : List ℕ} {slot slot' : ℕ ×ₗ ℕ} {mbs d : ℕ}

theorem DependsOn.append {a b : ℕ} (h : DependsOn nodes a b) (more : List SweepNode) :
    DependsOn (nodes ++ more) a b := by
  obtain ⟨n, hn, hid, hb⟩ := h
  exact ⟨n, List.mem_append_left _ hn, hid, hb⟩

theorem Available.mono (h : Available mbs nodes slot d) (hle : slot ≤ slot')
    (more : List SweepNode) : Available mbs (nodes ++ more) slot' d := by
  obtain ⟨m, hm, hid, hslot⟩ := h
  exact ⟨m, List.mem_append_left _ hm, hid, hslot.trans hle⟩

theorem Available.le (h : Available mbs nodes slot d) (hle : slot ≤ slot') :
    Available mbs nodes slot' d := by
  obtain ⟨m, hm, hid, hslot⟩ := h
  exact ⟨m, hm, hid, hslot.trans hle⟩

theorem Covers.mono {deps' : List ℕ} (h : Covers nodes deps) (hsub : ∀ d ∈ deps, d ∈ deps') :
    Covers nodes deps' := by
  intro m hm hcoll
  obtain ⟨d, hd, hpath⟩ := h m hm hcoll
  exact ⟨d, hsub d hd, hpath⟩

theorem path_append {a b : ℕ} (h : ReflTransGen (DependsOn nodes) a b) (more : List SweepNode) :
    ReflTransGen (DependsOn (nodes ++ more)) a b :=
  ReflTransGen.mono (fun _ _ hab => DependsOn.append hab more) a b h

theorem sound_start : Sound G g rank .start where
  ids := rfl
  nextId := rfl
  op _ h := absurd h List.not_mem_nil
  deps _ h := absurd h List.not_mem_nil
  recv _ h := absurd h List.not_mem_nil
  chain _ h := absurd h List.not_mem_nil

/-- The ids of the nodes are below the next one. -/
theorem Sound.id_lt (h : Sound G g rank c) {n : SweepNode} (hn : n ∈ c.nodes) :
    n.id < c.nextId := by
  have hmem := List.mem_map_of_mem (f := SweepNode.id) hn
  rw [h.ids, List.mem_range'_1] at hmem
  have hnext := h.nextId
  omega

theorem Sound.id_inj (h : Sound G g rank c) {m n : SweepNode} (hm : m ∈ c.nodes)
    (hn : n ∈ c.nodes) (hid : m.id = n.id) : m = n := by
  have hnodup : (c.nodes.map SweepNode.id).Nodup := by
    rw [h.ids]
    exact List.nodup_range'
  exact List.inj_on_of_nodup_map hnodup hm hn hid

/-- **A node is written**: what it depends on has been written before, and when it is a collective
all collectives are behind it. -/
theorem Sound.put (h : Sound G g rank c) (hop : op = G.opOf g rank name)
    (hdeps : ∀ d ∈ deps, Available G.shape.microbatches c.nodes
      (name.slot G.shape.microbatches) d)
    (hrecv : ∀ t, name.part = .ppRecv t → deps = [])
    (hcoll : (∃ type pg size dim key, op = .coll type pg size dim key) → Covers c.nodes deps) :
    Sound G g rank (c.put name op deps) := by
  obtain ⟨n, hn⟩ : ∃ n : SweepNode, n = ⟨c.nextId, name, op, deps⟩ := ⟨_, rfl⟩
  have hnodes : (c.put name op deps).nodes = c.nodes ++ [n] := by rw [hn]; rfl
  have hself : n ∈ (c.put name op deps).nodes := by
    rw [hnodes]
    exact List.mem_append_right _ List.mem_cons_self
  have hmem : ∀ m ∈ (c.put name op deps).nodes, m ∈ c.nodes ∨ m = n := by
    intro m hm
    rw [hnodes] at hm
    exact (List.mem_append.mp hm).imp_right List.mem_singleton.mp
  refine ⟨?_, ?_, fun m hm => ?_, fun m hm d hd => ?_, fun m hm t ht => ?_,
    fun m hm m' hm' hmc hmc' hlt => ?_⟩
  · rw [hnodes, List.map_append, h.ids, List.length_append, List.length_singleton,
      List.range'_concat, List.map_singleton, hn, h.nextId]
    simp [Nat.add_comm]
  · rw [hnodes, List.length_append, List.length_singleton]
    exact congrArg (· + 1) h.nextId
  · rcases hmem m hm with hm | rfl
    · exact h.op m hm
    · rw [hn]
      exact hop
  · rw [hnodes]
    rcases hmem m hm with hm | rfl
    · obtain ⟨hlt, hav⟩ := h.deps m hm d hd
      exact ⟨hlt, hav.mono le_rfl _⟩
    · rw [hn] at hd ⊢
      have hav := hdeps d hd
      refine ⟨?_, hav.mono le_rfl _⟩
      obtain ⟨m, hm, rfl, -⟩ := hav
      exact h.id_lt hm
  · rcases hmem m hm with hm | rfl
    · exact h.recv m hm t ht
    · rw [hn] at ht ⊢
      exact hrecv t ht
  · rcases hmem m' hm' with hm' | rfl
    · rcases hmem m hm with hm | rfl
      · have hpath := h.chain m hm m' hm' hmc hmc' hlt
        rw [hnodes]
        exact TransGen.mono (fun _ _ hab => DependsOn.append hab [n]) _ _ hpath
      · -- the new node has the largest id
        have hlt' := h.id_lt hm'
        rw [hn] at hlt
        exact absurd hlt hlt'.not_gt
    · rcases hmem m hm with hm | rfl
      · have hcovers : Covers c.nodes deps := by
          apply hcoll
          rw [hn] at hmc'
          exact hmc'
        obtain ⟨d, hd, hpath⟩ := hcovers m hm hmc
        rw [hnodes]
        apply TransGen.head' _ (path_append hpath [m'])
        exact ⟨m', List.mem_append_right _ List.mem_cons_self, rfl, by rw [hn]; exact hd⟩
      · exact absurd hlt (lt_irrefl _)

theorem Sound.withDeps (h : Sound G g rank c) (deps : List ℕ) :
    Sound G g rank (c.withDeps deps) :=
  ⟨h.ids, h.nextId, h.op, h.deps, h.recv, h.chain⟩

/-- The old collectives stay covered. -/
theorem Covers.put (h : Covers c.nodes deps) {ds : List ℕ}
    (hop : ¬ ∃ type pg size dim key, op = .coll type pg size dim key) :
    Covers (c.put name op ds).nodes deps := by
  intro m hm hcoll
  rcases List.mem_append.mp hm with hm | hm
  · obtain ⟨d, hd, hpath⟩ := h m hm hcoll
    exact ⟨d, hd, path_append hpath _⟩
  · rw [List.mem_singleton.mp hm] at hcoll
    exact absurd hcoll hop

/-- The new node covers what its dependencies cover. -/
theorem Covers.write (h : Covers c.nodes c.deps) : Covers (c.write name op).nodes [c.nextId] := by
  intro m hm hcoll
  refine ⟨c.nextId, List.mem_cons_self, ?_⟩
  rcases List.mem_append.mp hm with hm | hm
  · obtain ⟨d, hd, hpath⟩ := h m hm hcoll
    apply ReflTransGen.head _ (path_append hpath _)
    exact ⟨_, List.mem_append_right _ List.mem_cons_self, rfl, hd⟩
  · rw [List.mem_singleton.mp hm]

end Sound

/-- The invariant while the chain is written, after the nodes `base`: what the next node depends on
is no later than the slot, and all collectives are behind it. -/
structure Writing (G : Generator) (g : RankGroups) (rank : ℕ) (base : List SweepNode)
    (slot : ℕ ×ₗ ℕ) (names : List NodeName) (c : Cursor) : Prop where
  sound : Sound G g rank c
  isPrefix : base <+: c.nodes
  available : ∀ d ∈ c.deps, Available G.shape.microbatches c.nodes slot d
  covers : Covers c.nodes c.deps
  transfers : transferNames c.nodes = names

section Writing

variable {G : Generator} {g : RankGroups} {rank : ℕ} {base : List SweepNode} {c : Cursor}
  {name : NodeName} {op : SweepOp} {slot slot' : ℕ ×ₗ ℕ} {names : List NodeName} {d mb layer : ℕ}

theorem transferNames_put (c : Cursor) (name : NodeName) (op : SweepOp) (deps : List ℕ) :
    transferNames (c.put name op deps).nodes =
      transferNames c.nodes ++ if name.part.isTransfer then [name] else [] := by
  simp only [transferNames, Cursor.put, List.map_append, List.map_singleton, List.filter_append,
    List.filter_cons, List.filter_nil]

/-- The next node of the chain. -/
theorem Writing.write (h : Writing G g rank base slot names c)
    (hslot : name.slot G.shape.microbatches = slot) (hop : op = G.opOf g rank name)
    (hrecv : ∀ t, name.part ≠ .ppRecv t) :
    Writing G g rank base slot (names ++ if name.part.isTransfer then [name] else [])
      (c.write name op) := by
  have hput : Sound G g rank (c.put name op c.deps) := by
    apply h.sound.put hop
    · intro d hd
      rw [hslot]
      exact h.available d hd
    · exact fun t ht => absurd ht (hrecv t)
    · exact fun _ => h.covers
  refine ⟨hput.withDeps _, h.isPrefix.trans (List.prefix_append _ _), fun d hd => ?_,
    h.covers.write, ?_⟩
  · rw [List.mem_singleton.mp hd]
    refine ⟨_, List.mem_append_right _ List.mem_cons_self, rfl, ?_⟩
    exact hslot.le
  · rw [← h.transfers]
    exact transferNames_put ..

/-- A node that is no transfer. -/
theorem Writing.write' (h : Writing G g rank base slot names c)
    (hslot : name.slot G.shape.microbatches = slot) (hop : op = G.opOf g rank name)
    (hpart : name.part.isTransfer = false) :
    Writing G g rank base slot names (c.write name op) := by
  have hrecv : ∀ t, name.part ≠ .ppRecv t := by
    rintro t ht
    rw [ht] at hpart
    cases hpart
  have hwrite := h.write hslot hop hrecv
  rwa [hpart, if_neg Bool.false_ne_true, List.append_nil] at hwrite

theorem Writing.epAllToAll (h : Writing G g rank base slot names c)
    (hslot : name.slot G.shape.microbatches = slot)
    (hop : G.opOf g rank name =
      if G.epSize = 1 then .comp 0 none
      else .coll .allToAll g.epGroup (G.epCommSize g.epGroup) G.epDim
        (G.all2allvLoadKey g.epGroup))
    (hpart : name.part.isTransfer = false) :
    Writing G g rank base slot names (G.epAllToAll g name c) := by
  unfold Generator.epAllToAll
  split
  · next hone => exact h.write' hslot (by rw [hop, if_pos hone]) hpart
  · next hone => exact h.write' hslot (by rw [hop, if_neg hone]) hpart

/-- **A forward layer**. -/
theorem Writing.writeForwardLayer (h : Writing G g rank base (toLex (0, mb)) names c) (layer : ℕ) :
    Writing G g rank base (toLex (0, mb)) names (G.writeForwardLayer g mb c layer) := by
  refine Writing.epAllToAll ?_ (by rfl) (by rfl) (by rfl)
  refine Writing.write' ?_ (by rfl) (by rfl) (by rfl)
  refine Writing.epAllToAll ?_ (by rfl) (by rfl) (by rfl)
  refine Writing.write' ?_ (by rfl) (by rfl) (by rfl)
  refine Writing.write' ?_ (by rfl) (by rfl) (by rfl)
  refine Writing.write' ?_ (by rfl) (by rfl) (by rfl)
  exact h.write' (by rfl) (by rfl) (by rfl)

/-- A computation beside the chain. -/
theorem Writing.beside (h : Writing G g rank base slot names c)
    (hslot : name.slot G.shape.microbatches = slot) (hop : op = G.opOf g rank name)
    (hpart : name.part.isTransfer = false)
    (hcomp : ¬ ∃ type pg size dim key, op = .coll type pg size dim key) :
    Writing G g rank base slot names (c.put name op c.deps) ∧
      Available G.shape.microbatches (c.put name op c.deps).nodes slot c.nextId := by
  have hput : Sound G g rank (c.put name op c.deps) := by
    apply h.sound.put hop
    · intro d hd
      rw [hslot]
      exact h.available d hd
    · intro t ht
      rw [ht] at hpart
      cases hpart
    · exact fun _ => h.covers
  refine ⟨⟨hput, h.isPrefix.trans (List.prefix_append _ _),
    fun d hd => (h.available d hd).mono le_rfl _, h.covers.put hcomp, ?_⟩, ?_⟩
  · rw [transferNames_put, hpart, if_neg Bool.false_ne_true, List.append_nil, h.transfers]
  · exact ⟨_, List.mem_append_right _ List.mem_cons_self, rfl, hslot.le⟩

theorem Available.write (h : Available G.shape.microbatches c.nodes slot d) :
    Available G.shape.microbatches (c.write name op).nodes slot d :=
  h.mono le_rfl _

/-- One more dependency. -/
theorem Writing.withDeps_cons (h : Writing G g rank base slot names c)
    (hd : Available G.shape.microbatches c.nodes slot d) :
    Writing G g rank base slot names (c.withDeps (d :: c.deps)) := by
  refine ⟨h.sound.withDeps _, h.isPrefix, fun d' hd' => ?_, ?_, h.transfers⟩
  · rcases List.mem_cons.mp hd' with rfl | hd'
    · exact hd
    · exact h.available d' hd'
  · exact h.covers.mono fun d' hd' => List.mem_cons_of_mem _ hd'

/-- **A backward layer**: the switch of the topology stays available for the first data-parallel
collective. -/
theorem Writing.writeBackwardLayer
    (h : Writing G g rank base (toLex (1, G.shape.microbatches - 1 - mb)) names c) (layer : ℕ) :
    Writing G g rank base (toLex (1, G.shape.microbatches - 1 - mb)) names
      (G.writeBackwardLayer g mb c layer) := by
  have hep : Writing G g rank base (toLex (1, G.shape.microbatches - 1 - mb)) names
      (G.epAllToAll g ⟨mb, layer, .epDispatchBwd⟩ ((G.epAllToAll g ⟨mb, layer, .epCombineBwd⟩
        c).write ⟨mb, layer, .expertBwd⟩ (.comp (2 * G.shape.expertComputeUs) none))) := by
    refine Writing.epAllToAll ?_ (by rfl) (by rfl) (by rfl)
    refine Writing.write' ?_ (by rfl) (by rfl) (by rfl)
    exact h.epAllToAll (by rfl) (by rfl) (by rfl)
  obtain ⟨hbeside, hready⟩ := hep.beside
    (show NodeName.slot _ ⟨mb, layer, .topoSwitchToDp⟩ = _ from rfl)
    (show SweepOp.comp 0 G.reconfigForDp = _ from rfl) rfl
    (by rintro ⟨_, _, _, _, _, heq⟩; cases heq)
  refine Writing.write' ?_ (by rfl) (by rfl) (by rfl)
  refine Writing.write' ?_ (by rfl) (by rfl) (by rfl)
  refine Writing.write' ?_ (by rfl) (by rfl) (by rfl)
  apply Writing.withDeps_cons
  · refine Writing.write' ?_ (by rfl) (by rfl) (by rfl)
    refine Writing.write' ?_ (by rfl) (by rfl) (by rfl)
    exact hbeside.write' (by rfl) (by rfl) (by rfl)
  · exact hready.write.write.write

theorem Writing.foldl {α : Type} {f : Cursor → α → Cursor}
    (hstep : ∀ c a, Writing G g rank base slot names c → Writing G g rank base slot names (f c a))
    (h : Writing G g rank base slot names c) (l : List α) :
    Writing G g rank base slot names (l.foldl f c) := by
  induction l generalizing c with
  | nil => exact h
  | cons a l ih => exact ih (hstep c a h)

theorem Writing.writeForwardStack (h : Writing G g rank base (toLex (0, mb)) names c)
    (localLayers : List ℕ) :
    Writing G g rank base (toLex (0, mb)) names (G.writeForwardStack g mb localLayers c) :=
  Writing.foldl (fun _ layer h => h.writeForwardLayer layer) h localLayers

theorem Writing.writeBackwardStack
    (h : Writing G g rank base (toLex (1, G.shape.microbatches - 1 - mb)) names c)
    (localLayers : List ℕ) :
    Writing G g rank base (toLex (1, G.shape.microbatches - 1 - mb)) names
      (G.writeBackwardStack g mb localLayers c) :=
  Writing.foldl (fun _ layer h => h.writeBackwardLayer layer) h localLayers.reverse

theorem Writing.le (h : Writing G g rank base slot names c) (hle : slot ≤ slot') :
    Writing G g rank base slot' names c :=
  ⟨h.sound, h.isPrefix, fun d hd => (h.available d hd).le hle, h.covers, h.transfers⟩

/-- From here on. -/
theorem Writing.rebase (h : Writing G g rank base slot names c) :
    Writing G g rank c.nodes slot names c :=
  ⟨h.sound, List.prefix_rfl, h.available, h.covers, h.transfers⟩

theorem Available.of_isPrefix {mbs : ℕ} {nodes nodes' : List SweepNode}
    (h : Available mbs nodes slot d) (hp : nodes <+: nodes') : Available mbs nodes' slot d := by
  obtain ⟨more, rfl⟩ := hp
  exact h.mono le_rfl more

def recvName (t : Transfer) (mb : ℕ) : NodeName := ⟨mb, none, .ppRecv t⟩

def sendName (t : Transfer) (mb : ℕ) : NodeName := ⟨mb, none, .ppSend t⟩

/-- A receive depends on nothing, and stays beside the chain. -/
theorem Writing.recv (h : Writing G g rank base slot names c) (t : Transfer) (mb : ℕ)
    (hop : op = G.opOf g rank (recvName t mb)) :
    Writing G g rank base slot (names ++ [recvName t mb]) (c.put (recvName t mb) op []) ∧
      Available G.shape.microbatches (c.put (recvName t mb) op []).nodes
        ((recvName t mb).slot G.shape.microbatches) c.nextId := by
  have hcoll : ¬ ∃ type pg size dim key, op = .coll type pg size dim key := by
    rintro ⟨_, _, _, _, _, heq⟩
    rw [hop] at heq
    cases heq
  have hput : Sound G g rank (c.put (recvName t mb) op []) := by
    apply h.sound.put hop
    · exact fun d hd => absurd hd List.not_mem_nil
    · exact fun _ _ => rfl
    · exact fun hc => absurd hc hcoll
  refine ⟨⟨hput, h.isPrefix.trans (List.prefix_append _ _),
    fun d hd => (h.available d hd).mono le_rfl _, h.covers.put hcoll, ?_⟩, ?_⟩
  · rw [transferNames_put, h.transfers]
    rfl
  · exact ⟨_, List.mem_append_right _ List.mem_cons_self, rfl, le_rfl⟩

/-- **The receives of a phase**, which stay available for their microbatches. -/
theorem Writing.writeRecvs (h : Writing G g rank base slot names c) (t : Transfer) {src : ℕ}
    (hsrc : src = t.src G.shape.rps rank) :
    Writing G g rank base slot (names ++ (List.range G.shape.microbatches).map (recvName t))
        (G.writeRecvs t src rank c).1 ∧
      ∀ mb < G.shape.microbatches,
        Available G.shape.microbatches (G.writeRecvs t src rank c).1.nodes
        ((recvName t mb).slot G.shape.microbatches) ((G.writeRecvs t src rank c).2 mb) := by
  unfold Generator.writeRecvs
  have hloop : ∀ k, ∃ s, s = (List.range k).foldl (fun s mb =>
      (s.1.put ⟨mb, none, .ppRecv t⟩ (.recv src rank G.shape.commSize (G.tag t mb src)) [],
        Function.update s.2 mb s.1.nextId)) (c, fun _ => 0) ∧
      Writing G g rank base slot (names ++ (List.range k).map (recvName t)) s.1 ∧
      ∀ mb < k, Available G.shape.microbatches s.1.nodes
        ((recvName t mb).slot G.shape.microbatches) (s.2 mb) := by
    intro k
    induction k with
    | zero => exact ⟨_, rfl, by simpa using h, fun mb hmb => absurd hmb (Nat.not_lt_zero mb)⟩
    | succ k ih =>
      obtain ⟨s, hs, hw, hav⟩ := ih
      refine ⟨_, rfl, ?_⟩
      rw [List.range_succ, List.foldl_append, ← hs, List.foldl_cons, List.foldl_nil]
      obtain ⟨hnext, hself⟩ := hw.recv t k
        (show SweepOp.recv src rank G.shape.commSize (G.tag t k src) = _ by rw [hsrc]; rfl)
      constructor
      · rw [List.map_append, ← List.append_assoc]
        exact hnext
      · intro mb hmb
        dsimp only
        by_cases heq : mb = k
        · subst heq
          rw [Function.update_self]
          exact hself
        · rw [Function.update_of_ne heq]
          exact (hav mb (by omega)).mono le_rfl _
  obtain ⟨s, rfl, hw⟩ := hloop G.shape.microbatches
  exact hw

/-- The stage has the neighbour that transfers come from. -/
def Transfer.arrives (t : Transfer) (pp stage : ℕ) : Bool :=
  match t with
  | .activation => 0 < stage
  | .grad => stage + 1 < pp

/-- The stage has the neighbour that transfers go to. -/
def Transfer.leaves (t : Transfer) (pp stage : ℕ) : Bool :=
  match t with
  | .activation => stage + 1 < pp
  | .grad => 0 < stage

theorem Writing.recvPhase (h : Writing G g rank base slot names c) (t : Transfer) (stage : ℕ) :
    Writing G g rank base slot
        (names ++ if t.arrives G.shape.pp stage then
          (List.range G.shape.microbatches).map (recvName t) else [])
        (G.recvPhase t rank stage c).1 ∧
      (t.arrives G.shape.pp stage = true → ∀ mb < G.shape.microbatches,
        Available G.shape.microbatches (G.recvPhase t rank stage c).1.nodes
          ((recvName t mb).slot G.shape.microbatches) ((G.recvPhase t rank stage c).2 mb)) := by
  cases t with
  | activation =>
    simp only [Generator.recvPhase, Transfer.arrives, decide_eq_true_eq]
    split
    · next hstage =>
      obtain ⟨hw, hav⟩ := h.writeRecvs .activation rfl
      exact ⟨hw, fun _ => hav⟩
    · next hstage => exact ⟨by simpa using h, fun hlt => absurd hlt hstage⟩
  | grad =>
    simp only [Generator.recvPhase, Transfer.arrives, decide_eq_true_eq]
    split
    · next hstage =>
      obtain ⟨hw, hav⟩ := h.writeRecvs .grad rfl
      exact ⟨hw, fun _ => hav⟩
    · next hstage => exact ⟨by simpa using h, fun hlt => absurd hlt hstage⟩

/-- The receives are beside the chain. -/
theorem recvPhase_deps (G : Generator) (t : Transfer) (rank stage : ℕ) (c : Cursor) :
    (G.recvPhase t rank stage c).1.deps = c.deps := by
  have hloop : ∀ src, (G.writeRecvs t src rank c).1.deps = c.deps := by
    intro src
    unfold Generator.writeRecvs
    induction List.range G.shape.microbatches using List.reverseRecOn with
    | nil => rfl
    | append_singleton mbs mb ih =>
      rw [List.foldl_append, List.foldl_cons, List.foldl_nil]
      exact ih
  cases t with
  | activation =>
    simp only [Generator.recvPhase]
    split
    · exact hloop _
    · rfl
  | grad =>
    simp only [Generator.recvPhase]
    split
    · exact hloop _
    · rfl

/-- **A pass of the forward loop**. -/
theorem Writing.writeForwardPass {s : Cursor × (ℕ → List ℕ)} {stage : ℕ} {localLayers : List ℕ}
    {recvs : ℕ → ℕ} (h : Writing G g rank base (toLex (0, mb)) names s.1)
    (hrecv : 0 < stage →
      Available G.shape.microbatches s.1.nodes (toLex (0, mb)) (recvs mb)) :
    Writing G g rank base (toLex (0, mb))
        (names ++ if stage + 1 < G.shape.pp then [sendName .activation mb] else [])
        (G.writeForwardPass g rank stage localLayers recvs s mb).1 ∧
      (G.writeForwardPass g rank stage localLayers recvs s mb).2 = Function.update s.2 mb
        (G.writeForwardPass g rank stage localLayers recvs s mb).1.deps := by
  refine ⟨?_, rfl⟩
  have hstack : Writing G g rank base (toLex (0, mb)) names
      (G.writeForwardStack g mb localLayers
        (if 0 < stage then s.1.withDeps (recvs mb :: s.1.deps) else s.1)) := by
    apply Writing.writeForwardStack
    split
    · next hstage => exact h.withDeps_cons (hrecv hstage)
    · exact h
  unfold Generator.writeForwardPass
  dsimp only
  split
  · exact @Writing.write G g rank base _ (sendName .activation mb) _ _ names hstack (by rfl)
      (by rfl) fun t ht => by cases ht
  · rw [List.append_nil]
    exact hstack

/-- **A pass of the backward loop**. -/
theorem Writing.writeBackwardPass {stage : ℕ} {localLayers : List ℕ} {fwdDone : ℕ → List ℕ}
    {recvs : ℕ → ℕ}
    (h : Writing G g rank base (toLex (1, G.shape.microbatches - 1 - mb)) names
      (c.withDeps (fwdDone mb ++ c.deps)))
    (hrecv : stage + 1 < G.shape.pp → Available G.shape.microbatches c.nodes
      (toLex (1, G.shape.microbatches - 1 - mb)) (recvs mb)) :
    Writing G g rank base (toLex (1, G.shape.microbatches - 1 - mb))
      (names ++ if 0 < stage then [sendName .grad mb] else [])
      (G.writeBackwardPass g rank stage localLayers fwdDone recvs c mb) := by
  unfold Generator.writeBackwardPass
  dsimp only
  obtain ⟨d, hd⟩ : ∃ d, d = c.withDeps (fwdDone mb ++ c.deps) := ⟨_, rfl⟩
  rw [← hd] at h ⊢
  have hnodes : d.nodes = c.nodes := by rw [hd]; rfl
  have hstack : Writing G g rank base (toLex (1, G.shape.microbatches - 1 - mb)) names
      (G.writeBackwardStack g mb localLayers
        (if stage + 1 < G.shape.pp then d.withDeps (recvs mb :: d.deps) else d)) := by
    apply Writing.writeBackwardStack
    split
    · next hstage => exact h.withDeps_cons (hnodes ▸ hrecv hstage)
    · exact h
  split
  · exact @Writing.write G g rank base _ (sendName .grad mb) _ _ names hstack (by rfl) (by rfl)
      fun t ht => by cases ht
  · rw [List.append_nil]
    exact hstack

/-- The ids that end the microbatches written so far. -/
structure FwdDone (G : Generator) (c : Cursor) (k : ℕ) (fwdDone : ℕ → List ℕ) : Prop where
  available : ∀ mb < k, ∀ d ∈ fwdDone mb,
    Available G.shape.microbatches c.nodes (toLex (0, mb)) d
  last : ∀ mb, k = mb + 1 → fwdDone mb = c.deps

/-- **The forward phase**: every microbatch ends in what the next one depends on. -/
theorem Writing.forwardPhase {stage : ℕ} {localLayers : List ℕ} {recvs : Cursor × (ℕ → ℕ)}
    (h : Writing G g rank base (toLex (0, 0)) names recvs.1)
    (hrecv : 0 < stage → ∀ mb < G.shape.microbatches,
      Available G.shape.microbatches recvs.1.nodes (toLex (0, mb)) (recvs.2 mb)) :
    Writing G g rank base (toLex (0, G.shape.microbatches))
        (names ++ if stage + 1 < G.shape.pp then
          (List.range G.shape.microbatches).map (sendName .activation) else [])
        (G.forwardPhase g rank stage localLayers recvs).1 ∧
      FwdDone G (G.forwardPhase g rank stage localLayers recvs).1 G.shape.microbatches
        (G.forwardPhase g rank stage localLayers recvs).2 := by
  have hloop : ∀ k ≤ G.shape.microbatches, ∃ s, s = (List.range k).foldl
      (G.writeForwardPass g rank stage localLayers recvs.2) (recvs.1, fun _ => []) ∧
      recvs.1.nodes <+: s.1.nodes ∧
      Writing G g rank base (toLex (0, k))
        (names ++ if stage + 1 < G.shape.pp then (List.range k).map (sendName .activation) else [])
        s.1 ∧ FwdDone G s.1 k s.2 := by
    intro k
    induction k with
    | zero =>
      refine fun _ => ⟨_, rfl, List.prefix_rfl, by simpa using h, ?_⟩
      exact ⟨fun mb hmb => absurd hmb (Nat.not_lt_zero mb), fun mb hmb => by omega⟩
    | succ k ih =>
      intro hk
      obtain ⟨s, hs, hbase, hw, hdone⟩ := ih (by omega)
      refine ⟨_, rfl, ?_⟩
      rw [List.range_succ, List.foldl_append, ← hs, List.foldl_cons, List.foldl_nil]
      have hrecv' : 0 < stage →
          Available G.shape.microbatches s.1.nodes (toLex (0, k)) (recvs.2 k) :=
        fun hstage => (hrecv hstage k hk).of_isPrefix hbase
      obtain ⟨t, ht⟩ : ∃ t, t = G.writeForwardPass g rank stage localLayers recvs.2 s k := ⟨_, rfl⟩
      obtain ⟨hnext, hupdate⟩ := @Writing.writeForwardPass G g rank s.1.nodes _ _ s stage
        localLayers recvs.2 hw.rebase hrecv'
      rw [← ht] at hnext hupdate ⊢
      refine ⟨hbase.trans hnext.isPrefix, ?_, fun mb hmb d hd => ?_, fun mb hmb => ?_⟩
      · have hslot : toLex (0, k) ≤ toLex (0, k + 1) :=
          Prod.Lex.toLex_le_toLex.mpr (.inr ⟨rfl, Nat.le_succ k⟩)
        refine Writing.le ⟨hnext.sound, hw.isPrefix.trans hnext.isPrefix, hnext.available,
          hnext.covers, ?_⟩ hslot
        rw [hnext.transfers, List.append_assoc]
        split
        · rw [List.map_append]
          rfl
        · rfl
      · rw [hupdate] at hd
        by_cases heq : mb = k
        · subst heq
          rw [Function.update_self] at hd
          exact hnext.available d hd
        · rw [Function.update_of_ne heq] at hd
          exact (hdone.available mb (by omega) d hd).of_isPrefix hnext.isPrefix
      · obtain rfl : mb = k := by omega
        rw [hupdate, Function.update_self]
  obtain ⟨s, rfl, -, hw⟩ := hloop _ le_rfl
  exact hw

/-- **The backward phase**: the first pass depends on the end of the last forward pass, and each
other pass on the one before. -/
theorem Writing.backwardPhase {stage : ℕ} {localLayers : List ℕ} {fwdDone : ℕ → List ℕ}
    {recvs : Cursor × (ℕ → ℕ)} (h : Writing G g rank base slot names recvs.1)
    (hdone : ∀ mb < G.shape.microbatches, ∀ d ∈ fwdDone mb,
      Available G.shape.microbatches recvs.1.nodes (toLex (0, mb)) d)
    (hlast : ∀ mb, G.shape.microbatches = mb + 1 → fwdDone mb = recvs.1.deps)
    (hrecv : stage + 1 < G.shape.pp → ∀ mb < G.shape.microbatches,
      Available G.shape.microbatches recvs.1.nodes (toLex (1, G.shape.microbatches - 1 - mb))
        (recvs.2 mb)) :
    Sound G g rank (G.backwardPhase g rank stage localLayers fwdDone recvs) ∧
      transferNames (G.backwardPhase g rank stage localLayers fwdDone recvs).nodes =
        names ++ if 0 < stage then
          (List.range G.shape.microbatches).reverse.map (sendName .grad) else [] := by
  have hloop : ∀ k ≤ G.shape.microbatches, ∀ c names, Sound G g rank c →
      recvs.1.nodes <+: c.nodes → transferNames c.nodes = names →
      (∀ d ∈ c.deps, Available G.shape.microbatches c.nodes
        (toLex (1, G.shape.microbatches - k)) d) →
      (∀ mb, k = mb + 1 → Covers c.nodes (fwdDone mb ++ c.deps)) →
      Sound G g rank ((List.range k).reverse.foldl
        (G.writeBackwardPass g rank stage localLayers fwdDone recvs.2) c) ∧
      transferNames ((List.range k).reverse.foldl
        (G.writeBackwardPass g rank stage localLayers fwdDone recvs.2) c).nodes =
        names ++ if 0 < stage then (List.range k).reverse.map (sendName .grad) else [] := by
    intro k
    induction k with
    | zero =>
      intro _ c names hs _ hnames _ _
      exact ⟨hs, by simpa using hnames⟩
    | succ k ih =>
      intro hk c names hs hbase hnames hav hcov
      have hsub : G.shape.microbatches - (k + 1) = G.shape.microbatches - 1 - k := by omega
      rw [hsub] at hav
      have hw : Writing G g rank c.nodes (toLex (1, G.shape.microbatches - 1 - k)) names
          (c.withDeps (fwdDone k ++ c.deps)) := by
        refine ⟨hs.withDeps _, List.prefix_rfl, fun d hd => ?_, hcov k rfl, hnames⟩
        rcases List.mem_append.mp hd with hd | hd
        · apply ((hdone k hk d hd).of_isPrefix hbase).le
          exact Prod.Lex.toLex_le_toLex.mpr (.inl Nat.zero_lt_one)
        · exact hav d hd
      have hpass := @Writing.writeBackwardPass G g rank c.nodes c names k stage localLayers fwdDone
        recvs.2 hw fun hstage => (hrecv hstage k hk).of_isPrefix hbase
      have hle : toLex (1, G.shape.microbatches - 1 - k) ≤ toLex (1, G.shape.microbatches - k) :=
        Prod.Lex.toLex_le_toLex.mpr (.inr ⟨rfl, by omega⟩)
      rw [List.range_succ, List.reverse_concat, List.foldl_cons]
      obtain ⟨hend, hfinal⟩ := ih (by omega) _ _ hpass.sound (hbase.trans hpass.isPrefix)
        hpass.transfers (fun d hd => (hpass.available d hd).le hle)
        fun mb _ => hpass.covers.mono fun d hd => List.mem_append_right _ hd
      refine ⟨hend, hfinal.trans ?_⟩
      rw [List.append_assoc]
      split <;> rfl
  apply hloop _ le_rfl
  · exact h.sound.withDeps []
  · exact List.prefix_rfl
  · exact h.transfers
  · exact fun d hd => absurd hd List.not_mem_nil
  · intro mb hmb
    rw [hlast mb hmb]
    exact h.covers.mono fun d hd => List.mem_append_left _ hd

theorem writing_start : Writing G g rank [] (toLex (0, 0)) [] .start where
  sound := sound_start
  isPrefix := List.prefix_rfl
  available _ hd := absurd hd List.not_mem_nil
  covers _ hm := absurd hm List.not_mem_nil
  transfers := rfl

/-- The names of the transfers of a stage, in the order in which they are written. -/
def Generator.stageTransfers (G : Generator) (stage : ℕ) : List NodeName :=
  (if 0 < stage then (List.range G.shape.microbatches).map (recvName .activation) else []) ++
    (if stage + 1 < G.shape.pp then
      (List.range G.shape.microbatches).map (sendName .activation) else []) ++
    (if stage + 1 < G.shape.pp then (List.range G.shape.microbatches).map (recvName .grad)
      else []) ++
    if 0 < stage then (List.range G.shape.microbatches).reverse.map (sendName .grad) else []

/-- **The trace of a rank** is sound, and has the transfers of its stage. -/
theorem sound_rankTrace (G : Generator) (epGroup rank : ℕ) :
    ∃ c, c.nodes = G.rankTrace epGroup rank ∧ Sound G (G.rankGroups epGroup rank) rank c ∧
      transferNames c.nodes = G.stageTransfers (rank / G.shape.rps) := by
  obtain ⟨stage, he⟩ : ∃ e, e = rank / G.shape.rps := ⟨_, rfl⟩
  obtain ⟨g, hg⟩ : ∃ g, g = G.rankGroups epGroup rank := ⟨_, rfl⟩
  have hstart : Writing G g rank [] (toLex (0, 0)) [] .start := writing_start
  obtain ⟨hrecvs, hrecv⟩ := hstart.recvPhase .activation stage
  obtain ⟨hfwd, hdone⟩ := @Writing.forwardPhase G g rank [] _ stage
    (List.range' (stage * G.shape.layersPerStage) G.shape.layersPerStage) _ hrecvs
    fun hstage mb hmb => hrecv (by simpa [Transfer.arrives] using hstage) mb hmb
  obtain ⟨hgrads, hgrad⟩ := hfwd.rebase.recvPhase .grad stage
  obtain ⟨hsound, htransfers⟩ := @Writing.backwardPhase G g rank _ _ _ stage
    (List.range' (stage * G.shape.layersPerStage) G.shape.layersPerStage) _ _ hgrads
    (fun mb hmb d hd => (hdone.available mb hmb d hd).of_isPrefix hgrads.isPrefix)
    (fun mb hmb => (hdone.last mb hmb).trans (recvPhase_deps ..).symm)
    fun hstage mb hmb => hgrad (by simpa [Transfer.arrives] using hstage) mb hmb
  subst hg he
  refine ⟨_, rfl, hsound, htransfers.trans ?_⟩
  simp only [Generator.stageTransfers, Transfer.arrives, decide_eq_true_eq, List.nil_append]

end Writing

end Opus.Simulation
