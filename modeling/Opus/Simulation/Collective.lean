import Mathlib.Algebra.Order.BigOperators.Group.Finset
import Mathlib.Data.List.Perm.Subperm
import Mathlib.Logic.Function.Iterate
import Opus.Library.Run

/-!
# A collective phase on all its nodes

Every node of a collective has a stream, and the algorithm of its current phase runs when the stream
starts, when a bundle of packets comes back from the memory bus, and when a message has been
received. A message is received once it has been sent and awaited; the tracker of the network layer
then calls the callback of the receive once. The nodes start in any order, bundles come back in any
order, and messages in any order.

A run in which the algorithm does its work ends by itself, and every node has gone on to its next
phase exactly once. When a node goes on, the algorithm is deleted, so nothing may be left for it
then.

## Main definitions

* `StreamBaseline`: the stream of a node with what its algorithm has asked for
* `Algorithm`: what the algorithms of a phase have in common
* `collectiveStep`: one event at one node
* `LocalInv`: an invariant of one node
* `Completes`: every run is bounded, goes on at each node at most once and with nothing left, and
  ends with all messages exchanged

## Main results

* `LocalInv.reaches`: an invariant of one node holds in every state that is reached
* `Matched.reaches`: what has been received has been sent and awaited
* `received_perm_of_blocked`: when nothing can happen, a node whose messages have been sent has
  received them
* `LocalInv.length_le`: the length of a run
* `Completes.finishes`: every run can be continued until all nodes have gone on
-/

namespace Opus.Simulation

/-! ## Streams -/

/-- Packets on their way to the memory or to the NPU. -/
structure PacketBundle where
  toMA : Bool
  needsProcessing : Bool
  sendBack : Bool
  size : ℕ
  deriving DecidableEq, Repr

inductive EventType where
  | streamInit
  | general
  | packetReceived
  deriving DecidableEq, Repr

/-- The stream of a node. Sends are listed with their destination and size, receives with their
source and size; `received` are the receives whose callback has been called, and `exits` counts the
calls of `proceed_to_next_vnet_baseline`. -/
structure StreamBaseline (σ : Type) where
  algorithm : σ
  initialized : Bool
  bundles : List PacketBundle
  sends : List (ℕ × ℕ)
  recvs : List (ℕ × ℕ)
  received : List (ℕ × ℕ)
  exits : ℕ
  panicked : Bool
  deriving DecidableEq, Repr

variable {σ : Type}

namespace StreamBaseline

/-- A stream before it starts. -/
def idle (a : σ) : StreamBaseline σ := ⟨a, false, [], [], [], [], 0, false⟩

def frontEndSimSend (x : StreamBaseline σ) (dst size : ℕ) : StreamBaseline σ :=
  { x with sends := x.sends ++ [(dst, size)] }

def frontEndSimRecv (x : StreamBaseline σ) (src size : ℕ) : StreamBaseline σ :=
  { x with recvs := x.recvs ++ [(src, size)] }

/-- `PacketBundle::send_to_MA` or `send_to_NPU`. -/
def sendBundle (x : StreamBaseline σ) (b : PacketBundle) : StreamBaseline σ :=
  { x with bundles := x.bundles ++ [b] }

def proceedToNextVnet (x : StreamBaseline σ) : StreamBaseline σ := { x with exits := x.exits + 1 }

def sysPanic (x : StreamBaseline σ) : StreamBaseline σ := { x with panicked := true }

/-- Nothing is left that could happen at the node. -/
def Quiet (x : StreamBaseline σ) : Prop :=
  x.initialized = true ∧ x.bundles = [] ∧ x.received.length = x.recvs.length

instance (x : StreamBaseline σ) : Decidable x.Quiet := inferInstanceAs (Decidable (_ ∧ _ ∧ _))

/-- What an algorithm may do to its stream: it neither starts it nor receives, and what it has asked
for it does not take back. -/
structure Grows (x y : StreamBaseline σ) : Prop where
  initialized : y.initialized = x.initialized
  received : y.received = x.received
  sends : x.sends <+: y.sends
  recvs : x.recvs <+: y.recvs

theorem Grows.refl (x : StreamBaseline σ) : x.Grows x :=
  ⟨rfl, rfl, List.prefix_rfl, List.prefix_rfl⟩

theorem Grows.trans {x y z : StreamBaseline σ} (h : x.Grows y) (h' : y.Grows z) : x.Grows z :=
  ⟨h'.initialized.trans h.initialized, h'.received.trans h.received, h.sends.trans h'.sends,
    h.recvs.trans h'.recvs⟩

theorem Grows.ite {x y z : StreamBaseline σ} {c : Prop} [Decidable c] (h : x.Grows y)
    (h' : x.Grows z) : x.Grows (if c then y else z) := by
  split
  · exact h
  · exact h'

theorem Grows.iterate {f : StreamBaseline σ → StreamBaseline σ} (h : ∀ x, Grows x (f x)) (n : ℕ)
    (x : StreamBaseline σ) : x.Grows (f^[n] x) := by
  induction n generalizing x with
  | zero => exact .refl x
  | succ n ih => exact (h x).trans (ih (f x))

end StreamBaseline

/-- An algorithm: its state at each node, and what it does at an event. -/
structure Algorithm (σ : Type) where
  initial : ℕ → σ
  run : EventType → StreamBaseline σ → StreamBaseline σ
  grows : ∀ e x, StreamBaseline.Grows x (run e x)

theorem Algorithm.initialized_run (A : Algorithm σ) (e : EventType) (x : StreamBaseline σ) :
    (A.run e x).initialized = x.initialized := (A.grows e x).initialized

theorem Algorithm.received_run (A : Algorithm σ) (e : EventType) (x : StreamBaseline σ) :
    (A.run e x).received = x.received := (A.grows e x).received

/-! ## Steps -/

/-- A stream starts, the bundle with this index comes back, or a message is received. -/
inductive CollectiveAct where
  | init (i : ℕ)
  | bundle (i k : ℕ)
  | receive (src dst size : ℕ)
  deriving DecidableEq, Repr

/-- The streams of all nodes. -/
abbrev CollectiveState (σ : Type) := ℕ → StreamBaseline σ

section Step

variable (A : Algorithm σ) (nodes : Finset ℕ)

def CollectiveState.initial : CollectiveState σ := fun i => .idle (A.initial i)

/-- `StreamBaseline::init`, `PacketBundle::call` and `StreamBaseline::consume`. A bundle that needs
processing comes back once more. -/
def collectiveStep (s : CollectiveState σ) : CollectiveAct → Option (CollectiveState σ)
  | .init i =>
    if i ∈ nodes ∧ (s i).initialized = false then
      some (Function.update s i (A.run .streamInit { s i with initialized := true }))
    else none
  | .bundle i k =>
    match (s i).bundles[k]? with
    | none => none
    | some b =>
      if b.needsProcessing then
        -- the data is processed, and the algorithm runs when the bundle comes back again
        some (Function.update s i
          { s i with bundles := (s i).bundles.set k { b with needsProcessing := false } })
      else
        some (Function.update s i (A.run .general { s i with bundles := (s i).bundles.eraseIdx k }))
  | .receive src dst size =>
    if (s dst).received.count (src, size) < (s dst).recvs.count (src, size) ∧
        (s dst).received.count (src, size) < (s src).sends.count (dst, size) then
      some (Function.update s dst
        (A.run .packetReceived { s dst with received := (s dst).received ++ [(src, size)] }))
    else none

/-- Some run leads to the state. -/
abbrev CollectiveState.Reached (s : CollectiveState σ) : Prop :=
  Transition.Reaches (collectiveStep A nodes) (.initial A) s

/-- No event can happen. -/
def CollectiveState.Blocked (s : CollectiveState σ) : Prop :=
  ∀ a, collectiveStep A nodes s a = none

end Step

/-! ## Invariants of one node -/

/-- What an event at a node does to its stream. -/
inductive NodeStep (A : Algorithm σ) (x : StreamBaseline σ) : StreamBaseline σ → Prop where
  | init (h : x.initialized = false) :
      NodeStep A x (A.run .streamInit { x with initialized := true })
  | processed (k : ℕ) (b : PacketBundle) (h : x.bundles[k]? = some b)
      (hb : b.needsProcessing = true) :
      NodeStep A x { x with bundles := x.bundles.set k { b with needsProcessing := false } }
  | general (k : ℕ) (b : PacketBundle) (h : x.bundles[k]? = some b)
      (hb : b.needsProcessing = false) :
      NodeStep A x (A.run .general { x with bundles := x.bundles.eraseIdx k })
  | received (m : ℕ × ℕ) (h : x.received.count m < x.recvs.count m) :
      NodeStep A x (A.run .packetReceived { x with received := x.received ++ [m] })

section Invariants

variable {A : Algorithm σ} {nodes : Finset ℕ} {s t : CollectiveState σ}

/-- **A step is an event at one node**; a message that is received there has been sent. -/
theorem collectiveStep_cases {a : CollectiveAct} (h : collectiveStep A nodes s a = some t) :
    ∃ i y, NodeStep A (s i) y ∧ t = Function.update s i y ∧
      ((s i).initialized = false → y.initialized = true → i ∈ nodes) ∧
      (y.received = (s i).received ∨ ∃ src size, y.received = (s i).received ++ [(src, size)] ∧
        (s i).received.count (src, size) < (s src).sends.count (i, size)) := by
  cases a with
  | init i =>
    simp only [collectiveStep, Option.ite_none_right_eq_some, Option.some.injEq] at h
    obtain ⟨⟨hi, hinit⟩, rfl⟩ := h
    exact ⟨i, _, .init hinit, rfl, fun _ _ => hi, .inl (A.received_run _ _)⟩
  | bundle i k =>
    simp only [collectiveStep] at h
    cases hb : (s i).bundles[k]? with
    | none => simp [hb] at h
    | some b =>
      simp only [hb] at h
      by_cases hp : b.needsProcessing = true
      · rw [if_pos hp] at h
        refine ⟨i, _, .processed k b hb hp, (Option.some.inj h).symm, fun h0 h1 => ?_, .inl rfl⟩
        exact absurd (h0.symm.trans h1) (by decide)
      · rw [if_neg hp] at h
        refine ⟨i, _, .general k b hb (by simpa using hp), (Option.some.inj h).symm,
          fun h0 h1 => ?_, .inl (A.received_run _ _)⟩
        rw [A.initialized_run] at h1
        exact absurd (h0.symm.trans h1) (by decide)
  | receive src dst size =>
    simp only [collectiveStep, Option.ite_none_right_eq_some, Option.some.injEq] at h
    obtain ⟨⟨hr, hs⟩, rfl⟩ := h
    refine ⟨dst, _, .received (src, size) hr, rfl, fun h0 h1 => ?_,
      .inr ⟨src, size, A.received_run _ _, hs⟩⟩
    rw [A.initialized_run] at h1
    exact absurd (h0.symm.trans h1) (by decide)

theorem NodeStep.sends_prefix {x y : StreamBaseline σ} (h : NodeStep A x y) :
    x.sends <+: y.sends := by
  cases h with
  | processed k b _ _ => exact List.prefix_rfl
  | init _ => exact (A.grows _ { x with initialized := true }).sends
  | general k b _ _ => exact (A.grows _ { x with bundles := x.bundles.eraseIdx k }).sends
  | received m _ => exact (A.grows _ { x with received := x.received ++ [m] }).sends

theorem NodeStep.recvs_prefix {x y : StreamBaseline σ} (h : NodeStep A x y) :
    x.recvs <+: y.recvs := by
  cases h with
  | processed k b _ _ => exact List.prefix_rfl
  | init _ => exact (A.grows _ { x with initialized := true }).recvs
  | general k b _ _ => exact (A.grows _ { x with bundles := x.bundles.eraseIdx k }).recvs
  | received m _ => exact (A.grows _ { x with received := x.received ++ [m] }).recvs

/-- An event that is not a receive. -/
theorem NodeStep.received_cases {x y : StreamBaseline σ} (h : NodeStep A x y) :
    y.received = x.received ∨
      ∃ m, y.received = x.received ++ [m] ∧ x.received.count m < x.recvs.count m := by
  cases h with
  | processed k b _ _ => exact .inl rfl
  | init _ => exact .inl (A.received_run _ _)
  | general k b _ _ => exact .inl (A.received_run _ _)
  | received m hm => exact .inr ⟨m, A.received_run _ _, hm⟩

/-- What a node has received, it has awaited. -/
def Awaited (x : StreamBaseline σ) : Prop := ∀ m, x.received.count m ≤ x.recvs.count m

theorem count_append_singleton_le {l l' : List (ℕ × ℕ)} {m m' : ℕ × ℕ}
    (hm' : l.count m' < l'.count m') (hm : l.count m ≤ l'.count m) :
    (l ++ [m']).count m ≤ l'.count m := by
  rw [List.count_append, List.count_singleton]
  by_cases heq : m' = m
  · subst heq
    simp only [beq_self_eq_true, if_true]
    exact hm'
  · rw [if_neg (by simpa using heq)]
    exact hm

theorem Awaited.nodeStep {x y : StreamBaseline σ} (h : NodeStep A x y) (hx : Awaited x) :
    Awaited y := by
  intro m
  refine le_trans ?_ (h.recvs_prefix.sublist.count_le m)
  rcases h.received_cases with hr | ⟨m', hr, hm'⟩
  · rw [hr]
    exact hx m
  · rw [hr]
    exact count_append_singleton_le hm' (hx m)

theorem Awaited.length_le {x : StreamBaseline σ} (h : Awaited x) :
    x.received.length ≤ x.recvs.length :=
  (List.subperm_ext_iff.mpr fun m _ => h m).length_le

/-- A node that has received as many messages as it awaits has received these. -/
theorem Awaited.perm {x : StreamBaseline σ} (h : Awaited x)
    (hlen : x.recvs.length ≤ x.received.length) : x.received.Perm x.recvs :=
  (List.subperm_ext_iff.mpr fun m _ => h m).perm_of_length_le hlen

/-- A message that is still awaited is one more than has been received. -/
theorem Awaited.length_lt {x : StreamBaseline σ} {m : ℕ × ℕ} (h : Awaited x)
    (hm : x.received.count m < x.recvs.count m) : x.received.length < x.recvs.length := by
  by_contra hlt
  have hcount := (h.perm (Nat.not_lt.mp hlt)).count_eq m
  omega

/-- An invariant of one node: it holds before the start, and every event keeps it. -/
structure LocalInv (A : Algorithm σ) (nodes : Finset ℕ) (I : ℕ → StreamBaseline σ → Prop) :
    Prop where
  idle : ∀ i ∈ nodes, I i (.idle (A.initial i))
  step : ∀ i ∈ nodes, ∀ x y, I i x → Awaited x → NodeStep A x y → I i y

/-- What has been received has been awaited and sent, and the other nodes do nothing. -/
structure Matched (nodes : Finset ℕ) (s : CollectiveState σ) : Prop where
  outside : ∀ i ∉ nodes, (s i).initialized = false ∧ (s i).bundles = [] ∧ (s i).recvs = []
  awaited : ∀ i, Awaited (s i)
  sent : ∀ i j size, (s j).received.count (i, size) ≤ (s i).sends.count (j, size)

/-- A step is an event at one of the nodes. -/
theorem Matched.step_cases {a : CollectiveAct} (h : Matched nodes s)
    (hstep : collectiveStep A nodes s a = some t) :
    ∃ i ∈ nodes, ∃ y, NodeStep A (s i) y ∧ t = Function.update s i y ∧
      (y.received = (s i).received ∨ ∃ src size, y.received = (s i).received ++ [(src, size)] ∧
        (s i).received.count (src, size) < (s src).sends.count (i, size)) := by
  obtain ⟨i, y, hy, rfl, hinit, hrecv⟩ := collectiveStep_cases hstep
  refine ⟨i, ?_, y, hy, rfl, hrecv⟩
  by_contra hi
  obtain ⟨hout, hbundles, hrecvs⟩ := h.outside i hi
  cases hy with
  | init _ => exact hi (hinit hout (A.initialized_run _ _))
  | processed k b hb _ => simp [hbundles] at hb
  | general k b hb _ => simp [hbundles] at hb
  | received m hm => simp [hrecvs] at hm

theorem Matched.step {a : CollectiveAct} (h : Matched nodes s)
    (hstep : collectiveStep A nodes s a = some t) : Matched nodes t := by
  obtain ⟨i, hi, y, hy, rfl, hrecv⟩ := h.step_cases hstep
  constructor
  · intro j hj
    have hne : j ≠ i := fun hji => hj (hji ▸ hi)
    rw [Function.update_of_ne hne]
    exact h.outside j hj
  · intro j
    rw [Function.update_apply]
    split
    · exact (h.awaited i).nodeStep hy
    · exact h.awaited j
  · -- sends only grow, so only what has just been received is new
    intro src dst size
    have hsends : (s src).sends.count (dst, size) ≤
        (Function.update s i y src).sends.count (dst, size) := by
      rw [Function.update_apply]
      split
      · subst src
        exact hy.sends_prefix.sublist.count_le _
      · exact Nat.le_refl _
    refine le_trans ?_ hsends
    rw [Function.update_apply]
    split
    · subst dst
      rcases hrecv with hrecv | ⟨src', size', hrecv, hlt⟩
      · rw [hrecv]
        exact h.sent src i size
      · -- the message that has just been received may be another one
        rw [hrecv]
        by_cases heq : (src', size') = (src, size)
        · obtain ⟨rfl, rfl⟩ := Prod.mk.inj heq
          rw [List.count_append, List.count_singleton_self]
          exact hlt
        · rw [List.count_append, List.count_singleton, if_neg (by simpa using heq)]
          exact h.sent src i size
    · exact h.sent src dst size

theorem Matched.initial : Matched nodes (CollectiveState.initial A) where
  outside _ _ := ⟨rfl, rfl, rfl⟩
  awaited _ _ := Nat.le_refl _
  sent _ _ _ := Nat.zero_le _

/-- What has been received has been sent and awaited, in every state that is reached. -/
theorem Matched.reaches
    (h : t.Reached A nodes) :
    Matched nodes t :=
  h.invariant (fun _ _ _ hs hstep => Matched.step hs hstep) Matched.initial

theorem Matched.mem_sends (h : Matched nodes s) {i j size : ℕ} (hm : (i, size) ∈ (s j).received) :
    (j, size) ∈ (s i).sends :=
  List.count_pos_iff.mp ((List.count_pos_iff.mpr hm).trans_le (h.sent i j size))

/-- **The rule for invariants of one node.** -/
theorem LocalInv.reaches {I : ℕ → StreamBaseline σ → Prop} (hI : LocalInv A nodes I)
    (h : t.Reached A nodes) :
    ∀ i ∈ nodes, I i (t i) := by
  have hinv : (∀ i ∈ nodes, I i (t i)) ∧ Matched nodes t := by
    refine h.invariant (I := fun s => (∀ i ∈ nodes, I i (s i)) ∧ Matched nodes s) ?_
      ⟨hI.idle, Matched.initial⟩
    intro s a u hs hstep
    refine ⟨?_, hs.2.step hstep⟩
    obtain ⟨i, y, hy, rfl, -, -⟩ := collectiveStep_cases hstep
    intro j hj
    rw [Function.update_apply]
    split
    · subst j
      exact hI.step i hj (s i) y (hs.1 i hj) (hs.2.awaited i) hy
    · exact hs.1 j hj
  exact hinv.1

/-! ## When nothing can happen -/

theorem Blocked.initialized (h : t.Blocked A nodes) {i : ℕ} (hi : i ∈ nodes) :
    (t i).initialized = true := by
  by_contra hinit
  have hstep := h (.init i)
  simp [collectiveStep, hi, hinit] at hstep

theorem Blocked.bundles (h : t.Blocked A nodes) (i : ℕ) : (t i).bundles = [] := by
  cases hb : (t i).bundles with
  | nil => rfl
  | cons b bs =>
    have hstep := h (.bundle i 0)
    simp only [collectiveStep, hb, List.getElem?_cons_zero] at hstep
    split at hstep <;> cases hstep

/-- **A node whose messages have been sent** has received them, when nothing can happen. -/
theorem received_perm_of_blocked (h : t.Blocked A nodes) (hm : Matched nodes t) {j : ℕ}
    (hsent : ∀ i size, (t j).recvs.count (i, size) ≤ (t i).sends.count (j, size)) :
    (t j).received.Perm (t j).recvs := by
  refine List.perm_iff_count.mpr fun m => le_antisymm (hm.awaited j m) ?_
  by_contra hlt
  have hlt' : (t j).received.count m < (t j).recvs.count m := Nat.not_le.mp hlt
  -- a message that is awaited and sent could be received
  have hstep := h (.receive m.1 j m.2)
  have hle := hsent m.1 m.2
  rw [collectiveStep, if_pos ⟨hlt', hlt'.trans_le hle⟩] at hstep
  cases hstep

/-- A node that awaits each message once. -/
theorem received_perm_of_mem_sends (h : t.Blocked A nodes) (hm : Matched nodes t) {j : ℕ}
    (hnodup : (t j).recvs.Nodup) (hsent : ∀ m ∈ (t j).recvs, (j, m.2) ∈ (t m.1).sends) :
    (t j).received.Perm (t j).recvs := by
  refine received_perm_of_blocked h hm fun i size => ?_
  by_cases hmem : (i, size) ∈ (t j).recvs
  · exact (List.nodup_iff_count_le_one.mp hnodup _).trans
      (List.count_pos_iff.mpr (hsent _ hmem))
  · rw [List.count_eq_zero_of_not_mem hmem]
    exact Nat.zero_le _

/-! ## The length of a run -/

/-- How often the bundles come back. -/
def bundleWork : List PacketBundle → ℕ
  | [] => 0
  | b :: bs => (if b.needsProcessing then 2 else 1) + bundleWork bs

theorem bundleWork_append (bs cs : List PacketBundle) :
    bundleWork (bs ++ cs) = bundleWork bs + bundleWork cs := by
  induction bs with
  | nil => simp [bundleWork]
  | cons b bs ih => rw [List.cons_append, bundleWork, bundleWork, ih, Nat.add_assoc]

theorem bundleWork_singleton_le (b : PacketBundle) : bundleWork [b] ≤ 2 := by
  cases h : b.needsProcessing <;> simp [bundleWork, h]

theorem bundleWork_eraseIdx {bundles : List PacketBundle} {k : ℕ} {b : PacketBundle}
    (h : bundles[k]? = some b) :
    bundleWork bundles = bundleWork (bundles.eraseIdx k) + bundleWork [b] := by
  induction bundles generalizing k with
  | nil => simp at h
  | cons c cs ih =>
    cases k with
    | zero =>
      obtain rfl : c = b := by simpa using h
      simp [bundleWork, Nat.add_comm]
    | succ k =>
      have hcs := ih (k := k) (by simpa using h)
      simp only [bundleWork, List.eraseIdx_cons_succ] at hcs ⊢
      omega

theorem bundleWork_set {bundles : List PacketBundle} {k : ℕ} {b c : PacketBundle}
    (h : bundles[k]? = some b) :
    bundleWork (bundles.set k c) = bundleWork (bundles.eraseIdx k) + bundleWork [c] := by
  have hlt : k < bundles.length := (List.getElem?_eq_some_iff.mp h).1
  have hset : bundleWork (bundles.set k c) =
      bundleWork ((bundles.set k c).eraseIdx k) + bundleWork [c] :=
    bundleWork_eraseIdx (by simp [hlt])
  rwa [List.eraseIdx_set_eq] at hset

/-- What an algorithm asks for under an invariant: `p` bundles at the start, one more for each
message that is received, and no more than `S` messages. -/
structure Frugal (A : Algorithm σ) (nodes : Finset ℕ) (I : ℕ → StreamBaseline σ → Prop)
    (p S : ℕ) : Prop where
  init : ∀ i ∈ nodes, ∀ x, I i x → Awaited x → x.initialized = false →
    bundleWork (A.run .streamInit { x with initialized := true }).bundles ≤
      bundleWork x.bundles + 2 * p
  general : ∀ i ∈ nodes, ∀ x k b, I i x → x.bundles[k]? = some b → b.needsProcessing = false →
    (A.run .general { x with bundles := x.bundles.eraseIdx k }).bundles = x.bundles.eraseIdx k
  received : ∀ i ∈ nodes, ∀ x m, I i x → Awaited x → x.received.count m < x.recvs.count m →
    bundleWork (A.run .packetReceived { x with received := x.received ++ [m] }).bundles ≤
      bundleWork x.bundles + 2
  recvs : ∀ i ∈ nodes, ∀ x, I i x → x.recvs.length ≤ S

/-- What is left to do at a node. -/
def nodeWork (p S : ℕ) (x : StreamBaseline σ) : ℕ :=
  bundleWork x.bundles + 3 * (S - x.received.length) + if x.initialized then 0 else 1 + 2 * p

variable {I : ℕ → StreamBaseline σ → Prop} {p S : ℕ}

/-- Every event at a node leaves less to do there. -/
theorem Frugal.nodeWork_lt (hF : Frugal A nodes I p S) {i : ℕ} (hi : i ∈ nodes)
    {x y : StreamBaseline σ} (hx : I i x) (ha : Awaited x) (h : NodeStep A x y) :
    nodeWork p S y < nodeWork p S x := by
  cases h with
  | init hinit =>
    have hle := hF.init i hi x hx ha hinit
    simp only [nodeWork, A.received_run, A.initialized_run, hinit] at hle ⊢
    simp only [if_true, Bool.false_eq_true, if_false]
    omega
  | processed k b hb hp =>
    have herase := bundleWork_eraseIdx hb
    have hset := bundleWork_set (c := { b with needsProcessing := false }) hb
    simp only [nodeWork, bundleWork, hp, if_true, Bool.false_eq_true, if_false] at herase hset ⊢
    omega
  | general k b hb hp =>
    have herase := bundleWork_eraseIdx hb
    simp only [nodeWork, hF.general i hi x k b hx hb hp, A.received_run, A.initialized_run]
    simp only [bundleWork, hp, Bool.false_eq_true, if_false] at herase ⊢
    omega
  | received m hm =>
    have hle := hF.received i hi x m hx ha hm
    have hlt := (ha.length_lt hm).trans_le (hF.recvs i hi x hx)
    simp only [nodeWork, A.received_run, A.initialized_run, List.length_append,
      List.length_singleton]
    omega

/-- **The length of a run**: every event at a node leaves less to do. -/
theorem LocalInv.length_le (hI : LocalInv A nodes I) (hF : Frugal A nodes I p S)
    {as : List CollectiveAct}
    (h : Transition.run (collectiveStep A nodes) (CollectiveState.initial A) as = some t) :
    as.length ≤ nodes.card * (1 + 2 * p + 3 * S) := by
  have hrun : ∀ as s t, s.Reached A nodes →
      Transition.run (collectiveStep A nodes) s as = some t →
      as.length + ∑ i ∈ nodes, nodeWork p S (t i) ≤ ∑ i ∈ nodes, nodeWork p S (s i) := by
    intro as
    induction as with
    | nil =>
      intro s t _ h
      rw [Option.some.inj h]
      simp
    | cons a as ih =>
      intro s t hs h
      rw [Transition.run_cons, Option.bind_eq_some_iff] at h
      obtain ⟨u, hu, h⟩ := h
      have hle := ih u t (hs.tail hu) h
      obtain ⟨i, hi, y, hy, rfl, -⟩ := (Matched.reaches hs).step_cases hu
      -- the other nodes have as much to do as before
      have hlt : ∑ j ∈ nodes, nodeWork p S (Function.update s i y j) <
          ∑ j ∈ nodes, nodeWork p S (s j) := by
        refine Finset.sum_lt_sum (fun j _ => ?_) ⟨i, hi, ?_⟩
        · rw [Function.update_apply]
          split
          · subst j
            exact (hF.nodeWork_lt hi (hI.reaches hs i hi) ((Matched.reaches hs).awaited i) hy).le
          · exact Nat.le_refl _
        · rw [Function.update_self]
          exact hF.nodeWork_lt hi (hI.reaches hs i hi) ((Matched.reaches hs).awaited i) hy
      rw [List.length_cons]
      omega
  have hsum : ∑ i ∈ nodes, nodeWork p S (CollectiveState.initial A i) =
      nodes.card * (1 + 2 * p + 3 * S) := by
    rw [Finset.sum_const_nat]
    intro i _
    simp only [nodeWork, CollectiveState.initial, StreamBaseline.idle, bundleWork, List.length_nil,
      Bool.false_eq_true, if_false]
    omega
  have hle := hrun as _ t (.refl _) h
  omega

end Invariants

/-- **The purpose of a collective phase**, with what each node sends and receives in it. Every run
is bounded; no node panics, goes on twice, or goes on while something is left for it; and when
nothing can happen, every node has gone on and all messages have been exchanged. -/
structure Completes (A : Algorithm σ) (nodes : Finset ℕ) (bound : ℕ)
    (sends recvs : ℕ → List (ℕ × ℕ)) : Prop where
  bounded : ∀ as t,
    Transition.run (collectiveStep A nodes) (CollectiveState.initial A) as = some t →
      as.length ≤ bound
  sound : ∀ t : CollectiveState σ, t.Reached A nodes →
    ∀ i ∈ nodes, (t i).panicked = false ∧ (t i).exits ≤ 1 ∧ ((t i).exits = 1 → (t i).Quiet)
  complete : ∀ t : CollectiveState σ, t.Reached A nodes →
    t.Blocked A nodes → ∀ i ∈ nodes, (t i).exits = 1 ∧ (t i).sends = sends i ∧
      (t i).received.Perm (recvs i)

/-- **Every run can be continued until all nodes have gone on.** -/
theorem Completes.finishes {A : Algorithm σ} {nodes : Finset ℕ} {bound : ℕ}
    {sends recvs : ℕ → List (ℕ × ℕ)} (h : Completes A nodes bound sends recvs)
    {s : CollectiveState σ} (hs : s.Reached A nodes) :
    ∃ t : CollectiveState σ, Transition.Reaches (collectiveStep A nodes) s t ∧
      ∀ i ∈ nodes, (t i).exits = 1 := by
  obtain ⟨as, has⟩ := hs
  induction hn : bound - as.length generalizing s as with
  | zero =>
    -- no further step is possible at the bound
    refine ⟨s, .refl s, fun i hi => (h.complete s ⟨as, has⟩ (fun a => ?_) i hi).1⟩
    by_contra hstep
    obtain ⟨t, ht⟩ := Option.ne_none_iff_exists'.mp hstep
    have hle := h.bounded (as ++ [a]) t (by
      rw [Transition.run_append_of_run has, Transition.run_cons_of_step ht, Transition.run_nil])
    rw [List.length_append, List.length_singleton] at hle
    omega
  | succ n ih =>
    by_cases hblocked : s.Blocked A nodes
    · exact ⟨s, .refl s, fun i hi => (h.complete s ⟨as, has⟩ hblocked i hi).1⟩
    · obtain ⟨a, ha⟩ := not_forall.mp hblocked
      obtain ⟨u, hu⟩ := Option.ne_none_iff_exists'.mp ha
      obtain ⟨t, ht, hexits⟩ := ih (s := u) (as ++ [a])
        (by rw [Transition.run_append_of_run has, Transition.run_cons_of_step hu,
          Transition.run_nil])
        (by rw [List.length_append, List.length_singleton]; omega)
      exact ⟨t, (Transition.Reaches.refl s).tail hu |>.trans ht, hexits⟩

end Opus.Simulation
