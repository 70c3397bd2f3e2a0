import Opus.Simulation.Network

/-!
# Draining the network

The topology manager applies a new bandwidth matrix when it has counted as many links as there are.
It counts the links that are idle when the change is requested, and every link that becomes free
with nothing to send. A chunk that is sent into an idle link during a drain makes a counted link
busy, and the link is counted again when it becomes free.

## Main definitions

* `Net.freeEvents`, `Net.Tracked`: every busy link has one event that frees it, an idle link none
* `Net.idle`, `Net.Drains`: during a drain the counter is the number of idle links
* `Net.AppliesDrained`: all matrices were applied to an idle network
* `QuietDrain`: no chunk is sent into an idle link during a drain

## Main results

* `Net.Drains.incrementCallback`, `Net.Drains.drainNetwork`: the counter reaches the number of links
  when all of them are idle
* `drains_step`: what a step with a quiet drain preserves
* `appliesDrained_of_quietDrain`: in every run with quiet drains, matrices are applied to a drained
  network
-/

namespace Opus.Simulation

open Transition

variable {n : ℕ}

namespace Net

/-- The scheduled events that free the link. -/
def freeEvents (s : Net n) (a : LinkId n) : ℕ := s.events.countP fun p => p.2 = .linkBecomeFree a

/-- Every busy link has one event that frees it, an idle link has none; the link of a device to
itself stays dark. -/
structure Tracked (s : Net n) : Prop where
  freeEvents_eq : ∀ a, s.freeEvents a = if (s.link a).busy then 1 else 0
  dark : ∀ i, s.link (i, i) = ⟨0, 0, false⟩

/-- The number of idle links. -/
def idle (s : Net n) : ℕ := (links n).countP fun a => !(s.link a).busy

/-- Every matrix was applied while no link was busy. -/
def AppliesDrained (s : Net n) : Prop := ∀ l ∈ s.applied, l = []

/-- The links are tracked, the counter of a drain is the number of idle links, and matrices were
applied to a drained network. -/
structure Drains (algo : RoutingAlgorithm) (s : Net n) : Prop where
  tracked : s.Tracked
  counted : s.Counting algo → s.numDrainedLinks = s.idle
  applied : s.AppliesDrained

section

variable {algo : RoutingAlgorithm} {T : Timing} {s : Net n} {a : LinkId n}

theorem idle_le (s : Net n) : s.idle ≤ n * (n - 1) :=
  length_links n ▸ List.countP_le_length

theorem busyLinks_eq_nil (h : s.idle = n * (n - 1)) : s.busyLinks = [] := by
  rw [idle, ← length_links, List.countP_eq_length] at h
  rw [busyLinks, List.filter_eq_nil_iff]
  intro a ha
  simpa using h a ha

/-- A busy link that becomes free is one more idle link. -/
theorem idle_setLink (ha : a.1 ≠ a.2) (hb : (s.link a).busy = true) (l : Link)
    (hl : l.busy = false) : (s.setLink a l).idle = s.idle + 1 := by
  have hp := List.perm_cons_erase (mem_links.mpr ha)
  rw [idle, idle, hp.countP_eq, hp.countP_eq, List.countP_cons_of_pos (by simp [hl]),
    List.countP_cons_of_neg (by simp [hb])]
  refine congrArg (· + 1) (List.countP_congr fun b hb => ?_)
  rw [link_setLink_of_ne s ((nodup_links n).mem_erase_iff.mp hb).1]

theorem idle_congr {t : Net n} (h : ∀ b, (t.link b).busy = (s.link b).busy) : t.idle = s.idle :=
  List.countP_congr fun b _ => by rw [h b]

/-! ## Tracking the links -/

theorem freeEvents_scheduleEvent (s : Net n) (t : ℕ) (e : Event n) (b : LinkId n) :
    (s.scheduleEvent t e).freeEvents b = s.freeEvents b + if e = .linkBecomeFree b then 1 else 0 := by
  simp [freeEvents, scheduleEvent, List.countP_append, List.countP_singleton]

/-- The links other than `a` are tracked, and no event frees `a`. The handler of the event that
frees a link starts in such a state. -/
structure TrackedOff (s : Net n) (a : LinkId n) : Prop where
  ne : a.1 ≠ a.2
  freeEvents_self : s.freeEvents a = 0
  freeEvents_eq : ∀ b, b ≠ a → s.freeEvents b = if (s.link b).busy then 1 else 0
  dark : ∀ i, s.link (i, i) = ⟨0, 0, false⟩

theorem Tracked.off (h : s.Tracked) (ha : a.1 ≠ a.2) (hb : (s.link a).busy = false) :
    s.TrackedOff a where
  ne := ha
  freeEvents_self := by rw [h.freeEvents_eq, hb]; rfl
  freeEvents_eq b _ := h.freeEvents_eq b
  dark := h.dark

theorem TrackedOff.setLink (h : s.TrackedOff a) (l : Link) : (s.setLink a l).TrackedOff a where
  ne := h.ne
  freeEvents_self := h.freeEvents_self
  freeEvents_eq b hb := by
    rw [link_setLink_of_ne s hb]
    exact h.freeEvents_eq b hb
  dark i := by
    have hne : (i, i) ≠ a := by
      rintro rfl
      exact h.ne rfl
    rw [link_setLink_of_ne s hne]
    exact h.dark i

theorem TrackedOff.setPending (h : s.TrackedOff a) (cs : List (Chunk n)) :
    (s.setPending a cs).TrackedOff a :=
  ⟨h.ne, h.freeEvents_self, h.freeEvents_eq, h.dark⟩

theorem TrackedOff.scheduleEvent (h : s.TrackedOff a) (t : ℕ) {e : Event n}
    (he : ∀ b, e ≠ .linkBecomeFree b) : (s.scheduleEvent t e).TrackedOff a where
  ne := h.ne
  freeEvents_self := by
    rw [freeEvents_scheduleEvent, h.freeEvents_self, if_neg (he a)]
  freeEvents_eq b hb := by
    rw [freeEvents_scheduleEvent, if_neg (he b)]
    exact h.freeEvents_eq b hb
  dark := h.dark

/-- An idle link needs no event. -/
theorem TrackedOff.tracked (h : s.TrackedOff a) (hb : (s.link a).busy = false) : s.Tracked where
  freeEvents_eq b := by
    by_cases hba : b = a
    · rw [hba, h.freeEvents_self, hb]
      rfl
    · exact h.freeEvents_eq b hba
  dark := h.dark

/-- A busy link is tracked once its event is scheduled. -/
theorem TrackedOff.arm (h : s.TrackedOff a) (hb : (s.link a).busy = true) (t : ℕ) :
    (s.scheduleEvent t (.linkBecomeFree a)).Tracked where
  freeEvents_eq b := by
    rw [freeEvents_scheduleEvent]
    by_cases hba : b = a
    · subst hba
      rw [h.freeEvents_self, if_pos rfl, link_scheduleEvent, if_pos hb]
    · rw [if_neg (by simpa using Ne.symm hba), h.freeEvents_eq b hba]
      rfl
  dark := h.dark

theorem TrackedOff.transmit (h : s.TrackedOff a) (c : Chunk n) : (s.transmit T a c).Tracked := by
  apply ((h.setLink _).scheduleEvent _ (by simp)).arm
  rw [link_scheduleEvent, link_setLink]

theorem Tracked.scheduleEvent (h : s.Tracked) (t : ℕ) {e : Event n}
    (he : ∀ b, e ≠ .linkBecomeFree b) : (s.scheduleEvent t e).Tracked where
  freeEvents_eq b := by
    rw [freeEvents_scheduleEvent, if_neg (he b)]
    exact h.freeEvents_eq b
  dark := h.dark

/-- A chunk that waits changes no link; one that does not wait finds its link idle. -/
theorem Tracked.send (h : s.Tracked) (c : Chunk n) : (s.send T c).Tracked := by
  unfold Net.send
  split
  · exact ⟨h.freeEvents_eq, h.dark⟩
  · next hw =>
    rw [Waits, not_or] at hw
    have hne : c.hop.1 ≠ c.hop.2 := by
      intro e
      refine hw.2 ?_
      rw [show c.hop = (c.hop.1, c.hop.1) from Prod.ext rfl e.symm, h.dark]
    exact (h.off hne (by simpa using hw.1)).transmit c

/-- A reconfiguration keeps track of a link it finds idle. -/
theorem Tracked.reconfigureLink (h : s.Tracked) (ha : a.1 ≠ a.2) (hb : (s.link a).busy = false) :
    (s.reconfigureLink T a).Tracked := by
  have hoff := h.off ha hb
  rcases reconfigureLink_cases T s a with ⟨t, he⟩ | ⟨c, cs, -, -, he⟩ | ⟨-, he⟩ <;> rw [he]
  · exact (hoff.setLink _).arm (by simp) t
  · exact (((hoff.setLink _).setLink _).setPending cs).transmit c
  · exact (hoff.setLink _).tracked (by simpa using hb)

/-! ## Applying a matrix -/

/-- A reconfiguration of a link touches no other link, and none of what the topology manager
keeps. -/
structure SameManager (s t : Net n) : Prop where
  reconfiguring : t.reconfiguring = s.reconfiguring
  draining : t.draining = s.draining
  applied : t.applied = s.applied

theorem reconfigureLink_sameManager (T : Timing) (s : Net n) (a : LinkId n) :
    SameManager s (s.reconfigureLink T a) := by
  rcases reconfigureLink_cases T s a with ⟨t, he⟩ | ⟨c, cs, -, -, he⟩ | ⟨-, he⟩ <;> rw [he] <;>
    exact ⟨rfl, rfl, rfl⟩

theorem link_reconfigureLink_of_ne {b : LinkId n} (hba : b ≠ a) :
    (s.reconfigureLink T a).link b = s.link b := by
  have hset : ∀ (t : Net n) (l : Link), (t.setLink a l).link b = t.link b :=
    fun t l => link_setLink_of_ne t hba l
  rcases reconfigureLink_cases T s a with ⟨t, he⟩ | ⟨c, cs, -, -, he⟩ | ⟨-, he⟩ <;> rw [he]
  · exact hset _ _
  · exact (hset _ _).trans ((hset _ _).trans (hset _ _))
  · exact hset _ _

/-- The loop over the devices, from a network in which the links still to come are idle. -/
theorem Tracked.foldl_reconfigureLink (as : List (LinkId n)) (hn : as.Nodup) :
    ∀ s : Net n, s.Tracked → (∀ a ∈ as, a.1 ≠ a.2 ∧ (s.link a).busy = false) →
      (as.foldl (Net.reconfigureLink T) s).Tracked ∧
        SameManager s (as.foldl (Net.reconfigureLink T) s) := by
  induction as with
  | nil => exact fun s h _ => ⟨h, rfl, rfl, rfl⟩
  | cons a as ih =>
    intro s h hidle
    obtain ⟨ha, has⟩ := List.nodup_cons.mp hn
    obtain ⟨hne, hb⟩ := hidle a List.mem_cons_self
    obtain ⟨ht, hs⟩ := ih has (s.reconfigureLink T a) (h.reconfigureLink hne hb) fun b hbs => by
      rw [link_reconfigureLink_of_ne (ne_of_mem_of_not_mem hbs ha)]
      exact hidle b (List.mem_cons_of_mem _ hbs)
    have h1 := reconfigureLink_sameManager T s a
    exact ⟨ht, hs.reconfiguring.trans h1.reconfiguring, hs.draining.trans h1.draining,
      hs.applied.trans h1.applied⟩

theorem Tracked.applyTopology (h : s.Tracked) (hd : s.AppliesDrained)
    (hi : s.idle = n * (n - 1)) : (s.applyTopology algo T).Drains algo := by
  have hidle : ∀ a ∈ links n, a.1 ≠ a.2 ∧ (s.link a).busy = false := by
    intro a ha
    have := List.filter_eq_nil_iff.mp (busyLinks_eq_nil hi) a ha
    exact ⟨mem_links.mp ha, by simpa using this⟩
  have happ : ∀ t : Net n, t.applied = s.applied ++ [s.busyLinks] → t.AppliesDrained := by
    intro t ht l hl
    rw [ht] at hl
    rcases List.mem_append.mp hl with hl | hl
    · exact hd l hl
    · rw [List.mem_singleton.mp hl, busyLinks_eq_nil hi]
  cases algo with
  | bfs =>
    obtain ⟨ht, hs⟩ := Tracked.foldl_reconfigureLink (T := T) (links n) (nodup_links n)
      { s with numDrainedLinks := 0, applied := s.applied ++ [s.busyLinks], reconfiguring := false }
      ⟨h.freeEvents_eq, h.dark⟩ hidle
    refine ⟨ht, fun hc => ?_, happ _ hs.applied⟩
    exact absurd (hs.reconfiguring.symm.trans hc.1) Bool.false_ne_true
  | opus =>
    obtain ⟨ht, hs⟩ := Tracked.foldl_reconfigureLink (T := T) (links n) (nodup_links n)
      { s with numDrainedLinks := 0, applied := s.applied ++ [s.busyLinks], draining := false }
      ⟨h.freeEvents_eq, h.dark⟩ hidle
    simp only [Net.applyTopology]
    split
    · exact ⟨⟨ht.freeEvents_eq, ht.dark⟩, fun hc => absurd hc.1 Bool.false_ne_true,
        happ _ hs.applied⟩
    · refine ⟨ht.scheduleEvent _ (by simp), fun hc => ?_, happ _ hs.applied⟩
      exact absurd (hs.draining.symm.trans (hc.2 rfl)) Bool.false_ne_true

/-! ## Counting the idle links -/

/-- **A link is counted**: when the counter lags one behind the idle links, it catches up, or the
network is drained and the matrix is applied. -/
theorem Tracked.incrementCallback (h : s.Tracked) (hd : s.AppliesDrained)
    (hc : s.Counting algo → s.numDrainedLinks + 1 = s.idle) :
    (s.incrementCallback algo T).Drains algo := by
  unfold Net.incrementCallback
  split_ifs with hn hlt
  · exact ⟨⟨h.freeEvents_eq, h.dark⟩, fun _ => hc hn, hd⟩
  · have hle := s.idle_le
    have hlast := hc hn
    exact h.applyTopology hd (by omega)
  · exact ⟨⟨h.freeEvents_eq, h.dark⟩, fun hc' => absurd hc' hn, hd⟩

/-- The loop of `drain_network` counts the idle links, as long as some link is busy. -/
theorem foldl_drainLink (as : List (LinkId n)) :
    ∀ s : Net n, s.Counting algo →
      s.numDrainedLinks + as.countP (fun a => !(s.link a).busy) < n * (n - 1) →
      as.foldl (drainLink algo T) s =
        { s with numDrainedLinks := s.numDrainedLinks + as.countP fun a => !(s.link a).busy } := by
  induction as with
  | nil => exact fun s _ _ => rfl
  | cons a as ih =>
    intro s hc hlt
    rw [List.foldl_cons]
    cases hb : (s.link a).busy with
    | true =>
      rw [List.countP_cons_of_neg (by simp [hb])] at hlt ⊢
      rw [drainLink, if_pos hb]
      exact ih s hc hlt
    | false =>
      rw [List.countP_cons_of_pos (by simp [hb])] at hlt ⊢
      rw [drainLink, if_neg (by simp [hb]), Net.incrementCallback, if_neg (not_not.mpr hc),
        if_pos (by omega), ih]
      · have hadd : s.numDrainedLinks + 1 + as.countP (fun a => !(s.link a).busy) =
            s.numDrainedLinks + (as.countP (fun a => !(s.link a).busy) + 1) := by omega
        exact congrArg (fun k => { s with numDrainedLinks := k }) hadd
      · exact hc
      · show s.numDrainedLinks + 1 + as.countP (fun a => !(s.link a).busy) < n * (n - 1)
        omega

/-- **A drain starts**: the counter is the number of idle links, or all links are idle and the
matrix is applied at the last of them. -/
theorem Tracked.drainNetwork (h : s.Tracked) (hd : s.AppliesDrained) (hc : s.Counting algo) :
    (s.drainNetwork algo T).Drains algo := by
  have hc0 : ({ s with numDrainedLinks := 0 } : Net n).Counting algo := hc
  rcases Nat.lt_or_eq_of_le s.idle_le with hlt | heq
  · rw [Net.drainNetwork, foldl_drainLink (links n) _ hc0 (by rw [Nat.zero_add]; exact hlt)]
    exact ⟨⟨h.freeEvents_eq, h.dark⟩, fun _ => Nat.zero_add _, hd⟩
  · rcases List.eq_nil_or_concat (links n) with hnil | ⟨as, a, hl⟩
    · rw [Net.drainNetwork, hnil]
      refine ⟨⟨h.freeEvents_eq, h.dark⟩, fun _ => ?_, hd⟩
      rw [idle, hnil]
      rfl
    · -- all links but the last one are counted, and the last one is idle
      rw [List.concat_eq_append] at hl
      have hall : ∀ b ∈ links n, (s.link b).busy = false := by
        rw [idle, ← length_links, List.countP_eq_length] at heq
        simpa using heq
      have hcount : as.countP (fun b => !(s.link b).busy) + 1 = n * (n - 1) := by
        have has : as.countP (fun b => !(s.link b).busy) = as.length := by
          rw [List.countP_eq_length]
          intro b hb
          simp [hall b (by simp [hl, hb])]
        rw [has, ← length_links, hl, List.length_append, List.length_singleton]
      have hlt : 0 + as.countP (fun b => !(s.link b).busy) < n * (n - 1) := by omega
      rw [Net.drainNetwork, hl, List.foldl_append, foldl_drainLink as _ hc0 hlt, List.foldl_cons,
        List.foldl_nil, drainLink, if_neg (by simp [hall a (by simp [hl])])]
      refine Tracked.incrementCallback ⟨h.freeEvents_eq, h.dark⟩ hd fun _ => ?_
      show 0 + as.countP (fun b => !(s.link b).busy) + 1 = s.idle
      omega

end

end Net

/-! ## Runs -/

open Net

/-- The link for which the step calls `Device::send`: the first hop of an injected chunk, or the
next hop of a chunk that is forwarded. -/
def sendLink (s : Net n) : NetAct n → Option (LinkId n)
  | .inject _ src next _ => some (src, next)
  | .proceed k =>
    match s.events[k]? with
    | some (_, .chunkArrivedNextDevice c) => c.rest.head?.map fun d => (c.next, d)
    | _ => none
  | _ => none

/-- While a drain is in progress, no chunk is sent into an idle link: a chunk that is injected or
forwarded finds its link busy or dark. -/
def QuietDrain (algo : RoutingAlgorithm) (s : Net n) (a : NetAct n) : Prop :=
  s.Counting algo → ∀ l ∈ sendLink s a, s.Waits l

instance (algo : RoutingAlgorithm) (s : Net n) (a : NetAct n) : Decidable (QuietDrain algo s a) :=
  inferInstanceAs (Decidable (_ → _))

section

variable {algo : RoutingAlgorithm} {T : Timing} {s t : Net n}

theorem Net.Drains.send (h : s.Drains algo) (c : Chunk n) (hq : s.Counting algo → s.Waits c.hop) :
    (s.send T c).Drains algo := by
  refine ⟨h.tracked.send c, fun hc => ?_, ?_⟩
  · unfold Net.send at hc ⊢
    split
    · next hw =>
      rw [if_pos hw] at hc
      exact h.counted hc
    · next hw =>
      rw [if_neg hw] at hc
      exact absurd (hq hc) hw
  · unfold Net.send
    split <;> exact h.applied

theorem Net.Drains.chunkArrived (h : s.Drains algo) (c : Chunk n)
    (hq : s.Counting algo → ∀ l ∈ c.rest.head?.map fun d => (c.next, d), s.Waits l) :
    (s.chunkArrived T c).Drains algo := by
  unfold Net.chunkArrived
  split
  · exact ⟨⟨h.tracked.freeEvents_eq, h.tracked.dark⟩, h.counted, h.applied⟩
  · next d rest hrest =>
    refine h.send _ fun hc => hq hc _ ?_
    rw [hrest]
    rfl

/-- The event that frees a link, from a network in which it has been taken from the queue. -/
theorem Net.TrackedOff.linkBecomeFree {a : LinkId n} (h : s.TrackedOff a) (hd : s.AppliesDrained)
    (hb : (s.link a).busy = true) (hc : s.Counting algo → s.numDrainedLinks = s.idle) :
    (s.linkBecomeFree T (incrementCallback algo T) a).Drains algo := by
  by_cases hp : s.pendingChunks a = [] ∨ (s.link a).bandwidth = 0
  · rw [linkBecomeFree_of_idle T s a _ hp]
    refine ((h.setLink _).tracked (by simp)).incrementCallback hd fun hc' => ?_
    rw [idle_setLink h.ne hb _ rfl, ← hc hc']
    rfl
  · rw [not_or] at hp
    obtain ⟨c, cs, hcs⟩ := List.exists_cons_of_ne_nil hp.1
    rw [linkBecomeFree_of_cons T s a _ hcs hp.2]
    -- the link is busy again, so that the number of idle links is what it was
    refine ⟨((h.setLink _).setPending cs).transmit c, fun hc' => (hc hc').trans ?_, hd⟩
    refine (idle_congr fun b => ?_).symm
    by_cases hba : b = a
    · subst hba
      simp [hb]
    · simp [link_setLink_of_ne _ hba]

/-- The event at position `k` counts for its link only. -/
theorem Net.freeEvents_takeEvent {k time : ℕ} {e : Event n} (hk : s.events[k]? = some (time, e))
    (a : LinkId n) :
    s.freeEvents a =
      (s.takeEvent k time).freeEvents a + if e = .linkBecomeFree a then 1 else 0 := by
  have h := countP_takeEvent hk fun p => p.2 = .linkBecomeFree a
  simp only [decide_eq_true_eq] at h
  exact h

theorem Net.Drains.takeEvent (h : s.Drains algo) {k time : ℕ} {e : Event n}
    (hk : s.events[k]? = some (time, e)) (he : ∀ a, e ≠ .linkBecomeFree a) :
    (s.takeEvent k time).Drains algo where
  tracked :=
    { freeEvents_eq := fun a => by
        have ha := freeEvents_takeEvent hk a
        rw [if_neg (he a), h.tracked.freeEvents_eq] at ha
        exact ha.symm
      dark := h.tracked.dark }
  counted := h.counted
  applied := h.applied

/-- The event that frees a link finds the link busy, and is the only one. -/
theorem Net.Tracked.takeEvent (h : s.Tracked) {k time : ℕ} {a : LinkId n}
    (hk : s.events[k]? = some (time, .linkBecomeFree a)) :
    (s.takeEvent k time).TrackedOff a ∧ ((s.takeEvent k time).link a).busy = true := by
  have ha := freeEvents_takeEvent hk a
  rw [if_pos rfl, h.freeEvents_eq] at ha
  have hb : (s.link a).busy = true := by
    by_contra hb
    rw [if_neg hb] at ha
    omega
  rw [if_pos hb] at ha
  refine ⟨⟨?_, by omega, fun b hba => ?_, h.dark⟩, hb⟩
  · intro e
    rw [show a = (a.1, a.1) from Prod.ext rfl e.symm, h.dark] at hb
    exact Bool.false_ne_true hb
  · have hb' := freeEvents_takeEvent hk b
    rw [if_neg (by simpa using Ne.symm hba), h.freeEvents_eq] at hb'
    exact hb'.symm

/-- **A step with a quiet drain** keeps the links tracked and the counter exact, and applies a matrix
only to a drained network. -/
theorem drains_step {a : NetAct n} (h : s.Drains algo) (hq : QuietDrain algo s a)
    (hs : netStep algo T s a = some t) : t.Drains algo := by
  rcases netStep_cases hs with ⟨k, time, e, rfl, hk, rfl⟩ | ⟨size, src, next, rest, rfl, rfl⟩ |
    ⟨bw, lat, r, id, skip, rfl, rfl⟩ | ⟨lat, rfl⟩ | ⟨k, rfl⟩ | ⟨time, rfl⟩
  · cases e with
    | chunkArrivedNextDevice c =>
      have h' := h.takeEvent hk (by simp)
      have hl : sendLink s (.proceed k) = c.rest.head?.map fun d => (c.next, d) := by
        simp only [sendLink, hk]
      exact h'.chunkArrived c (hl ▸ hq)
    | linkBecomeFree a =>
      obtain ⟨hoff, hb⟩ := h.tracked.takeEvent hk
      exact hoff.linkBecomeFree h.applied hb h.counted
    | finishReconfiguration =>
      have h' := h.takeEvent hk (by simp)
      exact ⟨⟨h'.tracked.freeEvents_eq, h'.tracked.dark⟩, fun hc => absurd hc.1 Bool.false_ne_true,
        h'.applied⟩
    | workload => exact h.takeEvent hk (by simp)
  · have h' : ({ s with injected := s.injected ++ [⟨s.injected.length, size, src, next, rest⟩] } :
        Net n).Drains algo :=
      ⟨⟨h.tracked.freeEvents_eq, h.tracked.dark⟩, h.counted, h.applied⟩
    exact h'.send _ fun hc => hq hc _ rfl
  · rcases reconfigure_cases algo T s bw lat r id skip with he | he | he <;> rw [he]
    · exact h
    · exact ⟨⟨h.tracked.freeEvents_eq, h.tracked.dark⟩, h.counted, h.applied⟩
    · refine Tracked.drainNetwork ⟨h.tracked.freeEvents_eq, h.tracked.dark⟩ h.applied ⟨rfl, ?_⟩
      exact fun ho => decide_eq_true ho
  · exact ⟨⟨h.tracked.freeEvents_eq, h.tracked.dark⟩, h.counted, h.applied⟩
  · exact ⟨⟨h.tracked.freeEvents_eq, h.tracked.dark⟩, h.counted, h.applied⟩
  · exact ⟨h.tracked.scheduleEvent _ (by simp), h.counted, h.applied⟩

end

theorem drains_initial (algo : RoutingAlgorithm) (n : ℕ) : (Net.initial n).Drains algo where
  tracked := ⟨fun _ => rfl, fun _ => rfl⟩
  counted hc := absurd hc.1 Bool.false_ne_true
  applied _ hl := absurd hl List.not_mem_nil

/-- **In every run with quiet drains, matrices are applied to a drained network**: for every number
of devices, both routing algorithms, and every order of injections, requests and events, no link is
busy when `increment_callback` applies a matrix, if no chunk is sent into an idle link while a drain
is in progress. -/
theorem appliesDrained_of_quietDrain (algo : RoutingAlgorithm) (T : Timing) {as : List (NetAct n)}
    {s : Net n} (hrun : run (netStep algo T) (Net.initial n) as = some s)
    (hq : Along (netStep algo T) (QuietDrain algo) (Net.initial n) as) : s.AppliesDrained :=
  (run_invariant_along (fun _ _ _ h hq hs => drains_step h hq hs) hrun hq
    (drains_initial algo n)).applied

/-- The second chunk is sent while the network drains. Its link is still busy with the first one,
so that it waits, and the change waits for both. -/
def quietRun : List (NetAct 2) :=
  [.reconfigure (fun _ => 1) (fun _ => 0) 0 0 false, .inject 1000000 1 0 [],
    .reconfigure (fun _ => 4) (fun _ => 0) 0 1 false, .inject 10 1 0 [],
    .proceed 0, .proceed 0, .proceed 0, .proceed 0]

theorem appliesDrained_quietRun :
    ∃ s, run (netStep .bfs .exact) (Net.initial 2) quietRun = some s ∧ s.applied.length = 2 ∧
      s.AppliesDrained := by
  have hrun : (run (netStep .bfs .exact) (Net.initial 2) quietRun).isSome = true := by
    decide +kernel
  have hq : Along (netStep .bfs .exact) (QuietDrain .bfs) (Net.initial 2) quietRun := by
    decide +kernel
  obtain ⟨s, hs⟩ := Option.isSome_iff_exists.mp hrun
  have hlen : (run (netStep .bfs .exact) (Net.initial 2) quietRun).map (·.applied.length) =
      some 2 := by
    decide +kernel
  rw [hs] at hlen
  exact ⟨s, hs, Option.some.inj hlen, appliesDrained_of_quietDrain .bfs .exact hs hq⟩

/-- While the long chunk is on its way from device `1`, device `0` sends a short one over the link
that was counted when the drain began. -/
def overlapRun : List (NetAct 2) :=
  [.reconfigure (fun _ => 1) (fun _ => 0) 0 0 false, .inject 1000000 1 0 [],
    .reconfigure (fun _ => 4) (fun _ => 0) 0 1 false, .inject 10 0 1 [], .proceed 2, .proceed 2]

/-- The short chunk makes the counter reach two. The second matrix is applied while the link from
device `1` is busy, and its chunk arrives only later. -/
theorem not_appliesDrained_overlapRun :
    ∃ s, run (netStep .bfs .exact) (Net.initial 2) overlapRun = some s ∧ ¬ s.AppliesDrained ∧
      s.applied = [[], [(1, 0)]] ∧
      (931322, .chunkArrivedNextDevice ⟨0, 1000000, 1, 0, []⟩) ∈ s.events := by
  have hrun : (run (netStep .bfs .exact) (Net.initial 2) overlapRun).map
      (fun s => (s.applied, s.events)) = some ([[], [(1, 0)]],
        [(931322, .chunkArrivedNextDevice ⟨0, 1000000, 1, 0, []⟩),
          (931322, .linkBecomeFree (1, 0))]) := by
    decide +kernel
  obtain ⟨s, hs, he⟩ := Option.map_eq_some_iff.mp hrun
  obtain ⟨happ, hev⟩ := Prod.mk.inj he
  refine ⟨s, hs, fun h => ?_, happ, ?_⟩
  · have h1 := h [(1, 0)] (by rw [happ]; simp)
    exact List.cons_ne_nil _ _ h1
  · rw [hev]
    exact List.mem_cons_self

end Opus.Simulation
