import Mathlib.Algebra.BigOperators.Group.Finset.Basic
import Mathlib.Algebra.Order.Group.Multiset
import Mathlib.Data.Fintype.Prod
import Opus.Simulation.Network

/-!
# Conservation of chunks

A chunk moves between the pending queues of the devices, the arrival events and the log of delivered
chunks. Links change their bandwidth while chunks wait for them, and are freed by events or by a
direct call. In every reachable state each injected chunk is in exactly one place, and a chunk that
waits for a link with bandwidth waits for an event.

## Main definitions

* `Place`, `Net.places`: where chunks are
* `Place.Fits`: the place belongs to the route of the chunk
* `Net.Conserved`: every injected chunk has one place, which fits
* `Net.Awake`: every busy link has an event that frees it, and no idle link with bandwidth has
  chunks waiting

## Main results

* `Net.Conserved.swap`: a chunk is taken from one place and put into another
* `sound_step`: every step keeps both invariants
* `conservation`: what holds in every reachable state
-/

namespace Opus.Simulation

open Transition

variable {n : ℕ}

/-! ## Places -/

/-- A place of a chunk. -/
inductive Place (n : ℕ) where
  /-- the callback of the chunk ran at this device -/
  | delivered (id : ℕ) (d : Fin n)
  /-- the chunk waits for this link -/
  | pending (a : LinkId n) (c : Chunk n)
  /-- an arrival event carries the chunk -/
  | carried (c : Chunk n)
  deriving DecidableEq

namespace Place

/-- The chunk in the place. -/
def id : Place n → ℕ
  | delivered k _ => k
  | pending _ c => c.id
  | carried c => c.id

/-- The place belongs to the route of the injected chunk: the last device, or the link to the next
device of what remains of the route. -/
def Fits (c : Chunk n) : Place n → Prop
  | delivered _ d => d = c.dest
  | pending a c' => c'.hop = a ∧ c'.size = c.size ∧ c'.route <:+ c.route
  | carried c' => c'.size = c.size ∧ c'.route <:+ c.route

end Place

theorem Chunk.getLast?_route (c : Chunk n) : c.route.getLast? = some c.dest := by
  rw [Chunk.route, List.getLast?_cons_cons, List.getLast?_eq_some_getLast (List.cons_ne_nil _ _)]
  rfl

/-- The chunk an event carries. -/
def Event.carried : Event n → Option (Place n)
  | .chunkArrivedNextDevice c => some (.carried c)
  | _ => none

theorem Event.carried_eq_some_iff {e : Event n} {p : Place n} :
    e.carried = some p ↔ ∃ c, e = .chunkArrivedNextDevice c ∧ p = .carried c := by
  cases e <;> simp [Event.carried, eq_comm]

namespace Net

/-- The chunks in the pending queue of one link. -/
def pendingPlaces (s : Net n) (a : LinkId n) : Multiset (Place n) :=
  ↑((s.pendingChunks a).map (Place.pending a))

/-- The places of all chunks. -/
def places (s : Net n) : Multiset (Place n) :=
  ↑(s.delivered.map fun p => Place.delivered p.1 p.2) +
    (∑ a, s.pendingPlaces a) + ↑(s.events.filterMap fun p => p.2.carried)

/-- The places of one chunk. -/
def placesOf (s : Net n) (k : ℕ) : Multiset (Place n) := s.places.filter fun p => p.id = k

theorem delivered_mem_places {s : Net n} {k : ℕ} {d : Fin n} :
    .delivered k d ∈ s.places ↔ (k, d) ∈ s.delivered := by
  simp [places, pendingPlaces, Multiset.mem_sum, Event.carried_eq_some_iff]

theorem pending_mem_places {s : Net n} {a : LinkId n} {c : Chunk n} :
    .pending a c ∈ s.places ↔ c ∈ s.pendingChunks a := by
  simp [places, pendingPlaces, Multiset.mem_sum, Event.carried_eq_some_iff]

theorem carried_mem_places {s : Net n} {c : Chunk n} :
    .carried c ∈ s.places ↔ ∃ time, (time, .chunkArrivedNextDevice c) ∈ s.events := by
  simp [places, pendingPlaces, Multiset.mem_sum, Event.carried_eq_some_iff]

/-- Every injected chunk has one place, and the place fits. -/
structure Conserved (s : Net n) : Prop where
  map_id : s.places.map Place.id = Multiset.range s.injected.length
  fits : ∀ p ∈ s.places, ∃ c, s.injected[p.id]? = some c ∧ p.Fits c

section

variable {s t : Net n} {a : LinkId n} {T : Timing}

theorem Conserved.congr (h : s.Conserved) (hp : t.places = s.places)
    (hi : t.injected = s.injected) : t.Conserved where
  map_id := by rw [hp, hi, h.map_id]
  fits := by rw [hp, hi]; exact h.fits

/-- **A move**: a chunk is taken from one place and put into another. -/
theorem Conserved.swap (h : s.Conserved) {p q : Place n} {m : Multiset (Place n)}
    (hs : s.places = p ::ₘ m) (ht : t.places = q ::ₘ m) (hi : t.injected = s.injected)
    (hid : q.id = p.id) (hfit : ∀ c, p.Fits c → q.Fits c) : t.Conserved where
  map_id := by
    rw [ht, hi, ← h.map_id, hs, Multiset.map_cons, Multiset.map_cons, hid]
  fits := by
    intro r hr
    rw [ht, Multiset.mem_cons] at hr
    rw [hi]
    rcases hr with rfl | hr
    · obtain ⟨c, hc, hp⟩ := h.fits p (hs ▸ Multiset.mem_cons_self p m)
      exact ⟨c, hid ▸ hc, hfit c hp⟩
    · exact h.fits r (hs ▸ Multiset.mem_cons_of_mem hr)

/-- Every injected chunk is in exactly one place. -/
theorem Conserved.placesOf_eq (h : s.Conserved) {k : ℕ} {c : Chunk n}
    (hk : s.injected[k]? = some c) : ∃ p, s.placesOf k = {p} ∧ p.Fits c := by
  have hlt : k < s.injected.length := (List.getElem?_eq_some_iff.mp hk).1
  have hcard : (s.placesOf k).card = 1 := by
    have hcount : (s.places.map Place.id).count k = 1 := by
      rw [h.map_id]
      exact Multiset.count_eq_one_of_mem (Multiset.nodup_range _) (Multiset.mem_range.mpr hlt)
    rw [Multiset.count_map] at hcount
    rw [placesOf, ← hcount]
    simp only [eq_comm]
  obtain ⟨p, hp⟩ := Multiset.card_eq_one.mp hcard
  have hmem : p ∈ s.placesOf k := hp ▸ Multiset.mem_singleton_self p
  obtain ⟨hps, hpk⟩ := Multiset.mem_filter.mp hmem
  obtain ⟨c', hc', hfit⟩ := h.fits p hps
  rw [hpk, hk] at hc'
  exact ⟨p, hp, Option.some.inj hc' ▸ hfit⟩

/-! ## Moves -/

theorem places_setLink (l : Link) : (s.setLink a l).places = s.places := rfl

theorem places_scheduleEvent (time : ℕ) (e : Event n) :
    (s.scheduleEvent time e).places = ↑e.carried.toList + s.places := by
  have he : ([(time, e)].filterMap fun p => p.2.carried) = e.carried.toList := by
    cases hc : e.carried <;> simp [hc]
  have hev : (s.scheduleEvent time e).events = s.events ++ [(time, e)] := rfl
  rw [places, places, hev, List.filterMap_append, he, ← Multiset.coe_add, ← add_assoc, add_comm]
  rfl

theorem places_transmit (c : Chunk n) : (s.transmit T a c).places = .carried c ::ₘ s.places := by
  rw [transmit, places_scheduleEvent, places_scheduleEvent, places_setLink]
  exact zero_add _

/-- The places outside one queue. -/
def otherPlaces (s : Net n) (a : LinkId n) : Multiset (Place n) :=
  ↑(s.delivered.map fun p => Place.delivered p.1 p.2) +
    (∑ b ∈ Finset.univ.erase a, s.pendingPlaces b) + ↑(s.events.filterMap fun p => p.2.carried)

theorem places_eq_add (s : Net n) (a : LinkId n) :
    s.places = s.pendingPlaces a + s.otherPlaces a := by
  rw [places, otherPlaces, ← Finset.add_sum_erase _ _ (Finset.mem_univ a)]
  ac_rfl

theorem otherPlaces_setPending (cs : List (Chunk n)) :
    (s.setPending a cs).otherPlaces a = s.otherPlaces a := by
  have hne : ∑ b ∈ Finset.univ.erase a, (s.setPending a cs).pendingPlaces b =
      ∑ b ∈ Finset.univ.erase a, s.pendingPlaces b := by
    refine Finset.sum_congr rfl fun b hb => ?_
    simp only [pendingPlaces, setPending, Function.update_of_ne (Finset.ne_of_mem_erase hb)]
  rw [otherPlaces, hne]
  rfl

theorem places_setPending (cs : List (Chunk n)) :
    (s.setPending a cs).places = ↑(cs.map (Place.pending a)) + s.otherPlaces a := by
  rw [places_eq_add _ a, otherPlaces_setPending]
  simp only [pendingPlaces, setPending, Function.update_self]

/-- A chunk is put at the end of a queue. -/
theorem places_push (c : Chunk n) :
    (s.setPending a (s.pendingChunks a ++ [c])).places = .pending a c ::ₘ s.places := by
  rw [places_setPending, places_eq_add s a, List.map_append, List.map_singleton,
    ← Multiset.coe_add, Multiset.coe_singleton, add_comm (Multiset.ofList _) {_}, add_assoc,
    Multiset.singleton_add]
  rfl

/-- A chunk is taken from the front of a queue. -/
theorem places_pop {c : Chunk n} {cs : List (Chunk n)} (h : s.pendingChunks a = c :: cs) :
    s.places = .pending a c ::ₘ (s.setPending a cs).places := by
  rw [places_setPending, places_eq_add s a, pendingPlaces, h, List.map_cons, ← Multiset.cons_coe,
    Multiset.cons_add]

/-- An event is taken from the queue. -/
theorem places_takeEvent {k time : ℕ} {e : Event n} (hk : s.events[k]? = some (time, e)) :
    s.places = ↑e.carried.toList + (s.takeEvent k time).places := by
  obtain ⟨hlt, he⟩ := List.getElem?_eq_some_iff.mp hk
  have hp := (List.getElem_cons_eraseIdx_perm hlt).filterMap fun p => p.2.carried
  have hcons : (s.events[k] :: s.events.eraseIdx k).filterMap (fun p => p.2.carried) =
      e.carried.toList ++ (s.events.eraseIdx k).filterMap fun p => p.2.carried := by
    rw [he]
    cases hc : e.carried <;> simp [hc]
  rw [places, ← Multiset.coe_eq_coe.mpr hp, hcons, ← Multiset.coe_add]
  show _ = _ + (_ + _ + _)
  ac_rfl

/-- The callback of a chunk runs. -/
theorem places_deliver (k : ℕ) (d : Fin n) :
    ({ s with delivered := s.delivered ++ [(k, d)] } : Net n).places =
      .delivered k d ::ₘ s.places := by
  rw [places, places, List.map_append, List.map_singleton, ← Multiset.coe_add,
    Multiset.coe_singleton, add_comm (Multiset.ofList _) {_}, add_assoc, add_assoc,
    Multiset.singleton_add, ← add_assoc]
  rfl

/-! ## The operations keep the chunks -/

/-- A chunk in no place is put into a queue or sent. -/
theorem places_send (c : Chunk n) :
    (s.send T c).places = .pending c.hop c ::ₘ s.places ∨
      (s.send T c).places = .carried c ::ₘ s.places := by
  unfold send
  split
  · exact .inl (places_push c)
  · exact .inr (places_transmit c)

theorem injected_send (c : Chunk n) : (s.send T c).injected = s.injected := by
  unfold send
  split <;> rfl

/-- The first chunk of a queue is sent. -/
theorem Conserved.restart (h : s.Conserved) {c : Chunk n} {cs : List (Chunk n)} (l : Link)
    (hc : s.pendingChunks a = c :: cs) : (((s.setLink a l).setPending a cs).transmit T a c).Conserved :=
  h.swap (places_pop hc) (places_transmit c) rfl rfl fun _ hf => ⟨hf.2.1, hf.2.2⟩

theorem Conserved.reconfigureLink (h : s.Conserved) : (s.reconfigureLink T a).Conserved := by
  rcases reconfigureLink_cases T s a with ⟨t, he⟩ | ⟨c, cs, hc, -, he⟩ | ⟨-, he⟩ <;> rw [he]
  · refine h.congr ?_ rfl
    rw [places_scheduleEvent]
    exact zero_add _
  · exact (h.congr rfl rfl : (s.relink a).Conserved).restart _ hc
  · exact h.congr rfl rfl

/-- An arriving chunk is delivered, or sent on. -/
theorem Conserved.chunkArrived (h : s.Conserved) {k time : ℕ} {c : Chunk n}
    (hk : s.events[k]? = some (time, .chunkArrivedNextDevice c)) :
    ((s.takeEvent k time).chunkArrived T c).Conserved := by
  have hs : s.places = .carried c ::ₘ (s.takeEvent k time).places := places_takeEvent hk
  unfold Net.chunkArrived
  split
  · next hrest =>
    -- the last device of the route
    refine h.swap hs (places_deliver c.id c.next) rfl rfl fun c₀ hf => ?_
    have hlast : c₀.route.getLast? = some c.next := by
      obtain ⟨pre, hpre⟩ := hf.2
      rw [← hpre, Chunk.route, hrest, List.getLast?_append]
      rfl
    rw [c₀.getLast?_route] at hlast
    exact (Option.some.inj hlast).symm
  · next d rest hrest =>
    have hfit : ∀ c₀, Place.Fits c₀ (.carried c) →
        c.size = c₀.size ∧ (c.next :: d :: rest) <:+ c₀.route := by
      rintro c₀ ⟨hsize, hsuf⟩
      refine ⟨hsize, List.IsSuffix.trans ?_ hsuf⟩
      rw [Chunk.route, hrest]
      exact List.suffix_cons _ _
    rcases places_send (s := s.takeEvent k time) (T := T) ⟨c.id, c.size, c.next, d, rest⟩ with hq | hq
    · exact h.swap hs hq (injected_send _) rfl fun c₀ hf => ⟨rfl, hfit c₀ hf⟩
    · exact h.swap hs hq (injected_send _) rfl fun c₀ hf => hfit c₀ hf

/-- A chunk is injected. -/
theorem Conserved.inject (h : s.Conserved) (size : ℕ) (src next : Fin n) (rest : List (Fin n)) :
    (s.inject T size src next rest).Conserved := by
  obtain ⟨q, hq, hid, hfit⟩ : ∃ q, (s.inject T size src next rest).places = q ::ₘ s.places ∧
      q.id = s.injected.length ∧ q.Fits ⟨s.injected.length, size, src, next, rest⟩ := by
    rcases places_send (T := T)
      (s := { s with injected := s.injected ++ [⟨s.injected.length, size, src, next, rest⟩] })
      ⟨s.injected.length, size, src, next, rest⟩ with hq | hq
    · exact ⟨_, hq, rfl, rfl, rfl, List.suffix_rfl⟩
    · exact ⟨_, hq, rfl, rfl, List.suffix_rfl⟩
  have hi : (s.inject T size src next rest).injected =
      s.injected ++ [⟨s.injected.length, size, src, next, rest⟩] :=
    injected_send _
  refine ⟨?_, fun p hp => ?_⟩
  · rw [hq, hi, Multiset.map_cons, h.map_id, hid, List.length_append, List.length_singleton,
      Multiset.range_succ]
  · rw [hq, Multiset.mem_cons] at hp
    rw [hi]
    rcases hp with rfl | hp
    · exact ⟨_, by rw [hid, List.getElem?_concat_length], hfit⟩
    · obtain ⟨c, hc, hf⟩ := h.fits p hp
      exact ⟨c, by rw [List.getElem?_append_left (List.getElem?_eq_some_iff.mp hc).1, hc], hf⟩

/-! ## Waiting chunks are woken up -/

/-- The link has an event that frees it when it is busy, and chunks wait for it only when it is
busy or dark. -/
structure AwakeAt (s : Net n) (a : LinkId n) : Prop where
  freeEvent : (s.link a).busy = true → ∃ time, (time, .linkBecomeFree a) ∈ s.events
  waits : s.pendingChunks a ≠ [] → s.Waits a

def Awake (s : Net n) : Prop := ∀ a, s.AwakeAt a

/-- An operation on one link leaves the other links awake when it takes no event. -/
theorem Awake.of_update (h : ∀ b, b ≠ a → s.AwakeAt b) (ha : t.AwakeAt a)
    (hl : ∀ b, b ≠ a → t.link b = s.link b)
    (hp : ∀ b, b ≠ a → t.pendingChunks b = s.pendingChunks b) (he : s.events ⊆ t.events) :
    t.Awake := by
  intro b
  by_cases hba : b = a
  · exact hba ▸ ha
  · obtain ⟨hfree, hwait⟩ := h b hba
    refine ⟨fun hb => ?_, fun hb => ?_⟩
    · rw [hl b hba] at hb
      obtain ⟨time, ht⟩ := hfree hb
      exact ⟨time, he ht⟩
    · rw [hp b hba] at hb
      rw [Waits, hl b hba]
      exact hwait hb

theorem AwakeAt.setLink_of_ne {b : LinkId n} (h : s.AwakeAt b) (hba : b ≠ a) (l : Link) :
    (s.setLink a l).AwakeAt b := by
  have hl := link_setLink_of_ne s hba l
  refine ⟨fun hb => h.freeEvent (hl ▸ hb), fun hne => ?_⟩
  rw [Waits, hl]
  exact h.waits hne

/-- A link that starts to send is awake. -/
theorem awakeAt_transmit (s : Net n) (a : LinkId n) (c : Chunk n) : (s.transmit T a c).AwakeAt a where
  freeEvent _ := ⟨_, List.mem_append_right _ List.mem_cons_self⟩
  waits _ := .inl (by simp)

theorem events_subset_transmit (s : Net n) (a : LinkId n) (c : Chunk n) :
    s.events ⊆ (s.transmit T a c).events :=
  fun _ hp => List.mem_append_left _ (List.mem_append_left _ hp)

/-- The first chunk of a queue is sent. -/
theorem Awake.restart (h : ∀ b, b ≠ a → s.AwakeAt b) (l : Link) (c : Chunk n)
    (cs : List (Chunk n)) : (((s.setLink a l).setPending a cs).transmit T a c).Awake := by
  refine Awake.of_update h (awakeAt_transmit _ _ c) (fun b hba => ?_) (fun b hba => ?_)
    (events_subset_transmit ((s.setLink a l).setPending a cs) a c)
  · simp [link_setLink_of_ne _ hba]
  · exact Function.update_of_ne hba ..

theorem Awake.send (h : s.Awake) (c : Chunk n) : (s.send T c).Awake := by
  unfold Net.send
  split
  · next hw =>
    have hself : (s.setPending c.hop (s.pendingChunks c.hop ++ [c])).AwakeAt c.hop :=
      ⟨(h c.hop).freeEvent, fun _ => hw⟩
    exact Awake.of_update (fun b _ => h b) hself (fun _ _ => rfl)
      (fun b hb => Function.update_of_ne hb ..) (List.Subset.refl _)
  · refine Awake.of_update (fun b _ => h b) (awakeAt_transmit s c.hop c) (fun b hb => ?_)
      (fun _ _ => rfl) (events_subset_transmit s c.hop c)
    simp [link_setLink_of_ne _ hb]

theorem Awake.scheduleEvent (h : s.Awake) (time : ℕ) (e : Event n) :
    (s.scheduleEvent time e).Awake := by
  intro b
  refine ⟨fun hb => ?_, (h b).waits⟩
  obtain ⟨t, ht⟩ := (h b).freeEvent hb
  exact ⟨t, List.mem_append_left _ ht⟩

/-- A link with nothing to send is set free. -/
theorem Awake.setFree (h : ∀ b, b ≠ a → s.AwakeAt b)
    (hp : s.pendingChunks a = [] ∨ (s.link a).bandwidth = 0) :
    (s.setLink a { s.link a with busy := false }).Awake := by
  refine Awake.of_update h ⟨fun hb => ?_, fun hne => ?_⟩
    (fun b hba => link_setLink_of_ne s hba _) (fun _ _ => rfl) (List.Subset.refl _)
  · simp at hb
  · exact .inr (by simpa using hp.resolve_left hne)

theorem Awake.reconfigureLink (h : s.Awake) : (s.reconfigureLink T a).Awake := by
  rcases reconfigureLink_cases T s a with ⟨t, he⟩ | ⟨c, cs, hc, -, he⟩ | ⟨hp, he⟩ <;> rw [he]
  · refine Awake.of_update (a := a) (fun b _ => h b) ⟨fun _ => ?_, fun _ => ?_⟩
      (fun b hba => link_setLink_of_ne s hba _) (fun _ _ => rfl)
      fun _ hp => List.mem_append_left _ hp
    · exact ⟨t, List.mem_append_right _ List.mem_cons_self⟩
    · exact .inl (by simp)
  · exact Awake.restart (s := s.relink a) (fun b hba => (h b).setLink_of_ne hba _) _ c cs
  · refine Awake.of_update (a := a) (fun b _ => h b) ⟨fun hb => ?_, fun hne => ?_⟩
      (fun b hba => link_setLink_of_ne s hba _) (fun _ _ => rfl) (List.Subset.refl _)
    · exact (h a).freeEvent (by simpa [relink] using hb)
    · exact .inr (by simpa [relink] using hp.resolve_left hne)

/-! ## The topology manager -/

/-- Both invariants. -/
structure Sound (s : Net n) : Prop where
  conserved : s.Conserved
  awake : s.Awake

/-- What the topology manager keeps for itself does not matter for the chunks. -/
theorem Sound.congr (h : s.Sound) (hl : t.link = s.link) (hp : t.pendingChunks = s.pendingChunks)
    (he : t.events = s.events) (hd : t.delivered = s.delivered) (hi : t.injected = s.injected) :
    t.Sound := by
  refine ⟨h.conserved.congr ?_ hi, fun a => ⟨fun hb => ?_, fun hne => ?_⟩⟩
  · simp only [places, pendingPlaces, hp, he, hd]
  · rw [hl] at hb
    rw [he]
    exact (h.awake a).freeEvent hb
  · rw [hp] at hne
    rw [Waits, hl]
    exact (h.awake a).waits hne

theorem Sound.scheduleEvent (h : s.Sound) (time : ℕ) {e : Event n} (he : e.carried = none) :
    (s.scheduleEvent time e).Sound := by
  refine ⟨h.conserved.congr ?_ rfl, h.awake.scheduleEvent time e⟩
  rw [places_scheduleEvent, he]
  exact zero_add _

theorem Sound.foldl_reconfigureLink (as : List (LinkId n)) :
    ∀ s : Net n, s.Sound → (as.foldl (reconfigureLink T) s).Sound := by
  induction as with
  | nil => exact fun _ h => h
  | cons a as ih => exact fun s h => ih _ ⟨h.conserved.reconfigureLink, h.awake.reconfigureLink⟩

variable {algo : RoutingAlgorithm}

theorem Sound.applyTopology (h : s.Sound) : (s.applyTopology algo T).Sound := by
  cases algo with
  | bfs => exact Sound.foldl_reconfigureLink _ _ (h.congr rfl rfl rfl rfl rfl)
  | opus =>
    have h' := Sound.foldl_reconfigureLink (T := T) (links n)
      { s with numDrainedLinks := 0, applied := s.applied ++ [s.busyLinks], draining := false }
      (h.congr rfl rfl rfl rfl rfl)
    simp only [Net.applyTopology]
    split
    · exact h'.congr rfl rfl rfl rfl rfl
    · exact h'.scheduleEvent _ rfl

theorem Sound.incrementCallback (h : s.Sound) : (s.incrementCallback algo T).Sound := by
  unfold Net.incrementCallback
  split_ifs
  · exact h.congr rfl rfl rfl rfl rfl
  · exact h.applyTopology
  · exact h.congr rfl rfl rfl rfl rfl

theorem Sound.foldl_drainLink (as : List (LinkId n)) :
    ∀ s : Net n, s.Sound → (as.foldl (drainLink algo T) s).Sound := by
  induction as with
  | nil => exact fun _ h => h
  | cons a as ih =>
    intro s h
    refine ih _ ?_
    unfold drainLink
    split
    · exact h
    · exact h.incrementCallback

theorem Sound.reconfigure (h : s.Sound) (bw : LinkId n → Bandwidth) (lat : LinkId n → Latency)
    (r : Latency) (id : ℤ) (skip : Bool) : (s.reconfigure algo T bw lat r id skip).2.Sound := by
  rcases reconfigure_cases algo T s bw lat r id skip with he | he | he <;> rw [he]
  · exact h
  · exact h.congr rfl rfl rfl rfl rfl
  · exact Sound.foldl_drainLink _ _ (h.congr rfl rfl rfl rfl rfl)

/-! ## Events -/

/-- The event that frees a link. The link itself need not be awake: its event has been taken. -/
theorem Sound.linkBecomeFree (hs : s.Conserved) (h : ∀ b, b ≠ a → s.AwakeAt b)
    {f : Net n → Net n} (hf : ∀ t : Net n, t.Sound → (f t).Sound) :
    (s.linkBecomeFree T f a).Sound := by
  by_cases hp : s.pendingChunks a = [] ∨ (s.link a).bandwidth = 0
  · rw [linkBecomeFree_of_idle T s a f hp]
    exact hf _ ⟨hs.congr rfl rfl, Awake.setFree h hp⟩
  · rw [not_or] at hp
    obtain ⟨c, cs, hc⟩ := List.exists_cons_of_ne_nil hp.1
    rw [linkBecomeFree_of_cons T s a f hc hp.2]
    exact ⟨hs.restart _ hc, Awake.restart h _ c cs⟩

/-- The event that is taken from the queue frees at most one link. -/
theorem Awake.takeEvent (h : s.Awake) {k time : ℕ} {e : Event n}
    (hk : s.events[k]? = some (time, e)) {b : LinkId n} (he : e ≠ .linkBecomeFree b) :
    (s.takeEvent k time).AwakeAt b := by
  refine ⟨fun hb => ?_, (h b).waits⟩
  obtain ⟨t, ht⟩ := (h b).freeEvent hb
  obtain ⟨hlt, hget⟩ := List.getElem?_eq_some_iff.mp hk
  have hp := List.getElem_cons_eraseIdx_perm hlt
  rw [hget] at hp
  rcases List.mem_cons.mp (hp.mem_iff.mpr ht) with heq | ht
  · exact absurd (congrArg Prod.snd heq).symm he
  · exact ⟨t, ht⟩

theorem Conserved.takeEvent (h : s.Conserved) {k time : ℕ} {e : Event n}
    (hk : s.events[k]? = some (time, e)) (he : e.carried = none) :
    (s.takeEvent k time).Conserved := by
  refine h.congr ?_ rfl
  rw [places_takeEvent hk, he]
  exact (zero_add _).symm

theorem Sound.invokeEvent (h : s.Sound) {k time : ℕ} {e : Event n}
    (hk : s.events[k]? = some (time, e)) : ((s.takeEvent k time).invokeEvent algo T e).Sound := by
  cases e with
  | chunkArrivedNextDevice c =>
    refine ⟨h.conserved.chunkArrived hk, ?_⟩
    have ha : (s.takeEvent k time).Awake := fun b => h.awake.takeEvent hk (by simp)
    show ((s.takeEvent k time).chunkArrived T c).Awake
    unfold Net.chunkArrived
    split
    · exact fun b => ⟨(ha b).freeEvent, (ha b).waits⟩
    · exact ha.send _
  | linkBecomeFree a =>
    refine Sound.linkBecomeFree (h.conserved.takeEvent hk rfl) (fun b hba => ?_)
      fun _ ht => ht.incrementCallback
    exact h.awake.takeEvent hk (by simpa using Ne.symm hba)
  | finishReconfiguration =>
    have h' : (s.takeEvent k time).Sound :=
      ⟨h.conserved.takeEvent hk rfl, fun b => h.awake.takeEvent hk (by simp)⟩
    exact h'.congr rfl rfl rfl rfl rfl
  | workload => exact ⟨h.conserved.takeEvent hk rfl, fun b => h.awake.takeEvent hk (by simp)⟩

end

end Net

/-! ## Runs -/

section

variable {algo : RoutingAlgorithm} {T : Timing} {s t : Net n}

/-- **Every step** keeps each chunk in one place and every waiting chunk awake. -/
theorem sound_step {a : NetAct n} (h : s.Sound) (hs : netStep algo T s a = some t) : t.Sound := by
  rcases netStep_cases hs with ⟨k, time, e, rfl, hk, rfl⟩ | ⟨size, src, next, rest, rfl, rfl⟩ |
    ⟨bw, lat, r, id, skip, rfl, rfl⟩ | ⟨lat, rfl⟩ | ⟨k, rfl⟩ | ⟨time, rfl⟩
  · exact h.invokeEvent hk
  · refine ⟨h.conserved.inject size src next rest, Net.Awake.send ?_ _⟩
    exact fun b => ⟨(h.awake b).freeEvent, (h.awake b).waits⟩
  · exact h.reconfigure bw lat r id skip
  · exact h.congr rfl rfl rfl rfl rfl
  · exact h.congr rfl rfl rfl rfl rfl
  · exact h.scheduleEvent time rfl

theorem sound_initial (n : ℕ) : (Net.initial n).Sound where
  conserved := by
    have h0 : (Net.initial n).places = 0 := by
      simp [Net.places, Net.pendingPlaces, Net.initial]
    refine ⟨?_, fun p hp => ?_⟩
    · rw [h0]
      rfl
    · rw [h0] at hp
      exact absurd hp (Multiset.notMem_zero p)
  awake a := ⟨fun hb => absurd hb Bool.false_ne_true, fun hne => absurd rfl hne⟩

/-- **Conservation of chunks and no lost wake-up**, in every reachable state: every injected chunk
is in exactly one place, and the place belongs to its route; when chunks wait for a link, the link
has no bandwidth or is busy with an event that frees it; and when the event queue runs empty, every
chunk that is not delivered waits for a link without bandwidth. -/
theorem conservation (algo : RoutingAlgorithm) (T : Timing)
    (h : Reaches (netStep algo T) (Net.initial n) s) :
    (∀ (k : ℕ) (c : Chunk n), s.injected[k]? = some c → ∃ p, s.placesOf k = {p} ∧ p.Fits c) ∧
    (∀ a, s.pendingChunks a ≠ [] → (s.link a).bandwidth = 0 ∨
      ((s.link a).busy = true ∧ ∃ time, (time, .linkBecomeFree a) ∈ s.events)) ∧
    (s.events = [] → ∀ (k : ℕ) (c : Chunk n), s.injected[k]? = some c →
      (k, c.dest) ∈ s.delivered ∨
        ∃ a, ∃ c' ∈ s.pendingChunks a, c'.id = k ∧ (s.link a).bandwidth = 0) := by
  have hs : s.Sound := h.invariant (fun _ _ _ => sound_step) (sound_initial n)
  have hwake : ∀ a, s.pendingChunks a ≠ [] → (s.link a).bandwidth = 0 ∨
      ((s.link a).busy = true ∧ ∃ time, (time, .linkBecomeFree a) ∈ s.events) := by
    intro a hne
    rcases (hs.awake a).waits hne with hb | hb
    · exact .inr ⟨hb, (hs.awake a).freeEvent hb⟩
    · exact .inl hb
  refine ⟨fun k c hk => hs.conserved.placesOf_eq hk, hwake, fun hev k c hk => ?_⟩
  obtain ⟨p, hp, hfit⟩ := hs.conserved.placesOf_eq hk
  have hmem : p ∈ s.placesOf k := hp ▸ Multiset.mem_singleton_self p
  obtain ⟨hps, rfl⟩ := Multiset.mem_filter.mp hmem
  cases p with
  | delivered k d => exact .inl (hfit ▸ Net.delivered_mem_places.mp hps)
  | pending a c' =>
    rw [Net.pending_mem_places] at hps
    rcases hwake a (List.ne_nil_of_mem hps) with hb | ⟨-, time, ht⟩
    · exact .inr ⟨a, c', hps, rfl, hb⟩
    · rw [hev] at ht
      exact absurd ht List.not_mem_nil
  | carried c' =>
    obtain ⟨time, ht⟩ := Net.carried_mem_places.mp hps
    rw [hev] at ht
    exact absurd ht List.not_mem_nil

end

/-- A change that takes five nanoseconds leaves only the link from device `0` to device `1`. A
chunk for device `2` is injected meanwhile, and the events are taken until none is left. -/
def strandedRun : List (NetAct 3) :=
  [.reconfigure (fun a => if a = (0, 1) then 1 else 0) (fun _ => 0) 5 0 false,
    .inject 10 0 1 [2], .proceed 0, .proceed 0, .proceed 0, .proceed 0]

theorem conservation_strandedRun :
    ∃ s, run (netStep .opus .exact) (Net.initial 3) strandedRun = some s ∧ s.events = [] ∧
      (∃ p, s.placesOf 0 = {p} ∧ p.Fits ⟨0, 10, 0, 1, [2]⟩) ∧
      ∃ a, ∃ c' ∈ s.pendingChunks a, c'.id = 0 ∧ (s.link a).bandwidth = 0 := by
  have hrun : (run (netStep .opus .exact) (Net.initial 3) strandedRun).map
      (fun s => (s.events, s.injected, s.delivered)) = some ([], [⟨0, 10, 0, 1, [2]⟩], []) := by
    decide +kernel
  obtain ⟨s, hs, he⟩ := Option.map_eq_some_iff.mp hrun
  simp only [Prod.mk.injEq] at he
  obtain ⟨hev, hinj, hdel⟩ := he
  obtain ⟨hplace, -, hempty⟩ := conservation .opus .exact ⟨strandedRun, hs⟩
  have h0 : s.injected[0]? = some ⟨0, 10, 0, 1, [2]⟩ := by
    rw [hinj]
    rfl
  refine ⟨s, hs, hev, hplace 0 _ h0, ?_⟩
  rcases hempty hev 0 _ h0 with hd | hp
  · rw [hdel] at hd
    exact absurd hd List.not_mem_nil
  · exact hp

end Opus.Simulation
