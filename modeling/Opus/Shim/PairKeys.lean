import Mathlib.Algebra.Order.BigOperators.Ring.Finset
import Mathlib.Data.Int.Cast.Basic
import Mathlib.Data.List.Basic
import Opus.Shim.Callback

/-!
# The keys of point-to-point transfers

A rank of a pipeline communicator keeps two counters, one for its transfers with higher ranks and
one for those with lower ranks. The counter of a transfer is one of them, and the higher of its two
ranks selects the interval it lies in. A request for the transfer is only met by the peer when both
ends compute the same counter, and the controller keeps transfers apart by their counters alone.

All of these are `int`s. The intervals of all ranks fit an `int`, but a rank can have more transfers
than its interval holds, and the last intervals then leave the `int`s.

## Main definitions

* `TransferPattern`: the transfers of all ranks of a pipeline communicator, with any peers
* `wrapInt`: the `int` that a sum is stored as
* `TransferPattern.pairCounts`, `TransferPattern.pairCounters`: the sums that one end computes for the
  transfers of a pair, and the counters they become
* `TransferPattern.Identifies`: both ends agree, and no two transfers share a counter
* `TransferPattern.Aligned`: the `n`-th transfer of a rank with a higher rank is the `n`-th transfer
  of its peer with a lower rank
* `TransferPattern.Separated`: the counters of a rank stay below the next interval in use
* `TransferPattern.InRange`: the counters of a rank are `int`s

## Main results

* `pairCounts_up`, `pairCounts_down`: the sums are positions among the transfers of one direction
* `identifies_iff`: the keys identify the transfers exactly when the pattern is aligned, separated and
  in range
-/

namespace Opus

/-- The `int` that a sum is stored as. An addition that leaves the `int`s is undefined; it wraps
around here, as it does on the machine. -/
def wrapInt (sum : ℤ) : ℤ := sum.bmod 4294967296

/-- The request of a pipeline backend, with `int`s. -/
structure PairRequest where
  hexId : HexId
  backend : ℤ
  counter : ℤ
  deriving DecidableEq, Repr

/-- `topowrite` of the pipeline backend. -/
def pairTopowrite (sh : Shim) (cnt : ℤ) : PairRequest where
  hexId := sh.hexId 1
  backend := 1 + PP_BACKEND_INTERVAL * cnt.tdiv PP_INTERVAL
  counter := cnt

/-- The transfers of the ranks of a pipeline communicator: any two ranks may exchange data, and the
two ends of a pair run the same transfers in the same order, fewer than `PP_INTERVAL` of them. The
intervals of all ranks fit an `int`. -/
structure TransferPattern where
  p : ℕ
  fits : p * PP_INTERVAL ≤ 2147483647
  hexId : HexId
  shim : ℕ → Shim
  colls : ℕ → List Coll
  isPp : ∀ r, (shim r).isPpBackend 1 = true
  rank_eq : ∀ r, (shim r).rank 1 = r
  hexId_eq : ∀ r, (shim r).hexId 1 = hexId
  idle : ∀ r, p ≤ r → colls r = []
  backend : ∀ r, ∀ c ∈ colls r, c.backendId = 1
  transfer : ∀ r, ∀ c ∈ colls r, ∃ peer < p, peer ≠ r ∧ c.op.peer? = some peer
  mirrored : ∀ r r', ((colls r).filter fun c => c.op.peer? = some r').map (Coll.mirror r) =
    (colls r').filter fun c => c.op.peer? = some r
  few : ∀ r r', ((colls r).filter fun c => c.op.peer? = some r').length < PP_INTERVAL

/-- The sums a rank computes for the transfers with a peer, among the collectives `cs`. -/
def pairCountsFrom (sh : Shim) (ks : ℕ → Counters) (cs : List Coll) (peer : ℕ) : List ℕ :=
  ((cs.zip (keysFrom sh ks cs)).filter fun x => x.1.op.peer? = some peer).map fun x => x.2.2

namespace TransferPattern

variable (T : TransferPattern)

/-- The sums that the rank `r` computes for its transfers with `peer`, in their order. -/
def pairCounts (r peer : ℕ) : List ℕ := pairCountsFrom (T.shim r) noCounters (T.colls r) peer

/-- The counters that the rank `r` has for its transfers with `peer`. -/
def pairCounters (r peer : ℕ) : List ℤ := (T.pairCounts r peer).map fun n : ℕ => wrapInt n

/-- The requests of the rank `r` for its transfers with `peer`. -/
def pairRequests (r peer : ℕ) : List PairRequest :=
  (T.pairCounters r peer).map (pairTopowrite (T.shim r))

/-- The peers of the transfers of a rank, in their order. -/
def peers (r : ℕ) : List ℕ := (T.colls r).filterMap fun c => c.op.peer?

/-- The peers of the transfers of a rank with higher ranks. -/
def upPeers (r : ℕ) : List ℕ := (T.peers r).filter fun peer => r < peer

/-- The peers of the transfers of a rank with lower ranks. -/
def downPeers (r : ℕ) : List ℕ := (T.peers r).filter fun peer => peer < r

/-- **The keys identify the transfers**: both ends of a pair compute the same counters and send the
same requests, two transfers share a counter only if they are the same transfer of one pair, and
the controller finds the group of a request in both of its numbers. -/
structure Identifies : Prop where
  counters : ∀ r r', T.pairCounters r r' = T.pairCounters r' r
  requests : ∀ r r', T.pairRequests r r' = T.pairRequests r' r
  distinct : ∀ (a b a' b' k k' : ℕ) (cnt : ℤ), (T.pairCounters a b)[k]? = some cnt →
    (T.pairCounters a' b')[k']? = some cnt → (a = a' ∧ b = b' ∨ a = b' ∧ b = a') ∧ k = k'
  group : ∀ r r', ∀ q ∈ T.pairRequests r r',
    q.counter.tdiv PP_INTERVAL = q.backend.tdiv PP_BACKEND_INTERVAL

/-- The `n`-th transfer of a rank with a higher rank is the `n`-th transfer of its peer with a lower
rank. -/
def Aligned : Prop :=
  ∀ a b n : ℕ, a < b → ((T.upPeers a)[n]? = some b ↔ (T.downPeers b)[n]? = some a)

/-- A rank has at most `(b' - b) * PP_INTERVAL` transfers with lower ranks when the higher rank `b'`
has any. -/
def Separated : Prop :=
  ∀ b b', b < b' → T.downPeers b' ≠ [] → (T.downPeers b).length ≤ (b' - b) * PP_INTERVAL

/-- The last transfer of a rank with lower ranks has an `int` for a counter. -/
def InRange : Prop :=
  ∀ b, T.downPeers b ≠ [] → (T.downPeers b).length + b * PP_INTERVAL ≤ 2147483648

end TransferPattern

/-! ## Sums as `int`s -/

theorem wrapInt_of_lt {n : ℕ} (h : n < 2147483648) : wrapInt n = n := by
  rw [wrapInt, Int.bmod_def]
  omega

/-- A sum that is no `int` becomes negative, and the controller rejects its group: the backend is
rounded towards zero, to the group above. -/
theorem lt_of_group {n : ℕ} (hlt : n + PP_INTERVAL < 4294967296)
    (hgroup : (wrapInt n).tdiv PP_INTERVAL =
      (1 + PP_BACKEND_INTERVAL * (wrapInt n).tdiv PP_INTERVAL : ℤ).tdiv PP_BACKEND_INTERVAL) :
    n < 2147483648 := by
  by_contra hge
  simp only [PP_INTERVAL, PP_BACKEND_INTERVAL, Nat.cast_ofNat] at hlt hgroup
  have hwrap : wrapInt n < -1000000 := by
    rw [wrapInt, Int.bmod_def]
    omega
  have hsign : Int.sign 1000000 = 1 ∧ Int.sign 10 = 1 := ⟨rfl, rfl⟩
  have hneg : (wrapInt n).tdiv 1000000 ≤ -1 := by
    rw [Int.tdiv_eq_ediv, hsign.1]
    split <;> omega
  generalize (wrapInt n).tdiv 1000000 = group at hgroup hneg
  rw [Int.tdiv_eq_ediv, hsign.2] at hgroup
  split at hgroup <;> omega

/-! ## Counters are positions -/

section Positions

variable {sh : Shim}

theorem Op.ranks_of_peer {op : Op} {peer : ℕ} (h : op.peer? = some peer) :
    (op.srcRank = peer ∧ op.dstRank = -1) ∨ (op.srcRank = -1 ∧ op.dstRank = peer) := by
  cases op with
  | allreduce => cases h
  | collective => cases h
  | send d =>
    obtain rfl : d = peer := Option.some.inj h
    exact .inr ⟨rfl, rfl⟩
  | recv s =>
    obtain rfl : s = peer := Option.some.inj h
    exact .inl ⟨rfl, rfl⟩

/-- The peers of a direction. -/
def Direction.side (rank : ℕ) : Direction → ℕ → Bool
  | .up, peer => rank < peer
  | .down, peer => peer < rank
  | .neither, _ => false

theorem Op.direction_eq_iff {op : Op} {rank peer : ℕ} (h : op.peer? = some peer)
    (hne : peer ≠ rank) {d : Direction} : op.direction rank = d ↔ d.side rank peer = true := by
  have hpeer : op.srcRank ≠ -1 ∨ op.dstRank ≠ -1 := by
    rcases Op.ranks_of_peer h with ⟨hs, -⟩ | ⟨-, hd⟩
    · left
      omega
    · right
      omega
  by_cases hlt : rank < peer
  · have hup : op.direction rank = .up := by
      rw [Op.direction, if_pos]
      rcases Op.ranks_of_peer h with ⟨hs, -⟩ | ⟨-, hd⟩
      · left
        omega
      · right
        omega
    rw [hup]
    cases d <;> simp [Direction.side, hlt, Nat.le_of_lt hlt]
  · have hdown : op.direction rank = .down := by
      rw [Op.direction, if_neg, if_pos hpeer]
      rcases Op.ranks_of_peer h with ⟨hs, hd⟩ | ⟨hs, hd⟩ <;> omega
    have hgt : peer < rank := by omega
    rw [hdown]
    cases d <;> simp [Direction.side, hgt, Nat.le_of_lt hgt]

theorem getPpBase_of_peer {op : Op} {rank peer : ℕ} (h : op.peer? = some peer) :
    getPpBase op.srcRank op.dstRank rank = max peer rank := by
  unfold getPpBase
  rcases Op.ranks_of_peer h with ⟨hs, hd⟩ | ⟨hs, hd⟩ <;> rw [hs, hd] <;> omega

variable {rank : ℕ} (hrank : sh.rank 1 = rank)

include hrank

/-- **The sums of a pair are the positions of the peer among the peers of its direction.** -/
theorem pairCountsFrom_eq {peer : ℕ} {d : Direction} (hd : d ≠ .neither)
    (hside : d.side rank peer = true) (cs : List Coll) (ks : ℕ → Counters)
    (hb : ∀ c ∈ cs, c.backendId = 1) (ht : ∀ c ∈ cs, ∃ q, q ≠ rank ∧ c.op.peer? = some q) :
    pairCountsFrom sh ks cs peer =
      (((cs.filterMap fun c => c.op.peer?).filter (d.side rank)).idxsOf peer ((ks 1).get d)).map
        (· + max peer rank * PP_INTERVAL) := by
  induction cs generalizing ks with
  | nil => rfl
  | cons c cs ih =>
    obtain ⟨q, hq, hcq⟩ := ht c List.mem_cons_self
    have hcb : c.backendId = 1 := hb c List.mem_cons_self
    have ih := ih (advanceAt sh ks c) (fun c' hc' => hb c' (List.mem_cons_of_mem c hc'))
      fun c' hc' => ht c' (List.mem_cons_of_mem c hc')
    -- the counter of the direction only moves with the transfers of that direction
    have hget : (advanceAt sh ks c 1).get d =
        (ks 1).get d + if d.side rank q = true then 1 else 0 := by
      rw [← hcb, advanceAt_self, hcb, hrank, Counters.get_advance hd]
      simp only [Op.direction_eq_iff hcq hq]
    rw [hget] at ih
    -- only the transfers with the peer itself contribute a sum
    have hhead : pairCountsFrom sh ks (c :: cs) peer =
        if q = peer then
          c.count sh (ks c.backendId) :: pairCountsFrom sh (advanceAt sh ks c) cs peer
        else pairCountsFrom sh (advanceAt sh ks c) cs peer := by
      simp only [pairCountsFrom, keysFrom, List.zip_cons_cons, List.filter_cons, hcq,
        Option.some.injEq, decide_eq_true_eq]
      split <;> rfl
    have hpeers : (c :: cs).filterMap (fun c => c.op.peer?) =
        q :: cs.filterMap fun c => c.op.peer? := List.filterMap_cons_some hcq
    rw [hhead, ih, hpeers, List.filter_cons]
    by_cases hsq : d.side rank q = true
    · rw [if_pos hsq, if_pos hsq, List.idxsOf_cons]
      by_cases hqp : q = peer
      · subst hqp
        have hcount : c.count sh (ks c.backendId) = (ks 1).get d + max q rank * PP_INTERVAL := by
          have hdir := (Op.direction_eq_iff hcq hq).mpr hsq
          rw [Coll.count, hcb, hrank, getPpBase_of_peer hcq, hdir]
          cases d with
          | neither => exact absurd rfl hd
          | up => rfl
          | down => rfl
        rw [if_pos rfl, if_pos (by simp), List.map_cons, hcount]
      · rw [if_neg hqp, if_neg (by simpa using hqp)]
    · -- a transfer of the other direction is neither with the peer nor counted
      have hqp : q ≠ peer := by
        rintro rfl
        exact hsq hside
      rw [if_neg hqp, if_neg hsq, if_neg hsq, Nat.add_zero]

end Positions

/-! ## Patterns -/

namespace TransferPattern

variable {T : TransferPattern} {a b : ℕ}

theorem exists_peer (T : TransferPattern) (r : ℕ) :
    ∀ c ∈ T.colls r, ∃ q, q ≠ r ∧ c.op.peer? = some q := by
  intro c hc
  obtain ⟨q, -, hq⟩ := T.transfer r c hc
  exact ⟨q, hq⟩

theorem pairCounts_up (T : TransferPattern) (hlt : a < b) :
    T.pairCounts a b = ((T.upPeers a).idxsOf b).map (· + b * PP_INTERVAL) := by
  have hmax : max b a = b := Nat.max_eq_left (Nat.le_of_lt hlt)
  rw [pairCounts, pairCountsFrom_eq (T.rank_eq a) (d := .up) (by simp)
    (by simpa [Direction.side] using hlt) _ _ (T.backend a) (T.exists_peer a), hmax]
  rfl

theorem pairCounts_down (T : TransferPattern) (hlt : a < b) :
    T.pairCounts b a = ((T.downPeers b).idxsOf a).map (· + b * PP_INTERVAL) := by
  have hmax : max a b = b := Nat.max_eq_right (Nat.le_of_lt hlt)
  rw [pairCounts, pairCountsFrom_eq (T.rank_eq b) (d := .down) (by simp)
    (by simpa [Direction.side] using hlt) _ _ (T.backend b) (T.exists_peer b), hmax]
  rfl

/-- A rank has no transfers with itself. -/
theorem pairCounts_self (T : TransferPattern) (r : ℕ) : T.pairCounts r r = [] := by
  rw [pairCounts, pairCountsFrom, List.map_eq_nil_iff, List.filter_eq_nil_iff]
  rintro ⟨c, key⟩ hmem
  obtain ⟨q, hq, hcq⟩ := T.exists_peer r c (List.of_mem_zip hmem).1
  simp [hcq, hq]

theorem add_injective (m : ℕ) : Function.Injective fun n : ℕ => n + m :=
  fun _ _ h => Nat.add_right_cancel h

theorem mem_idxsOf {xs : List ℕ} {x n : ℕ} : n ∈ xs.idxsOf x ↔ xs[n]? = some x := by
  rw [List.mem_idxsOf_iff_exists_getElem_pos, List.getElem?_eq_some_iff]
  simp

/-- Positions are equal lists exactly when they are the same positions. -/
theorem idxsOf_eq_iff {xs ys : List ℕ} {x y : ℕ} :
    xs.idxsOf x = ys.idxsOf y ↔ ∀ n : ℕ, xs[n]? = some x ↔ ys[n]? = some y := by
  constructor
  · intro heq n
    rw [← mem_idxsOf, ← mem_idxsOf, heq]
  · intro h
    have hperm : (xs.idxsOf x).Perm (ys.idxsOf y) := by
      rw [List.perm_ext_iff_of_nodup List.nodup_idxsOf List.nodup_idxsOf]
      intro n
      rw [mem_idxsOf, mem_idxsOf]
      exact h n
    refine List.Perm.eq_of_pairwise ?_ List.pairwise_idxsOf List.pairwise_idxsOf hperm
    intro m n _ _ hmn hnm
    omega

/-- **Both ends compute the same sums exactly when the pattern is aligned.** -/
theorem counts_iff (T : TransferPattern) :
    (∀ r r', T.pairCounts r r' = T.pairCounts r' r) ↔ T.Aligned := by
  have hpair : ∀ {a b : ℕ}, a < b → (T.pairCounts a b = T.pairCounts b a ↔
      ∀ n : ℕ, (T.upPeers a)[n]? = some b ↔ (T.downPeers b)[n]? = some a) := by
    intro a b hlt
    rw [T.pairCounts_up hlt, T.pairCounts_down hlt,
      (List.map_injective_iff.mpr (add_injective _)).eq_iff, idxsOf_eq_iff]
  constructor
  · intro h a b n hlt
    exact (hpair hlt).mp (h a b) n
  · intro h r r'
    rcases Nat.lt_trichotomy r r' with hlt | rfl | hgt
    · exact (hpair hlt).mpr fun n => h r r' n hlt
    · rfl
    · exact ((hpair hgt).mpr fun n => h r' r n hgt).symm

theorem mem_pairCounts (hT : T.Aligned) (hlt : a < b) {cnt : ℕ} :
    cnt ∈ T.pairCounts a b ↔
      ∃ n, (T.downPeers b)[n]? = some a ∧ cnt = n + b * PP_INTERVAL := by
  rw [(T.counts_iff.mpr hT) a b, T.pairCounts_down hlt, List.mem_map]
  simp only [mem_idxsOf, eq_comm]

theorem pairCounts_nodup (T : TransferPattern) (a b : ℕ) : (T.pairCounts a b).Nodup := by
  have hmap : ∀ (xs : List ℕ) (x m : ℕ), ((xs.idxsOf x).map (· + m)).Nodup := fun xs x m =>
    List.nodup_idxsOf.map (add_injective m)
  rcases Nat.lt_trichotomy a b with hlt | rfl | hgt
  · rw [T.pairCounts_up hlt]
    exact hmap ..
  · rw [T.pairCounts_self]
    exact List.nodup_nil
  · rw [T.pairCounts_down hgt]
    exact hmap ..

/-- The transfer, seen from its lower rank. -/
theorem exists_lt_of_mem {cnt k : ℕ} (hk : (T.pairCounts a b)[k]? = some cnt)
    (hT : T.Aligned) :
    ∃ a₀ b₀, a₀ < b₀ ∧ (a = a₀ ∧ b = b₀ ∨ a = b₀ ∧ b = a₀) ∧
      (T.pairCounts a₀ b₀)[k]? = some cnt := by
  rcases Nat.lt_trichotomy a b with hlt | rfl | hgt
  · exact ⟨a, b, hlt, .inl ⟨rfl, rfl⟩, hk⟩
  · rw [T.pairCounts_self] at hk
    cases hk
  · rw [(T.counts_iff.mpr hT) a b] at hk
    exact ⟨b, a, hgt, .inr ⟨rfl, rfl⟩, hk⟩

/-- In an aligned pattern, transfers of different pairs share a sum only across intervals. -/
theorem Separated.eq_of_count (hS : T.Separated) (hT : T.Aligned) {a b a' b' cnt : ℕ}
    (hlt : a < b) (hlt' : a' < b') (hc : cnt ∈ T.pairCounts a b)
    (hc' : cnt ∈ T.pairCounts a' b') : a = a' ∧ b = b' := by
  obtain ⟨n, hn, rfl⟩ := (mem_pairCounts hT hlt).mp hc
  obtain ⟨n', hn', heq⟩ := (mem_pairCounts hT hlt').mp hc'
  obtain ⟨hlen, -⟩ := List.getElem?_eq_some_iff.mp hn
  -- a sum of rank `b` stays below the interval of every higher rank that has transfers
  obtain ⟨hlen', -⟩ := List.getElem?_eq_some_iff.mp hn'
  have hsep : ∀ {b b' n n' : ℕ}, b < b' → n < (T.downPeers b).length →
      n' < (T.downPeers b').length → n + b * PP_INTERVAL ≠ n' + b' * PP_INTERVAL := by
    intro b b' n n' hb hn hn' heq
    have hle := hS b b' hb (List.ne_nil_of_length_pos (Nat.zero_lt_of_lt hn'))
    have hmul : b' * PP_INTERVAL = b * PP_INTERVAL + (b' - b) * PP_INTERVAL := by
      rw [← Nat.add_mul, Nat.add_sub_cancel' (Nat.le_of_lt hb)]
    omega
  rcases Nat.lt_trichotomy b b' with hb | rfl | hb
  · exact absurd heq (hsep hb hlen hlen')
  · obtain rfl : n = n' := Nat.add_right_cancel heq
    exact ⟨Option.some.inj (hn.symm.trans hn'), rfl⟩
  · exact absurd heq.symm (hsep hb hlen' hlen)

/-- When a rank has too many transfers for its interval, its sums meet those of a higher rank. -/
theorem separated_of_distinct (hT : T.Aligned)
    (hdistinct : ∀ a b a' b' k k' cnt : ℕ, (T.pairCounts a b)[k]? = some cnt →
      (T.pairCounts a' b')[k']? = some cnt → (a = a' ∧ b = b' ∨ a = b' ∧ b = a') ∧ k = k') :
    T.Separated := by
  intro b b' hb hne
  by_contra hgt
  have hlen : (b' - b) * PP_INTERVAL < (T.downPeers b).length := Nat.lt_of_not_le hgt
  obtain ⟨a, ha⟩ : ∃ a, (T.downPeers b)[(b' - b) * PP_INTERVAL]? = some a :=
    ⟨_, List.getElem?_eq_getElem hlen⟩
  obtain ⟨a', ha'⟩ : ∃ a', (T.downPeers b')[0]? = some a' :=
    ⟨_, List.getElem?_eq_getElem (List.length_pos_of_ne_nil hne)⟩
  have hlt : a < b := of_decide_eq_true (List.mem_filter.mp (List.mem_of_getElem? ha)).2
  have hlt' : a' < b' := of_decide_eq_true (List.mem_filter.mp (List.mem_of_getElem? ha')).2
  -- the transfer at this position of `b` has the sum of the first transfer of `b'`
  have hmul : (b' - b) * PP_INTERVAL + b * PP_INTERVAL = 0 + b' * PP_INTERVAL := by
    rw [← Nat.add_mul, Nat.sub_add_cancel (Nat.le_of_lt hb), Nat.zero_add]
  have hc := (mem_pairCounts hT hlt).mpr ⟨_, ha, rfl⟩
  have hc' := (mem_pairCounts hT hlt').mpr ⟨_, ha', rfl⟩
  rw [← hmul] at hc'
  obtain ⟨k, hk⟩ := List.mem_iff_getElem?.mp hc
  obtain ⟨k', hk'⟩ := List.mem_iff_getElem?.mp hc'
  rcases (hdistinct a b a' b' k k' _ hk hk').1 with ⟨-, hbb⟩ | ⟨hab, hba⟩ <;> omega

/-! ## The range of the sums -/

theorem length_filterMap_count {α : Type*} {f : α → Option ℕ} (xs : List α) (r : ℕ) :
    (xs.filterMap f).count r = (xs.filter fun x => f x = some r).length := by
  induction xs with
  | nil => rfl
  | cons x xs ih =>
    cases hx : f x with
    | none => simp [hx, ih]
    | some y =>
      by_cases hy : y = r
      · simp [hx, hy, ih]
      · simp [hx, hy, ih]

/-- A rank has fewer than `PP_INTERVAL` transfers with each rank. -/
theorem length_peers_le (T : TransferPattern) (r : ℕ) :
    (T.peers r).length ≤ T.p * (PP_INTERVAL - 1) := by
  have hmem : ∀ q ∈ (T.peers r : Multiset ℕ), q ∈ Finset.range T.p := by
    intro q hq
    obtain ⟨c, hc, hcq⟩ := List.mem_filterMap.mp hq
    obtain ⟨q', hq', -, hcq'⟩ := T.transfer r c hc
    rw [Option.some.inj (hcq.symm.trans hcq')]
    exact Finset.mem_range.mpr hq'
  have hsum := Multiset.sum_count_eq_card hmem
  rw [Multiset.coe_card] at hsum
  calc (T.peers r).length = ∑ q ∈ Finset.range T.p, (T.peers r : Multiset ℕ).count q := hsum.symm
    -- the claim's bound, once for each peer
    _ ≤ ∑ _q ∈ Finset.range T.p, (PP_INTERVAL - 1) := by
        refine Finset.sum_le_sum fun q _ => ?_
        rw [Multiset.coe_count, peers, length_filterMap_count]
        exact Nat.le_sub_one_of_lt (T.few r q)
    _ = T.p * (PP_INTERVAL - 1) := by
        rw [Finset.sum_const_nat fun _ _ => rfl, Finset.card_range]

/-- No sum wraps around beyond the negative `int`s. -/
theorem pairCounts_lt (T : TransferPattern) {r r' n : ℕ} (hn : n ∈ T.pairCounts r r') :
    n + PP_INTERVAL < 4294967296 := by
  have hfits := T.fits
  have hpos : ∀ {x}, T.colls x ≠ [] → x < T.p := fun hx => by
    by_contra hge
    exact hx (T.idle _ (Nat.le_of_not_lt hge))
  have hbound : ∀ {i b x : ℕ}, i < (T.peers x).length → b < T.p → n = i + b * PP_INTERVAL →
      n + PP_INTERVAL < 4294967296 := by
    intro i b x hi hb heq
    have hlen := T.length_peers_le x
    have hmul : (b + 1) * PP_INTERVAL ≤ T.p * PP_INTERVAL := Nat.mul_le_mul_right _ hb
    simp only [PP_INTERVAL] at hlen hmul hfits heq ⊢
    omega
  rcases Nat.lt_trichotomy r r' with hlt | rfl | hgt
  · rw [T.pairCounts_up hlt, List.mem_map] at hn
    obtain ⟨i, hi, rfl⟩ := hn
    have hget := mem_idxsOf.mp hi
    have hpeer : r' ∈ T.peers r := List.mem_of_mem_filter (List.mem_of_getElem? hget)
    obtain ⟨c, hc, hcr⟩ := List.mem_filterMap.mp hpeer
    obtain ⟨q, hq, -, hcq⟩ := T.transfer r c hc
    obtain rfl := Option.some.inj (hcr.symm.trans hcq)
    exact hbound ((List.getElem?_eq_some_iff.mp hget).1.trans_le (List.length_filter_le _ _)) hq rfl
  · rw [T.pairCounts_self] at hn
    cases hn
  · rw [T.pairCounts_down hgt, List.mem_map] at hn
    obtain ⟨i, hi, rfl⟩ := hn
    have hget := mem_idxsOf.mp hi
    have hlen := (List.getElem?_eq_some_iff.mp hget).1.trans_le (List.length_filter_le _ _)
    refine hbound hlen (hpos fun hnil => ?_) rfl
    simp [peers, hnil] at hlen

/-- Within the range the counters are the sums. -/
theorem pairCounters_eq {r r' : ℕ} (h : ∀ n ∈ T.pairCounts r r', n < 2147483648) :
    T.pairCounters r r' = (T.pairCounts r r').map fun n : ℕ => (n : ℤ) :=
  List.map_congr_left fun n hn => wrapInt_of_lt (h n hn)

/-- In an aligned pattern the sums of both ends are in range. -/
theorem InRange.lt (hR : T.InRange) (hT : T.Aligned) {r r' n : ℕ} (hn : n ∈ T.pairCounts r r') :
    n < 2147483648 := by
  have hdown : ∀ {a b : ℕ}, a < b → n ∈ T.pairCounts a b → n < 2147483648 := by
    intro a b hlt hn
    obtain ⟨i, hi, rfl⟩ := (mem_pairCounts hT hlt).mp hn
    have hlen := (List.getElem?_eq_some_iff.mp hi).1
    have hle := hR b (List.ne_nil_of_length_pos (Nat.zero_lt_of_lt hlen))
    omega
  rcases Nat.lt_trichotomy r r' with hlt | rfl | hgt
  · exact hdown hlt hn
  · rw [T.pairCounts_self] at hn
    cases hn
  · exact hdown hgt ((T.counts_iff.mpr hT) r r' ▸ hn)

/-- The last transfer of a rank with lower ranks shows whether the rank is in range. -/
theorem inRange_of_lt (h : ∀ r r' n, n ∈ T.pairCounts r r' → n < 2147483648) : T.InRange := by
  intro b hne
  have hlen := List.length_pos_of_ne_nil hne
  obtain ⟨a, ha⟩ : ∃ a, (T.downPeers b)[(T.downPeers b).length - 1]? = some a :=
    ⟨_, List.getElem?_eq_getElem (by omega)⟩
  have hlt : a < b := of_decide_eq_true (List.mem_filter.mp (List.mem_of_getElem? ha)).2
  have hmem : (T.downPeers b).length - 1 + b * PP_INTERVAL ∈ T.pairCounts b a := by
    rw [T.pairCounts_down hlt]
    exact List.mem_map_of_mem (f := (· + b * PP_INTERVAL)) (mem_idxsOf.mpr ha)
  have hcount := h b a _ hmem
  omega

/-- What the controller accepts is in range. -/
theorem Identifies.lt (h : T.Identifies) {r r' n : ℕ} (hn : n ∈ T.pairCounts r r') :
    n < 2147483648 := by
  have hcounter : wrapInt n ∈ T.pairCounters r r' :=
    List.mem_map_of_mem (f := fun n : ℕ => wrapInt n) hn
  have hrequest : pairTopowrite (T.shim r) (wrapInt n) ∈ T.pairRequests r r' :=
    List.mem_map_of_mem hcounter
  have hgroup := h.group r r' _ hrequest
  -- a counter that wrapped around is negative, and so is its group
  simp only [pairTopowrite] at hgroup
  exact lt_of_group (T.pairCounts_lt hn) hgroup

/-- **The keys identify the transfers exactly when the pattern is aligned, separated and in
range.** -/
theorem identifies_iff (T : TransferPattern) :
    T.Identifies ↔ T.Aligned ∧ T.Separated ∧ T.InRange := by
  constructor
  · intro h
    have heq : ∀ r r', T.pairCounters r r' = (T.pairCounts r r').map fun n : ℕ => (n : ℤ) :=
      fun r r' => pairCounters_eq fun n hn => h.lt hn
    have hT : T.Aligned := by
      -- without a wrap, equal counters are equal sums
      refine T.counts_iff.mp fun r r' => ?_
      have hcounters := h.counters r r'
      rw [heq, heq] at hcounters
      exact List.map_injective_iff.mpr Nat.cast_injective hcounters
    refine ⟨hT, separated_of_distinct hT fun a b a' b' k k' cnt hk hk' => ?_,
      inRange_of_lt fun r r' n hn => h.lt hn⟩
    refine h.distinct a b a' b' k k' cnt ?_ ?_
    · rw [heq, List.getElem?_map, hk]
      rfl
    · rw [heq, List.getElem?_map, hk']
      rfl
  · rintro ⟨hT, hS, hR⟩
    have heq : ∀ r r', T.pairCounters r r' = (T.pairCounts r r').map fun n : ℕ => (n : ℤ) :=
      fun r r' => pairCounters_eq fun n hn => hR.lt hT hn
    have hcounters : ∀ r r', T.pairCounters r r' = T.pairCounters r' r := fun r r' => by
      rw [heq, heq, (T.counts_iff.mpr hT) r r']
    refine ⟨hcounters, ?_, ?_, ?_⟩
    · intro r r'
      rw [pairRequests, pairRequests, hcounters r r']
      refine List.map_congr_left fun cnt _ => ?_
      rw [pairTopowrite, pairTopowrite, T.hexId_eq, T.hexId_eq]
    · intro a b a' b' k k' cnt hk hk'
      rw [heq, List.getElem?_map, Option.map_eq_some_iff] at hk hk'
      obtain ⟨n, hk, rfl⟩ := hk
      obtain ⟨n', hk', hcast⟩ := hk'
      obtain rfl := Nat.cast_injective hcast
      -- both transfers, seen from their lower ranks
      obtain ⟨a₀, b₀, hlt, hends, hk₀⟩ := exists_lt_of_mem hk hT
      obtain ⟨a₁, b₁, hlt', hends', hk₁⟩ := exists_lt_of_mem hk' hT
      obtain ⟨rfl, rfl⟩ := hS.eq_of_count hT hlt hlt' (List.mem_of_getElem? hk₀)
        (List.mem_of_getElem? hk₁)
      refine ⟨by omega, ?_⟩
      -- one pair never computes a counter twice
      obtain ⟨hlen, hget⟩ := List.getElem?_eq_some_iff.mp hk₀
      obtain ⟨hlen', hget'⟩ := List.getElem?_eq_some_iff.mp hk₁
      exact (T.pairCounts_nodup a₀ b₀).getElem_inj_iff.mp (hget.trans hget'.symm)
    · intro r r' q hq
      obtain ⟨cnt, hcnt, rfl⟩ := List.mem_map.mp hq
      rw [heq, List.mem_map] at hcnt
      obtain ⟨n, -, rfl⟩ := hcnt
      simp only [pairTopowrite, PP_INTERVAL, PP_BACKEND_INTERVAL, Nat.cast_ofNat]
      rw [Int.tdiv_eq_ediv_of_nonneg (by omega), Int.tdiv_eq_ediv_of_nonneg (by omega)]
      omega

end TransferPattern

/-- The first of three stages sends to the second one and then receives from the last one. -/
def wrapColls : ℕ → List Coll
  | 0 => [⟨1, 1, .send 1⟩, ⟨1, 1, .recv 2⟩]
  | 1 => [⟨1, 1, .recv 0⟩]
  | 2 => [⟨1, 1, .send 0⟩]
  | _ => []

/-- The pattern of these transfers. -/
def wrapPattern : TransferPattern where
  p := 3
  fits := by decide
  hexId := 7
  shim := fun r =>
    { mode := .baseline
      ppEnabled := true
      ppStage := r
      rank := fun _ => r
      domain := fun _ => 0
      networkType := fun _ => 1
      hexId := fun _ => 7
      commStages := [] }
  colls := wrapColls
  isPp := fun _ => rfl
  rank_eq := fun _ => rfl
  hexId_eq := fun _ => rfl
  idle := by
    rintro (_ | _ | _ | r) hr
    · omega
    · omega
    · omega
    · rfl
  backend := by
    rintro (_ | _ | _ | r) c hc
    · rcases List.mem_pair.mp hc with rfl | rfl <;> rfl
    · obtain rfl := List.mem_singleton.mp hc
      rfl
    · obtain rfl := List.mem_singleton.mp hc
      rfl
    · cases hc
  transfer := by
    rintro (_ | _ | _ | r) c hc
    · rcases List.mem_pair.mp hc with rfl | rfl
      · exact ⟨1, by decide⟩
      · exact ⟨2, by decide⟩
    · obtain rfl := List.mem_singleton.mp hc
      exact ⟨0, by decide⟩
    · obtain rfl := List.mem_singleton.mp hc
      exact ⟨0, by decide⟩
    · cases hc
  mirrored := by
    rintro (_ | _ | _ | r) (_ | _ | _ | r') <;>
      simp [wrapColls, Op.peer?, Coll.mirror, Op.mirror]
  few := by
    rintro (_ | _ | _ | r) r' <;> refine Nat.lt_of_le_of_lt (List.length_filter_le _ _) ?_
    · decide
    · decide
    · decide
    · exact Nat.zero_lt_succ _

/-- The first stage has counted its transfer with the second one, the last stage has not. -/
theorem not_identifies_wrapPattern : wrapPattern.pairCounters 0 2 = [2000001] ∧
    wrapPattern.pairCounters 2 0 = [2000000] ∧ ¬ wrapPattern.Identifies := by
  refine ⟨by decide, by decide, fun h => ?_⟩
  have hcounters := h.counters 0 2
  revert hcounters
  decide

end Opus
