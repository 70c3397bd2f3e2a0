import Mathlib.Data.Finset.Card
import Opus.Controller.Acknowledge

/-!
# The phases of a request

The request of a member of a communicator is sent, counted, completed together with those of the
other members, and acknowledged. As long as the requests of all members complete a group, the
controller and the shims agree on these phases: no member can be waiting for anything else when
the acknowledgements are sent.

## Main definitions

* `Phase`: how far the request of a member has got
* `RankSync`: a shim, its lines and the acknowledgements on their way to it agree on its phase
* `Sync`: so do all members of a communicator and the controller

## Main results

* `Sync.frame`: what a communicator does not notice
* `Sync.step_rank`, `Sync.count`, `Sync.step_all`: one member moves on, a member is counted, all
  members move on
* `sync_step`: what every step preserves, for a communicator whose groups need all members
-/

namespace Opus

open Transition

/-! ## Phases -/

/-- How far the request of a member of a communicator has got. -/
inductive Phase where
  /-- there is none -/
  | free
  /-- its line has not been counted -/
  | sent
  /-- it is counted in an incomplete group, or one whose entry is still to be erased -/
  | counted
  /-- the entry of its group has been erased -/
  | completing
  /-- its group has been completed, the acknowledgement is still to be sent -/
  | served
  /-- the acknowledgement has been sent -/
  | acked
  deriving DecidableEq

/-- The complete group of a communicator that a thread is working on, and the phase of its
members. -/
def Handler.round? (size : ℕ) (h : HexId) : Handler → Option (ConfigReq × Phase)
  | .counted req cnt =>
    if req.hexId = h ∧ allArrive req.backend cnt size = true then some (req, .counted) else none
  | .erased req | .determined req | .loaded req _ | .sent req _ =>
    if req.hexId = h then some (req, .completing) else none
  | _ => none

/-- The members of a communicator that a thread is still to acknowledge. -/
def Handler.remaining (h : HexId) : Handler → List ℕ
  | .acking req clients => if req.hexId = h then clients else []
  | _ => []

namespace AckSystem

/-- The lines of a rank that have not been counted. -/
def inbox (s : AckSystem) (r : ℕ) : List ConfigReq := (s.ctl.handler r).line ++ s.toCtl r

/-- Those of a communicator. -/
def lines (s : AckSystem) (r : ℕ) (h : HexId) : List ConfigReq :=
  (s.inbox r).filter fun q => q.hexId = h

/-- The request a rank is waiting for. -/
def pending (s : AckSystem) (r : ℕ) (h : HexId) : Option ConfigReq :=
  (s.waiting r h).map Wait.req

end AckSystem

/-- The members of a communicator that have been counted under a counter. -/
def countedUnder (f : Fabric) (h : HexId) (s : AckSystem) (phase : ℕ → Phase) (c : ℕ) : Finset ℕ :=
  {r ∈ (f.reg.clients h).toFinset |
    phase r = .counted ∧ (s.pending r h).map ConfigReq.counter = some c}

/-- The shim of a rank, its lines and the acknowledgements on their way to it agree on how far its
request has got. -/
structure RankSync (f : Fabric) (h : HexId) (s : AckSystem) (r : ℕ) (p : Phase) : Prop where
  free : p = .free ↔ s.waiting r h = none
  formed : ∀ w, s.waiting r h = some w → r ∈ f.reg.clients h ∧ f.Forms h w.req
  lines : s.lines r h = if p = .sent then (s.pending r h).toList else []
  acks : (s.fromCtl r).count h ≤ if p = .acked then 1 else 0
  issued : ∀ w, s.waiting r h = some w → w.issuedAt ≤ s.completed.count w.req
  done : p = .served ∨ p = .acked → ∀ w, s.waiting r h = some w →
    w.issuedAt < s.completed.count w.req

/-- The ranks and the controller agree on how far the request of every member of the communicator
has got. -/
structure Sync (f : Fabric) (h : HexId) (s : AckSystem) (phase : ℕ → Phase) : Prop where
  rank : ∀ r, RankSync f h s r (phase r)
  ready : ∀ c, s.ctl.readyCount h c = (countedUnder f h s phase c).card
  round : ∀ conn q p, (s.ctl.handler conn).round? (f.size h) h = some (q, p) →
    ∀ r ∈ f.reg.clients h, phase r = p ∧ s.pending r h = some q
  unique : ∀ conn conn', ((s.ctl.handler conn).round? (f.size h) h).isSome →
    ((s.ctl.handler conn').round? (f.size h) h).isSome → conn = conn'
  nodup : ∀ conn, ((s.ctl.handler conn).remaining h).Nodup
  served : ∀ conn, ∀ r ∈ (s.ctl.handler conn).remaining h, phase r = .served
  disjoint : ∀ conn conn', conn ≠ conn' →
    ((s.ctl.handler conn).remaining h).Disjoint ((s.ctl.handler conn').remaining h)

variable {f : Fabric} {h : HexId} {s s' : AckSystem} {phase : ℕ → Phase}

theorem sync_initial (f : Fabric) (h : HexId) (t0 : TopoId) :
    Sync f h (.initial t0) fun _ => .free where
  rank := fun _ =>
    { free := ⟨fun _ => rfl, fun _ => rfl⟩
      formed := fun _ hw => by cases hw
      lines := rfl
      acks := by simp [AckSystem.initial]
      issued := fun _ hw => by cases hw
      done := fun _ _ hw => by cases hw }
  ready := fun c => by simp [countedUnder, AckSystem.initial, Controller.initial]
  round := fun _ _ _ hround => by cases hround
  unique := fun _ _ hround => by cases hround
  nodup := fun _ => List.nodup_nil
  served := fun _ _ hr => by cases hr
  disjoint := fun _ _ _ _ hr => by cases hr

/-- An acknowledgement of the communicator is only on its way to a rank in the last phase. -/
theorem RankSync.acked_of_mem {r : ℕ} {p : Phase} (hr : RankSync f h s r p)
    (hack : h ∈ s.fromCtl r) : p = .acked := by
  by_contra hne
  have hpos : 0 < (s.fromCtl r).count h := List.count_pos_iff.mpr hack
  have hacks := hr.acks
  rw [if_neg hne] at hacks
  omega

/-- A rank keeps its request and its lines, and moves on to a later phase. -/
theorem RankSync.move {r : ℕ} {p p' : Phase} (hr : RankSync f h s r p)
    (hwaiting : s'.waiting r h = s.waiting r h) (hlines : s'.lines r h = s.lines r h)
    (hfree : p' = .free ↔ p = .free) (hsent : p' = .sent ↔ p = .sent)
    (hacks : (s'.fromCtl r).count h ≤ if p' = .acked then 1 else 0)
    (hcompleted : ∀ q, s.completed.count q ≤ s'.completed.count q)
    (hdone : p' = .served ∨ p' = .acked → ∀ w, s.waiting r h = some w →
      w.issuedAt < s'.completed.count w.req) : RankSync f h s' r p' where
  free := by rw [hfree, hwaiting, hr.free]
  formed := fun w hw => hr.formed w (hwaiting ▸ hw)
  lines := by simp only [hlines, hr.lines, hsent, AckSystem.pending, hwaiting]
  acks := hacks
  issued := fun w hw => (hr.issued w (hwaiting ▸ hw)).trans (hcompleted w.req)
  done := fun hp w hw => hdone hp w (hwaiting ▸ hw)

/-- A rank that a step does not concern stays in its phase. -/
theorem RankSync.congr {r : ℕ} {p : Phase} (hr : RankSync f h s r p)
    (hwaiting : s'.waiting r h = s.waiting r h) (hlines : s'.lines r h = s.lines r h)
    (hacks : (s'.fromCtl r).count h ≤ (s.fromCtl r).count h)
    (hcompleted : ∀ q, s.completed.count q ≤ s'.completed.count q) : RankSync f h s' r p :=
  hr.move hwaiting hlines Iff.rfl Iff.rfl (hacks.trans hr.acks) hcompleted
    fun hp w hw => (hr.done hp w hw).trans_le (hcompleted w.req)

/-- A step that the communicator does not notice: its members wait for the same requests with the
same lines, a thread works on the same group or on none, and lines from the controller are at most
lost. -/
theorem Sync.frame (hs : Sync f h s phase)
    (hwaiting : ∀ r, s'.waiting r h = s.waiting r h)
    (hlines : ∀ r, s'.lines r h = s.lines r h)
    (hready : s'.ctl.readyCount h = s.ctl.readyCount h)
    (hround : ∀ conn, (s'.ctl.handler conn).round? (f.size h) h =
        (s.ctl.handler conn).round? (f.size h) h ∨
      (s'.ctl.handler conn).round? (f.size h) h = none)
    (hremaining : ∀ conn, (s'.ctl.handler conn).remaining h = (s.ctl.handler conn).remaining h)
    (hacks : ∀ r, (s'.fromCtl r).count h ≤ (s.fromCtl r).count h)
    (hcompleted : ∀ q, s.completed.count q ≤ s'.completed.count q) : Sync f h s' phase := by
  have hpending : ∀ r, s'.pending r h = s.pending r h := fun r => by
    rw [AckSystem.pending, hwaiting, AckSystem.pending]
  have hsome : ∀ conn, ((s'.ctl.handler conn).round? (f.size h) h).isSome →
      (s'.ctl.handler conn).round? (f.size h) h = (s.ctl.handler conn).round? (f.size h) h := by
    intro conn hconn
    refine (hround conn).resolve_right fun hnone => ?_
    rw [hnone] at hconn
    cases hconn
  refine ⟨?_, ?_, ?_, ?_, ?_, ?_, ?_⟩
  · exact fun r => (hs.rank r).congr (hwaiting r) (hlines r) (hacks r) hcompleted
  · intro c
    simp only [hready, hs.ready, countedUnder, hpending]
  · intro conn q p hq r hr
    rw [hsome conn (by rw [hq]; rfl)] at hq
    rw [hpending]
    exact hs.round conn q p hq r hr
  · intro conn conn' hconn hconn'
    refine hs.unique conn conn' ?_ ?_
    · rw [← hsome conn hconn]
      exact hconn
    · rw [← hsome conn' hconn']
      exact hconn'
  · exact fun conn => hremaining conn ▸ hs.nodup conn
  · exact fun conn r hr => hs.served conn r (hremaining conn ▸ hr)
  · intro conn conn' hne
    rw [hremaining, hremaining]
    exact hs.disjoint conn conn' hne

/-- A group is worked on while its members are counted or completing. -/
theorem Handler.phase_of_round? {size : ℕ} {pc : Handler} {q : ConfigReq} {p : Phase}
    (hround : pc.round? size h = some (q, p)) : p = .counted ∨ p = .completing := by
  cases pc <;> simp [Handler.round?] at hround <;> simp [hround.2]

/-- No group of the communicator is worked on while one of its members is in another phase. -/
theorem Sync.no_round (hs : Sync f h s phase) {r : ℕ} (hr : r ∈ f.reg.clients h)
    (hcounted : phase r ≠ .counted) (hcompleting : phase r ≠ .completing) (conn : ℕ) :
    (s.ctl.handler conn).round? (f.size h) h = none := by
  by_contra hne
  obtain ⟨⟨q, p⟩, hround⟩ := Option.ne_none_iff_exists'.mp hne
  obtain ⟨rfl, -⟩ := hs.round conn q p hround r hr
  exact (Handler.phase_of_round? hround).elim hcounted hcompleting

theorem Sync.mem_clients (hs : Sync f h s phase) {r : ℕ} (hr : phase r ≠ .free) :
    r ∈ f.reg.clients h := by
  obtain ⟨w, hw⟩ := Option.ne_none_iff_exists'.mp (mt (hs.rank r).free.mpr hr)
  exact ((hs.rank r).formed w hw).1

theorem card_countedUnder_congr {phase' : ℕ → Phase} {c : ℕ}
    (heq : ∀ r ∈ f.reg.clients h,
      (phase' r = .counted ∧ (s'.pending r h).map ConfigReq.counter = some c) ↔
        (phase r = .counted ∧ (s.pending r h).map ConfigReq.counter = some c)) :
    (countedUnder f h s' phase' c).card = (countedUnder f h s phase c).card := by
  unfold countedUnder
  rw [Finset.filter_congr fun r hr => heq r (List.mem_toFinset.mp hr)]

theorem lines_congr {r : ℕ} (hline : (s'.ctl.handler r).line = (s.ctl.handler r).line)
    (htoCtl : s'.toCtl r = s.toCtl r) : s'.lines r h = s.lines r h := by
  rw [AckSystem.lines, AckSystem.inbox, hline, htoCtl]
  rfl

/-- A step of a thread that the communicator does not notice. -/
theorem Sync.frame_at (hs : Sync f h s phase) {conn : ℕ} {pc : Handler}
    (hhandler : s'.ctl.handler = Function.update s.ctl.handler conn pc)
    (hwaiting : s'.waiting = s.waiting) (htoCtl : s'.toCtl = s.toCtl)
    (hready : s'.ctl.readyCount h = s.ctl.readyCount h)
    (hline : (pc.line.filter fun q => q.hexId = h) =
      (s.ctl.handler conn).line.filter fun q => q.hexId = h)
    (hround : pc.round? (f.size h) h = (s.ctl.handler conn).round? (f.size h) h ∨
      pc.round? (f.size h) h = none)
    (hremaining : pc.remaining h = (s.ctl.handler conn).remaining h)
    (hacks : ∀ r, (s'.fromCtl r).count h ≤ (s.fromCtl r).count h)
    (hcompleted : ∀ q, s.completed.count q ≤ s'.completed.count q) : Sync f h s' phase := by
  have hself : s'.ctl.handler conn = pc := by rw [hhandler, Function.update_self]
  have hother : ∀ conn' ≠ conn, s'.ctl.handler conn' = s.ctl.handler conn' := fun conn' hne => by
    rw [hhandler, Function.update_of_ne hne]
  refine hs.frame (fun r => by rw [hwaiting]) (fun r => ?_) hready (fun conn' => ?_)
    (fun conn' => ?_) hacks hcompleted
  · by_cases hne : r = conn
    · subst hne
      simp only [AckSystem.lines, AckSystem.inbox, List.filter_append, hself, hline, htoCtl]
    · exact lines_congr (by rw [hother r hne]) (by rw [htoCtl])
  · by_cases hne : conn' = conn
    · subst hne
      rw [hself]
      exact hround
    · exact .inl (by rw [hother conn' hne])
  · by_cases hne : conn' = conn
    · subst hne
      rw [hself, hremaining]
    · rw [hother conn' hne]

/-! ## Steps of the shims -/

theorem AckSystem.withWaiting_of_ne {r r' : ℕ} {h' : HexId} {w : Option Wait}
    (hne : (r', h') ≠ (r, h)) : (s.withWaiting r h w).waiting r' h' = s.waiting r' h' := by
  by_cases hr : r' = r
  · subst hr
    have hh : h' ≠ h := fun hh => hne (by rw [hh])
    simp [AckSystem.withWaiting, hh]
  · simp [AckSystem.withWaiting, hr]

@[simp] theorem AckSystem.withWaiting_self {r : ℕ} {w : Option Wait} :
    (s.withWaiting r h w).waiting r h = w := by
  simp [AckSystem.withWaiting]

/-- One member changes its phase while no group is worked on. -/
theorem Sync.step_rank (hs : Sync f h s phase) {r : ℕ} {p : Phase} (hr : r ∈ f.reg.clients h)
    (hcounted : phase r ≠ .counted) (hcompleting : phase r ≠ .completing) (hp : p ≠ .counted)
    (hready : s'.ctl.readyCount h = s.ctl.readyCount h)
    (hround : ∀ conn, (s'.ctl.handler conn).round? (f.size h) h =
      (s.ctl.handler conn).round? (f.size h) h)
    (hnodup : ∀ conn, ((s'.ctl.handler conn).remaining h).Nodup)
    (hsub : ∀ conn, ∀ r' ∈ (s'.ctl.handler conn).remaining h,
      r' ∈ (s.ctl.handler conn).remaining h ∧ r' ≠ r)
    (hother : ∀ r' ≠ r, RankSync f h s' r' (phase r') ∧ s'.pending r' h = s.pending r' h)
    (hself : RankSync f h s' r p) : Sync f h s' (Function.update phase r p) := by
  have hnone : ∀ conn, (s'.ctl.handler conn).round? (f.size h) h = none := fun conn =>
    (hround conn).trans (hs.no_round hr hcounted hcompleting conn)
  refine ⟨fun r' => ?_, fun c => ?_, fun conn q p' hq => ?_, fun conn conn' hconn => ?_, hnodup,
    fun conn r' hr' => ?_, fun conn conn' hne r' hr' hr'' => ?_⟩
  · by_cases hne : r' = r
    · subst hne
      rw [Function.update_self]
      exact hself
    · rw [Function.update_of_ne hne]
      exact (hother r' hne).1
  · rw [hready, hs.ready]
    refine (card_countedUnder_congr fun r' _ => ?_).symm
    by_cases hne : r' = r
    · subst hne
      simp [hp, hcounted]
    · rw [Function.update_of_ne hne, (hother r' hne).2]
  · rw [hnone conn] at hq
    cases hq
  · rw [hnone conn] at hconn
    cases hconn
  · obtain ⟨hmem, hne⟩ := hsub conn r' hr'
    rw [Function.update_of_ne hne]
    exact hs.served conn r' hmem
  · exact hs.disjoint conn conn' hne (hsub conn r' hr').1 (hsub conn' r' hr'').1

/-- A shim sends a request. -/
theorem Sync.topowrite (hs : Sync f h s phase) {r : ℕ} {h' : HexId} {req : ConfigReq}
    {counters : ℕ → HexId → Counters} (hr : r ∈ f.reg.clients h') (hreq : f.Forms h' req)
    (hnone : s.waiting r h' = none) :
    ∃ phase', Sync f h { s.withWaiting r h' (some ⟨req, s.completed.count req⟩) with
      counters := counters
      toCtl := Function.update s.toCtl r (s.toCtl r ++ [req]) } phase' := by
  by_cases hh : h' = h
  · subst hh
    have hfree : phase r = .free := (hs.rank r).free.mpr hnone
    have hlines := (hs.rank r).lines
    have hacks := (hs.rank r).acks
    rw [hfree, if_neg (by simp)] at hlines hacks
    refine ⟨_, hs.step_rank (p := .sent) hr (by simp [hfree]) (by simp [hfree]) (by simp) rfl
      (fun _ => rfl) hs.nodup ?_ ?_ ?_⟩
    · intro conn r' hr'
      refine ⟨hr', ?_⟩
      rintro rfl
      cases hfree.symm.trans (hs.served conn r' hr')
    · intro r' hne
      have hwaiting : (s.withWaiting r h' (some ⟨req, s.completed.count req⟩)).waiting r' h' =
          s.waiting r' h' := AckSystem.withWaiting_of_ne (by simp [hne])
      refine ⟨(hs.rank r').congr hwaiting ?_ le_rfl fun _ => le_rfl, ?_⟩
      · exact lines_congr rfl (Function.update_of_ne hne _ _)
      · simp only [AckSystem.pending, hwaiting]
    · have hwaiting : (s.withWaiting r h' (some ⟨req, s.completed.count req⟩)).waiting r h' =
          some ⟨req, s.completed.count req⟩ := AckSystem.withWaiting_self
      refine ⟨?_, ?_, ?_, ?_, ?_, ?_⟩
      · simp
      · rintro w hw
        cases hwaiting.symm.trans hw
        exact ⟨hr, hreq⟩
      · have hold : (s.inbox r).filter (fun q => q.hexId = h') = [] := hlines
        simp only [AckSystem.lines, AckSystem.inbox, AckSystem.pending, hwaiting,
          Function.update_self, ← List.append_assoc, List.filter_append] at hold ⊢
        simp [AckSystem.withWaiting, hold, hreq.hexId]
      · exact hacks
      · rintro w hw
        cases hwaiting.symm.trans hw
        exact le_rfl
      · simp
  · have hne : ∀ r', (r', h) ≠ (r, h') := fun r' heq => hh (congrArg Prod.snd heq).symm
    refine ⟨phase, hs.frame (fun r' => AckSystem.withWaiting_of_ne (hne r')) (fun r' => ?_) rfl
      (fun _ => .inl rfl) (fun _ => rfl) (fun _ => le_rfl) fun _ => le_rfl⟩
    by_cases hr' : r' = r
    · subst hr'
      have hreq' : ¬ req.hexId = h := fun heq => hh (hreq.hexId.symm.trans heq)
      simp only [AckSystem.lines, AckSystem.inbox, Function.update_self, ← List.append_assoc]
      simp [AckSystem.withWaiting, hreq']
    · exact lines_congr rfl (Function.update_of_ne hr' _ _)

/-- A shim receives lines of the controller. -/
theorem Sync.recv (hs : Sync f h s phase) {r n : ℕ} {h' : HexId} :
    ∃ phase', Sync f h
      (if h' ∈ (s.fromCtl r).take n then
        { s with fromCtl := Function.update s.fromCtl r ((s.fromCtl r).drop n) }.withWaiting r h'
          none
      else { s with fromCtl := Function.update s.fromCtl r ((s.fromCtl r).drop n) }) phase' := by
  have hacks : ∀ r', (Function.update s.fromCtl r ((s.fromCtl r).drop n) r').count h ≤
      (s.fromCtl r').count h := by
    intro r'
    by_cases hr' : r' = r
    · subst hr'
      rw [Function.update_self]
      exact (List.drop_sublist n _).count_le h
    · rw [Function.update_of_ne hr']
  split
  · rename_i hmem
    by_cases hh : h' = h
    · subst hh
      have hphase : phase r = .acked := (hs.rank r).acked_of_mem (List.mem_of_mem_take hmem)
      have hlines := (hs.rank r).lines
      rw [hphase, if_neg (by simp)] at hlines
      refine ⟨_, hs.step_rank (p := .free) (r := r) (hs.mem_clients (by simp [hphase]))
        (by simp [hphase]) (by simp [hphase]) (by simp) rfl (fun _ => rfl) hs.nodup ?_ ?_ ?_⟩
      · intro conn r' hr'
        refine ⟨hr', ?_⟩
        rintro rfl
        cases hphase.symm.trans (hs.served conn r' hr')
      · intro r' hne
        have hwaiting : ({ s with
            fromCtl := Function.update s.fromCtl r ((s.fromCtl r).drop n) }.withWaiting r h'
              none).waiting r' h' = s.waiting r' h' :=
          AckSystem.withWaiting_of_ne (by simp [hne])
        refine ⟨(hs.rank r').congr hwaiting rfl (hacks r') fun _ => le_rfl, ?_⟩
        simp only [AckSystem.pending, hwaiting]
      · -- the only acknowledgement of the rank is among the lines it has taken
        have hone := (hs.rank r).acks
        rw [hphase, if_pos rfl, ← List.take_append_drop n (s.fromCtl r), List.count_append] at hone
        have htake : 0 < ((s.fromCtl r).take n).count h' := List.count_pos_iff.mpr hmem
        refine ⟨by simp, by simp, ?_, ?_, by simp, by simp⟩
        · rw [if_neg (by simp)]
          exact hlines
        · simp only [AckSystem.withWaiting, Function.update_self]
          omega
    · have hne : ∀ r', (r', h) ≠ (r, h') := fun r' heq => hh (congrArg Prod.snd heq).symm
      exact ⟨phase, hs.frame (fun r' => AckSystem.withWaiting_of_ne (hne r')) (fun _ => rfl) rfl
        (fun _ => .inl rfl) (fun _ => rfl) hacks fun _ => le_rfl⟩
  · exact ⟨phase, hs.frame (fun _ => rfl) (fun _ => rfl) rfl (fun _ => .inl rfl) (fun _ => rfl)
      hacks fun _ => le_rfl⟩

/-! ## Steps of the controller -/

/-- What a thread that has read a request knows about the rank of its connection. -/
theorem Sync.received (hs : Sync f h s phase) {conn : ℕ} {req : ConfigReq}
    (hpc : s.ctl.handler conn = .received req) (hreq : req.hexId = h) :
    phase conn = .sent ∧ s.pending conn h = some req ∧
      ((s.toCtl conn).filter fun q => q.hexId = h) = [] := by
  have hlines := (hs.rank conn).lines
  have hcons : s.lines conn h = req :: (s.toCtl conn).filter fun q => q.hexId = h := by
    simp [AckSystem.lines, AckSystem.inbox, hpc, Handler.line, hreq]
  rw [hcons] at hlines
  by_cases hsent : phase conn = .sent
  · rw [if_pos hsent] at hlines
    cases hp : s.pending conn h with
    | none => simp [hp] at hlines
    | some q =>
      simp only [hp, Option.toList_some, List.cons.injEq] at hlines
      exact ⟨hsent, by rw [hlines.1], hlines.2⟩
  · rw [if_neg hsent] at hlines
    cases hlines

theorem Sync.mem_of_pending (hs : Sync f h s phase) {r : ℕ} {q : ConfigReq}
    (hq : s.pending r h = some q) : r ∈ f.reg.clients h ∧ f.Forms h q := by
  obtain ⟨w, hw, rfl⟩ := Option.map_eq_some_iff.mp hq
  exact (hs.rank r).formed w hw

/-- The counted members are those before the step and the one that has just been counted. -/
theorem countedUnder_update {conn c : ℕ} {req : ConfigReq} (hmem : conn ∈ f.reg.clients h)
    (hreq : s.pending conn h = some req) (hpending : ∀ r, s'.pending r h = s.pending r h) :
    countedUnder f h s' (Function.update phase conn .counted) c =
      if req.counter = c then insert conn (countedUnder f h s phase c)
      else (countedUnder f h s phase c).erase conn := by
  ext r
  by_cases hr : r = conn
  · subst hr
    by_cases hc : req.counter = c
    · simp [countedUnder, hpending, hreq, hc, hmem]
    · simp [countedUnder, hpending, hreq, hc]
  · by_cases hc : req.counter = c <;> simp [countedUnder, hpending, hc, hr]

/-- A thread counts the request of its rank. -/
theorem Sync.count (hs : Sync f h s phase) (hsize : f.isPp h = true → f.size h ≤ 2) {conn : ℕ}
    {req : ConfigReq} (hpc : s.ctl.handler conn = .received req) (hreq : req.hexId = h) :
    Sync f h { s with
      ctl := (s.ctl.withReady req (s.ctl.readyCount req.hexId req.counter + 1)).at conn
        (.counted req (s.ctl.readyCount req.hexId req.counter + 1)) }
      (Function.update phase conn .counted) := by
  obtain ⟨hsent, hpend, hrest⟩ := hs.received hpc hreq
  obtain ⟨hmem, hforms⟩ := hs.mem_of_pending hpend
  have hnone := hs.no_round hmem (by simp [hsent]) (by simp [hsent])
  have hnot : ∀ c, conn ∉ countedUnder f h s phase c := fun c => by simp [countedUnder, hsent]
  set s' : AckSystem := { s with
    ctl := (s.ctl.withReady req (s.ctl.readyCount req.hexId req.counter + 1)).at conn
      (.counted req (s.ctl.readyCount req.hexId req.counter + 1)) } with hs'
  have hother : ∀ r ≠ conn, s'.ctl.handler r = s.ctl.handler r := fun r hr =>
    Controller.at_handler_of_ne _ _ _ hr
  have hcard : ∀ c, s'.ctl.readyCount h c =
      (countedUnder f h s' (Function.update phase conn .counted) c).card := by
    intro c
    have hpending : ∀ r, s'.pending r h = s.pending r h := fun _ => rfl
    rw [countedUnder_update hmem hpend hpending]
    by_cases hc : req.counter = c
    · subst hreq hc
      rw [if_pos rfl, Finset.card_insert_of_notMem (hnot _), ← hs.ready]
      exact Controller.withReady_readyCount_self ..
    · rw [if_neg hc, Finset.erase_eq_of_notMem (hnot c), ← hs.ready]
      exact Controller.withReady_readyCount_of_ne _ _ _ (by simp [Ne.symm hc])
  have hround : ∀ conn' q p, (s'.ctl.handler conn').round? (f.size h) h = some (q, p) →
      conn' = conn ∧ q = req ∧ p = .counted ∧
        f.size h ≤ s.ctl.readyCount req.hexId req.counter + 1 := by
    intro conn' q p hq
    by_cases hconn : conn' = conn
    · subst hconn
      simp only [hs', Controller.at_handler_self, Handler.round?] at hq
      split at hq
      · rename_i hall
        cases hq
        exact ⟨rfl, rfl, rfl, (hforms.allArrive_iff hsize _).mp hall.2⟩
      · cases hq
    · rw [hother conn' hconn, hnone conn'] at hq
      cases hq
  have hremaining : ∀ conn', (s'.ctl.handler conn').remaining h =
      (s.ctl.handler conn').remaining h := by
    intro conn'
    by_cases hconn : conn' = conn
    · subst hconn
      simp [hs', hpc, Handler.remaining]
    · rw [hother conn' hconn]
  refine ⟨fun r => ?_, hcard, ?_, ?_, ?_, ?_, ?_⟩
  · by_cases hr : r = conn
    · subst hr
      rw [Function.update_self]
      have hacks := (hs.rank r).acks
      refine ⟨?_, (hs.rank r).formed, ?_, ?_, (hs.rank r).issued, by simp⟩
      · have hsome := (hs.rank r).free
        rw [hsent] at hsome
        simpa using hsome
      · simp [AckSystem.lines, AckSystem.inbox, hs', Handler.line, hrest]
      · rw [hsent, if_neg (by simp)] at hacks
        rw [if_neg (by simp)]
        exact hacks
    · rw [Function.update_of_ne hr]
      exact (hs.rank r).congr rfl (lines_congr (by rw [hother r hr]) rfl) le_rfl fun _ => le_rfl
  · intro conn' q p hq r hr
    obtain ⟨rfl, rfl, rfl, hle⟩ := hround conn' q p hq
    -- the count has reached the size, so every member has been counted
    have hall : countedUnder f h s' (Function.update phase conn' .counted) q.counter =
        (f.reg.clients h).toFinset := by
      refine Finset.eq_of_subset_of_card_le (Finset.filter_subset _ _) ?_
      rw [List.toFinset_card_of_nodup (f.clients_nodup h), ← hcard]
      subst hreq
      exact hle.trans (Controller.withReady_readyCount_self ..).ge
    have hr' := hall.ge (List.mem_toFinset.mpr hr)
    simp only [countedUnder, Finset.mem_filter] at hr'
    obtain ⟨-, hcounted, hcounter⟩ := hr'
    obtain ⟨q', hq', hc⟩ := Option.map_eq_some_iff.mp hcounter
    refine ⟨hcounted, hq'.trans (congrArg some ?_)⟩
    exact (hs.mem_of_pending (r := r) hq').2.eq_of_counter hforms hc
  · intro conn' conn'' hconn' hconn''
    obtain ⟨⟨q, p⟩, hq⟩ := Option.isSome_iff_exists.mp hconn'
    obtain ⟨⟨q', p'⟩, hq'⟩ := Option.isSome_iff_exists.mp hconn''
    exact (hround conn' q p hq).1.trans (hround conn'' q' p' hq').1.symm
  · exact fun conn' => hremaining conn' ▸ hs.nodup conn'
  · intro conn' r hr
    rw [hremaining] at hr
    have hserved := hs.served conn' r hr
    have hne : r ≠ conn := by
      rintro rfl
      cases hsent.symm.trans hserved
    rw [Function.update_of_ne hne]
    exact hserved
  · intro conn' conn'' hne
    rw [hremaining, hremaining]
    exact hs.disjoint conn' conn'' hne

/-- The members of a group that a thread is working on move on together. -/
theorem Sync.step_all (hs : Sync f h s phase) {conn : ℕ} {q : ConfigReq} {p p' : Phase}
    {pc : Handler} (hpc : (s.ctl.handler conn).round? (f.size h) h = some (q, p))
    (hhandler : s'.ctl.handler = Function.update s.ctl.handler conn pc)
    (hwaiting : s'.waiting = s.waiting) (htoCtl : s'.toCtl = s.toCtl)
    (hfromCtl : s'.fromCtl = s.fromCtl)
    (hcompleted : ∀ q, s.completed.count q ≤ s'.completed.count q)
    (hready : ∀ c, s'.ctl.readyCount h c = 0)
    (hline : pc.line = (s.ctl.handler conn).line)
    (hround : ∀ q' p'', pc.round? (f.size h) h = some (q', p'') → q' = q ∧ p'' = p')
    (hnodup : (pc.remaining h).Nodup)
    (hremaining : ∀ r ∈ pc.remaining h, r ∈ f.reg.clients h ∧ p' = .served)
    (hp' : p' = .completing ∨ p' = .served)
    (hdone : p' = .served → s.completed.count q < s'.completed.count q) :
    Sync f h s' fun r => if r ∈ f.reg.clients h then p' else phase r := by
  have hself : s'.ctl.handler conn = pc := by rw [hhandler, Function.update_self]
  have hother : ∀ conn' ≠ conn, s'.ctl.handler conn' = s.ctl.handler conn' := fun conn' hne => by
    rw [hhandler, Function.update_of_ne hne]
  have hmember : ∀ r ∈ f.reg.clients h, phase r = p ∧ s.pending r h = some q :=
    hs.round conn q p hpc
  have hp : p = .counted ∨ p = .completing := Handler.phase_of_round? hpc
  have hnone : ∀ conn' ≠ conn, (s'.ctl.handler conn').round? (f.size h) h = none := by
    intro conn' hne
    rw [hother conn' hne]
    by_contra hsome
    exact hne (hs.unique conn' conn (Option.isSome_iff_ne_none.mpr hsome) (by rw [hpc]; rfl))
  have hout : ∀ conn', ∀ r ∈ (s.ctl.handler conn').remaining h, r ∉ f.reg.clients h := by
    intro conn' r hr hmem
    have hserved := (hmember r hmem).1.symm.trans (hs.served conn' r hr)
    rcases hp with rfl | rfl <;> cases hserved
  have hlines : ∀ r, s'.lines r h = s.lines r h := by
    intro r
    refine lines_congr ?_ (by rw [htoCtl])
    by_cases hr : r = conn
    · rw [hr, hself, hline]
    · rw [hother r hr]
  refine ⟨fun r => ?_, fun c => ?_, fun conn' q' p'' hq r hr => ?_, fun conn' conn'' h1 h2 => ?_,
    fun conn' => ?_, fun conn' r hr => ?_, fun conn' conn'' hne r h1 h2 => ?_⟩
  · by_cases hr : r ∈ f.reg.clients h
    · simp only [if_pos hr]
      obtain ⟨hphase, hpend⟩ := hmember r hr
      have hacks := (hs.rank r).acks
      refine (hs.rank r).move (by rw [hwaiting]) (hlines r) ?_ ?_ ?_ hcompleted ?_
      · rw [hphase]
        rcases hp with rfl | rfl <;> rcases hp' with rfl | rfl <;> simp
      · rw [hphase]
        rcases hp with rfl | rfl <;> rcases hp' with rfl | rfl <;> simp
      · rw [hfromCtl]
        refine hacks.trans ?_
        rw [hphase]
        rcases hp with rfl | rfl <;> simp
      · intro hp'' w hw
        have hreq : w.req = q := by
          rw [AckSystem.pending, hw] at hpend
          exact Option.some.inj hpend
        rw [hreq]
        refine (hreq ▸ (hs.rank r).issued w hw).trans_lt (hdone ?_)
        rcases hp' with rfl | rfl
        · simp at hp''
        · rfl
    · simp only [if_neg hr]
      exact (hs.rank r).congr (by rw [hwaiting]) (hlines r) (by rw [hfromCtl]) hcompleted
  · rw [hready, eq_comm, Finset.card_eq_zero, countedUnder, Finset.filter_eq_empty_iff]
    intro r hr
    rw [if_pos (List.mem_toFinset.mp hr)]
    rcases hp' with rfl | rfl <;> simp
  · by_cases hconn : conn' = conn
    · subst hconn
      rw [hself] at hq
      obtain ⟨rfl, rfl⟩ := hround q' p'' hq
      simp only [if_pos hr, AckSystem.pending, hwaiting]
      exact ⟨trivial, (hmember r hr).2⟩
    · rw [hnone conn' hconn] at hq
      cases hq
  · have hconn : ∀ conn', ((s'.ctl.handler conn').round? (f.size h) h).isSome → conn' = conn := by
      intro conn' hsome
      by_contra hne
      rw [hnone conn' hne] at hsome
      cases hsome
    exact (hconn conn' h1).trans (hconn conn'' h2).symm
  · by_cases hconn : conn' = conn
    · rw [hconn, hself]
      exact hnodup
    · rw [hother conn' hconn]
      exact hs.nodup conn'
  · by_cases hconn : conn' = conn
    · rw [hconn, hself] at hr
      obtain ⟨hmem, rfl⟩ := hremaining r hr
      simp only [if_pos hmem]
    · rw [hother conn' hconn] at hr
      simp only [if_neg (hout conn' r hr)]
      exact hs.served conn' r hr
  · by_cases h1c : conn' = conn
    · have h2c : conn'' ≠ conn := fun h2c => hne (h1c.trans h2c.symm)
      rw [h1c, hself] at h1
      rw [hother conn'' h2c] at h2
      exact hout conn'' r h2 (hremaining r h1).1
    · rw [hother conn' h1c] at h1
      by_cases h2c : conn'' = conn
      · rw [h2c, hself] at h2
        exact hout conn' r h1 (hremaining r h2).1
      · rw [hother conn'' h2c] at h2
        exact hs.disjoint conn' conn'' hne h1 h2

/-- A thread erases the entry of a complete group. -/
theorem Sync.erase (hs : Sync f h s phase) {conn cnt : ℕ} {req : ConfigReq}
    (hpc : s.ctl.handler conn = .counted req cnt) (hreq : req.hexId = h)
    (hall : allArrive req.backend cnt (f.size h) = true) :
    ∃ phase', Sync f h { s with ctl := (s.ctl.withReady req 0).at conn (.erased req) } phase' := by
  have hround : (s.ctl.handler conn).round? (f.size h) h = some (req, .counted) := by
    rw [hpc, Handler.round?, if_pos ⟨hreq, hall⟩]
  refine ⟨_, hs.step_all hround rfl rfl rfl rfl (fun _ => le_rfl) ?_ ?_ ?_
    List.nodup_nil (fun r hr => by cases hr) (.inl rfl) (fun h => by cases h)⟩
  · intro c
    by_cases hc : c = req.counter
    · subst hreq hc
      exact Controller.withReady_readyCount_self ..
    · -- all members have been counted under the counter of the group
      have hold : s.ctl.readyCount h c = 0 := by
        rw [hs.ready, Finset.card_eq_zero, countedUnder, Finset.filter_eq_empty_iff]
        rintro r hr ⟨-, hcounter⟩
        rw [(hs.round conn req .counted hround r (List.mem_toFinset.mp hr)).2] at hcounter
        exact hc (Option.some.inj hcounter).symm
      rw [← hold]
      exact Controller.withReady_readyCount_of_ne _ _ _ (by simp [hc])
  · rw [hpc]
    rfl
  · intro q' p'' hq
    rw [Handler.round?, if_pos hreq] at hq
    cases hq
    exact ⟨rfl, rfl⟩

/-- A thread reads the successful reply for its group. -/
theorem Sync.complete (hs : Sync f h s phase) {conn : ℕ} {req : ConfigReq} {topoId : TopoId}
    (hpc : s.ctl.handler conn = .sent req topoId) (hreq : req.hexId = h) :
    ∃ phase', Sync f h { s with
      ctl := s.ctl.at conn (.acking req (f.reg.clients req.hexId))
      completed := req :: s.completed } phase' := by
  have hround : (s.ctl.handler conn).round? (f.size h) h = some (req, .completing) := by
    rw [hpc, Handler.round?, if_pos hreq]
  have hremaining : Handler.remaining h (.acking req (f.reg.clients req.hexId)) =
      f.reg.clients h := by
    rw [Handler.remaining, if_pos hreq, hreq]
  refine ⟨_, hs.step_all hround rfl rfl rfl rfl
    (fun q => List.count_le_count_cons) ?_ ?_ (fun q' p'' hq => by cases hq) ?_ ?_ (.inr rfl) ?_⟩
  · intro c
    rw [Controller.at_readyCount, hs.ready, Finset.card_eq_zero, countedUnder,
      Finset.filter_eq_empty_iff]
    rintro r hr ⟨hcounted, -⟩
    have := (hs.round conn req .completing hround r (List.mem_toFinset.mp hr)).1
    cases hcounted.symm.trans this
  · rw [hpc]
    rfl
  · rw [hremaining]
    exact f.clients_nodup h
  · intro r hr
    exact ⟨hremaining ▸ hr, rfl⟩
  · intro _
    simp

/-- A thread acknowledges a member. -/
theorem Sync.ack (hs : Sync f h s phase) {conn client : ℕ} {clients : List ℕ} {req : ConfigReq}
    (hpc : s.ctl.handler conn = .acking req (client :: clients)) (hreq : req.hexId = h) :
    ∃ phase', Sync f h { s with
      ctl := s.ctl.at conn (.acking req clients)
      fromCtl := Function.update s.fromCtl client (s.fromCtl client ++ [req.hexId]) } phase' := by
  have hremaining : (s.ctl.handler conn).remaining h = client :: clients := by
    rw [hpc, Handler.remaining, if_pos hreq]
  have hself : ((s.ctl.at conn (.acking req clients)).handler conn).remaining h = clients := by
    rw [Controller.at_handler_self, Handler.remaining, if_pos hreq]
  have hother : ∀ conn' ≠ conn, (s.ctl.at conn (.acking req clients)).handler conn' =
      s.ctl.handler conn' := fun conn' hne => Controller.at_handler_of_ne _ _ _ hne
  have hserved : phase client = .served := hs.served conn client (by simp [hremaining])
  have hnodup := hs.nodup conn
  rw [hremaining, List.nodup_cons] at hnodup
  have hlines : ∀ r, ({ s with
      ctl := s.ctl.at conn (.acking req clients)
      fromCtl := Function.update s.fromCtl client (s.fromCtl client ++ [req.hexId]) } :
        AckSystem).lines r h = s.lines r h := by
    intro r
    refine lines_congr ?_ rfl
    by_cases hr : r = conn
    · rw [hr, hpc, Controller.at_handler_self]
      rfl
    · rw [hother r hr]
  refine ⟨_, hs.step_rank (p := .acked) (r := client) (hs.mem_clients (by simp [hserved]))
    (by simp [hserved]) (by simp [hserved]) (by simp) rfl ?_ ?_ ?_ ?_ ?_⟩
  · intro conn'
    by_cases hconn : conn' = conn
    · rw [hconn, hpc, Controller.at_handler_self]
      rfl
    · rw [hother conn' hconn]
  · intro conn'
    by_cases hconn : conn' = conn
    · rw [hconn, hself]
      exact hnodup.2
    · rw [hother conn' hconn]
      exact hs.nodup conn'
  · intro conn' r hr
    by_cases hconn : conn' = conn
    · subst hconn
      rw [hself] at hr
      refine ⟨by simp [hremaining, hr], ?_⟩
      rintro rfl
      exact hnodup.1 hr
    · rw [hother conn' hconn] at hr
      refine ⟨hr, ?_⟩
      rintro rfl
      exact hs.disjoint conn' conn hconn hr (by simp [hremaining])
  · intro r hr
    refine ⟨(hs.rank r).congr rfl (hlines r) ?_ fun _ => le_rfl, rfl⟩
    simp only [Function.update_of_ne hr, le_refl]
  · have hacks := (hs.rank client).acks
    rw [hserved, if_neg (by simp)] at hacks
    refine (hs.rank client).move rfl (hlines client) (by simp [hserved]) (by simp [hserved]) ?_
      (fun _ => le_rfl) fun _ => (hs.rank client).done (.inl hserved)
    simp only [Function.update_self, List.count_append, hreq, List.count_singleton_self, if_true]
    omega

/-- A step of a thread. -/
theorem Sync.advance (hs : Sync f h s phase) (hsize : f.isPp h = true → f.size h ≤ 2) {conn : ℕ}
    {ctl : Controller} (hctl : s.ctl.advance f.reg conn = some ctl) :
    ∃ phase', Sync f h { s with ctl := ctl, fromCtl := s.acknowledge conn } phase' := by
  have hsame : (∀ req clients, s.ctl.handler conn ≠ .acking req clients) →
      s.acknowledge conn = s.fromCtl := by
    intro hne
    unfold AckSystem.acknowledge
    split
    · rename_i hpc
      exact absurd hpc (hne _ _)
    · rfl
  cases Controller.advance_cases hctl with
  | unknown req hpc hclients =>
    rw [hsame (by simp [hpc])]
    have hreq : req.hexId ≠ h := by
      intro hreq
      -- the rank of the connection is a member
      have hmem := (hs.mem_of_pending (hs.received hpc hreq).2.1).1
      rw [← hreq, hclients] at hmem
      cases hmem
    exact ⟨phase, hs.frame_at rfl rfl rfl rfl (by simp [hpc, Handler.line, hreq])
      (.inr rfl) (by simp [hpc, Handler.remaining]) (fun _ => le_rfl) fun _ => le_rfl⟩
  | count req hpc hclients =>
    rw [hsame (by simp [hpc])]
    by_cases hreq : req.hexId = h
    · exact ⟨_, hs.count hsize hpc hreq⟩
    · refine ⟨phase, hs.frame_at rfl rfl rfl ?_ (by simp [hpc, Handler.line, hreq])
        (.inr (by simp [Handler.round?, hreq])) (by simp [hpc, Handler.remaining])
        (fun _ => le_rfl) fun _ => le_rfl⟩
      exact funext fun c => Controller.withReady_readyCount_of_ne _ _ _ (by simp [Ne.symm hreq])
  | erase req cnt hpc hall =>
    rw [hsame (by simp [hpc])]
    by_cases hreq : req.hexId = h
    · exact hs.erase hpc hreq (hreq ▸ hall)
    · refine ⟨phase, hs.frame_at rfl rfl rfl ?_ (by simp [hpc, Handler.line])
        (.inr (by simp [Handler.round?, hreq])) (by simp [hpc, Handler.remaining])
        (fun _ => le_rfl) fun _ => le_rfl⟩
      exact funext fun c => Controller.withReady_readyCount_of_ne _ _ _ (by simp [Ne.symm hreq])
  | incomplete req cnt hpc hall =>
    rw [hsame (by simp [hpc])]
    exact ⟨phase, hs.frame_at rfl rfl rfl rfl (by simp [hpc, Handler.line])
      (.inr rfl) (by simp [hpc, Handler.remaining]) (fun _ => le_rfl) fun _ => le_rfl⟩
  | throw req message hpc hdet =>
    rw [hsame (by simp [hpc])]
    exact ⟨phase, hs.frame_at rfl rfl rfl rfl (by simp [hpc, Handler.line])
      (.inr rfl) (by simp [hpc, Handler.remaining]) (fun _ => le_rfl) fun _ => le_rfl⟩
  | determine req topoId hpc hdet =>
    rw [hsame (by simp [hpc])]
    exact ⟨phase, hs.frame_at rfl rfl rfl rfl (by simp [hpc, Handler.line])
      (.inl (by simp [hpc, Handler.round?])) (by simp [hpc, Handler.remaining])
      (fun _ => le_rfl) fun _ => le_rfl⟩
  | load req hpc =>
    rw [hsame (by simp [hpc])]
    exact ⟨phase, hs.frame_at rfl rfl rfl rfl (by simp [hpc, Handler.line])
      (.inl (by simp [hpc, Handler.round?])) (by simp [hpc, Handler.remaining])
      (fun _ => le_rfl) fun _ => le_rfl⟩
  | send req topoId hpc =>
    rw [hsame (by simp [hpc])]
    exact ⟨phase, hs.frame_at rfl rfl rfl rfl (by simp [hpc, Handler.line])
      (.inl (by simp [hpc, Handler.round?])) (by simp [hpc, Handler.remaining])
      (fun _ => le_rfl) fun _ => le_rfl⟩
  | ack req client clients hpc =>
    have hack : s.acknowledge conn =
        Function.update s.fromCtl client (s.fromCtl client ++ [req.hexId]) := by
      rw [AckSystem.acknowledge, hpc]
    rw [hack]
    by_cases hreq : req.hexId = h
    · exact hs.ack hpc hreq
    · refine ⟨phase, hs.frame_at rfl rfl rfl rfl (by simp [hpc, Handler.line]) (.inr rfl)
        (by simp [hpc, Handler.remaining, hreq]) (fun r => ?_) fun _ => le_rfl⟩
      by_cases hr : r = client
      · simp [hr, hreq]
      · simp [hr]
  | finish req hpc =>
    have hack : s.acknowledge conn = s.fromCtl := by rw [AckSystem.acknowledge, hpc]
    rw [hack]
    exact ⟨phase, hs.frame_at rfl rfl rfl rfl (by simp [hpc, Handler.line])
      (.inr rfl) (by simp [hpc, Handler.remaining]) (fun _ => le_rfl) fun _ => le_rfl⟩

/-- A thread reads a reply. -/
theorem Sync.reply (hs : Sync f h s phase) {conn : ℕ} {success : Bool} {ctl : Controller}
    (hctl : s.ctl.reply f.reg conn success = some ctl) :
    ∃ phase', Sync f h { s with ctl := ctl, completed := s.complete conn success } phase' := by
  obtain ⟨req, topoId, hpc, rfl⟩ := Controller.reply_cases hctl
  have hcomplete : s.complete conn success =
      if success then req :: s.completed else s.completed := by
    rw [AckSystem.complete, hpc]
  rw [hcomplete]
  cases success with
  | false =>
    exact ⟨phase, hs.frame_at rfl rfl rfl rfl (by simp [hpc, Handler.line])
      (.inr rfl) (by simp [hpc, Handler.remaining]) (fun _ => le_rfl) fun _ => le_rfl⟩
  | true =>
    by_cases hreq : req.hexId = h
    · exact hs.complete hpc hreq
    · exact ⟨phase, hs.frame_at rfl rfl rfl rfl (by simp [hpc, Handler.line])
        (.inr rfl) (by simp [hpc, Handler.remaining, hreq]) (fun _ => le_rfl)
        fun _ => List.count_le_count_cons⟩

/-- **Every step keeps the ranks and the controller in agreement**, for a communicator whose
groups need all members. -/
theorem sync_step (hsize : f.isPp h = true → f.size h ≤ 2) (s : AckSystem) (a : AckAction)
    (s' : AckSystem) (hs : ∃ phase, Sync f h s phase) (hstep : ackStep f s a = some s') :
    ∃ phase, Sync f h s' phase := by
  obtain ⟨phase, hs⟩ := hs
  cases a with
  | topowrite r h' op =>
    simp only [ackStep] at hstep
    split at hstep
    · rename_i hc
      cases hstep
      exact hs.topowrite (Fabric.mem_of_runs hc.1) (Fabric.forms_request hc.1 _) hc.2
    · cases hstep
  | pass r h' op =>
    simp only [ackStep] at hstep
    split at hstep
    · cases hstep
      exact ⟨phase, hs.frame (fun _ => rfl) (fun _ => rfl) rfl (fun _ => .inl rfl) (fun _ => rfl)
        (fun _ => le_rfl) fun _ => le_rfl⟩
    · cases hstep
  | accept r =>
    simp only [ackStep] at hstep
    split at hstep
    · cases hstep
    · rename_i req reqs hto
      obtain ⟨ctl, hctl, rfl⟩ := Option.map_eq_some_iff.mp hstep
      obtain ⟨hpc, rfl⟩ := Controller.accept_cases hctl
      refine ⟨phase, hs.frame (fun _ => rfl) (fun r' => ?_) rfl (fun conn => ?_) (fun conn => ?_)
        (fun _ => le_rfl) fun _ => le_rfl⟩
      · by_cases hr : r' = r
        · subst hr
          simp [AckSystem.lines, AckSystem.inbox, hpc, hto, Handler.line]
        · exact lines_congr (by rw [Controller.at_handler_of_ne _ _ _ hr])
            (Function.update_of_ne hr _ _)
      · by_cases hr : conn = r
        · subst hr
          exact .inr (by rw [Controller.at_handler_self]; rfl)
        · exact .inl (by rw [Controller.at_handler_of_ne _ _ _ hr])
      · by_cases hr : conn = r
        · subst hr
          rw [Controller.at_handler_self, hpc]
          rfl
        · rw [Controller.at_handler_of_ne _ _ _ hr]
  | advance r =>
    obtain ⟨ctl, hctl, rfl⟩ := Option.map_eq_some_iff.mp hstep
    exact hs.advance hsize hctl
  | reply r success =>
    obtain ⟨ctl, hctl, rfl⟩ := Option.map_eq_some_iff.mp hstep
    exact hs.reply hctl
  | recv r h' n =>
    simp only [ackStep] at hstep
    split at hstep
    · cases hstep
    · cases hstep
      exact hs.recv

end Opus
