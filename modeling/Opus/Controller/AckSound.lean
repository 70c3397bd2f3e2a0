import Opus.Controller.Phase

/-!
# Soundness of the acknowledgements

A shim that returns on an acknowledgement of a communicator whose groups need all members has had
its own request completed. A pipeline communicator with three or more members completes a group
with the requests of two of them, and a third one that is waiting for its own neighbour takes the
acknowledgement for its own.

## Main results

* `not_ackSound_of_three`: the third stage of a pipeline returns on the acknowledgement of the
  first two
* `ackSound_iff`: the acknowledgements are sound exactly when no pipeline communicator has more
  than two members
-/

namespace Opus

open Transition

variable {f : Fabric} {h : HexId} {s s' : AckSystem}

/-- The acknowledgements of a communicator are sound when its groups need all members. -/
theorem sound_of_size (hsize : f.isPp h = true → f.size h ≤ 2) {t0 : TopoId}
    (hreach : Reaches (ackStep f) (.initial t0) s) {r n : ℕ} {w : Wait}
    (hw : s.waiting r h = some w) (hack : h ∈ (s.fromCtl r).take n) :
    w.issuedAt < s.completed.count w.req := by
  obtain ⟨phase, hs⟩ := hreach.invariant (sync_step hsize) ⟨_, sync_initial f h t0⟩
  exact (hs.rank r).done (.inr ((hs.rank r).acked_of_mem (List.mem_of_mem_take hack))) w hw

/-! ## Pipelines of three or more stages -/

/-- The request of the stages `g - 1` and `g` for their first transfer. -/
def firstRequest (h : HexId) (g : ℕ) : ConfigReq :=
  ⟨h, 1 + PP_BACKEND_INTERVAL * g, g * PP_INTERVAL⟩

theorem Fabric.request_up {r g : ℕ} (hr : r ∈ f.reg.clients h) (hpp : f.isPp h = true)
    (hrank : f.rank r h = g) :
    f.request r h (.send (g + 1)) ⟨0, 0, 0⟩ = firstRequest h (g + 1) := by
  have hshim : (f.shim r).rank (f.backendId h) = g := hrank
  have hdir : (Op.send (g + 1)).direction g = .up := by
    have hup : (-1 : ℤ) > g ∨ ((g + 1 : ℕ) : ℤ) > g := by omega
    exact if_pos hup
  have hbase : getPpBase (Op.send (g + 1)).srcRank (Op.send (g + 1)).dstRank g = g + 1 := by
    simp only [getPpBase, Op.srcRank, Op.dstRank]
    omega
  simp only [Fabric.request, topowrite_of_isPp hr hpp, Coll.count, hshim, hdir, hbase, firstRequest,
    Nat.zero_add, Nat.mul_div_cancel _ (show 0 < PP_INTERVAL by decide)]

theorem Fabric.request_down {r g : ℕ} (hr : r ∈ f.reg.clients h) (hpp : f.isPp h = true)
    (hrank : f.rank r h = g + 1) : f.request r h (.recv g) ⟨0, 0, 0⟩ = firstRequest h (g + 1) := by
  have hshim : (f.shim r).rank (f.backendId h) = g + 1 := hrank
  have hdir : (Op.recv g).direction (g + 1) = .down := by
    have hup : ¬ ((g : ℤ) > (g + 1 : ℕ) ∨ (-1 : ℤ) > (g + 1 : ℕ)) := by omega
    have hpeer : (g : ℤ) ≠ -1 := by omega
    exact (if_neg hup).trans (if_pos (.inl hpeer))
  have hbase : getPpBase (Op.recv g).srcRank (Op.recv g).dstRank (g + 1) = g + 1 := by
    simp only [getPpBase, Op.srcRank, Op.dstRank]
    omega
  simp only [Fabric.request, topowrite_of_isPp hr hpp, Coll.count, hshim, hdir, hbase, firstRequest,
    Nat.zero_add, Nat.mul_div_cancel _ (show 0 < PP_INTERVAL by decide)]

/-- The first three stages send the requests for their first transfers. -/
theorem exists_run_requests {r0 r1 r2 : ℕ} (hpp : f.isPp h = true) (hsize : 2 < f.size h)
    (h0 : r0 ∈ f.reg.clients h ∧ f.rank r0 h = 0) (h1 : r1 ∈ f.reg.clients h ∧ f.rank r1 h = 1)
    (h2 : r2 ∈ f.reg.clients h ∧ f.rank r2 h = 2) (t0 : TopoId) :
    ∃ s, run (ackStep f) (.initial t0)
        [.topowrite r0 h (.send 1), .topowrite r1 h (.recv 0), .topowrite r2 h (.recv 1)] =
          some s ∧ s.ctl = .initial t0 ∧
      s.toCtl r0 = [firstRequest h 1] ∧ s.toCtl r1 = [firstRequest h 1] ∧
      s.waiting r2 h = some ⟨firstRequest h 2, 0⟩ ∧ s.completed = [] := by
  have h01 : r0 ≠ r1 := by
    rintro rfl
    omega
  have h02 : r0 ≠ r2 := by
    rintro rfl
    omega
  have h12 : r1 ≠ r2 := by
    rintro rfl
    omega
  have runs0 : f.runs r0 h (.send 1) = true := by
    simp only [Fabric.runs, Fabric.neighbours, h0.1, h0.2, hpp]
    simp
    omega
  have runs1 : f.runs r1 h (.recv 0) = true := by
    simp only [Fabric.runs, Fabric.neighbours, h1.1, h1.2, hpp]
    simp
    omega
  have runs2 : f.runs r2 h (.recv 1) = true := by
    simp only [Fabric.runs, Fabric.neighbours, h2.1, h2.2, hpp]
    simp
    omega
  have req0 := Fabric.request_up h0.1 hpp h0.2
  have req1 := Fabric.request_down (g := 0) h1.1 hpp h1.2
  have req2 := Fabric.request_down (g := 1) h2.1 hpp h2.2
  simp only [Nat.zero_add, Nat.reduceAdd] at req0 req1 req2
  simp [run, ackStep, AckSystem.initial, AckSystem.withWaiting, AckSystem.countersAfter, runs0,
    runs1, runs2, req0, req1, req2, h01, h02, h12, h01.symm, h02.symm, h12.symm]

/-- The first two stages complete their group while the third one waits. -/
theorem exists_run_complete {r0 r1 : ℕ} (hne : r1 ≠ r0) (h0 : s.ctl.handler r0 = .idle)
    (h1 : s.ctl.handler r1 = .idle) (hclients : f.reg.clients h ≠ [])
    (hcount : s.ctl.readyCount h 1000000 = 0) (ht0 : s.toCtl r0 = [firstRequest h 1])
    (ht1 : s.toCtl r1 = [firstRequest h 1]) :
    ∃ s', run (ackStep f) s [.accept r0, .advance r0, .advance r0, .accept r1, .advance r1,
        .advance r1, .advance r1, .advance r1, .advance r1, .reply r1 true] = some s' ∧
      s'.ctl.handler r1 = .acking (firstRequest h 1) (f.reg.clients h) ∧
      s'.waiting = s.waiting ∧ s'.completed = firstRequest h 1 :: s.completed := by
  simp [run, ackStep, ht0, ht1, h0, h1, hne, hclients, hcount, firstRequest, Controller.accept,
    Controller.advance, Controller.reply, Controller.at, Controller.withReady, allArrive,
    PP_BACKEND_INTERVAL, PP_INTERVAL, determineRuntimeTopo, setPpTopo, AckSystem.complete]

/-- A thread acknowledges all its clients. -/
theorem exists_run_ack {conn : ℕ} {req : ConfigReq} (clients : List ℕ) (s : AckSystem)
    (hpc : s.ctl.handler conn = .acking req clients) :
    ∃ s', Reaches (ackStep f) s s' ∧ (∀ r ∈ clients, req.hexId ∈ s'.fromCtl r) ∧
      (∀ r, s.fromCtl r <+: s'.fromCtl r) ∧ s'.waiting = s.waiting ∧
      s'.completed = s.completed := by
  induction clients generalizing s with
  | nil => exact ⟨s, .refl s, by simp, fun _ => List.prefix_rfl, rfl, rfl⟩
  | cons client clients ih =>
    have hstep : ackStep f s (.advance conn) = some { s with
        ctl := s.ctl.at conn (.acking req clients)
        fromCtl := Function.update s.fromCtl client (s.fromCtl client ++ [req.hexId]) } := by
      simp [ackStep, Controller.advance, AckSystem.acknowledge, hpc]
    obtain ⟨s', ⟨as, has⟩, hmem, hpre, hwaiting, hcompleted⟩ :=
      ih { s with
        ctl := s.ctl.at conn (.acking req clients)
        fromCtl := Function.update s.fromCtl client (s.fromCtl client ++ [req.hexId]) }
        (Controller.at_handler_self ..)
    simp only at hpre
    have hclient := hpre client
    rw [Function.update_self] at hclient
    refine ⟨s', ⟨.advance conn :: as, (run_cons_of_step hstep as).trans has⟩, ?_, fun r => ?_,
      hwaiting, hcompleted⟩
    · rw [List.forall_mem_cons]
      exact ⟨hclient.subset (by simp), hmem⟩
    · refine List.IsPrefix.trans ?_ (hpre r)
      by_cases hr : r = client
      · subst hr
        simp
      · rw [Function.update_of_ne hr]

/-- **In a pipeline of three or more stages, the third one returns on the acknowledgement of the
first two.** -/
theorem not_ackSound_of_three (hpp : f.isPp h = true) (hsize : 2 < f.size h) : ¬ AckSound f := by
  intro hsound
  obtain ⟨r0, h0⟩ := f.exists_rank (h := h) (i := 0) (by omega)
  obtain ⟨r1, h1⟩ := f.exists_rank (h := h) (i := 1) (by omega)
  obtain ⟨r2, h2⟩ := f.exists_rank (h := h) (i := 2) (by omega)
  have hne : r1 ≠ r0 := by
    rintro rfl
    omega
  obtain ⟨s, hs, hctl, ht0, ht1, hw, hdone⟩ := exists_run_requests hpp hsize h0 h1 h2 0
  obtain ⟨s', hs', hpc, hw', hdone'⟩ := exists_run_complete (f := f) (h := h) hne
    (by rw [hctl]; rfl) (by rw [hctl]; rfl) (List.ne_nil_of_mem h0.1) (by rw [hctl]; rfl) ht0 ht1
  obtain ⟨s'', hs'', hack, -, hw'', hdone''⟩ := exists_run_ack (f := f) _ s' hpc
  have hreach : Reaches (ackStep f) (.initial 0) s'' :=
    (Reaches.trans ⟨_, hs⟩ ⟨_, hs'⟩).trans hs''
  have hlt := hsound 0 s'' hreach r2 h (s''.fromCtl r2).length ⟨firstRequest h 2, 0⟩
    (by rw [hw'', hw', hw]) (by rw [List.take_length]; exact hack r2 h2.1)
  rw [hdone'', hdone', hdone] at hlt
  simp [firstRequest, PP_BACKEND_INTERVAL] at hlt

/-- **Acknowledgements are sound exactly when no pipeline communicator has more than two
members.** -/
theorem ackSound_iff (f : Fabric) :
    AckSound f ↔ ∀ h, f.isPp h = true → f.size h ≤ 2 := by
  constructor
  · intro hsound h hpp
    by_contra hsize
    exact not_ackSound_of_three hpp (by omega) hsound
  · intro hsize t0 s hreach r h n w hw hack
    exact sound_of_size (hsize h) hreach hw hack

/-- A pipeline of three stages on the connections 0, 1 and 2. -/
def threeStages : Fabric where
  reg :=
    { clients := fun h => if h = 7 then [0, 1, 2] else []
      rail := fun _ => 0 }
  shim := fun r =>
    { mode := .baseline
      ppEnabled := true
      ppStage := r
      rank := fun _ => r
      domain := fun _ => 0
      networkType := fun _ => 1
      hexId := fun _ => 7
      commStages := [] }
  backendId := fun _ => 1
  isPp := fun _ => true
  hexId_eq := by
    intro h r hr
    by_contra hh
    simp [Ne.symm hh] at hr
  isPp_eq := fun _ _ _ => rfl
  backendId_lt := fun _ => by decide
  rank_perm := by
    intro h
    by_cases hh : h = 7
    · simp only [hh]
      decide
    · simp [hh]

/-- The stages 0 and 1 complete their group, and stage 2 returns on its acknowledgement. -/
theorem not_ackSound_threeStages : ¬ AckSound threeStages := by
  intro hsound
  have hrun : Reaches (ackStep threeStages) (.initial 0) _ :=
    ⟨[.topowrite 0 7 (.send 1), .topowrite 1 7 (.recv 0), .topowrite 2 7 (.recv 1), .accept 0,
      .advance 0, .advance 0, .accept 1, .advance 1, .advance 1, .advance 1, .advance 1,
      .advance 1, .reply 1 true, .advance 1, .advance 1, .advance 1], rfl⟩
  have hlt := hsound 0 _ hrun 2 7 1 ⟨⟨7, 21, 2000000⟩, 0⟩ rfl (by decide)
  revert hlt
  decide

end Opus
