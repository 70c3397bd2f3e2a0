import Opus.Wire

/-!
# Exchanges in lock step

A process that sends a message and waits for its answer before it sends the next one is in lock
step with the controller: what arrives during a wait ends with the answer of that wait. Answers to
other requests may come before it, and the bytes may be divided in any way. Then every wait returns
with its own answer and nothing is lost for the next one.

## Main definitions

* `Exchange`: a wait, the answers that arrive during it, and the results of `recv`

## Main results

* `foldl_receive_of_stream`: one wait
* `exchanges_answered`: a run of exchanges
-/

namespace Opus

/-! ## One wait -/

/-- The result is a piece of the stream, or there is nothing yet. -/
def RecvResult.Continues : RecvResult → Prop
  | .bytes buf => buf ≠ [] ∧ buf.length ≤ 512
  | .again => True
  | .closed => False
  | .deadline _ => False

instance RecvResult.instDecidableContinues : DecidablePred RecvResult.Continues
  | .bytes buf => inferInstanceAs (Decidable (buf ≠ [] ∧ buf.length ≤ 512))
  | .again => inferInstanceAs (Decidable True)
  | .closed => inferInstanceAs (Decidable False)
  | .deadline _ => inferInstanceAs (Decidable False)

variable {waits : List AckWait} {w : AckWait}

/-- Nothing happens while nothing arrives. -/
theorem foldl_receive_of_stream_nil (rs : List RecvResult) (s : Receiver)
    (hrs : ∀ r ∈ rs, r.Continues) (h : stream rs = []) : rs.foldl (receive waits) s = s := by
  induction rs with
  | nil => rfl
  | cons r rs ih =>
    obtain ⟨hr, hcont⟩ := List.forall_mem_cons.mp hrs
    cases r with
    | bytes buf => exact absurd (List.append_eq_nil_iff.mp h).1 hr.1
    | again =>
      have hstep : receive waits s .again = s := by
        rw [receive]
        cases waits[s.returned]? <;> rfl
      rw [List.foldl_cons, hstep, ih hcont h]
    | closed => exact absurd hr id
    | deadline wait => exact absurd hr id

theorem AckWait.scan_of_none {lines : List Text} (h : ∀ l ∈ lines, w.ending l = none) :
    w.scan lines = none := by
  induction lines with
  | nil => rfl
  | cons line lines ih =>
    obtain ⟨hline, hlines⟩ := List.forall_mem_cons.mp h
    rw [AckWait.scan, hline, ih hlines]
    rfl

theorem AckWait.scan_concat {lines : List Text} {last : Text} {ending : Ending}
    (h : ∀ l ∈ lines, w.ending l = none) (hlast : w.ending last = some ending) :
    w.scan (lines ++ [last]) = some (lines.length, ending, []) := by
  induction lines with
  | nil => rw [List.nil_append, AckWait.scan, hlast]; rfl
  | cons line lines ih =>
    obtain ⟨hline, hlines⟩ := List.forall_mem_cons.mp h
    rw [List.cons_append, AckWait.scan, hline, ih hlines]
    rfl

/-- **A wait that is served in lock step** returns at its own line, and its buffer is empty then. -/
theorem foldl_receive_of_stream (rs : List RecvResult) (s : Receiver) {lines : List Text}
    {last : Text} {ending : Ending} (hw : waits[s.returned]? = some w)
    (hpart : (Lines.split '\n' s.accum).1 = []) (hrs : ∀ r ∈ rs, r.Continues)
    (hstream : Lines.split '\n' (s.accum ++ stream rs) = (lines ++ [last], []))
    (hlines : ∀ l ∈ lines, w.ending l = none) (hlast : w.ending last = some ending) :
    rs.foldl (receive waits) s =
      ⟨s.returned + 1, [], s.lines + lines.length + 1,
        s.outcomes ++ [.ended (s.lines + lines.length) ending], s.lost ++ [[]]⟩ := by
  induction rs generalizing s lines with
  | nil =>
    have hnil : stream [] = [] := rfl
    rw [hnil, List.append_nil] at hstream
    rw [hstream] at hpart
    simp at hpart
  | cons r rs ih =>
    obtain ⟨hr, hcont⟩ := List.forall_mem_cons.mp hrs
    cases r with
    | again =>
      have hstep : receive waits s .again = s := by rw [receive, hw]
      rw [List.foldl_cons, hstep]
      exact ih s hw hpart hcont hstream hlines
    | closed => exact absurd hr id
    | deadline wait => exact absurd hr id
    | bytes buf =>
      have happend : stream (.bytes buf :: rs) = buf ++ stream rs := rfl
      rw [happend, ← List.append_assoc, Lines.split_append, Prod.mk.injEq] at hstream
      obtain ⟨hfst, hsnd⟩ := hstream
      -- the last line is complete, or it ends in a later piece
      rcases List.eq_nil_or_concat'
        (Lines.split '\n' ((Lines.split '\n' (s.accum ++ buf)).2 ++ stream rs)).1 with
        hnone | ⟨more, final, hmore⟩
      · have hrest : (Lines.split '\n' (s.accum ++ buf)).2 ++ stream rs = [] := by
          rw [← Lines.join_split '\n' (_ ++ stream rs), hnone, hsnd]
          rfl
        obtain ⟨haccum, hquiet⟩ := List.append_eq_nil_iff.mp hrest
        rw [hnone, List.append_nil] at hfst
        rw [List.foldl_cons, receive, hw]
        simp only [hfst, AckWait.scan_concat hlines hlast, haccum]
        rw [foldl_receive_of_stream_nil rs _ hcont hquiet]
        simp [Receiver.finish, Lines.join, Nat.add_assoc]
      · rw [hmore, ← List.append_assoc] at hfst
        obtain ⟨hfront, hfinal⟩ := List.append_inj' hfst rfl
        obtain rfl := List.singleton_inj.mp hfinal
        have hseen : ∀ l ∈ (Lines.split '\n' (s.accum ++ buf)).1, w.ending l = none := by
          intro l hl
          apply hlines
          rw [← hfront]
          exact List.mem_append_left more hl
        have hnext : receive waits s (.bytes buf) =
            { s with
              accum := (Lines.split '\n' (s.accum ++ buf)).2
              lines := s.lines + (Lines.split '\n' (s.accum ++ buf)).1.length } := by
          simp only [receive, hw, AckWait.scan_of_none hseen]
        have hlater : ∀ l ∈ more, w.ending l = none := by
          intro l hl
          apply hlines
          rw [← hfront]
          exact List.mem_append_right _ hl
        have hrest := ih
          { s with
            accum := (Lines.split '\n' (s.accum ++ buf)).2
            lines := s.lines + (Lines.split '\n' (s.accum ++ buf)).1.length }
          hw (Lines.split_rest '\n' (s.accum ++ buf)) hcont (Prod.ext hmore hsnd) hlater
        rw [List.foldl_cons, hnext, hrest]
        simp [← hfront, Nat.add_assoc]

/-! ## Runs of exchanges -/

/-- A wait and what arrives during it: answers to others, then the answer that ends the wait, in
pieces of any size. -/
structure Exchange where
  await : Await
  id : CommId
  others : List Answer
  answer : Answer
  results : List RecvResult

/-- The exchange is in lock step. -/
structure Exchange.InLockStep (x : Exchange) : Prop where
  fits : ∀ a ∈ x.others ++ [x.answer], a.Fits
  others : ∀ a ∈ x.others, x.await.ending x.id a = none
  answer : (x.await.ending x.id x.answer).isSome = true
  continues : ∀ r ∈ x.results, r.Continues
  stream : stream x.results = Lines.join '\n' ((x.others ++ [x.answer]).map Answer.line)

/-- The line that ended a wait. -/
def Outcome.ending? : Outcome → Option Ending
  | .ended _ ending => some ending
  | .timeout => none
  | .closed => none

/-- The waits of the exchanges behind those of `done`. -/
theorem foldl_receive_exchanges (done : List AckWait) (xs : List Exchange) (s : Receiver)
    (h : ∀ x ∈ xs, x.InLockStep) (hs : s.returned = done.length) (haccum : s.accum = []) :
    let t := (xs.flatMap Exchange.results).foldl
      (receive (done ++ xs.map fun x => x.await.wait x.id)) s
    t.outcomes.map Outcome.ending? =
        s.outcomes.map Outcome.ending? ++ (xs.map fun x => x.await.ending x.id x.answer) ∧
      t.lost = s.lost ++ (xs.map fun _ => []) := by
  induction xs generalizing done s with
  | nil => simp
  | cons x xs ih =>
    obtain ⟨hx, hxs⟩ := List.forall_mem_cons.mp h
    obtain ⟨ending, hending⟩ := Option.isSome_iff_exists.mp hx.answer
    have hfits : ∀ a ∈ x.others, a.Fits := fun a ha => hx.fits a (List.mem_append_left _ ha)
    have hw : (done ++ (x :: xs).map fun x => x.await.wait x.id)[s.returned]? =
        some (x.await.wait x.id) := by
      rw [hs, List.getElem?_append_right le_rfl, Nat.sub_self]
      rfl
    have hsplit : Lines.split '\n' (s.accum ++ stream x.results) =
        (x.others.map Answer.line ++ [x.answer.line], []) := by
      rw [haccum, List.nil_append, hx.stream, Lines.split_join]
      · rw [List.map_append, List.map_singleton]
      · intro line hline
        obtain ⟨a, -, rfl⟩ := List.mem_map.mp hline
        exact a.not_mem_line
    have hothers : ∀ l ∈ x.others.map Answer.line, (x.await.wait x.id).ending l = none := by
      intro l hl
      obtain ⟨a, ha, rfl⟩ := List.mem_map.mp hl
      rw [ending_line _ _ (hfits a ha)]
      exact hx.others a ha
    have hlast : (x.await.wait x.id).ending x.answer.line = some ending := by
      rw [ending_line _ _ (hx.fits x.answer (List.mem_append_right _ List.mem_cons_self))]
      exact hending
    have hwait := foldl_receive_of_stream x.results s hw (by rw [haccum]; rfl) hx.continues hsplit
      hothers hlast
    have hwaits : done ++ (x :: xs).map (fun x => x.await.wait x.id) =
        (done ++ [x.await.wait x.id]) ++ xs.map fun x => x.await.wait x.id := by
      rw [List.append_assoc]
      rfl
    have hnext := ih (done ++ [x.await.wait x.id]) ⟨s.returned + 1, [],
        s.lines + (x.others.map Answer.line).length + 1,
        s.outcomes ++ [.ended (s.lines + (x.others.map Answer.line).length) ending],
        s.lost ++ [[]]⟩ hxs (by simp [hs]) rfl
    rw [List.flatMap_cons, List.foldl_append, hwait, hwaits]
    refine ⟨hnext.1.trans ?_, hnext.2.trans ?_⟩
    · simp [Outcome.ending?, hending]
    · simp

/-- **Exchanges in lock step are answered.** Whatever answers to others arrive before, and however
the stream is divided, every wait ends as its own answer says and nothing is lost for the next
one. -/
theorem exchanges_answered {xs : List Exchange} (h : ∀ x ∈ xs, x.InLockStep) :
    let t := (xs.flatMap Exchange.results).foldl (receive (xs.map fun x => x.await.wait x.id))
      .initial
    t.outcomes.map Outcome.ending? = (xs.map fun x => x.await.ending x.id x.answer) ∧
      ∀ left ∈ t.lost, left = [] := by
  have hrun := foldl_receive_exchanges [] xs .initial h rfl rfl
  simp only [List.nil_append] at hrun
  obtain ⟨houtcomes, hlost⟩ := hrun
  refine ⟨houtcomes, fun left hleft => ?_⟩
  rw [hlost] at hleft
  obtain ⟨x, -, rfl⟩ := List.mem_map.mp hleft
  rfl

/-- A check-in, then a request whose answer follows an answer to another communicator. -/
def firstId : CommId := Vector.replicate 32 17

@[inherit_doc firstId]
def otherId : CommId := Vector.replicate 32 34

@[inherit_doc firstId]
def twoExchanges : List Exchange :=
  [⟨.checkin, firstId, [], .checkin firstId 2,
      [.bytes ("CHECKIN_".toList), .again, .bytes ("ACK;".toList ++ firstId.hexId),
        .bytes ",2\n".toList]⟩,
    ⟨.topo, firstId, [.config otherId], .config firstId,
      [.bytes ((Answer.config otherId).line ++ "\nCONFIG".toList),
        .bytes ("_ACK;".toList ++ firstId.hexId ++ ['\n'])]⟩]

theorem exchanges_answered_twoExchanges :
    let t := (twoExchanges.flatMap Exchange.results).foldl
      (receive (twoExchanges.map fun x => x.await.wait x.id)) .initial
    t.outcomes.map Outcome.ending? =
        (twoExchanges.map fun x => x.await.ending x.id x.answer) ∧
      ∀ left ∈ t.lost, left = [] := by
  apply exchanges_answered
  intro x hx
  rcases List.mem_cons.mp hx with rfl | hx
  · exact ⟨by decide +kernel, by decide +kernel, by decide +kernel, by decide +kernel,
      by decide +kernel⟩
  · rw [List.mem_singleton.mp hx]
    exact ⟨by decide +kernel, by decide +kernel, by decide +kernel, by decide +kernel,
      by decide +kernel⟩

end Opus
