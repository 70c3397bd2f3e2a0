import Mathlib.Data.Int.Notation
import Opus.Basic
import Opus.Library.Lines

/-!
# Waiting for an acknowledgement

All backends of a process share one socket to the controller. `checkin`, `topowrite`,
`topoprovision` and `send_scheduled_transition` send a line and then wait: they append what `recv`
returns to a buffer, take the complete lines from it one by one and return at the first line that
is for them, at their deadline, or when the connection is closed. The buffer is a local variable of
the wait, so what it still holds when the wait returns is thrown away.

## Main definitions

* `AckWait`, `AckWait.ending`: the waits, and the lines that end them
* `RecvResult`, `receive`: what `recv` returns, and what the wait in progress does with it
* `lineEvents`: the complete lines and the deadlines in the order in which they happen
* `readLine`: a reader that keeps its buffer between the waits
* `NothingBehind`: the wait returns only when its buffer is empty

## Main results

* `foldl_receive_sim`: as long as nothing is behind, the waits do what the reader does
* `ack_segmentation`: no byte is lost exactly when nothing is ever behind, and two ways of cutting
  the stream in which nothing is ever behind have the same outcomes
-/

namespace Opus

/-! ## Waits -/

/-- The waits of a process, with the communicator they are for. -/
inductive AckWait where
  | checkin (hexId : Text)
  /-- in `topowrite` and in `topoprovision` -/
  | topo (hexId : Text)
  /-- in `send_scheduled_transition` -/
  | scheduled (hexId : Text)
  deriving DecidableEq, Repr

/-- How a line ends a wait. -/
inductive Ending where
  | acknowledged
  | checkedIn (domain : ℤ)
  | hexIdMismatch
  /-- the domain is not a number -/
  | thrown
  deriving DecidableEq, Repr

/-- The header of a check-in acknowledgement. -/
def checkinAck : Text := "CHECKIN_ACK".toList

/-- The header of a configuration acknowledgement. -/
def configAck : Text := "CONFIG_ACK".toList

/-- How a line ends the wait; nothing when the wait goes on. -/
def AckWait.ending (w : AckWait) (line : Text) : Option Ending :=
  let hdr := before ';' line
  let body := behind ';' line
  match w with
  | .checkin hexId =>
    if hdr = checkinAck then
      let receivedHexId := before ',' body
      -- `substr(npos + 1)` is the whole body
      let domainStr := if ',' ∈ body then behind ',' body else body
      if receivedHexId = hexId then
        match stoi domainStr with
        | some domain => some (.checkedIn domain)
        | none => some .thrown
      else some .hexIdMismatch
    else none
  | .topo hexId => if hdr = configAck ∧ body = hexId then some .acknowledged else none
  | .scheduled hexId => if line = configAck ++ ';' :: hexId then some .acknowledged else none

/-- The first of the lines that ends the wait: its index, how it ends the wait and the lines behind
it. -/
def AckWait.scan (w : AckWait) : List Text → Option (ℕ × Ending × List Text)
  | [] => none
  | line :: lines =>
    match w.ending line with
    | some ending => some (0, ending, lines)
    | none => (w.scan lines).map fun r => (r.1 + 1, r.2)

/-! ## Receiving -/

/-- What a wait meets: a result of `recv`, or its deadline. -/
inductive RecvResult where
  | bytes (buf : Text)
  /-- the time slice of `recv` has expired -/
  | again
  /-- the connection is closed, or `recv` fails -/
  | closed
  /-- the deadline of the wait with this number passes -/
  | deadline (wait : ℕ)
  deriving DecidableEq, Repr

/-- The result fits the buffer of `recv`. -/
def RecvResult.Fits : RecvResult → Prop
  | .bytes buf => buf ≠ [] ∧ buf.length ≤ 512
  | _ => True

instance RecvResult.instDecidableFits : DecidablePred RecvResult.Fits
  | .bytes buf => inferInstanceAs (Decidable (buf ≠ [] ∧ buf.length ≤ 512))
  | .again => inferInstanceAs (Decidable True)
  | .closed => inferInstanceAs (Decidable True)
  | .deadline _ => inferInstanceAs (Decidable True)

/-- The outcome of a wait. A line is named by its number in the stream. -/
inductive Outcome where
  | ended (line : ℕ) (ending : Ending)
  | timeout
  | closed
  deriving DecidableEq, Repr

/-- The waits of a process: how many have returned, the buffer of the one in progress, the number of
lines received, the outcomes so far and what every wait has left behind in its buffer. -/
structure Receiver where
  returned : ℕ
  accum : Text
  lines : ℕ
  outcomes : List Outcome
  lost : List Text
  deriving DecidableEq, Repr

/-- The process before its first wait. -/
def Receiver.initial : Receiver := ⟨0, [], 0, [], []⟩

/-- The wait in progress returns, and its buffer is gone. -/
def Receiver.finish (s : Receiver) (outcome : Outcome) (left : Text) : Receiver :=
  { s with
    returned := s.returned + 1
    accum := []
    outcomes := s.outcomes ++ [outcome]
    lost := s.lost ++ [left] }

/-- What the wait in progress does with a result of `recv`. -/
def receive (waits : List AckWait) (s : Receiver) (r : RecvResult) : Receiver :=
  match waits[s.returned]? with
  | none => s
  | some w =>
    match r with
    | .again => s
    | .closed => s.finish .closed s.accum
    | .deadline wait => if wait = s.returned then s.finish .timeout s.accum else s
    | .bytes buf =>
      let accum := Lines.split '\n' (s.accum ++ buf)
      let lines := s.lines + accum.1.length
      match w.scan accum.1 with
      | some (i, ending, left) =>
        { s.finish (.ended (s.lines + i) ending) (Lines.join '\n' left ++ accum.2) with
          lines := lines }
      | none => { s with accum := accum.2, lines := lines }

/-! ## Lines and deadlines -/

/-- What matters to a reader of whole lines. -/
inductive LineEvent where
  | line (l : Text)
  | closed
  | deadline (wait : ℕ)
  deriving DecidableEq, Repr

/-- The lines that results of `recv` complete, and the deadlines between them. `part` is the part of
a line that has already been received. -/
def lineEventsFrom (part : Text) : List RecvResult → List LineEvent
  | [] => []
  | .again :: rs => lineEventsFrom part rs
  | .closed :: rs => .closed :: lineEventsFrom part rs
  | .deadline wait :: rs => .deadline wait :: lineEventsFrom part rs
  | .bytes buf :: rs =>
    let accum := Lines.split '\n' (part ++ buf)
    accum.1.map .line ++ lineEventsFrom accum.2 rs

/-- The complete lines and the deadlines, in the order in which they happen. -/
def lineEvents (rs : List RecvResult) : List LineEvent := lineEventsFrom [] rs

/-- The bytes of results of `recv`. -/
def stream (rs : List RecvResult) : Text :=
  rs.flatMap fun
    | .bytes buf => buf
    | _ => []

/-- The line of an event. -/
def LineEvent.line? : LineEvent → Option Text
  | .line l => some l
  | _ => none

/-- **The lines of the events are the complete lines of the stream.** -/
theorem lineEventsFrom_lines (part : Text) (rs : List RecvResult)
    (hpart : (Lines.split '\n' part).1 = []) :
    (lineEventsFrom part rs).filterMap LineEvent.line? =
      (Lines.split '\n' (part ++ stream rs)).1 := by
  induction rs generalizing part with
  | nil => simpa [lineEventsFrom, stream] using hpart.symm
  | cons r rs ih =>
    cases r with
    | again => exact ih part hpart
    | closed => exact ih part hpart
    | deadline wait => exact ih part hpart
    | bytes buf =>
      have hstream : stream (.bytes buf :: rs) = buf ++ stream rs := rfl
      have hlines : ∀ ls : List Text, (ls.map LineEvent.line).filterMap LineEvent.line? = ls := by
        intro ls
        rw [List.filterMap_map]
        exact List.filterMap_some
      rw [hstream, ← List.append_assoc, Lines.split_append, lineEventsFrom,
        List.filterMap_append, hlines, ih _ (Lines.split_rest ..)]

/-! ## Reading whole lines -/

/-- A reader that keeps its buffer between the waits only sees whole lines. -/
structure Reader where
  returned : ℕ
  lines : ℕ
  outcomes : List Outcome
  deriving DecidableEq, Repr

/-- The reader before the first wait. -/
def Reader.initial : Reader := ⟨0, 0, []⟩

/-- The wait in progress returns. -/
def Reader.finish (s : Reader) (outcome : Outcome) : Reader :=
  { s with returned := s.returned + 1, outcomes := s.outcomes ++ [outcome] }

/-- What the reader does with an event. -/
def readLine (waits : List AckWait) (s : Reader) (e : LineEvent) : Reader :=
  match waits[s.returned]? with
  | none => s
  | some w =>
    match e with
    | .closed => s.finish .closed
    | .deadline wait => if wait = s.returned then s.finish .timeout else s
    | .line l =>
      match w.ending l with
      | some ending => { s.finish (.ended s.lines ending) with lines := s.lines + 1 }
      | none => { s with lines := s.lines + 1 }

variable {waits : List AckWait} {w : AckWait}

theorem AckWait.scan_eq_some {lines left : List Text} {i : ℕ} {ending : Ending}
    (h : w.scan lines = some (i, ending, left)) :
    ∃ front line, lines = front ++ line :: left ∧ front.length = i ∧
      w.ending line = some ending ∧ ∀ l ∈ front, w.ending l = none := by
  induction lines generalizing i with
  | nil => cases h
  | cons line lines ih =>
    rw [AckWait.scan] at h
    cases hend : w.ending line with
    | some ending' =>
      rw [hend] at h
      cases h
      exact ⟨[], line, rfl, rfl, hend, by simp⟩
    | none =>
      rw [hend, Option.map_eq_some_iff] at h
      obtain ⟨⟨j, r⟩, hscan, heq⟩ := h
      cases heq
      obtain ⟨front, l, rfl, rfl, hl, hfront⟩ := ih hscan
      exact ⟨line :: front, l, rfl, rfl, hl, by simpa [hend] using hfront⟩

theorem AckWait.scan_eq_none {lines : List Text} (h : w.scan lines = none) :
    ∀ l ∈ lines, w.ending l = none := by
  induction lines with
  | nil => simp
  | cons line lines ih =>
    rw [AckWait.scan] at h
    cases hend : w.ending line with
    | some ending => simp [hend] at h
    | none =>
      rw [hend, Option.map_eq_none_iff] at h
      simpa [hend] using ih h

/-- What a wait leaves behind is all that it has received behind the line that ends it. -/
theorem AckWait.scan_left {accum : Text} {i : ℕ} {ending : Ending} {left : List Text}
    (h : w.scan (Lines.split '\n' accum).1 = some (i, ending, left)) :
    ∃ front line, front.length = i ∧ w.ending line = some ending ∧
      Lines.join '\n' (front ++ [line]) ++
        (Lines.join '\n' left ++ (Lines.split '\n' accum).2) = accum := by
  obtain ⟨front, line, hsplit, hi, hline, -⟩ := AckWait.scan_eq_some h
  refine ⟨front, line, hi, hline, ?_⟩
  have hjoin := Lines.join_split '\n' accum
  rw [hsplit] at hjoin
  simpa [Lines.join] using hjoin

/-- Lines that do not end the wait are only counted. -/
theorem foldl_readLine_of_none {s : Reader} (hw : waits[s.returned]? = some w) (ls : List Text)
    (hls : ∀ l ∈ ls, w.ending l = none) :
    (ls.map LineEvent.line).foldl (readLine waits) s = { s with lines := s.lines + ls.length } := by
  induction ls generalizing s with
  | nil => rfl
  | cons l ls ih =>
    have hl : w.ending l = none := hls l List.mem_cons_self
    have hstep : readLine waits s (.line l) = { s with lines := s.lines + 1 } := by
      simp only [readLine, hw, hl]
    rw [List.map_cons, List.foldl_cons, hstep,
      ih (s := { s with lines := s.lines + 1 }) hw fun l' hl' => hls l' (List.mem_cons_of_mem l hl')]
    simp only [List.length_cons]
    congr 1
    omega

/-! ## Segmentation -/

/-- When the step ends the wait in progress, nothing is behind in its buffer: the line that ends
the wait is the last thing received, and at the deadline no part of a line has been received. -/
def NothingBehind (waits : List AckWait) (s : Receiver) (r : RecvResult) : Prop :=
  ∀ w, waits[s.returned]? = some w →
    match r with
    | .again => True
    | .closed => s.accum = []
    | .deadline wait => wait = s.returned → s.accum = []
    | .bytes buf =>
      let accum := Lines.split '\n' (s.accum ++ buf)
      ∀ front line left, accum.1 = front ++ line :: left → w.ending line ≠ none →
        left = [] ∧ accum.2 = []

/-- Every step of the run meets the condition. -/
def NeverBehind (waits : List AckWait) : Receiver → List RecvResult → Prop
  | _, [] => True
  | s, r :: rs => NothingBehind waits s r ∧ NeverBehind waits (receive waits s r) rs

/-- The waits and the reader are at the same point: `part` is the part of a line received. -/
structure InStep (waits : List AckWait) (s : Receiver) (t : Reader) (part : Text) : Prop where
  returned : s.returned = t.returned
  outcomes : s.outcomes = t.outcomes
  buffer : s.returned < waits.length → s.accum = part ∧ s.lines = t.lines

theorem InStep.finish {s : Receiver} {t : Reader} {part : Text} (h : InStep waits s t part)
    (outcome : Outcome) (left : Text) (hlines : s.lines = t.lines) :
    InStep waits (s.finish outcome left) (t.finish outcome) [] where
  returned := congrArg (· + 1) h.returned
  outcomes := congrArg (· ++ [outcome]) h.outcomes
  buffer := fun _ => ⟨rfl, hlines⟩

/-- One result of `recv`, with nothing behind. -/
theorem receive_bytes_sim {s : Receiver} {t : Reader} {part buf : Text}
    (h : InStep waits s t part) (hb : NothingBehind waits s (.bytes buf)) :
    let accum := Lines.split '\n' (part ++ buf)
    InStep waits (receive waits s (.bytes buf))
      ((accum.1.map LineEvent.line).foldl (readLine waits) t) accum.2 := by
  intro accum
  have hreturned := h.returned
  cases hw : waits[s.returned]? with
  | none =>
    -- all waits have returned
    have hstay : ∀ ls : List Text, (ls.map LineEvent.line).foldl (readLine waits) t = t := by
      intro ls
      induction ls with
      | nil => rfl
      | cons l ls ih => rwa [List.map_cons, List.foldl_cons, readLine, ← hreturned, hw]
    have hlen := List.getElem?_eq_none_iff.mp hw
    rw [hstay, receive, hw]
    exact ⟨h.returned, h.outcomes, fun hlt => absurd hlt (Nat.not_lt.mpr hlen)⟩
  | some w =>
    obtain ⟨hlt, -⟩ := List.getElem?_eq_some_iff.mp hw
    obtain ⟨rfl, hlines⟩ := h.buffer hlt
    have hw' : waits[t.returned]? = some w := hreturned ▸ hw
    cases hscan : w.scan accum.1 with
    | none =>
      rw [foldl_readLine_of_none hw' _ (AckWait.scan_eq_none hscan)]
      have hstep : receive waits s (.bytes buf) =
          { s with accum := accum.2, lines := s.lines + accum.1.length } := by
        simp only [receive, hw, accum] at hscan ⊢
        rw [hscan]
      rw [hstep]
      exact ⟨h.returned, h.outcomes, fun _ => ⟨rfl, by rw [hlines]⟩⟩
    | some found =>
      obtain ⟨i, ending, left⟩ := found
      obtain ⟨front, line, hsplit, hfront, hline, hnone⟩ := AckWait.scan_eq_some hscan
      obtain ⟨rfl, hrest⟩ := hb w hw front line left hsplit (by simp [hline])
      have hstep : receive waits s (.bytes buf) =
          { s.finish (.ended (s.lines + i) ending) (Lines.join '\n' [] ++ accum.2) with
            lines := s.lines + accum.1.length } := by
        simp only [receive, hw, accum] at hscan ⊢
        rw [hscan]
      have hread : (accum.1.map LineEvent.line).foldl (readLine waits) t =
          { t.finish (.ended (t.lines + i) ending) with
            lines := t.lines + accum.1.length } := by
        rw [hsplit, List.map_append, List.foldl_append, foldl_readLine_of_none hw' _ hnone]
        simp only [List.map_cons, List.map_nil, List.foldl_cons, List.foldl_nil, readLine, hw',
          hline, Reader.finish, hfront, List.length_append, List.length_cons, List.length_nil]
        rfl
      rw [hstep, hread, hrest, hlines]
      exact ⟨congrArg (· + 1) h.returned, congrArg (· ++ _) h.outcomes, fun _ => ⟨rfl, rfl⟩⟩

/-- A closed connection or a deadline, with no part of a line received. -/
theorem receive_closed_sim {s : Receiver} {t : Reader} {part : Text} (h : InStep waits s t part)
    (hb : NothingBehind waits s .closed) :
    InStep waits (receive waits s .closed) (readLine waits t .closed) part := by
  rw [receive, readLine, ← h.returned]
  cases hw : waits[s.returned]? with
  | none => exact h
  | some w =>
    obtain ⟨hlt, -⟩ := List.getElem?_eq_some_iff.mp hw
    obtain ⟨rfl, hlines⟩ := h.buffer hlt
    have hempty : s.accum = [] := hb w hw
    have hfinish := h.finish .closed s.accum hlines
    rwa [hempty] at hfinish ⊢

theorem receive_deadline_sim {s : Receiver} {t : Reader} {part : Text} {wait : ℕ}
    (h : InStep waits s t part) (hb : NothingBehind waits s (.deadline wait)) :
    InStep waits (receive waits s (.deadline wait)) (readLine waits t (.deadline wait)) part := by
  rw [receive, readLine, ← h.returned]
  cases hw : waits[s.returned]? with
  | none => exact h
  | some w =>
    by_cases hwait : wait = s.returned
    · obtain ⟨hlt, -⟩ := List.getElem?_eq_some_iff.mp hw
      obtain ⟨rfl, hlines⟩ := h.buffer hlt
      have hempty : s.accum = [] := hb w hw hwait
      have hfinish := h.finish .timeout s.accum hlines
      simp only [if_pos hwait]
      rwa [hempty] at hfinish ⊢
    · simpa only [if_neg hwait] using h

/-- **As long as nothing is behind, the waits do what the reader of whole lines does.** -/
theorem foldl_receive_sim (rs : List RecvResult) {s : Receiver} {t : Reader} {part : Text}
    (h : InStep waits s t part) (hb : NeverBehind waits s rs) :
    (rs.foldl (receive waits) s).outcomes =
      ((lineEventsFrom part rs).foldl (readLine waits) t).outcomes := by
  induction rs generalizing s t part with
  | nil => exact h.outcomes
  | cons r rs ih =>
    obtain ⟨hr, hrs⟩ := hb
    cases r with
    | bytes buf =>
      rw [lineEventsFrom, List.foldl_append]
      exact ih (receive_bytes_sim h hr) hrs
    | again =>
      have hstep : receive waits s .again = s := by
        rw [receive]
        cases waits[s.returned]? <;> rfl
      rw [hstep] at hrs
      rw [List.foldl_cons, hstep]
      exact ih h hrs
    | closed => exact ih (receive_closed_sim h hr) hrs
    | deadline wait => exact ih (receive_deadline_sim h hr) hrs

/-- What a wait leaves behind is nothing exactly when the step meets the condition. -/
theorem lost_receive_iff (s : Receiver) (r : RecvResult) :
    (∀ left ∈ (receive waits s r).lost, left = []) ↔
      (∀ left ∈ s.lost, left = []) ∧ NothingBehind waits s r := by
  unfold NothingBehind
  cases hw : waits[s.returned]? with
  | none => simp [receive, hw]
  | some w =>
    cases r with
    | again => simp [receive, hw]
    | closed =>
      simp only [receive, hw, Receiver.finish, List.forall_mem_append, List.forall_mem_singleton,
        Option.some.injEq, forall_eq']
    | deadline wait =>
      by_cases hwait : wait = s.returned
      · simp only [receive, hw, hwait, if_true, Receiver.finish, List.forall_mem_append,
          List.forall_mem_singleton, Option.some.injEq, forall_eq', forall_const]
      · simp [receive, hw, hwait]
    | bytes buf =>
      cases hscan : w.scan (Lines.split '\n' (s.accum ++ buf)).1 with
      | none =>
        have hnone := AckWait.scan_eq_none hscan
        simp only [receive, hw, hscan, Option.some.injEq, forall_eq']
        refine (and_iff_left ?_).symm
        intro front line left hsplit hline
        exact absurd (hnone line (by simp [hsplit])) hline
      | some found =>
        obtain ⟨i, ending, left⟩ := found
        obtain ⟨front, line, hsplit, -, hline, hnone⟩ := AckWait.scan_eq_some hscan
        simp only [receive, hw, hscan, Receiver.finish, List.forall_mem_append,
          List.forall_mem_singleton, List.append_eq_nil_iff, Lines.join_eq_nil, Option.some.injEq,
          forall_eq']
        refine and_congr_right fun _ => ⟨?_, fun h => h front line left hsplit (by simp [hline])⟩
        rintro ⟨rfl, hrest⟩ front' line' left' hsplit' hline'
        refine ⟨?_, hrest⟩
        -- a line before the first one that ends the wait does not end it
        by_contra hleft
        rw [hsplit] at hsplit'
        obtain ⟨more, last, rfl⟩ := (List.eq_nil_or_concat' left').resolve_left hleft
        rw [← List.cons_append, ← List.append_assoc] at hsplit'
        have hfront := congrArg List.dropLast hsplit'
        rw [List.dropLast_concat, List.dropLast_concat] at hfront
        exact hline' (hnone line' (by simp [hfront]))

theorem lost_foldl_iff (rs : List RecvResult) (s : Receiver) :
    (∀ left ∈ (rs.foldl (receive waits) s).lost, left = []) ↔
      (∀ left ∈ s.lost, left = []) ∧ NeverBehind waits s rs := by
  induction rs generalizing s with
  | nil => simp [NeverBehind]
  | cons r rs ih => rw [List.foldl_cons, ih, lost_receive_iff, NeverBehind, and_assoc]

/-- **Acknowledgements and segmentation.** Nothing that has been received is lost for the next wait
exactly when nothing is behind whenever a wait returns. Two ways of cutting the stream that deliver
the same lines before the same deadlines, and in which nothing is ever behind, have the same
outcomes. -/
theorem ack_segmentation (waits : List AckWait) :
    (∀ rs, (∀ left ∈ (rs.foldl (receive waits) .initial).lost, left = []) ↔
      NeverBehind waits .initial rs) ∧
    ∀ rs rs', lineEvents rs = lineEvents rs' → NeverBehind waits .initial rs →
      NeverBehind waits .initial rs' →
        (rs.foldl (receive waits) .initial).outcomes =
          (rs'.foldl (receive waits) .initial).outcomes := by
  have hstart : InStep waits .initial .initial [] := ⟨rfl, rfl, fun _ => ⟨rfl, rfl⟩⟩
  refine ⟨fun rs => ?_, fun rs rs' hevents hrs hrs' => ?_⟩
  · rw [lost_foldl_iff]
    simp [Receiver.initial]
  · rw [foldl_receive_sim rs hstart hrs, foldl_receive_sim rs' hstart hrs']
    exact congrArg (fun es => (es.foldl (readLine waits) .initial).outcomes) hevents

/-- The outcomes do not depend on how the stream is cut, and no received byte is lost. -/
def SurvivesSegmentation (waits : List AckWait) : Prop :=
  ∀ rs rs', (∀ r ∈ rs, r.Fits) → (∀ r ∈ rs', r.Fits) → lineEvents rs = lineEvents rs' →
    (rs.foldl (receive waits) .initial).outcomes = (rs'.foldl (receive waits) .initial).outcomes ∧
      ∀ left ∈ (rs.foldl (receive waits) .initial).lost, left = []

/-- Two communicator ids of 32 bytes each. -/
def firstHexId : Text := List.replicate 64 'a'

@[inherit_doc firstHexId]
def secondHexId : Text := List.replicate 64 'b'

/-- The line that acknowledges a communicator. -/
def ackLine (hexId : Text) : Text := configAck ++ ';' :: hexId ++ ['\n']

/-- A process requests two communicators one after the other. -/
def twoWaits : List AckWait := [.topo firstHexId, .topo secondHexId]

/-- The acknowledgements arrive one by one, the first of them in two parts. -/
theorem ack_segmentation_twoWaits :
    ([RecvResult.bytes (configAck ++ [';']), .bytes (firstHexId ++ ['\n']),
        .bytes (ackLine secondHexId)].foldl (receive twoWaits) .initial).outcomes =
      ([RecvResult.bytes (ackLine firstHexId), .again,
        .bytes (ackLine secondHexId)].foldl (receive twoWaits) .initial).outcomes := by
  apply (ack_segmentation twoWaits).2
  · decide +kernel
  · rw [← (ack_segmentation twoWaits).1]
    decide +kernel
  · rw [← (ack_segmentation twoWaits).1]
    decide +kernel

/-- When both acknowledgements arrive together, the second one is lost. -/
theorem not_survivesSegmentation_twoWaits : ¬ SurvivesSegmentation twoWaits := by
  intro hsurvives
  have hsame := (hsurvives
    [.bytes (ackLine firstHexId), .bytes (ackLine secondHexId), .deadline 1]
    [.bytes (ackLine firstHexId ++ ackLine secondHexId), .deadline 1]
    (by decide +kernel) (by decide +kernel) (by decide +kernel)).1
  revert hsame
  decide +kernel

end Opus
