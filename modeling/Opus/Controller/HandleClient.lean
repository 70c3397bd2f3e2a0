import Opus.Basic
import Opus.Library.Lines

/-!
# The receive loop of a client connection

A worker appends what `recv` returns to a buffer and takes the complete lines out of it. The lines
it processes depend on the bytes of the connection only, not on how `recv` divides them.

## Main definitions

* `ReadResult`: what `recv` returns to the loop
* `drainLines`, `handleClient`: the inner and the outer loop, with the lines they process
* `Reads`: results that deliver a stream

## Main results

* `drainLines_eq`: the inner loop takes all complete lines, and the buffer keeps the rest
* `handleClient_of_reads`: the lines of any division are those of the stream
* `handleClient_segmentation`: two divisions of a stream give the same lines
-/

namespace Opus

/-! ## The loops -/

/-- What `recv` returns. -/
inductive ReadResult where
  | bytes (buf : Text)
  /-- the other end has closed the connection -/
  | closed
  /-- a signal has come in -/
  | interrupted
  /-- nothing has arrived in time; the worker may have been asked to stop -/
  | again (stopRequested : Bool)
  | failed
  deriving DecidableEq, Repr

/-- A carriage return at the end of a line is dropped. -/
def dropCarriageReturn (line : Text) : Text :=
  if line.getLast? = some '\r' then line.dropLast else line

theorem length_behind_lt {sep : Char} {s : Text} (h : sep ∈ s) : (behind sep s).length < s.length := by
  induction s with
  | nil => exact absurd h List.not_mem_nil
  | cons c s ih =>
    unfold behind at ih ⊢
    by_cases hc : c = sep
    · subst hc
      simp
    · have hs : sep ∈ s := (List.mem_cons.mp h).resolve_left (Ne.symm hc)
      rw [List.dropWhile_cons_of_pos (by simpa using hc)]
      exact Nat.lt_succ_of_lt (ih hs)

/-- The inner loop: the lines that are processed, and what stays in the buffer. -/
def drainLines (pending : Text) : List Text × Text :=
  if '\n' ∈ pending then
    let t := drainLines (behind '\n' pending)
    (dropCarriageReturn (before '\n' pending) :: t.1, t.2)
  else
    ([], pending)
termination_by pending.length
decreasing_by exact length_behind_lt ‹_›

/-- `handleClient`: the lines that it calls `processLine` with, while `recv` returns these
results. -/
def handleClient (pending : Text) : List ReadResult → List Text
  | [] => []
  | .bytes buf :: rs =>
    let t := drainLines (pending ++ buf)
    t.1 ++ handleClient t.2 rs
  | .closed :: _ => []
  | .interrupted :: rs => handleClient pending rs
  | .again stopRequested :: rs => if stopRequested then [] else handleClient pending rs
  | .failed :: _ => []

/-- The bytes of a result. -/
def ReadResult.bytes? : ReadResult → Text
  | .bytes buf => buf
  | _ => []

/-- The result keeps the loop going and fits the buffer. -/
def ReadResult.Continues : ReadResult → Prop
  | .bytes buf => buf ≠ [] ∧ buf.length ≤ 4096
  | .closed => False
  | .interrupted => True
  | .again stopRequested => stopRequested = false
  | .failed => False

instance ReadResult.instDecidableContinues : DecidablePred ReadResult.Continues
  | .bytes buf => inferInstanceAs (Decidable (buf ≠ [] ∧ buf.length ≤ 4096))
  | .closed => inferInstanceAs (Decidable False)
  | .interrupted => inferInstanceAs (Decidable True)
  | .again stopRequested => inferInstanceAs (Decidable (stopRequested = false))
  | .failed => inferInstanceAs (Decidable False)

/-- The results deliver the stream, in pieces of any size that fits the buffer. -/
def Reads (stream : Text) (rs : List ReadResult) : Prop :=
  (∀ r ∈ rs, r.Continues) ∧ rs.flatMap ReadResult.bytes? = stream

instance (stream : Text) (rs : List ReadResult) : Decidable (Reads stream rs) :=
  inferInstanceAs (Decidable (_ ∧ _))

/-! ## Lines -/

/-- The first line ends at the first newline. -/
theorem split_of_mem {s : Text} (h : '\n' ∈ s) :
    Lines.split '\n' s = (before '\n' s :: (Lines.split '\n' (behind '\n' s)).1,
      (Lines.split '\n' (behind '\n' s)).2) := by
  induction s with
  | nil => exact absurd h List.not_mem_nil
  | cons c s ih =>
    unfold before behind at ih ⊢
    by_cases hc : c = '\n'
    · subst hc
      rw [Lines.split_cons_sep]
      simp
    · have hs : '\n' ∈ s := (List.mem_cons.mp h).resolve_left (Ne.symm hc)
      have ih := ih hs
      rw [Lines.split_cons_of_cons '\n' hc (congrArg Prod.fst ih), ih,
        List.takeWhile_cons_of_pos (by simpa using hc), List.dropWhile_cons_of_pos (by simpa using hc)]

/-- **The inner loop takes all complete lines**, and the buffer keeps the rest. -/
theorem drainLines_eq (pending : Text) :
    drainLines pending =
      ((Lines.split '\n' pending).1.map dropCarriageReturn, (Lines.split '\n' pending).2) := by
  induction pending using drainLines.induct with
  | case1 pending h ih => rw [drainLines, if_pos h, ih, split_of_mem h, List.map_cons]
  | case2 pending h => rw [drainLines, if_neg h, Lines.split_of_not_mem '\n' h, List.map_nil]

/-- **The lines of any division are those of the stream**, behind what the buffer has. -/
theorem handleClient_of_reads {rs : List ReadResult} (hrs : ∀ r ∈ rs, r.Continues)
    {ending : List ReadResult} (hending : ∀ pending, handleClient pending ending = []) :
    ∀ pending : Text, (Lines.split '\n' pending).1 = [] →
      handleClient pending (rs ++ ending) =
        (Lines.split '\n' (pending ++ rs.flatMap ReadResult.bytes?)).1.map dropCarriageReturn := by
  induction rs with
  | nil =>
    intro pending h
    rw [List.nil_append, hending, List.flatMap_nil, List.append_nil, h, List.map_nil]
  | cons r rs ih =>
    intro pending h
    obtain ⟨hr, hrs⟩ := List.forall_mem_cons.mp hrs
    have ih := ih hrs
    rw [List.cons_append, List.flatMap_cons]
    cases r with
    | bytes buf =>
      rw [handleClient, drainLines_eq, ReadResult.bytes?, ih _ (Lines.split_rest '\n' _),
        ← List.append_assoc, Lines.split_append '\n' (pending ++ buf), List.map_append]
    | closed => exact absurd hr id
    | interrupted => exact ih pending h
    | again stopRequested =>
      rw [handleClient, if_neg (by rw [show stopRequested = false from hr]; exact Bool.false_ne_true)]
      exact ih pending h
    | failed => exact absurd hr id

/-- **Line framing is independent of segmentation**: however `recv` divides a stream, and whatever
interruptions come between, the loop processes the complete lines of the stream in order without a
carriage return at their end; the lines and the part behind them are the whole stream, so that this
part is not processed and no byte is processed twice. -/
theorem handleClient_segmentation {stream : Text} {rs rs' : List ReadResult} (h : Reads stream rs)
    (h' : Reads stream rs') :
    handleClient [] (rs ++ [.closed]) = handleClient [] (rs' ++ [.closed]) ∧
      handleClient [] rs = handleClient [] (rs ++ [.closed]) ∧
      ∃ lines tail, handleClient [] rs = lines.map dropCarriageReturn ∧
        Lines.join '\n' lines ++ tail = stream ∧ '\n' ∉ tail ∧ ∀ line ∈ lines, '\n' ∉ line := by
  have hlines : ∀ rs ending, Reads stream rs → (∀ pending, handleClient pending ending = []) →
      handleClient [] (rs ++ ending) = (Lines.split '\n' stream).1.map dropCarriageReturn := by
    intro rs ending h hending
    rw [handleClient_of_reads h.1 hending [] rfl, List.nil_append, h.2]
  have hclosed : ∀ pending, handleClient pending [.closed] = [] := fun _ => rfl
  have hnil := hlines rs [] h fun _ => rfl
  rw [List.append_nil] at hnil
  refine ⟨(hlines rs _ h hclosed).trans (hlines rs' _ h' hclosed).symm,
    hnil.trans (hlines rs _ h hclosed).symm, (Lines.split '\n' stream).1,
    (Lines.split '\n' stream).2, hnil, Lines.join_split '\n' stream, ?_,
    fun line hline => Lines.not_mem_of_mem_split '\n' hline⟩
  exact (Lines.split_fst_eq_nil_iff '\n').mp (Lines.split_rest '\n' stream)

/-- Two messages in one piece, and with the line end divided. -/
theorem handleClient_twoReads :
    handleClient [] ([.bytes "COMM;a,2,0\r\nCONFIG".toList] ++ [.closed]) =
      handleClient [] ([.bytes "COMM;a,2,0\r".toList, .again false, .interrupted,
        .bytes "\nCONFIG".toList] ++ [.closed]) := by
  have h : Reads "COMM;a,2,0\r\nCONFIG".toList [.bytes "COMM;a,2,0\r\nCONFIG".toList] := by
    decide +kernel
  have h' : Reads "COMM;a,2,0\r\nCONFIG".toList [.bytes "COMM;a,2,0\r".toList, .again false,
      .interrupted, .bytes "\nCONFIG".toList] := by
    decide +kernel
  exact (handleClient_segmentation h h').1

end Opus
