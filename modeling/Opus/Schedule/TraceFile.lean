import Opus.Library.Csv
import Opus.Numbers
import Opus.Schedule.Keyed

/-!
# Trace files

A rank in profile mode appends a line to its trace file for each event. The schedule compiler reads
the file as comma-separated values: it skips empty rows and rows whose first field starts with a
number sign, converts the numbers, and sorts the events by their sequence numbers.

## Main definitions

* `CollType`: the collectives that the callbacks name
* `profileLine`: the line of an event
* `TraceRow`, `readEventsFile`: an event as the compiler reads it, and the events of a file
* `readTrace`: the events of a file whose rows are events of the shim

## Main results

* `readEventsFile_profileText`: the compiler reads the events that were written
* `readTrace_profileText`: they are the events of the trace in the order of their numbers
-/

namespace Opus

/-! ## The shim's lines -/

/-- The collectives that the callbacks name. -/
inductive CollType where
  | allgather
  | allgatherBase
  | allgatherCoalesced
  | allreduce
  | alltoall
  | alltoallBase
  | barrier
  | broadcast
  | reduceScatter
  | reduceScatterBase
  | reduceScatterCoalesced
  | scatter
  | send
  | recv
  deriving DecidableEq, Repr

def CollType.text : CollType → Text
  | .allgather => "allgather".toList
  | .allgatherBase => "_allgather_base".toList
  | .allgatherCoalesced => "allgather_coalesced".toList
  | .allreduce => "allreduce".toList
  | .alltoall => "alltoall".toList
  | .alltoallBase => "alltoall_base".toList
  | .barrier => "barrier".toList
  | .broadcast => "broadcast".toList
  | .reduceScatter => "reduce_scatter".toList
  | .reduceScatterBase => "_reduce_scatter_base".toList
  | .reduceScatterCoalesced => "reduce_scatter_coalesced".toList
  | .scatter => "scatter".toList
  | .send => "send".toList
  | .recv => "recv".toList

def Kind.text : Kind → Text
  | .PP => "PP".toList
  | .DP => "DP".toList

/-- The line that `record_profile_event` appends. -/
def profileLine (e : Event) (collType : CollType) : Text :=
  intText e.iteration ++ ',' :: intText e.sequence ++ ',' :: intText e.backend ++
    ',' :: intText e.counter ++ ',' :: e.kind.text ++ ',' :: collType.text ++
    ',' :: intText e.controllerBackend ++ ',' :: intText e.controllerCounter ++ ['\n']

/-- The trace file of the events recorded so far. -/
def profileText (rows : List (Event × CollType)) : Text :=
  rows.flatMap fun row => profileLine row.1 row.2

/-! ## The compiler's rows -/

/-- An event as the compiler reads it. -/
structure TraceRow where
  iteration : ℤ
  sequence : ℤ
  backend : ℤ
  counter : ℤ
  kind : Text
  collective : Text
  controllerBackend : ℤ
  controllerCounter : ℤ
  deriving DecidableEq, Repr

/-- A row with exactly eight fields; nothing when a number or the number of fields is wrong. -/
def readRow : List Text → Option TraceRow
  | [iteration, sequence, backend, counter, kind, collective, controllerBackend,
      controllerCounter] => do
    let iteration ← pyInt iteration
    let sequence ← pyInt sequence
    let backend ← pyInt backend
    let counter ← pyInt counter
    let controllerBackend ← pyInt controllerBackend
    let controllerCounter ← pyInt controllerCounter
    return ⟨iteration, sequence, backend, counter, kind, collective, controllerBackend,
      controllerCounter⟩
  | _ => none

/-- The row is empty or a comment. -/
def skipsRow : List Text → Bool
  | [] => true
  | field :: _ => field.head? == some '#'

/-- The events of a trace file; nothing when the compiler raises. -/
def readEventsFile (text : Text) : Option (List TraceRow) := do
  let rows ← Csv.records text
  let events ← (rows.filter fun row => !skipsRow row).mapM readRow
  return events.mergeSort fun r s => r.sequence ≤ s.sequence

/-- The kind with this text. -/
def kindOfText (text : Text) : Option Kind :=
  if text = Kind.text .PP then some .PP else if text = Kind.text .DP then some .DP else none

/-- A row that is an event of the shim. -/
def TraceRow.event? (r : TraceRow) : Option Event := do
  let kind ← kindOfText r.kind
  if 0 ≤ r.iteration ∧ 0 ≤ r.sequence ∧ 0 ≤ r.backend ∧ 0 ≤ r.counter ∧
      0 ≤ r.controllerBackend ∧ 0 ≤ r.controllerCounter then
    return ⟨r.iteration.toNat, r.sequence.toNat, r.backend.toNat, r.counter.toNat, kind,
      r.controllerBackend.toNat, r.controllerCounter.toNat⟩
  else none

/-- The events of a trace file whose rows are events of the shim. -/
def readTrace (text : Text) : Option (List Event) :=
  (readEventsFile text).bind fun rows => rows.mapM TraceRow.event?

/-! ## What is written is read -/

/-- The row of an event. -/
def eventRow (e : Event) (collType : CollType) : TraceRow where
  iteration := e.iteration
  sequence := e.sequence
  backend := e.backend
  counter := e.counter
  kind := e.kind.text
  collective := collType.text
  controllerBackend := e.controllerBackend
  controllerCounter := e.controllerCounter

/-- The fields of a row. -/
def TraceRow.fields (r : TraceRow) : List Text :=
  [intText r.iteration, intText r.sequence, intText r.backend, intText r.counter, r.kind,
    r.collective, intText r.controllerBackend, intText r.controllerCounter]

theorem profileLine_eq (e : Event) (collType : CollType) :
    profileLine e collType = Csv.line (eventRow e collType).fields := by
  simp only [profileLine, Csv.line, TraceRow.fields, eventRow, Csv.body, List.append_assoc,
    List.cons_append]

/-- A number needs no quotes. -/
theorem plain_intText (value : ℤ) : Csv.Plain (intText value) := by
  refine ⟨?_, not_mem_intText value (by decide) rfl, not_mem_intText value (by decide) rfl,
    not_mem_intText value (by decide) rfl, not_mem_intText value (by decide) rfl⟩
  obtain ⟨c, t, hct, -⟩ := exists_intText_eq value
  rw [hct]
  exact List.cons_ne_nil c t

theorem plain_kind (kind : Kind) : Csv.Plain kind.text := by
  cases kind <;> exact ⟨by decide, by decide, by decide, by decide, by decide⟩

theorem plain_collType (collType : CollType) : Csv.Plain collType.text := by
  cases collType <;> exact ⟨by decide, by decide, by decide, by decide, by decide⟩

theorem plain_of_mem_fields {e : Event} {collType : CollType} {field : Text}
    (h : field ∈ (eventRow e collType).fields) : Csv.Plain field := by
  simp only [TraceRow.fields, List.mem_cons, List.not_mem_nil, or_false] at h
  rcases h with rfl | rfl | rfl | rfl | rfl | rfl | rfl | rfl
  · exact plain_intText _
  · exact plain_intText _
  · exact plain_intText _
  · exact plain_intText _
  · exact plain_kind _
  · exact plain_collType _
  · exact plain_intText _
  · exact plain_intText _

/-- No line of the shim is taken for a comment. -/
theorem skipsRow_fields (e : Event) (collType : CollType) :
    skipsRow (eventRow e collType).fields = false := by
  obtain ⟨c, t, hct, -⟩ := exists_intText_eq (e.iteration : ℤ)
  have hmem : c ∈ intText (e.iteration : ℤ) := by
    rw [hct]
    exact List.mem_cons_self
  have hc : c ≠ '#' := by
    rintro rfl
    exact not_mem_intText _ (by decide) rfl hmem
  simp only [skipsRow, TraceRow.fields, eventRow, hct, List.head?_cons]
  simp [hc]

theorem readRow_fields (r : TraceRow) : readRow r.fields = some r := by
  simp only [readRow, TraceRow.fields, pyInt_intText]
  rfl

theorem event?_eventRow (e : Event) (collType : CollType) :
    (eventRow e collType).event? = some e := by
  have hkind : kindOfText e.kind.text = some e.kind := by cases e.kind <;> rfl
  unfold TraceRow.event?
  simp only [eventRow, hkind, Int.natCast_nonneg, and_self, if_true, Int.toNat_natCast]
  rfl

/-- A reader that undoes the writer reads a whole list. -/
theorem mapM_map_some {α β γ : Type} {write : α → β} {read : β → Option γ} {value : α → γ}
    (h : ∀ a, read (write a) = some (value a)) (as : List α) :
    (as.map write).mapM read = some (as.map value) := by
  induction as with
  | nil => rfl
  | cons a as ih =>
    rw [List.map_cons, List.mapM_cons, h, ih]
    rfl

/-- **The compiler reads the events that were written**, in the order of their numbers. -/
theorem readEventsFile_profileText (rows : List (Event × CollType)) :
    readEventsFile (profileText rows) =
      some ((rows.map fun row => eventRow row.1 row.2).mergeSort fun r s =>
        r.sequence ≤ s.sequence) := by
  have htext : profileText rows =
      (rows.map fun row => (eventRow row.1 row.2).fields).flatMap Csv.line := by
    rw [profileText, List.flatMap_map]
    apply List.flatMap_congr
    intro row hrow
    exact profileLine_eq row.1 row.2
  have hrecords : Csv.records (profileText rows) =
      some (rows.map fun row => (eventRow row.1 row.2).fields) := by
    rw [htext]
    apply Csv.records_lines
    · intro fields hfields
      obtain ⟨row, -, rfl⟩ := List.mem_map.mp hfields
      exact List.cons_ne_nil _ _
    · intro fields hfields field hfield
      obtain ⟨row, -, rfl⟩ := List.mem_map.mp hfields
      exact plain_of_mem_fields hfield
  have hkept : ((rows.map fun row => (eventRow row.1 row.2).fields).filter
      fun row => !skipsRow row) = rows.map fun row => (eventRow row.1 row.2).fields := by
    rw [List.filter_eq_self]
    intro fields hfields
    obtain ⟨row, -, rfl⟩ := List.mem_map.mp hfields
    rw [skipsRow_fields]
    rfl
  have hread : (rows.map fun row => (eventRow row.1 row.2).fields).mapM readRow =
      some (rows.map fun row => eventRow row.1 row.2) := by
    apply mapM_map_some
    exact fun row => readRow_fields _
  unfold readEventsFile
  rw [hrecords]
  show ((rows.map fun row => (eventRow row.1 row.2).fields).filter
    fun row => !skipsRow row).mapM readRow >>= _ = _
  rw [hkept, hread]
  rfl

/-- **The compiler reads the trace of the shim.** -/
theorem readTrace_profileText (rows : List (Event × CollType)) :
    readTrace (profileText rows) = some (readEvents (rows.map Prod.fst)) := by
  have hsort : ((rows.map fun row => eventRow row.1 row.2).mergeSort fun r s =>
      r.sequence ≤ s.sequence) =
      (rows.mergeSort fun r s => r.1.sequence ≤ s.1.sequence).map
        fun row => eventRow row.1 row.2 := by
    rw [List.map_mergeSort]
    intro r hr s hs
    simp [eventRow]
  have hevents : readEvents (rows.map Prod.fst) =
      (rows.mergeSort fun r s => r.1.sequence ≤ s.1.sequence).map Prod.fst := by
    rw [readEvents, List.map_mergeSort]
    intro r hr s hs
    rfl
  rw [readTrace, readEventsFile_profileText, hsort, hevents, Option.bind_some]
  apply mapM_map_some
  exact fun row => event?_eventRow row.1 row.2

end Opus
