import Mathlib.Algebra.Ring.Int.Defs
import Opus.Library.Lines
import Opus.Schedule.TraceFile
import Opus.Shim.Legacy

/-!
# Schedule and stage files

The compiler writes one file for each rank: the rows of the keyed schedule or the stages of the
legacy format. A replaying process reads the file line by line. A schedule row is read as five
integers after its commas have become blanks; a stage is read as words and integers by turns. A
number that is not an `int` makes the reader throw.

## Main definitions

* `scheduleText`, `stageText`: the files of the compiler
* `compileKeyed`, `compileLegacy`: the files compiled from the trace files of all ranks
* `loadReplaySchedule`, `populateCommStages`: the readers of the shim
* `lookUp`: `scheduled_transition` on the rows that were read

## Main results

* `loadReplaySchedule_scheduleText`, `populateCommStages_stageText`: the readers return what was
  written, and throw exactly at the first row with a number that is not an `int`
* `keyedSchedule_files`, `legacyCommStages_files`: from trace files through the compiler to the
  replay, each rank looks up its own schedule and holds its own stages
-/

namespace Opus

/-! ## The compiler's files -/

def scheduleHeader : Text :=
  "# iteration,trigger_backend,trigger_counter,target_backend,target_counter".toList

/-- A row of the keyed schedule, without the newline at its end. -/
def scheduleLine (entry : ScheduleEntry) : Text :=
  intText entry.iteration ++ ',' :: intText entry.triggerBackend ++
    ',' :: intText entry.triggerCounter ++ ',' :: intText entry.targetBackend ++
    ',' :: intText entry.targetCounter ++ ['\r']

def scheduleText (entries : List ScheduleEntry) : Text :=
  Lines.join '\n' (scheduleHeader :: entries.map scheduleLine)

/-- The number of events of a stage, as it is written. -/
def stageLen (row : Event × Event) : ℤ := row.2.sequence - row.1.sequence + 1

/-- A stage, without the newline at its end. -/
def stageLine (row : Event × Event) : Text :=
  row.1.kind.text ++ ' ' :: "start_backend:".toList ++ ' ' :: intText row.1.backend ++
    ' ' :: "start_idx:".toList ++ ' ' :: intText (legacyCounter row.1) ++
    ' ' :: "end_backend:".toList ++ ' ' :: intText row.2.backend ++
    ' ' :: "end_idx:".toList ++ ' ' :: intText (legacyCounter row.2) ++
    ' ' :: "len:".toList ++ ' ' :: intText (stageLen row)

def stageText (rows : List (Event × Event)) : Text := Lines.join '\n' (rows.map stageLine)

/-- The schedule files of all ranks; nothing when the compiler raises. -/
def compileKeyed (provision : Bool) (traceFiles : List Text) : Option (List Text) := do
  let traces ← traceFiles.mapM readTrace
  let keys := transitionKeys traces
  return traces.map fun events => scheduleText (keyedSchedule keys provision events)

/-- The stage files of all ranks; nothing when the compiler raises. -/
def compileLegacy (traceFiles : List Text) : Option (List Text) := do
  let traces ← traceFiles.mapM readTrace
  return traces.map fun events => stageText (legacyStages events)

/-! ## The shim's readers -/

/-- The lines that `std::getline` reads. -/
def getlines (text : Text) : List Text :=
  let lines := Lines.split '\n' text
  if lines.2 = [] then lines.1 else lines.1 ++ [lines.2]

/-- A row of the schedule as it is read. -/
structure ReplayEntry where
  iteration : ℤ
  triggerBackend : ℤ
  triggerCounter : ℤ
  targetBackend : ℤ
  targetCounter : ℤ
  deriving DecidableEq, Repr

/-- Five integers. -/
def replayRow (row : Text) : Option ReplayEntry := do
  let (iteration, row) ← readInt row
  let (triggerBackend, row) ← readInt row
  let (triggerCounter, row) ← readInt row
  let (targetBackend, row) ← readInt row
  let (targetCounter, _) ← readInt row
  return ⟨iteration, triggerBackend, triggerCounter, targetBackend, targetCounter⟩

/-- Commas become blanks. -/
def blankCommas (line : Text) : Text := line.map fun c => if c = ',' then ' ' else c

def invalidRow (line : Text) : Text := "Invalid Opus schedule row: ".toList ++ line

/-- A line of the schedule that is not skipped. -/
def replayLine (line : Text) : Except Text ReplayEntry :=
  match replayRow (blankCommas line) with
  | some entry => .ok entry
  | none => .error (invalidRow (blankCommas line))

/-- The rows of a schedule file, or the exception of the first row that cannot be read. -/
def loadReplaySchedule (text : Text) : Except Text (List ReplayEntry) :=
  ((getlines text).filter fun line => !(line.isEmpty || line.head? == some '#')).mapM replayLine

/-- The target of the first row that the key triggers. -/
def lookUp (schedule : List ReplayEntry) (iteration backend counter : ℤ) : Option (ℤ × ℤ) :=
  (schedule.find? fun entry =>
    entry.iteration == iteration && entry.triggerBackend == backend &&
      entry.triggerCounter == counter).map fun entry => (entry.targetBackend, entry.targetCounter)

/-- A stage as it is read. -/
structure StageEntry where
  backendIdStart : ℤ
  collCounterStart : ℤ
  backendIdEnd : ℤ
  collCounterEnd : ℤ
  deriving DecidableEq, Repr

/-- The type of a stage, then words and integers by turns. -/
def stageRow (line : Text) : Option StageEntry := do
  let (_, line) ← readWord line
  let (_, line) ← readWord line
  let (startBackend, line) ← readInt line
  let (_, line) ← readWord line
  let (startIdx, line) ← readInt line
  let (_, line) ← readWord line
  let (endBackend, line) ← readInt line
  let (_, line) ← readWord line
  let (endIdx, line) ← readInt line
  let (_, line) ← readWord line
  let (_, _) ← readInt line
  return ⟨startBackend, startIdx, endBackend, endIdx⟩

def invalidFormat : Text := "Invalid format in comm_stages.txt".toList

/-- A line of the stage file that is not skipped. -/
def commStageLine (line : Text) : Except Text StageEntry :=
  match stageRow line with
  | some stage => .ok stage
  | none => .error invalidFormat

/-- The stages of a stage file, or the exception. -/
def populateCommStages (text : Text) : Except Text (List StageEntry) :=
  ((getlines text).filter fun line =>
    !(line.isEmpty || line.head? == some '#' || line.head? == some 'N')).mapM commStageLine

/-! ## What is written is read -/

/-- The rows of the compiler as integers. -/
def ScheduleEntry.ints (entry : ScheduleEntry) : ReplayEntry where
  iteration := entry.iteration
  triggerBackend := entry.triggerBackend
  triggerCounter := entry.triggerCounter
  targetBackend := entry.targetBackend
  targetCounter := entry.targetCounter

/-- Every number of the row is an `int`. -/
def ScheduleEntry.Fits (entry : ScheduleEntry) : Prop :=
  FitsInt entry.iteration ∧ FitsInt entry.triggerBackend ∧ FitsInt entry.triggerCounter ∧
    FitsInt entry.targetBackend ∧ FitsInt entry.targetCounter

instance (entry : ScheduleEntry) : Decidable entry.Fits := inferInstanceAs (Decidable (_ ∧ _))

/-- The stage of a run of events. -/
def stageEntry (row : Event × Event) : StageEntry where
  backendIdStart := row.1.backend
  collCounterStart := legacyCounter row.1
  backendIdEnd := row.2.backend
  collCounterEnd := legacyCounter row.2

/-- Every number of the stage is an `int`. -/
def StageFits (row : Event × Event) : Prop :=
  FitsInt row.1.backend ∧ FitsInt (legacyCounter row.1) ∧ FitsInt row.2.backend ∧
    FitsInt (legacyCounter row.2) ∧ FitsInt (stageLen row)

instance (row : Event × Event) : Decidable (StageFits row) := inferInstanceAs (Decidable (_ ∧ _))

theorem getlines_join {lines : List Text} (h : ∀ line ∈ lines, '\n' ∉ line) :
    getlines (Lines.join '\n' lines) = lines := by
  simp only [getlines, Lines.split_join '\n' h, if_true]

theorem endsNumber_cons {c : Char} (h : c.isDigit = false) (rest : Text) :
    EndsNumber (c :: rest) := by
  rintro d ⟨rfl⟩
  exact h

/-- A number that more characters follow. -/
theorem readInt_bind {α : Type} (value : ℤ) {c : Char} (h : c.isDigit = false) (rest : Text)
    (next : ℤ × Text → Option α) :
    (readInt (intText value ++ c :: rest) >>= next) =
      if FitsInt value then next (value, c :: rest) else none := by
  rw [readInt_intText value (endsNumber_cons h rest)]
  split <;> rfl

/-- A blank in front of a number. -/
theorem readInt_blank (rest : Text) : readInt (' ' :: rest) = readInt rest :=
  readInt_space (by rfl) rest

/-- A word that a blank follows. -/
theorem readWord_bind {α : Type} {word : Text} (hne : word ≠ [])
    (h : (word.all fun c => !isSpace c) = true) (rest : Text) (next : Text × Text → Option α) :
    (readWord (word ++ ' ' :: rest) >>= next) = next (word, ' ' :: rest) := by
  have hword := List.all_eq_true.mp h
  obtain ⟨c, cs, rfl⟩ := List.exists_cons_of_ne_nil hne
  have hfront : ((c :: cs) ++ ' ' :: rest).dropWhile isSpace = (c :: cs) ++ ' ' :: rest := by
    rw [List.cons_append, List.dropWhile_cons_of_neg (by simpa using hword c List.mem_cons_self)]
  have hread : readWord ((c :: cs) ++ ' ' :: rest) = some (c :: cs, ' ' :: rest) := by
    unfold readWord
    rw [hfront]
    dsimp only
    rw [if_neg (by simp), List.takeWhile_append_of_pos hword, List.dropWhile_append_of_pos hword]
    simp [isSpace]
  rw [hread]
  rfl

theorem readWord_blank (rest : Text) : readWord (' ' :: rest) = readWord rest := by
  unfold readWord
  rw [List.dropWhile_cons_of_pos (by rfl)]

/-- A reader that undoes a partial writer reads up to the first item that was not written. -/
theorem mapM_map_except {α β γ ε : Type} {write : α → β} {read : β → Except ε γ} {value : α → γ}
    {error : α → ε} {ok : α → Prop} [DecidablePred ok]
    (h : ∀ a, read (write a) = if ok a then .ok (value a) else .error (error a)) (as : List α) :
    (as.map write).mapM read =
      match as.find? fun a => !decide (ok a) with
      | none => .ok (as.map value)
      | some a => .error (error a) := by
  induction as with
  | nil => rfl
  | cons a as ih =>
    rw [List.map_cons, List.mapM_cons, h, ih]
    by_cases ha : ok a
    · rw [if_pos ha, List.find?_cons_of_neg (by simp [ha])]
      cases as.find? fun a => !decide (ok a) with
      | none => rfl
      | some b => rfl
    · rw [if_neg ha, List.find?_cons_of_pos (by simp [ha])]
      rfl

/-! ### Schedule rows -/

/-- A number has no commas. -/
theorem blankCommas_intText (value : ℤ) : blankCommas (intText value) = intText value := by
  unfold blankCommas
  conv_rhs => rw [← List.map_id (intText value)]
  apply List.map_congr_left
  intro c hc
  have hne : c ≠ ',' := by
    rintro rfl
    exact not_mem_intText value (by decide) rfl hc
  rw [if_neg hne]
  rfl

theorem blankCommas_scheduleLine (entry : ScheduleEntry) :
    blankCommas (scheduleLine entry) =
      intText entry.iteration ++ ' ' :: (intText entry.triggerBackend ++
        ' ' :: (intText entry.triggerCounter ++ ' ' :: (intText entry.targetBackend ++
          ' ' :: (intText entry.targetCounter ++ ['\r'])))) := by
  have happend : ∀ s t : Text, blankCommas (s ++ t) = blankCommas s ++ blankCommas t :=
    fun s t => List.map_append
  have hcomma : ∀ t : Text, blankCommas (',' :: t) = ' ' :: blankCommas t := fun t => rfl
  have hend : blankCommas ['\r'] = ['\r'] := rfl
  simp only [scheduleLine, happend, hcomma, hend, blankCommas_intText, List.append_assoc,
    List.cons_append]

theorem replayRow_scheduleLine (entry : ScheduleEntry) :
    replayRow (blankCommas (scheduleLine entry)) =
      if entry.Fits then some entry.ints else none := by
  rw [blankCommas_scheduleLine]
  unfold replayRow
  simp only [readInt_bind _ (show ' '.isDigit = false from rfl),
    readInt_bind _ (show '\r'.isDigit = false from rfl), readInt_blank]
  unfold ScheduleEntry.Fits ScheduleEntry.ints
  split_ifs <;> first | rfl | grind

theorem replayLine_scheduleLine (entry : ScheduleEntry) :
    replayLine (scheduleLine entry) =
      if entry.Fits then .ok entry.ints
      else .error (invalidRow (blankCommas (scheduleLine entry))) := by
  rw [replayLine, replayRow_scheduleLine]
  by_cases h : entry.Fits
  · rw [if_pos h, if_pos h]
  · rw [if_neg h, if_neg h]

/-- A line that starts with a number is not skipped. -/
theorem not_skipped_intText (value : ℤ) (rest : Text) :
    (!((intText value ++ rest).isEmpty || (intText value ++ rest).head? == some '#')) = true := by
  obtain ⟨c, t, hct, -⟩ := exists_intText_eq value
  have hmem : c ∈ intText value := by
    rw [hct]
    exact List.mem_cons_self
  have hc : c ≠ '#' := by
    rintro rfl
    exact not_mem_intText value (by decide) rfl hmem
  rw [hct]
  simp [hc]

theorem not_mem_newline_intText (value : ℤ) : '\n' ∉ intText value :=
  not_mem_intText value (by decide) rfl

/-- **The shim reads the schedule that was written**, and throws exactly at the first row with a
number that is not an `int`. -/
theorem loadReplaySchedule_scheduleText (entries : List ScheduleEntry) :
    loadReplaySchedule (scheduleText entries) =
      match entries.find? fun entry => !decide entry.Fits with
      | none => .ok (entries.map ScheduleEntry.ints)
      | some entry => .error (invalidRow (blankCommas (scheduleLine entry))) := by
  have hlines : getlines (scheduleText entries) = scheduleHeader :: entries.map scheduleLine := by
    apply getlines_join
    intro line hline
    rcases List.mem_cons.mp hline with rfl | hline
    · decide
    · obtain ⟨entry, -, rfl⟩ := List.mem_map.mp hline
      simp [scheduleLine, not_mem_newline_intText]
  have hkept : (entries.map scheduleLine).filter
      (fun line => !(line.isEmpty || line.head? == some '#')) = entries.map scheduleLine := by
    rw [List.filter_eq_self]
    intro line hline
    obtain ⟨entry, -, rfl⟩ := List.mem_map.mp hline
    simp only [scheduleLine, List.append_assoc]
    exact not_skipped_intText _ _
  unfold loadReplaySchedule
  rw [hlines, List.filter_cons_of_neg (by decide), hkept, mapM_map_except replayLine_scheduleLine]
  cases entries.find? fun entry => !decide entry.Fits <;> rfl

/-! ### Stages -/

theorem stageRow_stageLine (row : Event × Event) :
    stageRow (stageLine row) = if StageFits row then some (stageEntry row) else none := by
  have hend : EndsNumber [] := by
    intro c hc
    exact absurd hc (by simp)
  have hlast := readInt_intText (stageLen row) hend
  rw [List.append_nil] at hlast
  have hkind : row.1.kind.text ≠ [] ∧ (row.1.kind.text.all fun c => !isSpace c) = true := by
    cases row.1.kind <;> decide
  unfold stageRow stageLine
  simp only [List.append_assoc, List.cons_append, readWord_blank, readInt_blank,
    readInt_bind _ (show ' '.isDigit = false from rfl), hlast,
    readWord_bind hkind.1 hkind.2,
    readWord_bind (show "start_backend:".toList ≠ [] by decide) (by decide),
    readWord_bind (show "start_idx:".toList ≠ [] by decide) (by decide),
    readWord_bind (show "end_backend:".toList ≠ [] by decide) (by decide),
    readWord_bind (show "end_idx:".toList ≠ [] by decide) (by decide),
    readWord_bind (show "len:".toList ≠ [] by decide) (by decide)]
  unfold StageFits stageEntry
  split_ifs <;> first | rfl | grind

theorem commStageLine_stageLine (row : Event × Event) :
    commStageLine (stageLine row) =
      if StageFits row then .ok (stageEntry row) else .error invalidFormat := by
  rw [commStageLine, stageRow_stageLine]
  by_cases h : StageFits row
  · rw [if_pos h, if_pos h]
  · rw [if_neg h, if_neg h]

/-- **The shim reads the stages that were written**, and throws exactly when some stage has a number
that is not an `int`. -/
theorem populateCommStages_stageText (rows : List (Event × Event)) :
    populateCommStages (stageText rows) =
      match rows.find? fun row => !decide (StageFits row) with
      | none => .ok (rows.map stageEntry)
      | some _ => .error invalidFormat := by
  have hkind : ∀ row : Event × Event, ∃ c t, stageLine row = c :: t ∧ (c = 'P' ∨ c = 'D') := by
    intro row
    unfold stageLine
    cases row.1.kind
    · exact ⟨'P', _, rfl, .inl rfl⟩
    · exact ⟨'D', _, rfl, .inr rfl⟩
  have hlines : getlines (stageText rows) = rows.map stageLine := by
    apply getlines_join
    intro line hline
    obtain ⟨row, -, rfl⟩ := List.mem_map.mp hline
    have htype : '\n' ∉ row.1.kind.text := by cases row.1.kind <;> decide
    simp [stageLine, not_mem_newline_intText, htype]
  have hkept : ((rows.map stageLine).filter fun line =>
      !(line.isEmpty || line.head? == some '#' || line.head? == some 'N')) =
      rows.map stageLine := by
    rw [List.filter_eq_self]
    intro line hline
    obtain ⟨row, -, rfl⟩ := List.mem_map.mp hline
    obtain ⟨c, t, hline, hc⟩ := hkind row
    rw [hline]
    rcases hc with rfl | rfl <;> rfl
  unfold populateCommStages
  rw [hlines, hkept, mapM_map_except commStageLine_stageLine]
  cases rows.find? fun row => !decide (StageFits row) <;> rfl

/-! ## From trace files to the replay -/

/-- The numbers of an event are `int`s, and so is the number of events up to it. -/
structure Event.Fits (e : Event) : Prop where
  iteration : FitsInt e.iteration
  length : FitsInt (e.sequence + 1)
  backend : FitsInt e.backend
  counter : FitsInt e.counter
  controllerBackend : FitsInt e.controllerBackend
  controllerCounter : FitsInt e.controllerCounter

instance (e : Event) : Decidable e.Fits :=
  decidable_of_iff (FitsInt e.iteration ∧ FitsInt (e.sequence + 1) ∧ FitsInt e.backend ∧
      FitsInt e.counter ∧ FitsInt e.controllerBackend ∧ FitsInt e.controllerCounter)
    ⟨fun ⟨h₁, h₂, h₃, h₄, h₅, h₆⟩ => ⟨h₁, h₂, h₃, h₄, h₅, h₆⟩,
      fun ⟨h₁, h₂, h₃, h₄, h₅, h₆⟩ => ⟨h₁, h₂, h₃, h₄, h₅, h₆⟩⟩

/-- A look-up in the rows that were read finds what a look-up in the compiler's rows finds. -/
theorem lookUp_ints (entries : List ScheduleEntry) (iteration backend counter : ℕ) :
    lookUp (entries.map ScheduleEntry.ints) iteration backend counter =
      (scheduledTransition entries iteration backend counter).map
        fun target => ((target.1 : ℤ), (target.2 : ℤ)) := by
  rw [lookUp, scheduledTransition, List.find?_map, Option.map_map, Option.map_map]
  have hfind : entries.find? ((fun entry : ReplayEntry => entry.iteration == iteration &&
      entry.triggerBackend == backend && entry.triggerCounter == counter) ∘ ScheduleEntry.ints) =
      entries.find? fun entry => entry.iteration == iteration &&
        entry.triggerBackend == backend && entry.triggerCounter == counter := by
    apply List.find?_congr
    intro entry hentry
    rw [Bool.eq_iff_iff]
    simp [ScheduleEntry.ints]
  rw [hfind]
  rfl

/-- The trace files of the ranks, as the compiler reads them. -/
def rankEvents (ranks : List (List (Event × CollType))) : List (List Event) :=
  ranks.map fun rows => readEvents (rows.map Prod.fst)

theorem mapM_readTrace (ranks : List (List (Event × CollType))) :
    (ranks.map profileText).mapM readTrace = some (rankEvents ranks) :=
  mapM_map_some readTrace_profileText ranks

theorem fits_of_mem_rankEvents {ranks : List (List (Event × CollType))}
    (h : ∀ rows ∈ ranks, ∀ row ∈ rows, row.1.Fits) {events : List Event}
    (he : events ∈ rankEvents ranks) : ∀ e ∈ events, e.Fits := by
  intro e hmem
  obtain ⟨rows, hrows, rfl⟩ := List.mem_map.mp he
  rw [readEvents, List.mem_mergeSort] at hmem
  obtain ⟨row, hrow, rfl⟩ := List.mem_map.mp hmem
  exact h rows hrows row hrow

/-- The rows compiled from such events are read. -/
theorem fits_of_mem_keyedSchedule {keys : List Key} {provision : Bool} {events : List Event}
    (h : ∀ e ∈ events, e.Fits) {entry : ScheduleEntry}
    (he : entry ∈ keyedSchedule keys provision events) : entry.Fits := by
  obtain ⟨row, hrow, rfl⟩ := List.mem_map.mp he
  obtain ⟨htrigger, htarget, -, -⟩ := synchronizedTransitionsFrom_mem hrow
  have htarget := h _ htarget
  have htrigger := h _ (htrigger.resolve_left (by simp))
  exact ⟨htarget.iteration, htrigger.backend, htrigger.counter, htarget.controllerBackend,
    htarget.controllerCounter⟩

/-- The stages compiled from such events are read. -/
theorem stageFits_of_mem {events : List Event} (h : ∀ e ∈ events, e.Fits) {row : Event × Event}
    (hr : row ∈ legacyStages events) : StageFits row := by
  have hcounter : ∀ e : Event, e.Fits → FitsInt (legacyCounter e) := by
    intro e he
    have hle : legacyCounter e ≤ e.counter := by
      unfold legacyCounter
      split
      · exact Nat.mod_le _ _
      · exact le_rfl
    have hfit := he.counter
    unfold FitsInt at hfit ⊢
    omega
  obtain ⟨hstart, hend⟩ := legacyStages_mem hr
  have hstart := h _ hstart
  have hend := h _ hend
  refine ⟨hstart.backend, hcounter _ hstart, hend.backend, hcounter _ hend, ?_⟩
  have hs := hstart.length
  have he := hend.length
  unfold FitsInt stageLen at *
  omega

/-- **A keyed schedule survives its files**: for each rank the compiled file is read without an
exception, and a look-up in it finds what a look-up in the schedule of the rank finds. -/
theorem keyedSchedule_files (provision : Bool) {ranks : List (List (Event × CollType))}
    (h : ∀ rows ∈ ranks, ∀ row ∈ rows, row.1.Fits) :
    ∃ files, compileKeyed provision (ranks.map profileText) = some files ∧
      List.Forall₂ (fun events file => ∃ schedule, loadReplaySchedule file = .ok schedule ∧
        ∀ iteration backend counter : ℕ, lookUp schedule iteration backend counter =
          (scheduledTransition (keyedSchedule (transitionKeys (rankEvents ranks)) provision events)
            iteration backend counter).map fun target => ((target.1 : ℤ), (target.2 : ℤ)))
        (rankEvents ranks) files := by
  refine ⟨(rankEvents ranks).map fun events =>
    scheduleText (keyedSchedule (transitionKeys (rankEvents ranks)) provision events), ?_, ?_⟩
  · rw [compileKeyed, mapM_readTrace]
    rfl
  · rw [List.forall₂_map_right_iff, List.forall₂_same]
    intro events he
    refine ⟨_, ?_, lookUp_ints _⟩
    have hfits : (keyedSchedule (transitionKeys (rankEvents ranks)) provision events).find?
        (fun entry => !decide entry.Fits) = none := by
      rw [List.find?_eq_none]
      intro entry hentry
      simp [fits_of_mem_keyedSchedule (fits_of_mem_rankEvents h he) hentry]
    rw [loadReplaySchedule_scheduleText, hfits]

/-- The traces of two neighbours in a pipeline: a transfer between them, then a collective. -/
def twoTraces : List (List (Event × CollType)) :=
  [[(⟨1, 0, 1, 1000000, .PP, 11, 1000000⟩, .send), (⟨1, 1, 2, 0, .DP, 2, 0⟩, .allreduce)],
    [(⟨1, 0, 1, 1000000, .PP, 11, 1000000⟩, .recv), (⟨1, 1, 2, 0, .DP, 2, 1000000⟩, .allreduce)]]

theorem keyedSchedule_files_twoTraces :
    ∃ files, compileKeyed true (twoTraces.map profileText) = some files ∧
      List.Forall₂ (fun events file => ∃ schedule, loadReplaySchedule file = .ok schedule ∧
        ∀ iteration backend counter : ℕ, lookUp schedule iteration backend counter =
          (scheduledTransition (keyedSchedule (transitionKeys (rankEvents twoTraces)) true events)
            iteration backend counter).map fun target => ((target.1 : ℤ), (target.2 : ℤ)))
        (rankEvents twoTraces) files :=
  keyedSchedule_files true (by decide)

/-- A stage as the integers that are read. -/
def CommStage.ints (stage : CommStage) : StageEntry where
  backendIdStart := stage.backendIdStart
  collCounterStart := stage.collCounterStart
  backendIdEnd := stage.backendIdEnd
  collCounterEnd := stage.collCounterEnd

/-- **The stages survive their files**: each rank reads the stages compiled from its trace. -/
theorem legacyCommStages_files {ranks : List (List (Event × CollType))}
    (h : ∀ rows ∈ ranks, ∀ row ∈ rows, row.1.Fits) :
    ∃ files, compileLegacy (ranks.map profileText) = some files ∧
      List.Forall₂ (fun rows file => populateCommStages file =
        .ok ((legacyCommStages (rows.map Prod.fst)).map CommStage.ints)) ranks files := by
  refine ⟨(rankEvents ranks).map fun events => stageText (legacyStages events), ?_, ?_⟩
  · rw [compileLegacy, mapM_readTrace]
    rfl
  · rw [rankEvents, List.map_map, List.forall₂_map_right_iff, List.forall₂_same]
    intro rows hrows
    have he : readEvents (rows.map Prod.fst) ∈ rankEvents ranks :=
      List.mem_map.mpr ⟨rows, hrows, rfl⟩
    have hfits : (legacyStages (readEvents (rows.map Prod.fst))).find?
        (fun row => !decide (StageFits row)) = none := by
      rw [List.find?_eq_none]
      intro row hrow
      simp [stageFits_of_mem (fits_of_mem_rankEvents h he) hrow]
    rw [Function.comp_apply, populateCommStages_stageText, hfits, legacyCommStages, List.map_map]
    rfl

theorem legacyCommStages_files_twoTraces :
    ∃ files, compileLegacy (twoTraces.map profileText) = some files ∧
      List.Forall₂ (fun rows file => populateCommStages file =
        .ok ((legacyCommStages (rows.map Prod.fst)).map CommStage.ints)) twoTraces files :=
  legacyCommStages_files (by decide)

end Opus
