import Mathlib.Data.List.Basic

/-!
# Comma-separated values

The reader of Python's `csv` module with its default dialect, over the lines of a file that is
opened without a translation of line ends. The reader is a state machine over the characters of a
line and its end; a record goes on behind a line when the line ends inside quotes.

## Main definitions

* `fileLines`: the lines of a file, with their ends
* `State`, `Reader`: the states of the machine, and the machine with the fields read so far
* `Reader.char`, `Reader.endLine`: what a character does, and the end of a line
* `records`: the records of a file; nothing when the reader raises
* `line`: a record whose fields need no quotes, as a line

## Main results

* `records_lines`: what is written line by line is read back
-/

namespace Csv

/-! ## The reader -/

/-- The lines of a file. A line ends behind a newline, a carriage return, or both. -/
def fileLines : List Char → List (List Char)
  | [] => []
  | '\n' :: cs => ['\n'] :: fileLines cs
  | '\r' :: '\n' :: cs => ['\r', '\n'] :: fileLines cs
  | '\r' :: cs => ['\r'] :: fileLines cs
  | c :: cs =>
    match fileLines cs with
    | [] => [[c]]
    | l :: ls => (c :: l) :: ls

inductive State where
  | startRecord
  | startField
  | inField
  | inQuotedField
  | quoteInQuotedField
  | eatCrnl
  deriving DecidableEq, Repr

/-- The machine: the part of the current field and the fields of the current record. -/
structure Reader where
  state : State
  field : List Char
  fields : List (List Char)
  deriving DecidableEq, Repr

namespace Reader

def start : Reader := ⟨.startRecord, [], []⟩

def add (r : Reader) (c : Char) (state : State) : Reader :=
  { r with state := state, field := r.field ++ [c] }

/-- The field is complete. -/
def save (r : Reader) (state : State) : Reader := ⟨state, [], r.fields ++ [r.field]⟩

/-- The first character of a field. -/
def charStartField (r : Reader) (c : Char) : Reader :=
  if c = '\n' ∨ c = '\r' then r.save .eatCrnl
  else if c = '"' then { r with state := .inQuotedField }
  else if c = ',' then r.save .startField
  else r.add c .inField

/-- A character; nothing when the reader raises. -/
def char (r : Reader) (c : Char) : Option Reader :=
  match r.state with
  | .startRecord =>
    if c = '\n' ∨ c = '\r' then some { r with state := .eatCrnl } else some (r.charStartField c)
  | .startField => some (r.charStartField c)
  | .inField =>
    if c = '\n' ∨ c = '\r' then some (r.save .eatCrnl)
    else if c = ',' then some (r.save .startField)
    else some (r.add c .inField)
  | .inQuotedField =>
    if c = '"' then some { r with state := .quoteInQuotedField } else some (r.add c .inQuotedField)
  | .quoteInQuotedField =>
    if c = '"' then some (r.add c .inQuotedField)
    else if c = ',' then some (r.save .startField)
    else if c = '\n' ∨ c = '\r' then some (r.save .eatCrnl)
    else some (r.add c .inField)
  | .eatCrnl => if c = '\n' ∨ c = '\r' then some r else none

/-- The end of a line. -/
def endLine (r : Reader) : Reader :=
  match r.state with
  | .startRecord => r
  | .startField | .inField | .quoteInQuotedField => r.save .startRecord
  | .inQuotedField => r
  | .eatCrnl => { r with state := .startRecord }

/-- A line. -/
def readLine (r : Reader) (line : List Char) : Option Reader := (line.foldlM char r).map endLine

end Reader

/-- The records of the lines that follow. -/
def recordsFrom : Reader → List (List Char) → Option (List (List (List Char)))
  | r, [] =>
    if r.field ≠ [] ∨ r.state = .inQuotedField then some [r.fields ++ [r.field]] else some []
  | r, line :: lines =>
    (r.readLine line).bind fun r =>
      if r.state = .startRecord then (recordsFrom .start lines).map (r.fields :: ·)
      else recordsFrom r lines

/-- The records of a file. -/
def records (text : List Char) : Option (List (List (List Char))) :=
  recordsFrom .start (fileLines text)

/-! ## Lines without quotes -/

/-- A text that is read as it stands. -/
structure Plain (field : List Char) : Prop where
  ne_nil : field ≠ []
  not_mem_comma : ',' ∉ field
  not_mem_quote : '"' ∉ field
  not_mem_newline : '\n' ∉ field
  not_mem_return : '\r' ∉ field

/-- The characters of a plain record. -/
def body : List (List Char) → List Char
  | [] => []
  | [field] => field
  | field :: fields => field ++ ',' :: body fields

/-- A plain record as a line. -/
def line (fields : List (List Char)) : List Char := body fields ++ ['\n']

variable {field : List Char} {fields : List (List Char)}

/-- The rest of a field. -/
theorem foldlM_inField (r : Reader) (hr : r.state = .inField) {cs : List Char} (hc : ',' ∉ cs)
    (hn : '\n' ∉ cs) (hcr : '\r' ∉ cs) :
    cs.foldlM Reader.char r = some { r with field := r.field ++ cs } := by
  induction cs generalizing r with
  | nil => simp
  | cons c cs ih =>
    simp only [List.mem_cons, not_or] at hc hn hcr
    have hstep : r.char c = some (r.add c .inField) := by
      unfold Reader.char
      rw [hr]
      dsimp only
      rw [if_neg (by rintro (rfl | rfl) <;> simp at hn hcr), if_neg (Ne.symm hc.1)]
    rw [List.foldlM_cons, hstep]
    show cs.foldlM Reader.char (r.add c .inField) = _
    rw [ih (r.add c .inField) rfl hc.2 hn.2 hcr.2]
    simp [Reader.add, hr]

/-- A whole field. -/
theorem foldlM_field (r : Reader) (hr : r.state = .startRecord ∨ r.state = .startField)
    (hempty : r.field = []) (h : Plain field) :
    field.foldlM Reader.char r = some { r with state := .inField, field := field } := by
  obtain ⟨hne, hc, hq, hn, hcr⟩ := h
  obtain ⟨c, cs, rfl⟩ := List.exists_cons_of_ne_nil hne
  simp only [List.mem_cons, not_or] at hc hq hn hcr
  have hline : ¬ (c = '\n' ∨ c = '\r') := by rintro (rfl | rfl) <;> simp at hn hcr
  have hstart : r.charStartField c = r.add c .inField := by
    rw [Reader.charStartField, if_neg hline, if_neg (Ne.symm hq.1), if_neg (Ne.symm hc.1)]
  have hstep : r.char c = some (r.add c .inField) := by
    rw [← hstart]
    unfold Reader.char
    rcases hr with hr | hr
    · rw [hr]
      dsimp only
      rw [if_neg hline]
    · rw [hr]
  rw [List.foldlM_cons, hstep]
  show cs.foldlM Reader.char (r.add c .inField) = _
  rw [foldlM_inField _ rfl hc.2 hn.2 hcr.2]
  simp [Reader.add, hempty]

/-- **A plain record is read back.** -/
theorem foldlM_line (r : Reader) (hr : r.state = .startRecord ∨ r.state = .startField)
    (hempty : r.field = []) (hne : fields ≠ []) (h : ∀ field ∈ fields, Plain field) :
    (line fields).foldlM Reader.char r = some ⟨.eatCrnl, [], r.fields ++ fields⟩ := by
  induction fields generalizing r with
  | nil => exact absurd rfl hne
  | cons field fields ih =>
    have hfield := foldlM_field r hr hempty (h field List.mem_cons_self)
    cases fields with
    | nil =>
      rw [line, body, List.foldlM_append, hfield]
      rfl
    | cons next fields =>
      have hbody : line (field :: next :: fields) = field ++ ',' :: line (next :: fields) := by
        rw [line, line, body, List.append_assoc, List.cons_append]
        simp
      rw [hbody, List.foldlM_append, hfield]
      show (',' :: line (next :: fields)).foldlM Reader.char ⟨.inField, field, r.fields⟩ = _
      rw [List.foldlM_cons]
      show (line (next :: fields)).foldlM Reader.char ⟨.startField, [], r.fields ++ [field]⟩ = _
      rw [ih _ (.inr rfl) rfl (List.cons_ne_nil _ _)
        fun f hf => h f (List.mem_cons_of_mem _ hf), List.append_assoc, List.singleton_append]

/-- A plain record stands on one line of the file. -/
theorem fileLines_line (h : ∀ field ∈ fields, Plain field) (rest : List Char) :
    fileLines (line fields ++ rest) = line fields :: fileLines rest := by
  have hplain : ∀ cs : List Char, '\n' ∉ cs → '\r' ∉ cs →
      fileLines (cs ++ '\n' :: rest) = (cs ++ ['\n']) :: fileLines rest := by
    intro cs hn hcr
    induction cs with
    | nil => simp [fileLines]
    | cons c cs ih =>
      simp only [List.mem_cons, not_or] at hn hcr
      rw [List.cons_append, fileLines, ih hn.2 hcr.2]
      · rfl
      · exact Ne.symm hn.1
      · exact fun _ heq _ => hcr.1 heq.symm
      · exact Ne.symm hcr.1
  have hbody : ∀ fields : List (List Char), (∀ field ∈ fields, Plain field) →
      '\n' ∉ body fields ∧ '\r' ∉ body fields := by
    intro fields
    induction fields with
    | nil => exact fun _ => ⟨List.not_mem_nil, List.not_mem_nil⟩
    | cons field fields ih =>
      intro h
      have hfield := h field List.mem_cons_self
      have hrest := ih fun f hf => h f (List.mem_cons_of_mem _ hf)
      cases fields with
      | nil => exact ⟨hfield.not_mem_newline, hfield.not_mem_return⟩
      | cons next fields =>
        rw [body]
        · simp only [List.mem_append, List.mem_cons, not_or]
          exact ⟨⟨hfield.not_mem_newline, by decide, hrest.1⟩,
            hfield.not_mem_return, by decide, hrest.2⟩
        · exact List.cons_ne_nil _ _
  rw [line, List.append_assoc, List.singleton_append]
  exact hplain _ (hbody fields h).1 (hbody fields h).2

/-- **What is written line by line is read back.** -/
theorem records_lines {rows : List (List (List Char))} (hne : ∀ row ∈ rows, row ≠ [])
    (h : ∀ row ∈ rows, ∀ field ∈ row, Plain field) :
    records (rows.flatMap line) = some rows := by
  unfold records
  induction rows with
  | nil => rfl
  | cons row rows ih =>
    have hrow := foldlM_line .start (.inl rfl) rfl (hne row List.mem_cons_self)
      (h row List.mem_cons_self)
    rw [List.flatMap_cons, fileLines_line (h row List.mem_cons_self), recordsFrom, Reader.readLine,
      hrow, Option.map_some, Option.bind_some]
    show (recordsFrom .start (fileLines (rows.flatMap line))).map (([] ++ row) :: ·) = _
    rw [ih (fun row' hr => hne row' (List.mem_cons_of_mem _ hr))
      fun row' hr => h row' (List.mem_cons_of_mem _ hr)]
    rfl

end Csv
