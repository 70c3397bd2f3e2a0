import Mathlib.Data.List.TakeWhile
import Opus.Basic

/-!
# Numbers in text

Numbers are written in decimal by `std::to_string`, by `operator<<` and by Python, and read by
`std::stoi`, by `operator>>` and by Python's `int`. What one side writes the other reads back, and
the C++ readers reject a number that is not an `int`.

## Main definitions

* `intText`: an integer as it is written
* `readInt`, `readWord`: `operator>>` for an `int` and for a string
* `pyInt`: `int` of a string

## Main results

* `stoi_intText`, `readInt_intText`, `pyInt_intText`: each reader reads what is written
-/

namespace Opus

/-! ## Writers and readers -/

/-- The decimal digits of a number. -/
def natText (n : ℕ) : Text := Nat.toDigits 10 n

/-- An integer as it is written. -/
def intText : ℤ → Text
  | .ofNat n => natText n
  | .negSucc n => '-' :: natText (n + 1)

/-- The value is an `int`. -/
def FitsInt (value : ℤ) : Prop := -2147483648 ≤ value ∧ value ≤ 2147483647

instance (value : ℤ) : Decidable (FitsInt value) := inferInstanceAs (Decidable (_ ∧ _))

/-- The sign of a number and what follows it. -/
def cutSign : Text → Bool × Text
  | '-' :: t => (true, t)
  | '+' :: t => (false, t)
  | t => (false, t)

/-- The number with these digits and this sign. -/
def signedValue (negative : Bool) (digits : Text) : ℤ :=
  if negative then -(digitsValue digits : ℤ) else digitsValue digits

/-- `operator>>` for an `int`: the value and what is left of the stream; nothing when it fails. -/
def readInt (s : Text) : Option (ℤ × Text) :=
  let signed := cutSign (s.dropWhile isSpace)
  let digits := signed.2.takeWhile Char.isDigit
  let value := signedValue signed.1 digits
  if digits ≠ [] ∧ FitsInt value then some (value, signed.2.dropWhile Char.isDigit) else none

/-- `operator>>` for a string. -/
def readWord (s : Text) : Option (Text × Text) :=
  let s := s.dropWhile isSpace
  if s = [] then none
  else some (s.takeWhile fun c => !isSpace c, s.dropWhile fun c => !isSpace c)

/-- The digits of a Python number, with single underscores between them. -/
def pyDigits : Text → Option Text
  | [] => none
  | [d] => if d.isDigit then some [d] else none
  | d :: '_' :: ds => if d.isDigit then (pyDigits ds).map (d :: ·) else none
  | d :: ds => if d.isDigit then (pyDigits ds).map (d :: ·) else none

/-- Without the white space at both ends. -/
def strip (s : Text) : Text := ((s.dropWhile isSpace).reverse.dropWhile isSpace).reverse

/-- `int` of a string of ASCII characters; nothing when it raises. -/
def pyInt (s : Text) : Option ℤ :=
  let signed := cutSign (strip s)
  (pyDigits signed.2).map (signedValue signed.1)

/-! ## Digits -/

theorem isDigit_of_mem_natText {n : ℕ} {c : Char} (h : c ∈ natText n) : c.isDigit = true :=
  Nat.isDigit_of_mem_toDigits (by omega) (by omega) h

theorem natText_ne_nil (n : ℕ) : natText n ≠ [] := Nat.toDigits_ne_nil

theorem digitsValue_natText (n : ℕ) : digitsValue (natText n) = n := by
  have hfold : digitsValue (natText n) = Nat.ofDigitChars 10 (natText n) 0 :=
    Nat.ofDigitChars_eq_foldl.symm
  rw [hfold, natText, Nat.ofDigitChars_ten_toDigits]

theorem isSpace_of_isDigit {c : Char} (h : c.isDigit = true) : isSpace c = false := by
  simp only [isSpace, Bool.or_eq_false_iff, decide_eq_false_iff_not]
  refine ⟨⟨⟨⟨⟨?_, ?_⟩, ?_⟩, ?_⟩, ?_⟩, ?_⟩ <;> rintro rfl <;> simp at h

/-- A number is not followed by a digit. -/
def EndsNumber (rest : Text) : Prop := ∀ c ∈ rest.head?, c.isDigit = false

theorem takeWhile_natText_append (n : ℕ) {rest : Text} (h : EndsNumber rest) :
    (natText n ++ rest).takeWhile Char.isDigit = natText n := by
  rw [List.takeWhile_append_of_pos fun c hc => isDigit_of_mem_natText hc]
  cases rest with
  | nil => simp
  | cons c rest => simp [h c rfl]

theorem dropWhile_natText_append (n : ℕ) {rest : Text} (h : EndsNumber rest) :
    (natText n ++ rest).dropWhile Char.isDigit = rest := by
  rw [List.dropWhile_append_of_pos fun c hc => isDigit_of_mem_natText hc]
  cases rest with
  | nil => rfl
  | cons c rest => simp [h c rfl]

/-! ## Integers -/

/-- The first character of a written integer. -/
theorem exists_intText_eq (value : ℤ) : ∃ c t, intText value = c :: t ∧ isSpace c = false := by
  cases value with
  | ofNat n =>
    obtain ⟨c, t, hct⟩ := List.exists_cons_of_ne_nil (natText_ne_nil n)
    refine ⟨c, t, hct, isSpace_of_isDigit (isDigit_of_mem_natText (n := n) ?_)⟩
    rw [hct]
    exact List.mem_cons_self
  | negSucc n => exact ⟨'-', natText (n + 1), rfl, by decide⟩

/-- The last character of a written integer. -/
theorem exists_intText_concat (value : ℤ) :
    ∃ t c, intText value = t ++ [c] ∧ isSpace c = false := by
  have hnat : ∀ n, ∃ t c, natText n = t ++ [c] ∧ isSpace c = false := by
    intro n
    obtain ⟨t, c, htc⟩ := (List.eq_nil_or_concat (natText n)).resolve_left (natText_ne_nil n)
    refine ⟨t, c, htc.trans List.concat_eq_append, isSpace_of_isDigit ?_⟩
    apply isDigit_of_mem_natText (n := n)
    rw [htc, List.concat_eq_append]
    exact List.mem_append_right _ List.mem_cons_self
  cases value with
  | ofNat n => exact hnat n
  | negSucc n =>
    obtain ⟨t, c, htc, hc⟩ := hnat (n + 1)
    exact ⟨'-' :: t, c, congrArg ('-' :: ·) htc, hc⟩

/-- No blank in front of a written integer is skipped. -/
theorem dropWhile_intText_append (value : ℤ) (rest : Text) :
    (intText value ++ rest).dropWhile isSpace = intText value ++ rest := by
  obtain ⟨c, t, hct, hc⟩ := exists_intText_eq value
  rw [hct, List.cons_append, List.dropWhile_cons_of_neg (by rw [hc]; decide)]

/-- The sign and the digits of a written integer. -/
theorem cutSign_intText_append (value : ℤ) (rest : Text) :
    cutSign (intText value ++ rest) = (decide (value < 0), natText value.natAbs ++ rest) := by
  cases value with
  | ofNat n =>
    obtain ⟨c, t, hct⟩ := List.exists_cons_of_ne_nil (natText_ne_nil n)
    have hc : c.isDigit = true := by
      apply isDigit_of_mem_natText (n := n)
      rw [hct]
      exact List.mem_cons_self
    have hminus : c ≠ '-' := by rintro rfl; simp at hc
    have hplus : c ≠ '+' := by rintro rfl; simp at hc
    have hcut : cutSign (c :: (t ++ rest)) = (false, c :: (t ++ rest)) := by
      unfold cutSign
      split
      · next heq => exact absurd (List.cons.inj heq).1 hminus
      · next heq => exact absurd (List.cons.inj heq).1 hplus
      · rfl
    have hneg : decide (Int.ofNat n < 0) = false :=
      decide_eq_false (Int.not_lt.mpr (Int.natCast_nonneg n))
    rw [hneg]
    show cutSign (natText n ++ rest) = (false, natText n ++ rest)
    rw [hct, List.cons_append, hcut]
  | negSucc n =>
    have hneg : decide (Int.negSucc n < 0) = true := decide_eq_true (by omega)
    rw [hneg]
    rfl

theorem signedValue_natText (value : ℤ) :
    signedValue (decide (value < 0)) (natText value.natAbs) = value := by
  rw [signedValue, digitsValue_natText]
  by_cases h : value < 0
  · rw [if_pos (decide_eq_true h)]
    omega
  · rw [if_neg (by rw [decide_eq_false h]; decide)]
    omega

/-- **`operator>>` reads what is written**, and fails exactly when it is not an `int`. -/
theorem readInt_intText (value : ℤ) {rest : Text} (h : EndsNumber rest) :
    readInt (intText value ++ rest) = if FitsInt value then some (value, rest) else none := by
  unfold readInt
  rw [dropWhile_intText_append, cutSign_intText_append]
  dsimp only
  rw [takeWhile_natText_append _ h, dropWhile_natText_append _ h, signedValue_natText]
  simp only [ne_eq, natText_ne_nil, not_false_iff, true_and]

/-- The blanks in front of a number are skipped. -/
theorem readInt_space {c : Char} (h : isSpace c = true) (s : Text) :
    readInt (c :: s) = readInt s := by
  unfold readInt
  rw [List.dropWhile_cons_of_pos h]

/-- `std::stoi` does what `operator>>` does, and ignores what is left. -/
theorem stoi_eq_readInt (s : Text) : stoi s = (readInt s).map Prod.fst := by
  unfold stoi readInt
  dsimp only
  split
  · next heq =>
    have hdigits : (cutSign (s.dropWhile isSpace)).2.takeWhile Char.isDigit = [] := heq
    rw [hdigits, if_neg fun h => h.1 rfl]
    rfl
  · next d ds heq =>
    have hdigits : (cutSign (s.dropWhile isSpace)).2.takeWhile Char.isDigit = d :: ds := heq
    show (if FitsInt (signedValue (cutSign (s.dropWhile isSpace)).1 (d :: ds)) then
      some (signedValue (cutSign (s.dropWhile isSpace)).1 (d :: ds)) else none) = _
    rw [hdigits]
    by_cases hfit : FitsInt (signedValue (cutSign (s.dropWhile isSpace)).1 (d :: ds))
    · rw [if_pos hfit, if_pos ⟨List.cons_ne_nil d ds, hfit⟩]
      rfl
    · rw [if_neg hfit, if_neg fun h => hfit h.2]
      rfl

/-- **`std::stoi` reads what is written**, and throws exactly when it is not an `int`. -/
theorem stoi_intText (value : ℤ) {rest : Text} (h : EndsNumber rest) :
    stoi (intText value ++ rest) = if FitsInt value then some value else none := by
  rw [stoi_eq_readInt, readInt_intText value h]
  by_cases hfit : FitsInt value
  · rw [if_pos hfit, if_pos hfit]
    rfl
  · rw [if_neg hfit, if_neg hfit]
    rfl

theorem pyDigits_of_isDigit {digits : Text} (hne : digits ≠ [])
    (h : ∀ d ∈ digits, d.isDigit = true) : pyDigits digits = some digits := by
  fun_induction pyDigits digits with
  | case1 => exact absurd rfl hne
  | case2 d hd => rfl
  | case3 d hd => exact absurd (h d List.mem_cons_self) hd
  | case4 d ds hd ih =>
    have hunder := h '_' (List.mem_cons_of_mem _ List.mem_cons_self)
    simp at hunder
  | case5 d ds hd => exact absurd (h d List.mem_cons_self) hd
  | case6 d ds hnil hunder hd ih =>
    rw [ih hnil fun e he => h e (List.mem_cons_of_mem _ he)]
    rfl
  | case7 d ds hnil hunder hd => exact absurd (h d List.mem_cons_self) hd

/-- **`int` reads what is written.** -/
theorem pyInt_intText (value : ℤ) : pyInt (intText value) = some value := by
  have hstrip : strip (intText value) = intText value := by
    have hfront := dropWhile_intText_append value []
    rw [List.append_nil] at hfront
    obtain ⟨t, c, htc, hc⟩ := exists_intText_concat value
    rw [strip, hfront, htc, List.reverse_append, List.reverse_singleton, List.singleton_append,
      List.dropWhile_cons_of_neg (by rw [hc]; decide), List.reverse_cons, List.reverse_reverse]
  have hcut := cutSign_intText_append value []
  rw [List.append_nil, List.append_nil] at hcut
  rw [pyInt, hstrip, hcut]
  dsimp only
  rw [pyDigits_of_isDigit (natText_ne_nil _) fun d hd => isDigit_of_mem_natText hd,
    Option.map_some, signedValue_natText]

/-! ## Characters of a number -/

theorem mem_intText {value : ℤ} {c : Char} (h : c ∈ intText value) :
    c = '-' ∨ c.isDigit = true := by
  cases value with
  | ofNat n => exact .inr (isDigit_of_mem_natText h)
  | negSucc n => exact (List.mem_cons.mp h).imp_right isDigit_of_mem_natText

/-- No other character stands in a number. -/
theorem not_mem_intText (value : ℤ) {c : Char} (hminus : c ≠ '-') (hdigit : c.isDigit = false) :
    c ∉ intText value := by
  intro hc
  rcases mem_intText hc with rfl | hd
  · exact hminus rfl
  · rw [hdigit] at hd
    exact Bool.false_ne_true hd

end Opus
