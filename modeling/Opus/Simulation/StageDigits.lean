import Opus.Simulation.SweepTopology

/-!
# The digits of topology ids

A decimal topology id has one digit for each pipeline stage. The scheduler encodes its stages with
a sum of powers, `issue_reconfig` takes an id apart by repeated division from the last stage, and
`has_stage_digit` divides until the digit of one stage is the last. The generator of the sweeps
writes the digits into a string and reads them back from a padded one.

## Main definitions

* `topoIdTrace`, `decodeTrace`, `stageDigitTrace`: the three loops with all the values they compute
* `hasStageDigit`: whether one of the topologies has a digit at a stage
* `topoIdText`, `digitsForTopoText`: the two functions of the generator, on strings
* `SchedulerEncodes`, `GeneratorEncodes`: what the encoders and decoders agree on

## Main results

* `topoIdTrace_spec`: the sum of powers is `topoIdFromStageState`, and its values have no more
  digits than there are stages
* `writeDigits_topoId`, `stageDigit_topoId`: the two decoders invert the encoder
* `topoIdText_eq`, `digitsForTopoText_eq`: the strings are those of `topoId` and `digitsForTopo`
* `encodes_digits`: they all agree, the generator from one stage on
-/

namespace Opus.Simulation

/-! ## The loops of the scheduler -/

/-- The inner loop of `topo_id_from_stage_state`: the value of `p` after some passes. -/
def placeValue : ℕ → ℕ
  | 0 => 1
  | j + 1 => placeValue j * 10

/-- The first passes of `topo_id_from_stage_state`: the id so far, and all values of `p`, all
products and all partial sums. -/
def topoIdPasses (stages : List ℕ) : ℕ → ℕ × List ℕ
  | 0 => (0, [])
  | i + 1 =>
    let (id, seen) := topoIdPasses stages i
    let term := stages.getD i 0 * placeValue (stages.length - 1 - i)
    (id + term,
      seen ++ (List.range (stages.length - 1 - i + 1)).map placeValue ++ [term, id + term])

/-- `topo_id_from_stage_state`, with its intermediate values. -/
def topoIdTrace (stages : List ℕ) : ℕ × List ℕ := topoIdPasses stages stages.length

/-- The values of the loop of `issue_reconfig`, which is `writeDigits`: the digits, and what is left
of the id. -/
def decodeTrace : ℕ → ℕ → List ℕ
  | 0, value => [value]
  | w + 1, value => value :: value % 10 :: decodeTrace w (value / 10)

/-- The loop of `has_stage_digit` over the stages behind `stage`. -/
def stageValue (value : ℕ) : ℕ → ℕ
  | 0 => value
  | i + 1 => stageValue value i / 10

/-- The digit that `has_stage_digit` inspects. -/
def stageDigit (ppStages stage value : ℕ) : ℕ := stageValue value (ppStages - 1 - stage) % 10

/-- The values of the loop of `has_stage_digit`, and the digit. -/
def stageDigitTrace (ppStages stage value : ℕ) : List ℕ :=
  (List.range (ppStages - 1 - stage + 1)).map (stageValue value) ++
    [stageDigit ppStages stage value]

/-- `has_stage_digit`: one of the topologies of the communicator has the digit at the stage. -/
def hasStageDigit (ppStages stage : ℕ) (topos : List ℕ) (digit : ℕ) : Bool :=
  topos.any fun topoId => stageDigit ppStages stage topoId = digit

/-! ## The strings of the generator -/

/-- `int` on a string of digits; the empty string is an error. -/
def intOfText (text : List Char) : Option ℕ :=
  if text ≠ [] ∧ text.all Char.isDigit then some (Nat.ofDigitChars 10 text 0) else none

/-- `str.zfill` on a string without a sign. -/
def zfill (width : ℕ) (text : List Char) : List Char :=
  List.replicate (width - text.length) '0' ++ text

/-- `topo_id`. -/
def topoIdText (digits : List ℕ) : Option ℕ := intOfText (digits.flatMap fun d => Nat.toDigits 10 d)

/-- `digits_for_topo`. -/
def digitsForTopoText (value pp : ℕ) : Option (List ℕ) :=
  (zfill pp (Nat.toDigits 10 value)).mapM fun ch => intOfText [ch]

/-! ## The sum of powers -/

theorem placeValue_eq (j : ℕ) : placeValue j = 10 ^ j := by
  induction j with
  | zero => rfl
  | succ j ih => rw [placeValue, ih, Nat.pow_succ]

theorem topoId_concat (b : ℕ) (stages : List ℕ) (d : ℕ) :
    topoIdFromStageState b (stages ++ [d]) = d + b * topoIdFromStageState b stages := by
  rw [topoIdFromStageState, List.reverse_append, List.reverse_singleton, List.singleton_append,
    Nat.ofDigits_cons, topoIdFromStageState]

/-- The digits of the passes made so far, at their places. -/
theorem topoIdPasses_fst (stages : List ℕ) {i : ℕ} (hi : i ≤ stages.length) :
    (topoIdPasses stages i).1 =
      topoIdFromStageState 10 (stages.take i) * 10 ^ (stages.length - i) := by
  induction i with
  | zero => simp [topoIdPasses, topoIdFromStageState]
  | succ i ih =>
    have hlt : i < stages.length := hi
    have htake : stages.take (i + 1) = stages.take i ++ [stages.getD i 0] := by
      rw [List.take_add_one, List.getD_eq_getElem?_getD, List.getElem?_eq_getElem hlt]
      rfl
    -- one more place: the places left shrink by one
    have hpow : 10 ^ (stages.length - i) = 10 ^ (stages.length - 1 - i) * 10 := by
      rw [← Nat.pow_succ]
      congr 1
      omega
    have hexp : stages.length - (i + 1) = stages.length - 1 - i := by omega
    simp only [topoIdPasses]
    rw [ih hlt.le, htake, topoId_concat, placeValue_eq, hpow, hexp]
    ring

theorem topoIdFromStageState_lt {stages : List ℕ} (h : ∀ d ∈ stages, d < 10) :
    topoIdFromStageState 10 stages < 10 ^ stages.length := by
  rw [← topoId_eq]
  exact topoId_lt h

theorem topoIdPasses_fst_lt {stages : List ℕ} (h : ∀ d ∈ stages, d < 10) {i : ℕ}
    (hi : i ≤ stages.length) : (topoIdPasses stages i).1 < 10 ^ stages.length := by
  have hlt := topoIdFromStageState_lt fun d hd => h d (List.mem_of_mem_take (i := i) hd)
  rw [List.length_take, Nat.min_eq_left hi] at hlt
  rw [topoIdPasses_fst stages hi]
  calc topoIdFromStageState 10 (stages.take i) * 10 ^ (stages.length - i)
      < 10 ^ i * 10 ^ (stages.length - i) :=
        Nat.mul_lt_mul_of_pos_right hlt (Nat.pow_pos (by norm_num))
    _ = 10 ^ stages.length := by rw [← Nat.pow_add, Nat.add_sub_cancel' hi]

/-- No value of the passes has more digits than there are stages. -/
theorem topoIdPasses_snd_lt {stages : List ℕ} (h : ∀ d ∈ stages, d < 10) {i : ℕ}
    (hi : i ≤ stages.length) : ∀ v ∈ (topoIdPasses stages i).2, v < 10 ^ stages.length := by
  induction i with
  | zero => exact fun v hv => absurd hv List.not_mem_nil
  | succ i ih =>
    have hlt : i < stages.length := hi
    have hid := topoIdPasses_fst_lt h hi
    simp only [topoIdPasses] at hid
    intro v hv
    simp only [topoIdPasses, List.mem_append, List.mem_map, List.mem_range, List.mem_cons,
      List.not_mem_nil, or_false] at hv
    rcases hv with (hv | ⟨j, hj, rfl⟩) | rfl | rfl
    · exact ih hlt.le v hv
    · rw [placeValue_eq]
      exact Nat.pow_lt_pow_right (by norm_num) (by omega)
    · omega
    · exact hid

/-- **The sum of powers is the id of the stages.** Its values stay below the power of ten with one
zero for each stage. -/
theorem topoIdTrace_spec {stages : List ℕ} (h : ∀ d ∈ stages, d < 10) :
    (topoIdTrace stages).1 = topoIdFromStageState 10 stages ∧
      ∀ v ∈ (topoIdTrace stages).2, v < 10 ^ stages.length := by
  refine ⟨?_, topoIdPasses_snd_lt h le_rfl⟩
  rw [topoIdTrace, topoIdPasses_fst stages le_rfl, List.take_length, Nat.sub_self, pow_zero,
    Nat.mul_one]

/-! ## The decoders -/

/-- The loop of `issue_reconfig` gives the stages back. -/
theorem writeDigits_topoId {stages : List ℕ} (h : ∀ d ∈ stages, d < 10) :
    writeDigits stages.length (topoIdFromStageState 10 stages) = stages := by
  induction stages using List.reverseRecOn with
  | nil => rfl
  | append_singleton stages d ih =>
    have hd : d < 10 := h d (by simp)
    have hrest := ih fun d' hd' => h d' (List.mem_append_left _ hd')
    rw [List.length_append, List.length_singleton, writeDigits, topoId_concat,
      Nat.add_mul_div_left _ _ (by norm_num), Nat.div_eq_of_lt hd, Nat.zero_add, hrest,
      Nat.add_mul_mod_self_left, Nat.mod_eq_of_lt hd]

theorem decodeTrace_le (w value : ℕ) : ∀ v ∈ decodeTrace w value, v ≤ value := by
  induction w generalizing value with
  | zero => simp [decodeTrace]
  | succ w ih =>
    intro v hv
    rcases List.mem_cons.mp hv with rfl | hv
    · exact le_rfl
    · rcases List.mem_cons.mp hv with rfl | hv
      · exact Nat.mod_le _ _
      · exact (ih (value / 10) v hv).trans (Nat.div_le_self _ _)

theorem stageValue_eq (value i : ℕ) : stageValue value i = value / 10 ^ i := by
  induction i with
  | zero => rw [stageValue, pow_zero, Nat.div_one]
  | succ i ih => rw [stageValue, ih, Nat.div_div_eq_div_mul, Nat.pow_succ]

/-- `has_stage_digit` inspects the entry of its stage. -/
theorem stageDigit_topoId {stages : List ℕ} (h : ∀ d ∈ stages, d < 10) {stage : ℕ}
    (hs : stage < stages.length) :
    stageDigit stages.length stage (topoIdFromStageState 10 stages) = stages[stage] := by
  induction stages using List.reverseRecOn with
  | nil => exact absurd hs (Nat.not_lt_zero _)
  | append_singleton stages d ih =>
    have hd : d < 10 := h d (by simp)
    rw [List.length_append, List.length_singleton] at hs
    simp only [stageDigit, stageValue_eq, topoId_concat, List.length_append,
      List.length_singleton, Nat.add_sub_cancel]
    rcases Nat.lt_succ_iff_lt_or_eq.mp hs with hlt | rfl
    · -- the first division drops the last digit
      have hsub : stages.length - stage = 1 + (stages.length - 1 - stage) := by omega
      have hrest := ih (fun d' hd' => h d' (List.mem_append_left _ hd')) hlt
      rw [stageDigit, stageValue_eq] at hrest
      rw [List.getElem_append_left hlt, ← hrest, hsub, Nat.pow_add, pow_one,
        ← Nat.div_div_eq_div_mul, Nat.add_mul_div_left _ _ (by norm_num), Nat.div_eq_of_lt hd,
        Nat.zero_add]
    · rw [List.getElem_concat_length rfl, Nat.sub_self, pow_zero, Nat.div_one,
        Nat.add_mul_mod_self_left, Nat.mod_eq_of_lt hd]

/-- A communicator with the topologies of some stage vectors has a digit at a stage exactly when one
of the vectors does. -/
theorem hasStageDigit_topoId {vectors : List (List ℕ)} {ppStages stage digit : ℕ}
    (h : ∀ stages ∈ vectors, stages.length = ppStages ∧ ∀ d ∈ stages, d < 10)
    (hs : stage < ppStages) :
    hasStageDigit ppStages stage (vectors.map (topoIdFromStageState 10)) digit = true ↔
      ∃ stages ∈ vectors, stages[stage]? = some digit := by
  simp only [hasStageDigit, List.any_map, List.any_eq_true, Function.comp_apply,
    decide_eq_true_eq]
  refine exists_congr fun stages => and_congr_right fun hmem => ?_
  obtain ⟨rfl, hlt⟩ := h stages hmem
  rw [stageDigit_topoId hlt hs, List.getElem?_eq_getElem hs, Option.some_inj]

theorem stageDigitTrace_le (ppStages stage value : ℕ) :
    ∀ v ∈ stageDigitTrace ppStages stage value, v ≤ value := by
  intro v hv
  rcases List.mem_append.mp hv with hv | hv
  · obtain ⟨i, -, rfl⟩ := List.mem_map.mp hv
    rw [stageValue_eq]
    exact Nat.div_le_self _ _
  · rw [List.mem_singleton.mp hv, stageDigit, stageValue_eq]
    exact (Nat.mod_le _ _).trans (Nat.div_le_self _ _)

/-! ## The strings -/

theorem intOfText_digitChar {d : ℕ} (hd : d < 10) : intOfText [d.digitChar] = some d := by
  rw [← Nat.toDigits_of_lt_base hd, intOfText, if_pos, Nat.ofDigitChars_ten_toDigits]
  refine ⟨Nat.toDigits_ne_nil, List.all_eq_true.mpr fun c hc => ?_⟩
  exact Nat.isDigit_of_mem_toDigits (by norm_num) (by norm_num) hc

theorem mapM_intOfText {digits : List ℕ} (h : ∀ d ∈ digits, d < 10) :
    ((digits.map Nat.digitChar).mapM fun ch => intOfText [ch]) = some digits := by
  induction digits with
  | nil => rfl
  | cons d digits ih =>
    rw [List.map_cons, List.mapM_cons, intOfText_digitChar (h d (by simp)),
      ih fun d' hd' => h d' (by simp [hd'])]
    rfl

/-- `str` writes the decimal digits. -/
theorem toDigits_eq_map (value : ℕ) :
    Nat.toDigits 10 value =
      (if value = 0 then [0] else (Nat.digits 10 value).reverse).map Nat.digitChar := by
  induction value using Nat.strongRecOn with
  | ind value ih =>
    by_cases hlt : value < 10
    · rw [Nat.toDigits_of_lt_base hlt]
      by_cases h0 : value = 0
      · subst h0
        rfl
      · rw [if_neg h0, Nat.digits_of_lt 10 value h0 hlt]
        rfl
    · have hge : 10 ≤ value := Nat.not_lt.mp hlt
      have hdiv : value / 10 ≠ 0 := by omega
      rw [Nat.toDigits_of_base_le (by norm_num) hge, ih (value / 10) (by omega), if_neg hdiv,
        if_neg (by omega), Nat.digits_def' (b := 10) (n := value) (by norm_num) (by omega),
        List.reverse_cons, List.map_append, List.map_singleton]

/-- The string of `digits_for_topo` has the digits of the id, with zeros in front. -/
theorem digitsForTopoText_eq (value pp : ℕ) :
    digitsForTopoText value pp = some (digitsForTopo value pp) := by
  have hpad : zfill pp (Nat.toDigits 10 value) = (digitsForTopo value pp).map Nat.digitChar := by
    rw [zfill, toDigits_eq_map, digitsForTopo, List.map_append, List.map_replicate,
      List.length_map]
    rfl
  rw [digitsForTopoText, hpad]
  apply mapM_intOfText
  intro d hd
  rcases List.mem_append.mp hd with hd | hd
  · rw [List.eq_of_mem_replicate hd]
    norm_num
  · split at hd
    · rw [List.mem_singleton.mp hd]
      norm_num
    · exact Nat.digits_lt_base (by norm_num) (List.mem_reverse.mp hd)

/-- The string of `topo_id` reads as the id. -/
theorem topoIdText_eq {digits : List ℕ} (hne : digits ≠ []) (h : ∀ d ∈ digits, d < 10) :
    topoIdText digits = some (topoId digits) := by
  have htext : (digits.flatMap fun d => Nat.toDigits 10 d) = digits.map Nat.digitChar := by
    rw [← List.flatMap_singleton' (digits.map _), List.flatMap_map]
    exact List.flatMap_congr fun d hd => Nat.toDigits_of_lt_base (h d hd)
  have hdigit : ∀ c ∈ digits.map Nat.digitChar, c.isDigit = true := by
    intro c hc
    obtain ⟨d, hd, rfl⟩ := List.mem_map.mp hc
    apply Nat.isDigit_of_mem_toDigits (b := 10) (n := d) (by norm_num) le_rfl
    rw [Nat.toDigits_of_lt_base (h d hd)]
    exact List.mem_singleton_self _
  have hvalue : ∀ (l : List ℕ) (init : ℕ), (∀ d ∈ l, d < 10) →
      Nat.ofDigitChars 10 (l.map Nat.digitChar) init = l.foldl (fun id d => 10 * id + d) init := by
    intro l
    induction l with
    | nil => exact fun _ _ => rfl
    | cons d l ih =>
      intro init hl
      rw [List.map_cons, Nat.ofDigitChars_cons_digitChar_of_lt_ten (hl d (by simp)),
        ih _ fun d' hd' => hl d' (by simp [hd']), List.foldl_cons]
  rw [topoIdText, htext, intOfText, if_pos ⟨by simpa using hne, List.all_eq_true.mpr hdigit⟩,
    hvalue digits 0 h, topoId]

/-! ## Agreement -/

/-- The loops of the scheduler on a stage vector. -/
structure SchedulerEncodes (digits : List ℕ) : Prop where
  /-- The loop of `issue_reconfig` decodes the id. -/
  decode : writeDigits digits.length (topoIdTrace digits).1 = digits
  /-- `has_stage_digit` inspects the entry of its stage. -/
  inspect : ∀ stage, ∀ hs : stage < digits.length,
    stageDigit digits.length stage (topoIdTrace digits).1 = digits[stage]
  /-- Up to nine stages no value of the three loops leaves the range of `int`. -/
  fits : digits.length ≤ 9 →
    ∀ v ∈ (topoIdTrace digits).2 ++ decodeTrace digits.length (topoIdTrace digits).1 ++
      (List.range digits.length).flatMap
        fun stage => stageDigitTrace digits.length stage (topoIdTrace digits).1,
      v ≤ 2147483647

/-- The generator writes the id of the scheduler, and reads the digits back from it. -/
structure GeneratorEncodes (digits : List ℕ) : Prop where
  topoId_eq : topoIdText digits = some (topoIdTrace digits).1
  digits_eq : digitsForTopoText (topoIdTrace digits).1 digits.length = some digits

theorem schedulerEncodes {digits : List ℕ} (h : ∀ d ∈ digits, d < 10) :
    SchedulerEncodes digits := by
  obtain ⟨hid, htrace⟩ := topoIdTrace_spec h
  refine ⟨?_, ?_, ?_⟩
  · rw [hid]
    exact writeDigits_topoId h
  · intro stage hs
    rw [hid]
    exact stageDigit_topoId h hs
  · intro hnine v hv
    have hpow : 10 ^ digits.length ≤ 10 ^ 9 := Nat.pow_le_pow_right (by norm_num) hnine
    have hidlt : (topoIdTrace digits).1 < 10 ^ digits.length := by
      rw [hid]
      exact topoIdFromStageState_lt h
    -- the encoder stays below the power, and the decoders below the id
    have hlt : v < 10 ^ digits.length := by
      rcases List.mem_append.mp hv with hv | hv
      · rcases List.mem_append.mp hv with hv | hv
        · exact htrace v hv
        · exact (decodeTrace_le _ _ v hv).trans_lt hidlt
      · obtain ⟨stage, -, hv⟩ := List.mem_flatMap.mp hv
        exact (stageDigitTrace_le _ _ _ v hv).trans_lt hidlt
    norm_num at hpow
    omega

theorem generatorEncodes {digits : List ℕ} (hne : digits ≠ []) (h : ∀ d ∈ digits, d < 10) :
    GeneratorEncodes digits := by
  obtain ⟨hid, -⟩ := topoIdTrace_spec h
  refine ⟨?_, ?_⟩
  · rw [topoIdText_eq hne h, topoId_eq, hid]
  · rw [hid, ← topoId_eq, digitsForTopoText_eq, digitsForTopo_topoId hne h]

/-- **The scheduler decodes its stages from their id, and the generator writes the same id** when
there is a stage. -/
theorem encodes_digits {digits : List ℕ} (h : ∀ d ∈ digits, d < 10) :
    SchedulerEncodes digits ∧ (digits ≠ [] → GeneratorEncodes digits) :=
  ⟨schedulerEncodes h, fun hne => generatorEncodes hne h⟩

theorem encodes_digits_leadingZero :
    SchedulerEncodes [0, 3, 1] ∧ ([0, 3, 1] ≠ [] → GeneratorEncodes [0, 3, 1]) :=
  encodes_digits (by decide)

/-- Without a stage, `topo_id` has no digits to read, and `digits_for_topo` finds one. -/
theorem not_generatorEncodes_nil :
    topoIdText [] = none ∧ digitsForTopoText (topoIdTrace []).1 0 = some [0] ∧
      ¬ ∀ digits : List ℕ, (∀ d ∈ digits, d < 10) →
        SchedulerEncodes digits ∧ GeneratorEncodes digits := by
  have hnone : topoIdText [] = none := by decide
  refine ⟨hnone, by decide, fun hall => ?_⟩
  have hwrites := (hall [] (by simp)).2.topoId_eq
  rw [hnone] at hwrites
  cases hwrites

end Opus.Simulation
