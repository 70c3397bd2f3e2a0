import Opus.Controller.HandleClient
import Opus.Controller.ProcessLine
import Opus.Numbers
import Opus.Shim.AckWait

/-!
# Messages on the wire

The shim names a communicator by the hexadecimal digits of the first bytes of its unique id, and
sends check-ins and requests as lines of text. The controller cuts what it receives into lines and
reads their fields, and answers with lines that the waits of the shim look for.

## Main definitions

* `bytesToHex`, `CommId.hexId`: the name of a communicator
* `Request`, `Request.line`: the messages of the shim and their lines
* `understand`: what the controller reads in a line
* `Answer`, `Answer.line`: the messages of the controller and their lines
* `Await.ending`: which messages are to end which waits

## Main results

* `hexId_injective`: different communicators have different names
* `processLine_congr`: what a line does depends on what the controller reads in it
* `understand_segmentation`: the controller reads the messages that were sent, in any segmentation
* `ending_line`: a line ends the waits that its message is to end
-/

namespace Opus

/-! ## Names of communicators -/

/-- The first bytes of the unique id of a communicator. -/
abbrev CommId := Vector UInt8 32

def hexDigit (n : ℕ) : Char := "0123456789ABCDEF".toList.getD n '0'

def bytesToHex (data : List UInt8) : Text :=
  data.flatMap fun (c : UInt8) => [hexDigit (c >>> 4).toNat, hexDigit (c &&& 0xF).toNat]

def CommId.hexId (id : CommId) : Text := bytesToHex id.toList

/-- The two digits of a byte. -/
theorem byte_digits (c : UInt8) : (c >>> 4).toNat < 16 ∧ (c &&& 0xF).toNat < 16 ∧
    16 * (c >>> 4).toNat + (c &&& 0xF).toNat = c.toNat := by
  have hlt := c.toNat_lt
  have hand : (c &&& 0xF).toNat = c.toNat % 16 := by
    rw [UInt8.toNat_and]
    exact Nat.and_two_pow_sub_one_eq_mod c.toNat 4
  have hshift : (c >>> 4).toNat = c.toNat / 16 := by
    rw [UInt8.toNat_shiftRight]
    exact Nat.shiftRight_eq_div_pow c.toNat 4
  omega

theorem hexDigit_inj : ∀ m < 16, ∀ n < 16, hexDigit m = hexDigit n → m = n := by decide

/-- The digits of a byte determine it. -/
theorem byte_ext {c d : UInt8} (hhigh : hexDigit (c >>> 4).toNat = hexDigit (d >>> 4).toNat)
    (hlow : hexDigit (c &&& 0xF).toNat = hexDigit (d &&& 0xF).toNat) : c = d := by
  obtain ⟨hc, hc', hsum⟩ := byte_digits c
  obtain ⟨hd, hd', hsum'⟩ := byte_digits d
  have hhigh := hexDigit_inj _ hc _ hd hhigh
  have hlow := hexDigit_inj _ hc' _ hd' hlow
  apply UInt8.toNat_inj.mp
  omega

theorem bytesToHex_injective : Function.Injective bytesToHex := by
  intro cs
  induction cs with
  | nil =>
    intro ds h
    cases ds with
    | nil => rfl
    | cons d ds => simp [bytesToHex] at h
  | cons c cs ih =>
    intro ds h
    cases ds with
    | nil => simp [bytesToHex] at h
    | cons d ds =>
      simp only [bytesToHex, List.flatMap_cons, List.cons_append, List.nil_append,
        List.cons.injEq] at h
      rw [byte_ext h.1 h.2.1, ih h.2.2]

/-- **Different communicators have different names.** -/
theorem hexId_injective : Function.Injective CommId.hexId := by
  intro id id' h
  apply Vector.toList_inj.mp
  exact bytesToHex_injective h

/-- The name of a communicator has only digits. -/
theorem mem_hexId {id : CommId} {c : Char} (h : c ∈ id.hexId) :
    c ∈ "0123456789ABCDEF".toList := by
  have hdigit : ∀ n < 16, hexDigit n ∈ "0123456789ABCDEF".toList := by decide
  obtain ⟨b, -, hb⟩ := List.mem_flatMap.mp h
  obtain ⟨hhigh, hlow, -⟩ := byte_digits b
  rcases List.mem_cons.mp hb with rfl | hb
  · exact hdigit _ hhigh
  · rw [List.mem_singleton.mp hb]
    exact hdigit _ hlow

/-! ## Requests -/

/-- A message of the shim about the communicator `id`. -/
inductive Request (ι : Type) where
  /-- `checkin` -/
  | comm (id : ι) (size localRank : ℤ)
  /-- `topowrite`, `topoprovision` and `send_scheduled_transition` -/
  | configReq (id : ι) (backend counter : ℤ)
  deriving DecidableEq, Repr

namespace Request

/-- The message with the communicator under another name. -/
def map {ι κ : Type} (f : ι → κ) : Request ι → Request κ
  | comm id size localRank => comm (f id) size localRank
  | configReq id backend counter => configReq (f id) backend counter

/-- The numbers of the message are `int`s. -/
def Fits {ι : Type} : Request ι → Prop
  | comm _ size localRank => FitsInt size ∧ FitsInt localRank
  | configReq _ backend counter => FitsInt backend ∧ FitsInt counter

instance {ι : Type} : DecidablePred (Fits : Request ι → Prop)
  | comm _ _ _ => inferInstanceAs (Decidable (_ ∧ _))
  | configReq _ _ _ => inferInstanceAs (Decidable (_ ∧ _))

/-- The message without the newline at its end. -/
def line : Request CommId → Text
  | comm id size localRank =>
    "COMM;".toList ++ id.hexId ++ ',' :: intText size ++ ',' :: intText localRank
  | configReq id backend counter =>
    "CONFIG_REQ;".toList ++ id.hexId ++ ',' :: intText backend ++ ',' :: intText counter

end Request

/-- What the controller reads in a line: the fields of a handler, with `std::stoi` of the last
two. -/
def understand (line : Text) : Option (Request Text) :=
  match parseLine line with
  | .ignored => none
  | .comm hexId nranks localRank => do
    let nranks ← stoi nranks
    let localRank ← stoi localRank
    return .comm hexId nranks localRank
  | .configReq hexId backendId counter => do
    let backendId ← stoi backendId
    let counter ← stoi counter
    return .configReq hexId backendId counter

theorem understand_comm {line hexId : Text} {size localRank : ℤ}
    (h : understand line = some (.comm hexId size localRank)) :
    ∃ nranks rank, parseLine line = .comm hexId nranks rank ∧ stoi nranks = some size ∧
      stoi rank = some localRank := by
  unfold understand at h
  cases hp : parseLine line with
  | ignored => simp [hp] at h
  | comm hexId' nranks rank =>
    simp [hp, Option.bind_eq_some_iff] at h
    obtain ⟨hn, hr, rfl⟩ := h
    exact ⟨nranks, rank, rfl, hn, hr⟩
  | configReq hexId' backendId counter => simp [hp, Option.bind_eq_some_iff] at h

theorem understand_configReq {line hexId : Text} {backend counter : ℤ}
    (h : understand line = some (.configReq hexId backend counter)) :
    ∃ backendId cnt, parseLine line = .configReq hexId backendId cnt ∧
      stoi backendId = some backend ∧ stoi cnt = some counter := by
  unfold understand at h
  cases hp : parseLine line with
  | ignored => simp [hp] at h
  | comm hexId' nranks rank => simp [hp, Option.bind_eq_some_iff] at h
  | configReq hexId' backendId cnt =>
    simp [hp, Option.bind_eq_some_iff] at h
    obtain ⟨hb, hc, rfl⟩ := h
    exact ⟨backendId, cnt, rfl, hb, hc⟩

/-- **What a line does depends on what the controller reads in it.** -/
theorem processLine_congr {line line' : Text} {request : Request Text}
    (h : understand line = some request) (h' : understand line' = some request)
    (cfg : CheckInConfig) (s : ControlMaps) (client : Client) :
    processLine cfg s client line = processLine cfg s client line' := by
  cases request with
  | comm hexId size localRank =>
    obtain ⟨nranks, rank, hp, hn, hr⟩ := understand_comm h
    obtain ⟨nranks', rank', hp', hn', hr'⟩ := understand_comm h'
    rw [processLine, processLine, hp, hp']
    simp only [handleCommLine, hn, hr, hn', hr']
  | configReq hexId backend counter =>
    obtain ⟨backendId, cnt, hp, hb, hc⟩ := understand_configReq h
    obtain ⟨backendId', cnt', hp', hb', hc'⟩ := understand_configReq h'
    rw [processLine, processLine, hp, hp']
    simp only [handleConfigReqLine, hb, hc, hb', hc']

/-- What stands before the first separator. -/
theorem cutAt_append {sep : Char} {s : Text} (h : sep ∉ s) (t : Text) :
    cutAt sep (s ++ sep :: t) = some (s, t) := by
  have hs : ∀ c ∈ s, decide (c ≠ sep) = true := fun c hc =>
    decide_eq_true fun he => h (he ▸ hc)
  rw [cutAt, if_pos (List.mem_append_right s List.mem_cons_self), before, behind,
    List.takeWhile_append_of_pos hs, List.dropWhile_append_of_pos hs]
  simp

theorem not_mem_hexId (id : CommId) : ',' ∉ id.hexId ∧ ';' ∉ id.hexId ∧ '\n' ∉ id.hexId := by
  refine ⟨fun h => ?_, fun h => ?_, fun h => ?_⟩ <;> exact absurd (mem_hexId h) (by decide)

/-- The fields of a message. -/
theorem splitFields_line (id : CommId) (m n : ℤ) :
    splitFields (id.hexId ++ ',' :: (intText m ++ ',' :: intText n)) =
      some (id.hexId, intText m, intText n) := by
  rw [splitFields, cutAt_append (not_mem_hexId id).1, Option.bind_some,
    cutAt_append (not_mem_intText m (by decide) rfl)]
  rfl

/-- A number at the end of a line. -/
theorem stoi_intText_end {value : ℤ} (h : FitsInt value) : stoi (intText value) = some value := by
  have hend : EndsNumber [] := by
    intro c hc
    exact absurd hc (by simp)
  have hread := stoi_intText value hend
  rwa [List.append_nil, if_pos h] at hread

/-- The header of a message. -/
theorem parseLine_append {header : Text} (h : ';' ∉ header) (id : CommId) (m n : ℤ) :
    parseLine (header ++ ';' :: (id.hexId ++ ',' :: (intText m ++ ',' :: intText n))) =
      if header = "COMM".toList then .comm id.hexId (intText m) (intText n)
      else if header = "CONFIG_REQ".toList then .configReq id.hexId (intText m) (intText n)
      else .ignored := by
  rw [parseLine, cutAt_append h]
  simp only [Option.getD_some, splitFields_line]

theorem Request.line_comm (id : CommId) (size localRank : ℤ) :
    (Request.comm id size localRank).line =
      "COMM".toList ++ ';' :: (id.hexId ++ ',' :: (intText size ++ ',' :: intText localRank)) := by
  have hheader : "COMM;".toList = "COMM".toList ++ [';'] := by decide
  show "COMM;".toList ++ id.hexId ++ ',' :: intText size ++ ',' :: intText localRank = _
  rw [hheader, List.append_assoc, List.append_assoc, List.append_assoc]
  rfl

theorem Request.line_configReq (id : CommId) (backend counter : ℤ) :
    (Request.configReq id backend counter).line = "CONFIG_REQ".toList ++
      ';' :: (id.hexId ++ ',' :: (intText backend ++ ',' :: intText counter)) := by
  have hheader : "CONFIG_REQ;".toList = "CONFIG_REQ".toList ++ [';'] := by decide
  show "CONFIG_REQ;".toList ++ id.hexId ++ ',' :: intText backend ++ ',' :: intText counter = _
  rw [hheader, List.append_assoc, List.append_assoc, List.append_assoc]
  rfl

/-- The controller reads a message of the shim. -/
theorem understand_line {m : Request CommId} (h : m.Fits) :
    understand m.line = some (m.map CommId.hexId) := by
  cases m with
  | comm id size localRank =>
    rw [understand, Request.line_comm, parseLine_append (by decide), if_pos rfl]
    simp only [stoi_intText_end h.1, stoi_intText_end h.2]
    rfl
  | configReq id backend counter =>
    rw [understand, Request.line_configReq, parseLine_append (by decide), if_neg (by decide),
      if_pos rfl]
    simp only [stoi_intText_end h.1, stoi_intText_end h.2]
    rfl

/-- The characters of a message. -/
theorem not_mem_line (m : Request CommId) {c : Char} (hdigit : c.isDigit = false)
    (h : c ∉ "COMM;CONFIG_REQ,-0123456789ABCDEF".toList) : c ∉ m.line := by
  have hheader : ∀ header ⊆ "COMM;CONFIG_REQ,-0123456789ABCDEF".toList, c ∉ header :=
    fun header hsub hc => h (hsub hc)
  have hid : ∀ id : CommId, c ∉ id.hexId :=
    fun id => hheader id.hexId fun d hd => List.subset_def.mp (by decide) (mem_hexId hd)
  have hnumber : ∀ value : ℤ, c ∉ intText value :=
    fun value => not_mem_intText value (fun he => h (he ▸ by decide)) hdigit
  have hsemi : c ≠ ';' := fun he => h (he ▸ by decide)
  have hcomma : c ≠ ',' := fun he => h (he ▸ by decide)
  cases m with
  | comm id size localRank =>
    rw [Request.line_comm]
    simp only [List.mem_append, List.mem_cons, not_or]
    exact ⟨hheader _ (by decide), hsemi, hid id, hcomma, hnumber size, hcomma, hnumber localRank⟩
  | configReq id backend counter =>
    rw [Request.line_configReq]
    simp only [List.mem_append, List.mem_cons, not_or]
    exact ⟨hheader _ (by decide), hsemi, hid id, hcomma, hnumber backend, hcomma, hnumber counter⟩

/-- A message has no carriage return to drop. -/
theorem dropCarriageReturn_line (m : Request CommId) : dropCarriageReturn m.line = m.line := by
  apply if_neg
  intro hlast
  exact not_mem_line m (by rfl) (by decide) (List.mem_of_getLast? hlast)

/-- **The controller reads the messages that were sent**, however the stream is divided. -/
theorem understand_segmentation {ms : List (Request CommId)} (hfit : ∀ m ∈ ms, m.Fits)
    {rs : List ReadResult} (hrs : Reads (Lines.join '\n' (ms.map Request.line)) rs) :
    (handleClient [] rs).map understand = ms.map fun m => some (m.map CommId.hexId) := by
  have hsplit : Lines.split '\n' (Lines.join '\n' (ms.map Request.line)) =
      (ms.map Request.line, []) := by
    apply Lines.split_join
    intro line hline
    obtain ⟨m, -, rfl⟩ := List.mem_map.mp hline
    exact not_mem_line m (by rfl) (by decide)
  have hlines := @handleClient_of_reads rs hrs.1 [] (fun _ => rfl) [] rfl
  rw [List.append_nil, List.nil_append, hrs.2, hsplit] at hlines
  rw [hlines, List.map_map, List.map_map]
  apply List.map_congr_left
  intro m hm
  rw [Function.comp_apply, Function.comp_apply, dropCarriageReturn_line, understand_line (hfit m hm)]

/-- A check-in and a request, cut in the middle of the name. -/
def twoRequests : List (Request CommId) :=
  [.comm (Vector.replicate 32 17) 2 0, .configReq (Vector.replicate 32 17) 11 1000003]

theorem understand_segmentation_twoRequests :
    (handleClient []
        [.bytes ((Lines.join '\n' (twoRequests.map Request.line)).take 90), .interrupted,
          .bytes ((Lines.join '\n' (twoRequests.map Request.line)).drop 90)]).map understand =
      twoRequests.map fun m => some (m.map CommId.hexId) :=
  understand_segmentation (by decide) (by decide +kernel)

/-! ## Answers -/

/-- A message of the controller about the communicator `id`. -/
inductive Answer where
  | checkin (id : CommId) (domain : ℤ)
  | config (id : CommId)
  deriving DecidableEq, Repr

/-- The domain of the message is an `int`. -/
def Answer.Fits : Answer → Prop
  | .checkin _ domain => FitsInt domain
  | .config _ => True

instance : DecidablePred Answer.Fits
  | .checkin _ domain => inferInstanceAs (Decidable (FitsInt domain))
  | .config _ => inferInstanceAs (Decidable True)

/-- The message without the newline at its end. -/
def Answer.line : Answer → Text
  | .checkin id domain => "CHECKIN_ACK;".toList ++ id.hexId ++ ',' :: intText domain
  | .config id => "CONFIG_ACK;".toList ++ id.hexId

/-- The functions of the shim that wait for an answer. -/
inductive Await where
  | checkin
  | topo
  | scheduled
  deriving DecidableEq, Repr

/-- The wait for a communicator. -/
def Await.wait (await : Await) (id : CommId) : AckWait :=
  match await with
  | .checkin => .checkin id.hexId
  | .topo => .topo id.hexId
  | .scheduled => .scheduled id.hexId

/-- How an answer is to end a wait for the communicator `id`. A check-in ends at the first answer to
a check-in, the others at the first answer to a request for their communicator. -/
def Await.ending (await : Await) (id : CommId) (answer : Answer) : Option Ending :=
  match await, answer with
  | .checkin, .checkin id' domain => some (if id' = id then .checkedIn domain else .hexIdMismatch)
  | .checkin, .config _ => none
  | .topo, .config id' | .scheduled, .config id' => if id' = id then some .acknowledged else none
  | .topo, .checkin _ _ | .scheduled, .checkin _ _ => none

theorem before_append {sep : Char} {s : Text} (h : sep ∉ s) (t : Text) :
    before sep (s ++ sep :: t) = s ∧ behind sep (s ++ sep :: t) = t := by
  have hcut := cutAt_append h t
  rw [cutAt, if_pos (List.mem_append_right s List.mem_cons_self)] at hcut
  exact Prod.mk.inj (Option.some.inj hcut)

theorem Answer.line_checkin (id : CommId) (domain : ℤ) :
    (Answer.checkin id domain).line = checkinAck ++ ';' :: (id.hexId ++ ',' :: intText domain) := by
  have hheader : "CHECKIN_ACK;".toList = checkinAck ++ [';'] := by decide
  show "CHECKIN_ACK;".toList ++ id.hexId ++ ',' :: intText domain = _
  rw [hheader, List.append_assoc, List.append_assoc]
  rfl

theorem Answer.line_config (id : CommId) :
    (Answer.config id).line = configAck ++ ';' :: id.hexId := by
  have hheader : "CONFIG_ACK;".toList = configAck ++ [';'] := by decide
  show "CONFIG_ACK;".toList ++ id.hexId = _
  rw [hheader, List.append_assoc]
  rfl

/-- **The line of an answer ends a wait as the answer does.** -/
theorem ending_line (await : Await) (id : CommId) {answer : Answer} (h : answer.Fits) :
    (await.wait id).ending answer.line = await.ending id answer := by
  have hname : ∀ id' : CommId, id'.hexId = id.hexId ↔ id' = id := fun id' => hexId_injective.eq_iff
  have hheaders : checkinAck ≠ configAck := by decide
  cases answer with
  | checkin id' domain =>
    obtain ⟨hhdr, hbody⟩ := @before_append ';' checkinAck (by decide)
      (id'.hexId ++ ',' :: intText domain)
    obtain ⟨hreceived, hdomain⟩ := before_append (not_mem_hexId id').1 (intText domain)
    rw [Answer.line_checkin]
    cases await with
    | checkin =>
      simp only [Await.wait, AckWait.ending, Await.ending, hhdr, hbody, hreceived, hdomain, hname,
        if_true, List.mem_append, List.mem_cons, true_or, or_true, stoi_intText_end h]
      split <;> rfl
    | topo =>
      simp only [Await.wait, AckWait.ending, Await.ending, hhdr, hheaders, false_and, if_false]
    | scheduled =>
      have hne : checkinAck ++ ';' :: (id'.hexId ++ ',' :: intText domain) ≠
          configAck ++ ';' :: id.hexId := by
        intro heq
        rw [heq, (@before_append ';' configAck (by decide) id.hexId).1] at hhdr
        exact hheaders hhdr.symm
      simp only [Await.wait, AckWait.ending, Await.ending, hne, if_false]
  | config id' =>
    obtain ⟨hhdr, hbody⟩ := @before_append ';' configAck (by decide) id'.hexId
    rw [Answer.line_config]
    cases await with
    | checkin =>
      simp only [Await.wait, AckWait.ending, Await.ending, hhdr, hheaders.symm, if_false]
    | topo =>
      simp only [Await.wait, AckWait.ending, Await.ending, hhdr, hbody, hname, true_and]
    | scheduled =>
      simp only [Await.wait, AckWait.ending, Await.ending, List.append_cancel_left_eq,
        List.cons.injEq, true_and, hname]

/-- A message of the controller is one line. -/
theorem Answer.not_mem_line (answer : Answer) : '\n' ∉ answer.line := by
  cases answer with
  | checkin id domain =>
    rw [Answer.line_checkin]
    simp only [List.mem_append, List.mem_cons, not_or]
    exact ⟨by decide, by decide, (not_mem_hexId id).2.2, by decide,
      not_mem_intText domain (by decide) rfl⟩
  | config id =>
    rw [Answer.line_config]
    simp only [List.mem_append, List.mem_cons, not_or]
    exact ⟨by decide, by decide, (not_mem_hexId id).2.2⟩

end Opus
