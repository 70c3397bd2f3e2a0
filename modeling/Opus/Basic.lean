import Mathlib.Data.Int.Notation
import Mathlib.Data.Nat.Notation

/-!
# Constants, identifiers and text shared by the shim, the controller and the schedule compiler
-/

namespace Opus

/-- The width of one peer's share of the counter space of a pipeline backend. -/
def PP_INTERVAL : ℕ := 1000000

/-- The width of one pipeline group's share of the controller's backend ids. -/
def PP_BACKEND_INTERVAL : ℕ := 10

/-- A communicator id: the number whose hexadecimal digits are sent on the wire. -/
abbrev HexId := ℕ

/-- The two kinds of scale-out traffic. -/
inductive Kind where
  | PP
  | DP
  deriving DecidableEq, Repr

/-- The line `CONFIG_REQ;<hexId>,<backend>,<counter>`. -/
structure ConfigReq where
  hexId : HexId
  backend : ℕ
  counter : ℕ
  deriving DecidableEq, Repr

/-! ## Lines of text -/

/-- A line or a part of one. -/
abbrev Text := List Char

/-- The white space that `std::stoi` skips. -/
def isSpace (c : Char) : Bool :=
  c = ' ' || c = '\t' || c = '\n' || c = '\x0b' || c = '\x0c' || c = '\r'

/-- The value of decimal digits. -/
def digitsValue (digits : Text) : ℕ :=
  digits.foldl (fun n d => 10 * n + (d.toNat - '0'.toNat)) 0

/-- `std::stoi`: nothing when it throws, because there is no number or because the number is not an
`int`. -/
def stoi (s : Text) : Option ℤ :=
  let s := s.dropWhile isSpace
  let signed : Bool × Text :=
    match s with
    | '-' :: t => (true, t)
    | '+' :: t => (false, t)
    | t => (false, t)
  match signed.2.takeWhile Char.isDigit with
  | [] => none
  | d :: ds =>
    let n : ℤ := digitsValue (d :: ds)
    let value := if signed.1 then -n else n
    if -2147483648 ≤ value ∧ value ≤ 2147483647 then some value else none

/-- What stands before the first separator; all of the text when there is none. -/
def before (sep : Char) (s : Text) : Text := s.takeWhile (· ≠ sep)

/-- What stands behind the first separator; nothing when there is none. -/
def behind (sep : Char) (s : Text) : Text := (s.dropWhile (· ≠ sep)).drop 1

end Opus
