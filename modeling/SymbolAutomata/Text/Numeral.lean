/-
  SymbolAutomata/Text/Numeral.lean
  ================================
  **Numerals**: bounded decimal integers and hexadecimal digits.

  A decimal integer is an optional sign followed by one or more digits. Reading
  goes from the left and stops at the first fault: a character that is no digit
  wins over a value that is out of bounds only if it comes before the digit that
  leaves the bounds.
-/

namespace SymbolAutomata.Text

/-! ### Bounds -/

/-- The least and the greatest integer of 32 bits. -/
def least32 : Int := -2147483648

def greatest32 : Int := 2147483647

/-- The least and the greatest integer of 64 bits. -/
def least64 : Int := -9223372036854775808

def greatest64 : Int := 9223372036854775807

def natural32 : Nat := 4294967295

/-! ### Decimal integers -/

/-- Why a text is not an integer within the bounds. -/
inductive NumeralFault where
  | empty
  | badDigit
  | tooLarge
  | tooSmall
deriving DecidableEq

def NumeralFault.message : NumeralFault → String
  | .empty => "cannot parse integer from empty string"
  | .badDigit => "invalid digit found in string"
  | .tooLarge => "number too large to fit in target type"
  | .tooSmall => "number too small to fit in target type"

def digit? (c : Char) : Option Nat :=
  if '0' ≤ c ∧ c ≤ '9' then some (c.toNat - '0'.toNat) else none

/-- Reads digits on top of the value `n`, none of the values on the way above `hi`. -/
def readUp (hi : Int) (n : Int) : List Char → Except NumeralFault Int
  | [] => .ok n
  | c :: rest =>
    match digit? c with
    | none => .error .badDigit
    | some d => if n * 10 + d ≤ hi then readUp hi (n * 10 + d) rest else .error .tooLarge

/-- Reads digits below the value `n`, none of the values on the way below `lo`. -/
def readDown (lo : Int) (n : Int) : List Char → Except NumeralFault Int
  | [] => .ok n
  | c :: rest =>
    match digit? c with
    | none => .error .badDigit
    | some d => if lo ≤ n * 10 - d then readDown lo (n * 10 - d) rest else .error .tooSmall

/-- Reads a decimal integer in `[lo, hi]`. A sign without a digit is a bad digit. -/
def readInt (lo hi : Int) : List Char → Except NumeralFault Int
  | [] => .error .empty
  | ['+'] => .error .badDigit
  | ['-'] => .error .badDigit
  | '+' :: digits => readUp hi 0 digits
  | '-' :: digits => readDown lo 0 digits
  | digits => readUp hi 0 digits

/-- Reads a symbol: a decimal integer of 32 bits. -/
def readSymbol (text : List Char) : Except NumeralFault Int :=
  readInt least32 greatest32 text

/-! ### Hexadecimal digits -/

/-- Digits of a number in base 16 with the given digit characters, at least `width` of them. -/
def hexDigits (digits : List Char) (width n : Nat) : String :=
  let shown := (Nat.toDigits 16 n).map fun c => digits.getD ("0123456789abcdef".toList.idxOf c) c
  String.ofList (List.replicate (width - shown.length) '0' ++ shown)

def hexLower (width n : Nat) : String := hexDigits "0123456789abcdef".toList width n

def hexUpper (width n : Nat) : String := hexDigits "0123456789ABCDEF".toList width n

end SymbolAutomata.Text
