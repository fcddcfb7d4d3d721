/-
  SymbolAutomata/Pattern/Scan.lean
  ================================
  **Moving over the text of an expression.**

  In verbose mode blanks are skipped, and so are comments, which go from `#` to
  the end of the line. What a text may have wrong is one of `ExpressionFault`.
-/
import SymbolAutomata.Text.Blank
import SymbolAutomata.Text.Numeral

namespace SymbolAutomata.Pattern

open Text (isBlank)

/-! ### Faults -/

/-- Why a text is no expression. -/
inductive ExpressionFault where
  | unclosedGroup
  | unopenedGroup
  /-- The name of a group is missing, malformed or taken. -/
  | badGroupName
  /-- A group asks for the text before or after it. -/
  | lookaround
  /-- A flag is unknown, repeated or missing. -/
  | badFlag
  /-- A repetition has nothing to repeat. -/
  | nothingToRepeat
  /-- The bounds of a repetition are not closed. -/
  | unclosedCount
  /-- The bounds of a repetition are missing, too large or in reverse. -/
  | badCount
  | unclosedClass
  /-- A class holds something that is no character. -/
  | badClassItem
  /-- The ends of a class range are no characters or in reverse. -/
  | badRange
  /-- The text ends inside an escape. -/
  | unfinishedEscape
  | badEscape
  /-- An escape refers back to a group. -/
  | backreference
  /-- An escape by number names no character. -/
  | badNumber
  | unknownProperty
  | needsUnicode
  /-- A part could match bytes that are no characters. -/
  | notText
  | tooDeep
deriving DecidableEq

def ExpressionFault.message : ExpressionFault → String
  | unclosedGroup => "unclosed group"
  | unopenedGroup => "unopened group"
  | badGroupName => "bad group name"
  | lookaround => "look-around is not supported"
  | badFlag => "bad flag"
  | nothingToRepeat => "repetition operator missing expression"
  | unclosedCount => "unclosed repetition bounds"
  | badCount => "bad repetition bounds"
  | unclosedClass => "unclosed character class"
  | badClassItem => "bad item in character class"
  | badRange => "bad character class range"
  | unfinishedEscape => "unfinished escape"
  | badEscape => "unrecognized escape"
  | backreference => "backreferences are not supported"
  | badNumber => "number of no character"
  | unknownProperty => "unknown character property"
  | needsUnicode => "Unicode is needed here"
  | notText => "expression can match what is not text"
  | tooDeep => "nested too deeply"

/-! ### Blanks and comments -/

/-- Skips blanks and comments. `comment` says whether the text starts inside a comment. -/
def skipBlanks (comment : Bool) : List Char → List Char
  | [] => []
  | c :: rest =>
    if comment then skipBlanks (c ≠ '\n') rest
    else if isBlank c then skipBlanks false rest
    else if c = '#' then skipBlanks true rest
    else c :: rest

/-- Skips blanks and comments in verbose mode. -/
def settle (verbose : Bool) (text : List Char) : List Char :=
  if verbose then skipBlanks false text else text

/-- The character after blanks, seen from inside a class: blanks are skipped in verbose mode, and
    so is the sign that starts a comment, but not the comment. At the end of the text the first
    blank is seen again. -/
def peekBeyond (verbose : Bool) (text : List Char) : Option Char :=
  if verbose then
    match text.dropWhile isBlank with
    | '#' :: rest => ((rest.dropWhile isBlank).head?).or text.head?
    | rest => rest.head?.or text.head?
  else text.head?

/-- Takes up to `limit` characters that satisfy `p`; in verbose mode blanks and comments among
    them are skipped. -/
def collect (verbose : Bool) (p : Char → Bool) (comment : Bool) (limit : Nat) :
    List Char → List Char × List Char
  | [] => ([], [])
  | c :: rest =>
    if comment then collect verbose p (c ≠ '\n') limit rest
    else if verbose && isBlank c then collect verbose p false limit rest
    else if verbose && c = '#' then collect verbose p true limit rest
    else if limit = 0 || !p c then ([], c :: rest)
    else
      let (taken, left) := collect verbose p false (limit - 1) rest
      (c :: taken, left)

/-- Takes characters that satisfy `p`, as many as there are. -/
def collectAll (verbose : Bool) (p : Char → Bool) (text : List Char) : List Char × List Char :=
  collect verbose p false text.length text

/-! ### Numbers -/

/-- The value of a hexadecimal digit. -/
def hexDigit? (c : Char) : Option Nat :=
  if '0' ≤ c ∧ c ≤ '9' then some (c.toNat - 48)
  else if 'a' ≤ c ∧ c ≤ 'f' then some (c.toNat - 87)
  else if 'A' ≤ c ∧ c ≤ 'F' then some (c.toNat - 55)
  else none

def isHexDigit (c : Char) : Bool := (hexDigit? c).isSome

/-- The value of digits in the given base. -/
def valueOf (base : Nat) (digits : List Char) : Nat :=
  digits.foldl (fun n c => n * base + (hexDigit? c).getD 0) 0

/-- The character with the given number. -/
def charOf? (n : Nat) : Option Char := if n.isValidChar then some (Char.ofNat n) else none

/-- A decimal number below 2^32, with blanks around it. -/
def readCount (verbose : Bool) (text : List Char) : Except ExpressionFault (Nat × List Char) :=
  let (digits, rest) := collectAll verbose Char.isDigit (text.dropWhile isBlank)
  let n := valueOf 10 digits
  if digits.isEmpty || Text.natural32 < n then .error .badCount
  else .ok (n, settle verbose (rest.dropWhile isBlank))

end SymbolAutomata.Pattern
