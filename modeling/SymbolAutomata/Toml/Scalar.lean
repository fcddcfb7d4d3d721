/-
  SymbolAutomata/Toml/Scalar.lean
  ===============================
  **Strings, numbers, dates and times** of TOML.

  All readers take the text from where they start and give back what is left; a
  text that does not fit gives `none`.
-/
import SymbolAutomata.Pattern.Scan
import SymbolAutomata.Toml.Value

namespace SymbolAutomata.Toml

open Pattern (isHexDigit valueOf charOf?)

/-! ### Strings -/

/-- Whether a character may stand in strings and comments: no control character but the tab. -/
def isPrintable (c : Char) : Bool := c = '\t' || (0x20 ≤ c.toNat && c.toNat ≠ 0x7F)

def escapes : List (Char × Char) :=
  [('b', '\x08'), ('e', '\x1B'), ('t', '\t'), ('n', '\n'), ('f', '\x0C'), ('r', '\r'), ('"', '"'), ('\\', '\\')]

/-- The escapes that give the number of a character, with the digits they take. -/
def numberEscapes : List (Char × Nat) := [('x', 2), ('u', 4), ('U', 8)]

def readEscape : List Char → Option (Char × List Char)
  | [] => none
  | c :: rest =>
    match numberEscapes.lookup c with
    | some width =>
      let digits := rest.take width
      if digits.length = width && digits.all isHexDigit then
        (charOf? (valueOf 16 digits)).map fun d => (d, rest.drop width)
      else none
    | none => (escapes.lookup c).map fun d => (d, rest)

/-- Reads a string of one line with escapes, after its opening mark. -/
def readBasic : Nat → List Char → Option (List Char × List Char)
  | _, [] => none
  | _, '"' :: rest => some ([], rest)
  | 0, _ => none
  | fuel + 1, '\\' :: rest => do
    let (c, rest) ← readEscape rest
    let (cs, rest) ← readBasic fuel rest
    return (c :: cs, rest)
  | fuel + 1, c :: rest =>
    if isPrintable c then do
      let (cs, rest) ← readBasic fuel rest
      return (c :: cs, rest)
    else none

/-- Reads a string of one line without escapes, after its opening mark. -/
def readLiteral : List Char → Option (List Char × List Char)
  | [] => none
  | c :: rest =>
    if c = '\'' then some ([], rest)
    else if isPrintable c then do
      let (cs, rest) ← readLiteral rest
      return (c :: cs, rest)
    else none

/-- Whether blanks and at least one line end follow a backslash, and what comes after all blanks
    and line ends. -/
def skipFold (text : List Char) : Option (List Char) :=
  let isBlank (c : Char) := c = ' ' || c = '\t'
  let isSpace (c : Char) := isBlank c || c = '\n' || c = '\r'
  match text.dropWhile isBlank with
  | '\n' :: rest => some (rest.dropWhile isSpace)
  | '\r' :: '\n' :: rest => some (rest.dropWhile isSpace)
  | _ => none

/-- The end of a string of several lines: its three marks, with up to two more before them that
    belong to the string. -/
def closing? (mark : Char) (text : List Char) : Option (List Char × List Char) :=
  let marks := (text.takeWhile (· = mark)).length
  if marks < 3 then none
  else
    let own := Nat.min (marks - 3) 2
    some (List.replicate own mark, text.drop (own + 3))

/-- Reads a string of several lines, after its opening marks. -/
def readLines (mark : Char) : Nat → List Char → Option (List Char × List Char)
  | 0, _ => none
  | fuel + 1, text =>
    match closing? mark text, text with
    | some done, _ => some done
    | none, [] => none
    | none, '\\' :: rest =>
      if mark = '"' then
        match skipFold rest with
        | some rest => readLines mark fuel rest
        | none => do
          let (c, rest) ← readEscape rest
          let (cs, rest) ← readLines mark fuel rest
          return (c :: cs, rest)
      else do
        let (cs, rest) ← readLines mark fuel rest
        return ('\\' :: cs, rest)
    | none, '\r' :: '\n' :: rest => do
      let (cs, rest) ← readLines mark fuel rest
      return ('\r' :: '\n' :: cs, rest)
    | none, c :: rest =>
      if isPrintable c || c = '\n' then do
        let (cs, rest) ← readLines mark fuel rest
        return (c :: cs, rest)
      else none

/-- Drops the line end that directly follows the opening marks. -/
def dropFirstLineEnd : List Char → List Char
  | '\n' :: rest => rest
  | '\r' :: '\n' :: rest => rest
  | text => text

def readString : List Char → Option (List Char × List Char)
  | '"' :: '"' :: '"' :: rest => readLines '"' (rest.length + 1) (dropFirstLineEnd rest)
  | '\'' :: '\'' :: '\'' :: rest => readLines '\'' (rest.length + 1) (dropFirstLineEnd rest)
  | '"' :: rest => readBasic rest.length rest
  | '\'' :: rest => readLiteral rest
  | _ => none

/-! ### Numbers -/

/-- The digits of a text in which single low lines may stand between digits. -/
def ungroup (isDigit : Char → Bool) : List Char → Option (List Char)
  | [] => none
  | [c] => if isDigit c then some [c] else none
  | c :: '_' :: rest => if isDigit c then (ungroup isDigit rest).map (c :: ·) else none
  | c :: rest => if isDigit c then (ungroup isDigit rest).map (c :: ·) else none

/-- Digits of a whole number, with no zero in front. -/
def wholeDigits? (text : List Char) : Option (List Char) := do
  let digits ← ungroup Char.isDigit text
  if digits.length > 1 && digits.head? = some '0' then none else some digits

/-- A text without its sign, and whether the sign is a minus. -/
def unsign : List Char → Bool × List Char
  | '-' :: rest => (true, rest)
  | '+' :: rest => (false, rest)
  | text => (false, text)

def integer? (text : List Char) : Option Int := do
  let n : Int ← match text with
    | '0' :: 'x' :: rest => (ungroup isHexDigit rest).map fun ds => (valueOf 16 ds : Int)
    | '0' :: 'o' :: rest =>
      (ungroup (fun c => '0' ≤ c && c ≤ '7') rest).map fun ds => (valueOf 8 ds : Int)
    | '0' :: 'b' :: rest =>
      (ungroup (fun c => c = '0' || c = '1') rest).map fun ds => (valueOf 2 ds : Int)
    | text =>
      let (negative, rest) := unsign text
      (wholeDigits? rest).map fun ds =>
        if negative then -(valueOf 10 ds : Int) else (valueOf 10 ds : Int)
  if Text.least64 ≤ n && n ≤ Text.greatest64 then some n else none

/-- Whether a text is a number with a fraction or an exponent, or one that is no number. -/
def isFloat (text : List Char) : Bool :=
  let (_, body) := unsign text
  if body = "inf".toList || body = "nan".toList then true
  else
    let isExponent (c : Char) := c = 'e' || c = 'E'
    let mantissa := body.takeWhile fun c => !isExponent c
    let exponent := body.drop mantissa.length
    let whole := mantissa.takeWhile (· ≠ '.')
    let fraction := mantissa.drop whole.length
    let digits (ds : List Char) := (ungroup Char.isDigit ds).isSome
    (wholeDigits? whole).isSome && (fraction.isEmpty || digits (fraction.drop 1)) &&
      (exponent.isEmpty || digits (unsign (exponent.drop 1)).2) &&
      !(fraction.isEmpty && exponent.isEmpty)

/-! ### Dates and times -/

/-- Reads a number of exactly `width` digits between two bounds. -/
def readField (width lo hi : Nat) (text : List Char) : Option (Nat × List Char) :=
  let digits := text.take width
  let n := valueOf 10 digits
  if digits.length = width && digits.all Char.isDigit && lo ≤ n && n ≤ hi then
    some (n, text.drop width)
  else none

def daysIn (year month : Nat) : Nat :=
  if month = 2 then
    if year % 4 = 0 && (year % 100 ≠ 0 || year % 400 = 0) then 29 else 28
  else if [4, 6, 9, 11].contains month then 30
  else 31

def expect (c : Char) : List Char → Option (List Char)
  | d :: rest => if c = d then some rest else none
  | [] => none

def readDate (text : List Char) : Option (List Char) := do
  let (year, text) ← readField 4 0 9999 text
  let (month, text) ← readField 2 1 12 (← expect '-' text)
  let (_, text) ← readField 2 1 (daysIn year month) (← expect '-' text)
  return text

/-- Reads a time of day: hours and minutes, and perhaps seconds with a fraction. -/
def readTime (text : List Char) : Option (List Char) := do
  let (_, text) ← readField 2 0 23 text
  let (_, text) ← readField 2 0 59 (← expect ':' text)
  match text with
  | ':' :: rest =>
    let (_, text) ← readField 2 0 60 rest
    match text with
    | '.' :: rest =>
      let fraction := rest.takeWhile Char.isDigit
      if fraction.isEmpty then none else return rest.drop fraction.length
    | text => return text
  | text => return text

def readOffset : List Char → Option (List Char)
  | [] => some []
  | c :: rest =>
    if c = 'Z' || c = 'z' then some rest
    else if c = '+' || c = '-' then do
      let (_, rest) ← readField 2 0 23 rest
      let (_, rest) ← readField 2 0 59 (← expect ':' rest)
      return rest
    else none

def isDateTime (text : List Char) : Bool :=
  match readDate text with
  | some [] => true
  | some (c :: rest) =>
    (c = 'T' || c = 't' || c = ' ') && (readTime rest >>= readOffset) == some []
  | none => readTime text == some []

/-! ### Plain values -/

/-- Whether a character may be part of a number, a date or a word. -/
def isPlain (c : Char) : Bool := c.isAlphanum || "+-_.:".toList.contains c

/-- The characters of a plain value. A date may be followed by a blank and a time. -/
def plainText (text : List Char) : List Char :=
  let first := text.takeWhile isPlain
  match readDate first, text.drop first.length with
  | some [], ' ' :: d :: rest =>
    if d.isDigit then first ++ ' ' :: (d :: rest).takeWhile isPlain else first
  | _, _ => first

/-- The value that a plain text stands for. -/
def plainValue? (text : List Char) : Option Value :=
  if text = "true".toList then some (.boolean true)
  else if text = "false".toList then some (.boolean false)
  else
    match integer? text with
    | some n => some (.integer n)
    | none => if isFloat text || isDateTime text then some .other else none

end SymbolAutomata.Toml
