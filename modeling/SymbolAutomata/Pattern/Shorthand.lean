/-
  SymbolAutomata/Pattern/Shorthand.lean
  =====================================
  **The shorthand for symbols in patterns.**

  A pattern is a regular expression in which a decimal digit stands for the symbol
  of that value and `<n>` for the symbol `n`. `expand` writes both out as escapes
  by codepoint and copies everything else: repetition bounds from a brace to the
  closing brace, a backslash together with the character after it, and any other
  character by itself.

  The reader is a machine with four modes that takes one character at a time, so
  the expansion of a pattern is the concatenation of the expansions of its tokens.
-/
import SymbolAutomata.Failure

namespace SymbolAutomata.Pattern

open Text

/-- Whether a codepoint is one half of a pair and therefore no character. -/
def isSurrogate (c : Codepoint) : Bool := 0xD800 ≤ c && c ≤ 0xDFFF

/-- A symbol written as an escape by codepoint. -/
def spell (s : Symbol) : Except Failure (List Char) := do
  let c ← Codec.codepoint s
  if isSurrogate c then
    .error (.pattern (.surrogate s c))
  else
    return ['\\', 'x', '\x7b'] ++ (hexUpper 4 c).toList ++ ['\x7d']

/-- The symbol whose digits stand between `<` and `>`. -/
def spellDigits (digits : List Char) : Except Failure (List Char) :=
  match readSymbol digits with
  | .ok s => spell s
  | .error fault => .error (.pattern (.badSymbol (String.ofList digits) fault))

/-- What the reader is in the middle of. -/
inductive Mode where
  /-- Between two tokens. -/
  | plain
  /-- After `<` and these digits. -/
  | symbol (digits : List Char)
  /-- Inside repetition bounds. -/
  | bounds
  /-- After a backslash. -/
  | escape
deriving DecidableEq

/-- Whether `c` may follow the digits read so far inside `<…>`: any digit, or a minus in front. -/
def continuesSymbol (digits : List Char) (c : Char) : Bool :=
  (digit? c).isSome || (c == '-' && digits.isEmpty)

/-- Expands the characters from the given mode on. The whole pattern is quoted in faults. -/
def expandFrom (pattern : String) : Mode → List Char → Except Failure (List Char)
  | .plain, [] => .ok []
  | .plain, c :: rest =>
    match digit? c with
    | some d => do
      let spelled ← spell d
      return spelled ++ (← expandFrom pattern .plain rest)
    | none =>
      if c = '<' then expandFrom pattern (.symbol []) rest
      else
        let next := if c = '\x7b' then .bounds else if c = '\\' then .escape else .plain
        do return c :: (← expandFrom pattern next rest)
  | .symbol _, [] => .error (.pattern (.unclosedSymbol pattern))
  | .symbol digits, c :: rest =>
    if c = '>' then do
      let spelled ← spellDigits digits
      return spelled ++ (← expandFrom pattern .plain rest)
    else if continuesSymbol digits c then expandFrom pattern (.symbol (digits ++ [c])) rest
    else .error (.pattern (.strayInSymbol c pattern))
  | .bounds, [] => .error (.pattern (.missingBrace pattern))
  | .bounds, c :: rest => do
    return c :: (← expandFrom pattern (if c = '\x7d' then .plain else .bounds) rest)
  | .escape, [] => .error (.pattern (.danglingEscape pattern))
  | .escape, c :: rest => do return c :: (← expandFrom pattern .plain rest)

/-- The expression over codepoints that a pattern stands for. -/
def expand (pattern : String) : Except Failure String := do
  return String.ofList (← expandFrom pattern .plain pattern.toList)

end SymbolAutomata.Pattern
