/-
  SymbolAutomata/Pattern/Fault.lean
  =================================
  **What can be wrong with a pattern.**

  A pattern is read in two passes. The first replaces the shorthand for symbols
  and says precisely what it stumbled over; the second parses the expression that
  results, and what its parser reports is passed on word for word.
-/
import SymbolAutomata.Text.Quoted

namespace SymbolAutomata.Pattern

/-- Why a pattern has no automaton. Faults of the shorthand quote the whole pattern. -/
inductive Fault where
  | danglingEscape (pattern : String)
  /-- A character inside `<…>` that cannot belong to a symbol. -/
  | strayInSymbol (found : Char) (pattern : String)
  | unclosedSymbol (pattern : String)
  /-- The digits between `<` and `>` are no symbol. -/
  | badSymbol (digits : String) (fault : Text.NumeralFault)
  /-- A `\x7b` without its closing brace. -/
  | missingBrace (pattern : String)
  /-- A symbol whose codepoint is one half of a pair and no character. -/
  | surrogate (symbol : Int) (codepoint : Nat)
  /-- The expression asks where it stands instead of reading a symbol. -/
  | unsupportedAssertion (name : String)
  /-- The parser refuses the expression, for the reason it gives. -/
  | malformed (text : String)
  /-- A fault found by another compiler of patterns, in its own words. -/
  | described (text : String)
deriving DecidableEq

open Text in
def Fault.message : Fault → String
  | danglingEscape pattern => "dangling escape in " ++ quote pattern
  | strayInSymbol found pattern =>
    "unexpected " ++ quoteChar found ++ " in symbol of " ++ quote pattern
  | unclosedSymbol pattern => "unclosed '<' in " ++ quote pattern
  | badSymbol digits fault => "invalid symbol <" ++ digits ++ ">: " ++ fault.message
  | missingBrace pattern => "missing '\x7d' in " ++ quote pattern
  | surrogate symbol codepoint =>
    "symbol " ++ toString symbol ++ " maps to the surrogate codepoint 0x" ++ hexLower 4 codepoint
  | unsupportedAssertion name => "unsupported assertion " ++ name
  | malformed text => text
  | described text => text

end SymbolAutomata.Pattern
