/-
  SymbolAutomata/Pattern/Standard.lean
  ====================================
  **The parser that the program runs with.**

  It reads the text of an expression and settles what the flags make of it. Of
  the properties of characters it knows the general categories only, and it
  refuses groups with names. What is proved about patterns holds for any parser.
-/
import SymbolAutomata.Pattern.Compile
import SymbolAutomata.Pattern.Meaning
import SymbolAutomata.Pattern.Reader

namespace SymbolAutomata

namespace Pattern

/-- **The program's own parser.** -/
def standard : Parser := fun text =>
  match read text.toList >>= Tree.expression .initial with
  | .ok (e, _) => .ok e
  | .error fault => .error fault.message

/-- The graph of a pattern, compiled with the program's own parser. -/
def compile (pattern : String) (min max : Codepoint) (minimize : Bool) : Except Failure Graph :=
  compileWith standard minimize pattern min max

end Pattern

/-- The automaton of a pattern, compiled with the program's own parser. -/
def Automaton.ofPattern (pattern : String) (min max : Codepoint) (minimize : Bool) :
    Except Failure Automaton :=
  ofCompiler (Pattern.compile · · · minimize) pattern min max

end SymbolAutomata
