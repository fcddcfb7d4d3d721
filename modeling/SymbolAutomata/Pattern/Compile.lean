/-
  SymbolAutomata/Pattern/Compile.lean
  ===================================
  **From patterns to graphs.**

  A pattern is expanded, parsed, and built part by part with the operations on
  graphs. Only codepoints in `[min, max]` are kept, and conditions on the place
  of a match have no graph. The parser of expressions is not part of this: every
  compiler here is given one, and an automaton can be had from any compiler.
-/
import SymbolAutomata.Automaton.Fill
import SymbolAutomata.Graph.Algebra
import SymbolAutomata.Graph.Minimal
import SymbolAutomata.Pattern.Expression
import SymbolAutomata.Pattern.Shorthand

namespace SymbolAutomata.Pattern

/-- **A parser of expressions**, from the text of an expanded pattern. It gives its reasons where
    it refuses one. -/
abbrev Parser := String → Except String Expression

/-- **A compiler of patterns**: what graph over the codepoints `[min, max]` a pattern has. -/
abbrev Compiler := String → Codepoint → Codepoint → Except Failure Graph

/-- The expression of a pattern. -/
def parse (parser : Parser) (pattern : String) : Except Failure Expression := do
  match parser (← expand pattern) with
  | .ok e => .ok e
  | .error text => .error (.pattern (.malformed text))

/-- One step over the members of a class inside the bounds. -/
def classGraph (min max : Codepoint) (set : CharClass) : Graph :=
  Graph.oneOf (set.filterMap (·.clip min max))

mutual

def graphOf (min max : Codepoint) : Expression → Except Failure Graph
  | .empty => .ok Graph.emptyWord
  | .literal word => .ok (word.foldl (fun g c =>
    g.concatenate (classGraph min max [Interval.single c])) Graph.emptyWord)
  | .cls _ set => .ok (classGraph min max set)
  | .assertion a => .error (.pattern (.unsupportedAssertion a.name))
  | .repetition part least most _ => do
    let g ← graphOf min max part
    match most with
    | some most => return g.repeatRange least most
    | none => return g.repeatMin least
  | .capture _ part => graphOf min max part
  | .concat parts => concatGraphs min max Graph.emptyWord parts
  | .alternation [] => .ok Graph.emptyLanguage
  | .alternation (branch :: rest) => do uniteGraphs min max (← graphOf min max branch) rest

/-- Appends the graphs of several expressions to a graph. -/
def concatGraphs (min max : Codepoint) (g : Graph) : List Expression → Except Failure Graph
  | [] => .ok g
  | part :: rest => do concatGraphs min max (g.concatenate (← graphOf min max part)) rest

/-- Unites a graph with the graphs of several expressions. -/
def uniteGraphs (min max : Codepoint) (g : Graph) : List Expression → Except Failure Graph
  | [] => .ok g
  | branch :: rest => do uniteGraphs min max (g.union (← graphOf min max branch)) rest

end

/-- **The compiler with a given parser.** Its graphs are minimal if that is asked for. -/
def compileWith (parser : Parser) (minimize : Bool) : Compiler := fun pattern min max => do
  let g ← graphOf min max (← parse parser pattern)
  return if minimize then g.minimize else g

end SymbolAutomata.Pattern

namespace SymbolAutomata.Automaton

/-- **The automaton of a pattern** over the codepoints `[min, max]`, with every symbol that the
    graph of the pattern carries. -/
def ofCompiler (compiler : Pattern.Compiler) (pattern : String) (min max : Codepoint) :
    Except Failure Automaton := do
  let a := withClamp min max
  let g ← compiler pattern a.min a.max
  return a.fill g (a.symbolsOf g)

end SymbolAutomata.Automaton
