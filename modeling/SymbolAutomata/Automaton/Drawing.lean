/-
  SymbolAutomata/Automaton/Drawing.lean
  =====================================
  **Drawings** in the DOT language.

  There is one line for each state and one for each pair of states that some
  transition joins. The symbols of a pair are written in braces; three or more
  that follow each other are written as a range.
-/
import SymbolAutomata.Automaton.Query
import SymbolAutomata.Automaton.Role

namespace SymbolAutomata

/-- A run of symbols by its ends: one symbol, two symbols, or a range. -/
def renderRun : Symbol × Symbol → String
  | (first, last) =>
    if last = first then toString first
    else if last = first + 1 then toString first ++ "," ++ toString last
    else toString first ++ ".." ++ toString last

/-- The label of an arrow that carries the symbols of an increasing list. -/
def arrowLabel (symbols : List Symbol) : String :=
  "\x7b" ++ String.intercalate "," ((SymbolSet.runs symbols).map renderRun) ++ "\x7d"

namespace Automaton

/-- The destinations of state `i` in increasing order, each with the symbols that lead there. -/
def arrows (a : Automaton) (i : StateIndex) : List (StateIndex × List Symbol) :=
  let ts := (a.transitionsFrom i).value
  (ascending (ts.map (·.destination)).eraseReps).map fun j =>
    (j, (ts.filter (·.destination = j)).map (·.symbol))

def stateLine (a : Automaton) (i : StateIndex) : String :=
  let role := Role.of (a.initialState = some i) (a.isFinal i).value
  "  " ++ toString i ++ " [shape=" ++ role.shape ++ ", fillcolor=\"" ++ role.color ++ "\"];\n"

def arrowLine (i : StateIndex) : StateIndex × List Symbol → String
  | (j, symbols) =>
    "  " ++ toString i ++ " -> " ++ toString j ++ " [label=\"" ++ arrowLabel symbols ++ "\"];\n"

def initialLines : Option StateIndex → String
  | none => ""
  | some i =>
    "  initial [shape=plaintext, label=\"\", style=\"\"];\n  initial -> " ++ toString i ++ ";\n"

/-- **The drawing of an automaton**, laid out in direction `rankdir`. -/
def draw (a : Automaton) (rankdir : String) : String :=
  let states := List.range a.stateCount
  "digraph Automaton \x7b\n  rankdir = " ++ rankdir ++ ";\n  node [style=filled];\n" ++
    initialLines a.initialState ++ "\n" ++ String.join (states.map a.stateLine) ++ "\n" ++
    String.join (states.flatMap fun i => (a.arrows i).map (arrowLine i)) ++ "\x7d\n"

end Automaton

end SymbolAutomata
