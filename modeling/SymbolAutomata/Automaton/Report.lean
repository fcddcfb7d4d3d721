/-
  SymbolAutomata/Automaton/Report.lean
  ====================================
  **Reports**: an automaton as JSON or as a table for people.
-/
import SymbolAutomata.Automaton.Query
import SymbolAutomata.Text.Column
import SymbolAutomata.Text.Json
import SymbolAutomata.Text.Quoted

namespace SymbolAutomata

open Text

def Transition.toJson (t : Transition) : Json :=
  .obj [("destination", .num t.destination), ("source", .num t.source), ("symbol", .num t.symbol)]

namespace Automaton

/-! ### JSON -/

/-- The automaton as a JSON object with sorted keys. -/
def toJson (a : Automaton) (pattern : String) : Json :=
  .obj
    [("alphabet", .arr (a.alphabet.toList.map .num)),
     ("final", .arr (a.finalStates.map fun (i : Nat) => .num i)),
     ("initial", match a.initialState with
       | some i => .num i
       | none => .null),
     ("pattern", .str pattern),
     ("summary", .obj
       [("deterministic", .bool a.isDeterministic),
        ("states", .num a.stateCount),
        ("symbols", .num a.symbolCount)]),
     ("transitions", .arr (a.transitions.map Transition.toJson))]

def jsonReport (a : Automaton) (pattern : String) : String :=
  (a.toJson pattern).render 0 ++ "\n"

/-! ### Tables -/

def marker (a : Automaton) (i : StateIndex) : String :=
  (if a.initialState = some i then "->" else "") ++ (if (a.isFinal i).value then "*" else "")

def row (mark source symbol destination : String) : String :=
  alignLeft 6 mark ++ " " ++ alignRight 8 source ++ " " ++ alignRight 10 symbol ++ " " ++
    alignRight 8 destination ++ "\n"

/-- The table of transitions; an automaton without transitions has none. -/
def transitionTable (a : Automaton) : String :=
  let ts := a.transitions
  if ts.isEmpty then ""
  else
    let line := rule 60 '-' ++ "\n"
    let rows := ts.map fun t =>
      row (a.marker t.source) (toString t.source) (toString t.symbol) (toString t.destination)
    "Transitions:\n" ++ line ++ row "" "From" "Symbol" "To" ++ line ++ String.join rows ++ "\n"

def tableReport (a : Automaton) (pattern : String) : String :=
  "Automaton for " ++ quote pattern ++ "\n" ++ rule 60 '=' ++ "\n\nSummary:\n  States:        " ++
    toString a.stateCount ++ "\n  Symbols:       " ++ toString a.symbolCount ++
    "\n  Deterministic: " ++ toString a.isDeterministic ++ "\n\n" ++ a.transitionTable ++
    "Final states: " ++ String.intercalate ", " (a.finalStates.map toString) ++ "\n"

end Automaton

end SymbolAutomata
