/-
  SymbolAutomata/Automaton/Transition.lean
  ========================================
  **Single transitions**: a source, a destination and one symbol.
-/
import SymbolAutomata.Ascending
import SymbolAutomata.Codec

namespace SymbolAutomata

/-- The number of a state as automata hand it out: `0, 1, 2, …` without gaps. -/
abbrev StateIndex := Nat

/-- A move from `source` to `destination` over one symbol. -/
structure Transition where
  source : StateIndex
  destination : StateIndex
  symbol : Symbol
deriving DecidableEq

namespace Transition

/-- Transitions are ordered by source, then destination, then symbol. -/
def precedes (a b : Transition) : Bool :=
  match (compare a.source b.source).then
    ((compare a.destination b.destination).then (compare a.symbol b.symbol)) with
  | .gt => false
  | _ => true

/-- The order of the transitions of one state: by symbol, then destination. -/
def leaves (a b : Transition) : Bool :=
  match (compare a.symbol b.symbol).then (compare a.destination b.destination) with
  | .gt => false
  | _ => true

def render (t : Transition) : String :=
  toString t.source ++ " -" ++ toString t.symbol ++ "-> " ++ toString t.destination

def sorted (ts : List Transition) : List Transition := (arrange precedes ts).eraseReps

end Transition

end SymbolAutomata
