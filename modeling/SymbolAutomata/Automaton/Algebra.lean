/-
  SymbolAutomata/Automaton/Algebra.lean
  =====================================
  **Operations on the languages of automata.**

  Every operation works on the graphs and fills a new automaton with the result,
  cut down to an alphabet and a clamp that depend on the operation: what either
  operand has for union and concatenation, what both have for intersection, what
  the operand has otherwise.
-/
import SymbolAutomata.Automaton.Fill
import SymbolAutomata.Graph.Algebra
import SymbolAutomata.Graph.Subset

namespace SymbolAutomata

namespace Automaton

def union (a b : Automaton) : Automaton :=
  ofGraphWithin (Nat.min a.min b.min) (Nat.max a.max b.max) (a.graph.union b.graph)
    (a.alphabet ∪ b.alphabet)

def concatenate (a b : Automaton) : Automaton :=
  ofGraphWithin (Nat.min a.min b.min) (Nat.max a.max b.max) (a.graph.concatenate b.graph)
    (a.alphabet ∪ b.alphabet)

/-- The words of both automata, over the symbols that both use. -/
def intersection (a b : Automaton) : Automaton :=
  ofGraphWithin (Nat.max a.min b.min) (Nat.min a.max b.max) (a.graph.intersection b.graph)
    (a.alphabet ∩ b.alphabet)

/-- The words over `alphabet` that the automaton rejects. -/
def complementOver (a : Automaton) (alphabet : SymbolSet) : Automaton :=
  ofGraphWithin a.min a.max a.graph.complement alphabet

def complement (a : Automaton) : Automaton := a.complementOver a.alphabet

def star (a : Automaton) : Automaton := ofGraphWithin a.min a.max a.graph.star a.alphabet

def repeatMin (a : Automaton) (least : Nat) : Automaton :=
  ofGraphWithin a.min a.max (a.graph.repeatMin least) a.alphabet

def repeatRange (a : Automaton) (least most : Nat) : Automaton :=
  ofGraphWithin a.min a.max (a.graph.repeatRange least most) a.alphabet

end Automaton

end SymbolAutomata
