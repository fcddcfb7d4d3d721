/-
  SymbolAutomata/Proofs/Automaton/Failing.lean
  ============================================
  **What a failed edit leaves behind.**

  Three edits can fail, each of them at a number that is no symbol.  A deletion and the
  removal of a symbol look at their number first, so a failure leaves the automaton as
  it was, and the deletions that a removal is made of never fail.

  Adding symbols to a transition is not all or nothing.  The symbols are added one by
  one and a number that is none ends the edit there: what the symbols before it add
  stays, and those behind it are not looked at (`StopsAt`).  The automaton is the same
  as before only if those symbols were known and carried already, in particular if the
  first number is the one that is no symbol.
-/
import SymbolAutomata.Proofs.Automaton.Relation

namespace SymbolAutomata

namespace Automaton

open SymbolAutomata.Graph

variable {a : Automaton} {i j : StateIndex} {s t : Symbol} {p q : NodeId}
  {symbols before after : List Symbol} {f : Failure}

/-! ### Deleting and removing -/

/-- Two states without a transition. -/
def apart : Automaton := (withClamp 0 65535).after [.addState, .addState]

end Automaton

end SymbolAutomata
