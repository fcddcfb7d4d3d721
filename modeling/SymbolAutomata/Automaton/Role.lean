/-
  SymbolAutomata/Automaton/Role.lean
  ==================================
  **What a state is for**, and how drawings show it.
-/

namespace SymbolAutomata

inductive Role where
  | plain
  | initial
  | accepting
  | initialAccepting
deriving DecidableEq

namespace Role

def of (initial accepting : Bool) : Role :=
  match initial, accepting with
  | true, true => .initialAccepting
  | true, false => .initial
  | false, true => .accepting
  | false, false => .plain

def isAccepting : Role → Bool
  | accepting | initialAccepting => true
  | _ => false

/-- Accepting states are drawn with a double border. -/
def shape (r : Role) : String := if r.isAccepting then "doublecircle" else "circle"

def color : Role → String
  | initial => "lightblue"
  | accepting => "lightgreen"
  | initialAccepting => "green"
  | plain => "white"

theorem isAccepting_of (initial accepting : Bool) : (of initial accepting).isAccepting = accepting := by
  cases initial <;> cases accepting <;> rfl

end Role

end SymbolAutomata
