/-
  SymbolAutomata/Automaton/Basic.lean
  ===================================
  **Automata as solvers see them**: states `0, 1, 2, …` over a graph.

  An automaton couples a graph with the list of its nodes; the index of a state
  is its position in this list, and a table leads back from nodes to indices. It
  keeps the alphabet of the symbols in use and a clamp, the range of codepoints to
  which symbols are limited when labels are expanded. Operations that number the
  states anew raise the epoch.

  Questions and edits about a state that does not exist are skipped and leave a
  note.
-/
import Std.Data.ExtTreeMap
import SymbolAutomata.Failure
import SymbolAutomata.Graph.Reach
import SymbolAutomata.SymbolSet
import SymbolAutomata.Automaton.Transition

namespace SymbolAutomata

/-- The states of nodes. -/
abbrev StateTable := Std.ExtTreeMap NodeId StateIndex compare

/-- The table that leads from each of the nodes to its position. -/
def StateTable.ofNodes (nodes : List NodeId) : StateTable := .ofList nodes.zipIdx compare

/-- An automaton over symbols. -/
structure Automaton where
  graph : Graph
  /-- The node of every state. -/
  states : List NodeId
  /-- The state of every node. It is kept beside `states` and changed along with it. -/
  index : StateTable
  alphabet : SymbolSet
  min : Codepoint
  max : Codepoint
  /-- Indices are valid as long as the epoch stays the same. -/
  epoch : Nat

/-! ### Notes -/

/-- What was skipped because a state does not exist. -/
structure Note where
  action : String
  index : StateIndex
  count : Nat
deriving DecidableEq

def Note.message (n : Note) : String :=
  "Unable to " ++ n.action ++ ": " ++ (Failure.invalidState n.index n.count).message

/-- An answer and what was skipped on the way to it. -/
structure Noted (α : Type) where
  value : α
  notes : List Note

/-- The result of an edit: the automaton afterwards, the failure that ended the edit early, if any,
    and what was skipped. -/
structure Edited where
  automaton : Automaton
  failure? : Option Failure
  notes : List Note

namespace Automaton

/-! ### Building -/

/-- An automaton without states whose symbols are limited to the codepoints `[min, max]`. It is
    declared deterministic. -/
def withClamp (min max : Codepoint) : Automaton where
  graph := Graph.empty
  states := []
  index := ∅
  alphabet := ∅
  min := Nat.max min Codec.minCodepoint
  max := Nat.min max Codec.maxCodepoint
  epoch := 0

def empty : Automaton := withClamp Codec.minCodepoint Codec.maxCodepoint

/-- Adds a rejecting state; its index is the number of states before. -/
def addState (a : Automaton) : Automaton :=
  let n := a.graph.nextNode
  { a with
    graph := a.graph.addNode false
    states := a.states ++ [n]
    index := a.index.insert n a.states.length }

/-! ### Reading -/

def stateCount (a : Automaton) : Nat := a.states.length

def indexOf? (a : Automaton) (n : NodeId) : Option StateIndex := a.index[n]?

def initialState (a : Automaton) : Option StateIndex := a.graph.initial.bind a.indexOf?

def finalStates (a : Automaton) : List StateIndex :=
  (List.range a.states.length).filter fun i => (a.states[i]?).any a.graph.isAccept

def isDeterministic (a : Automaton) : Bool := a.graph.deterministic

def symbolCount (a : Automaton) : Nat := a.alphabet.size

/-- The node of a state, or a note that there is none. -/
def resolve (a : Automaton) (action : String) (i : StateIndex) : Noted (Option NodeId) :=
  match a.states[i]? with
  | some n => ⟨some n, []⟩
  | none => ⟨none, [⟨action, i, a.stateCount⟩]⟩

@[simp] theorem resolve_value (a : Automaton) (action : String) (i : StateIndex) :
    (a.resolve action i).value = a.states[i]? := by
  unfold resolve
  cases a.states[i]? <;> rfl

/-- The nodes of two states; each of them that is missing leaves a note. -/
def resolveBoth (a : Automaton) (action : String) (i j : StateIndex) :
    Noted (Option (NodeId × NodeId)) :=
  let p := a.resolve action i
  let q := a.resolve action j
  ⟨p.value.bind fun p => q.value.map fun q => (p, q), p.notes ++ q.notes⟩

/-! ### The clamp -/

/-- The symbols of a label inside the clamp, by the first and the last of them. -/
def span? (a : Automaton) (label : Interval) : Option (Symbol × Symbol) :=
  (label.clip a.min a.max).bind fun i => Codec.symbolSpan i.min i.max

def expand (a : Automaton) (label : Interval) : List Symbol :=
  match a.span? label with
  | some (first, last) => SymbolSet.span first last
  | none => []

/-- The symbols of all labels of a graph inside the clamp. -/
def symbolsOf (a : Automaton) (g : Graph) : SymbolSet :=
  g.arcs.foldl (fun set arc => set.insertMany (a.expand arc.label)) ∅

end Automaton

end SymbolAutomata
