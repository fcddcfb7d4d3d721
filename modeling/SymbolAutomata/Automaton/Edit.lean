/-
  SymbolAutomata/Automaton/Edit.lean
  ==================================
  **Edits** of an automaton.

  An edit that names a state which does not exist is skipped and leaves a note;
  one that names a number which is no symbol fails. Only `minimize`, `reduce` and
  `removeDead` number the states anew: they start a new epoch.
-/
import SymbolAutomata.Automaton.Fill
import SymbolAutomata.Graph.Minimal
import SymbolAutomata.Graph.Silent

namespace SymbolAutomata

namespace Automaton

/-! ### States and flags -/

/-- Replaces the graph at the node of state `i`; without such a state nothing changes. -/
def editState (a : Automaton) (action : String) (i : StateIndex) (edit : Graph → NodeId → Graph) :
    Noted Automaton :=
  let n := a.resolve action i
  ⟨match n.value with
    | some n => { a with graph := edit a.graph n }
    | none => a, n.notes⟩

def setInitial (a : Automaton) (i : StateIndex) : Noted Automaton :=
  a.editState "set initial state" i Graph.setInitial

def setFinal (a : Automaton) (i : StateIndex) : Noted Automaton :=
  a.editState "set final state" i fun g n => g.setAccept n true

def setNonFinal (a : Automaton) (i : StateIndex) : Noted Automaton :=
  a.editState "set non final state" i fun g n => g.setAccept n false

def eachState (edit : Automaton → StateIndex → Noted Automaton) (a : Automaton)
    (is : List StateIndex) : Noted Automaton :=
  is.foldl (fun r i => let e := edit r.value i; ⟨e.value, r.notes ++ e.notes⟩) ⟨a, []⟩

def declare (a : Automaton) (deterministic : Bool) : Automaton :=
  { a with graph := a.graph.declare deterministic }

def addToAlphabet (a : Automaton) (s : Symbol) : Automaton :=
  { a with alphabet := a.alphabet.insert s }

def removeFromAlphabet (a : Automaton) (s : Symbol) : Automaton :=
  { a with alphabet := a.alphabet.erase s }

/-! ### Transitions -/

/-- Adds symbols to the arcs from `p` to `q`, up to the first that is none. A symbol that an arc
    from `p` to `q` carries already gets no arc of its own. -/
def addSymbols (a : Automaton) (p q : NodeId) : List Symbol → Automaton × Option Failure
  | [] => (a, none)
  | s :: rest =>
    match Codec.codepoint s with
    | .error f => (a, some f)
    | .ok c =>
      let covered := (a.graph.outgoing p).any fun arc => arc.target = q && arc.label.contains c
      let graph := if covered then a.graph else a.graph.connect p (Interval.single c) q
      addSymbols { a with alphabet := a.alphabet.insert s, graph := graph } p q rest

def addTransition (a : Automaton) (i j : StateIndex) (symbols : List Symbol) : Edited :=
  let ends := a.resolveBoth "add transition" i j
  match ends.value with
  | none => ⟨a, none, ends.notes⟩
  | some (p, q) =>
    let (b, failure?) := a.addSymbols p q symbols
    ⟨b, failure?, ends.notes⟩

/-- Takes a codepoint out of one arc; what is left of its label on either side is added anew. -/
def cutArc (c : Codepoint) (g : Graph) (arc : Arc) : Graph :=
  let (left, right) := arc.label.splitAround c
  [left, right].reduceOption.foldl (fun h i => h.connect arc.source i arc.target) (g.removeArc arc)

/-- Removes a symbol from all arcs from state `i` to state `j`, and from the alphabet if no arc
    carries it any more. -/
def deleteTransition (a : Automaton) (i j : StateIndex) (s : Symbol) : Edited :=
  match Codec.codepoint s with
  | .error f => ⟨a, some f, []⟩
  | .ok c =>
    let ends := a.resolveBoth "delete transition" i j
    match ends.value with
    | none => ⟨a, none, ends.notes⟩
    | some (p, q) =>
      let hit := (a.graph.outgoing p).filter fun arc => arc.target = q && arc.label.contains c
      let graph := hit.foldl (cutArc c) a.graph
      let carried := graph.arcs.any (·.label.contains c)
      ⟨{ a with graph := graph, alphabet := if carried then a.alphabet else a.alphabet.erase s },
        none, ends.notes⟩

/-- Removes a symbol from all arcs that leave a node, by destination. -/
def clearSymbol (s : Symbol) (c : Codepoint) (a : Automaton) (i : StateIndex) : Automaton :=
  let hit := (a.states[i]?).toList.flatMap fun n => (a.graph.targets n c).filterMap a.indexOf?
  (ascending hit).foldl (fun a j => (a.deleteTransition i j s).automaton) a

def removeSymbol (a : Automaton) (s : Symbol) : Edited :=
  match Codec.codepoint s with
  | .error f => ⟨a, some f, []⟩
  | .ok c =>
    let cleared := (List.range a.stateCount).foldl (clearSymbol s c) a
    ⟨cleared.removeFromAlphabet s, none, []⟩

/-- Lets state `i` behave as state `j` does without reading a symbol. -/
def addSilent (a : Automaton) (i j : StateIndex) : Noted Automaton :=
  let ends := a.resolveBoth "add epsilon transition" i j
  ⟨match ends.value with
    | some e => { a with graph := a.graph.splice [e] }
    | none => a, ends.notes⟩

/-! ### Renumbering -/

/-- Drops the nodes that are not reachable, numbers the states in the order of the search, and
    reads the alphabet off the labels inside the clamp. -/
def renumber (a : Automaton) : Automaton :=
  let graph := a.graph.prune
  { a with
    graph := graph
    states := graph.reachable
    index := .ofNodes graph.reachable
    alphabet := a.symbolsOf graph
    epoch := a.epoch + 1 }

/-- Replaces the automaton by the minimal deterministic one. -/
def minimize (a : Automaton) : Automaton := { a with graph := a.graph.minimize }.renumber

def reduce (a : Automaton) : Automaton := { a with graph := a.graph.reduce }.renumber

/-- Drops the arcs that cannot lead to an accepting state. -/
def removeDead (a : Automaton) : Automaton := { a with graph := a.graph.removeDead }.renumber

end Automaton

/-! ### Edits as data -/

/-- An edit of an automaton. -/
inductive Edit where
  | fill (source : Graph) (symbols : SymbolSet)
  | addState
  | setInitial (i : StateIndex)
  | setFinal (is : List StateIndex)
  | setNonFinal (is : List StateIndex)
  | declare (deterministic : Bool)
  | addToAlphabet (s : Symbol)
  | removeFromAlphabet (s : Symbol)
  | addTransition (i j : StateIndex) (symbols : List Symbol)
  | deleteTransition (i j : StateIndex) (s : Symbol)
  | removeSymbol (s : Symbol)
  | addSilent (i j : StateIndex)
  | minimize
  | reduce
  | removeDead

namespace Edit

def noted (r : Noted Automaton) : Edited := ⟨r.value, none, r.notes⟩

def plain (a : Automaton) : Edited := ⟨a, none, []⟩

/-- **Applies an edit.** -/
def perform (a : Automaton) : Edit → Edited
  | fill source symbols => plain (a.fill source symbols)
  | addState => plain a.addState
  | setInitial i => noted (a.setInitial i)
  | setFinal is => noted (Automaton.eachState Automaton.setFinal a is)
  | setNonFinal is => noted (Automaton.eachState Automaton.setNonFinal a is)
  | declare deterministic => plain (a.declare deterministic)
  | addToAlphabet s => plain (a.addToAlphabet s)
  | removeFromAlphabet s => plain (a.removeFromAlphabet s)
  | addTransition i j symbols => a.addTransition i j symbols
  | deleteTransition i j s => a.deleteTransition i j s
  | removeSymbol s => a.removeSymbol s
  | addSilent i j => noted (a.addSilent i j)
  | minimize => plain a.minimize
  | reduce => plain a.reduce
  | removeDead => plain a.removeDead

end Edit

end SymbolAutomata
