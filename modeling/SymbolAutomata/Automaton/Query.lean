/-
  SymbolAutomata/Automaton/Query.lean
  ===================================
  **Questions to an automaton.**

  Destinations and acceptance read the labels of the graph as they are stored;
  `transitions` expands them, inside the clamp, into one entry per symbol.
-/
import SymbolAutomata.Automaton.Basic

namespace SymbolAutomata

namespace Automaton

/-! ### States -/

def isFinal (a : Automaton) (i : StateIndex) : Noted Bool :=
  let n := a.resolve "check final state" i
  ⟨n.value.any a.graph.isAccept, n.notes⟩

def isNotFinal (a : Automaton) (i : StateIndex) : Noted Bool :=
  let n := a.resolve "check non final state" i
  ⟨n.value.any (!a.graph.isAccept ·), n.notes⟩

/-! ### Destinations -/

/-- The destination of state `i` over a symbol. Only automata that are declared deterministic
    answer, and the declaration is trusted. -/
def delta (a : Automaton) (i : StateIndex) (s : Symbol) :
    Noted (Except Failure (Option StateIndex)) :=
  if !a.isDeterministic then ⟨.error .nondeterministic, []⟩
  else
    match Codec.codepoint s with
    | .error f => ⟨.error f, []⟩
    | .ok c =>
      let n := a.resolve "compute delta" i
      ⟨.ok (n.value.bind fun n => (a.graph.step n c).bind a.indexOf?), n.notes⟩

/-- All destinations of state `i` over a symbol, one for each arc, the newest first. -/
def destinations (a : Automaton) (i : StateIndex) (s : Symbol) :
    Noted (Except Failure (List StateIndex)) :=
  match Codec.codepoint s with
  | .error f => ⟨.error f, []⟩
  | .ok c =>
    let n := a.resolve "compute delta" i
    ⟨.ok (n.value.toList.flatMap fun n => (a.graph.targets n c).filterMap a.indexOf?), n.notes⟩

/-! ### Transitions -/

/-- The labels that leave state `i` with their destinations, not clamped. -/
def intervals (a : Automaton) (i : StateIndex) : Noted (List (Interval × StateIndex)) :=
  let n := a.resolve "list transitions" i
  ⟨n.value.toList.flatMap fun n => (a.graph.moves n).filterMap fun (label, dest) =>
    (a.indexOf? dest).map fun j => (label, j), n.notes⟩

/-- The transitions that leave state `i`, by symbol and then destination. -/
def transitionsFrom (a : Automaton) (i : StateIndex) : Noted (List Transition) :=
  let arcs := a.intervals i
  ⟨arrange Transition.leaves
    (arcs.value.flatMap fun (label, j) => (a.expand label).map fun s => ⟨i, j, s⟩), arcs.notes⟩

/-- **All transitions**, by source. -/
def transitions (a : Automaton) : List Transition :=
  (List.range a.stateCount).flatMap fun i => (a.transitionsFrom i).value

/-! ### Acceptance -/

/-- **Whether the automaton accepts a word.** An automaton that is declared deterministic follows
    single arcs. -/
def run (a : Automaton) (word : List Symbol) : Except Failure Bool := do
  let codepoints ← word.mapM Codec.codepoint
  if !a.isDeterministic then return a.graph.run codepoints
  match a.graph.initial with
  | none => return false
  | some n => return a.graph.walk n codepoints

end Automaton

end SymbolAutomata
