/-
  SymbolAutomata/Automaton/Fill.lean
  ==================================
  **Importing a graph.**

  Filling adds a state for every reachable node of a graph, in the order of the
  search, and keeps of its labels the symbols that are asked for and lie inside
  the clamp. Symbols that follow each other are stored under one label, which may
  stretch over reserved codepoints.
-/
import SymbolAutomata.Automaton.Basic

namespace SymbolAutomata

namespace Automaton

/-- The label that stretches from the codepoint of one symbol to that of another. -/
def runLabel? : Symbol × Symbol → Option Interval
  | (first, last) => do
    let lo ← Codec.codepoint? first
    let hi ← Codec.codepoint? last
    return Interval.between lo hi

/-- Adds arcs from `p` to `q` for the symbols of a label that are among `symbols` and inside the
    clamp, and these symbols to the alphabet. -/
def fillArc (a : Automaton) (symbols : SymbolSet) (p : NodeId) (label : Interval) (q : NodeId) :
    Automaton :=
  match a.span? label with
  | none => a
  | some (first, last) =>
    let carried := symbols.between first last
    { a with
      alphabet := a.alphabet.insertMany carried
      graph := ((SymbolSet.runs carried).filterMap runLabel?).foldl
        (fun g i => g.connect p i q) a.graph }

/-- **Adds a copy of `source`**, of which only `symbols` inside the clamp are kept. The declaration
    of determinism is taken over; the copy of the initial node, if there is one, becomes the
    initial state. -/
def fill (a : Automaton) (source : Graph) (symbols : SymbolSet) : Automaton :=
  let order := source.reachable
  let grown := Nat.repeat addState order.length
    { a with graph := a.graph.declare source.deterministic }
  let names := order.zip (grown.states.drop a.states.length)
  names.foldl (fun a (n, p) =>
    let flagged := a.graph.setAccept p (source.isAccept n)
    let placed := if source.initial = some n then flagged.setInitial p else flagged
    (source.moves n).foldl (fun a (label, dest) =>
      match names.lookup dest with
      | some q => a.fillArc symbols p label q
      | none => a) { a with graph := placed }) grown

/-- The automaton over all codepoints of a graph cut down to `symbols`. -/
def ofGraph (g : Graph) (symbols : SymbolSet) : Automaton := empty.fill g symbols

/-- The automaton over `[min, max]` of a graph cut down to `symbols`. -/
def ofGraphWithin (min max : Codepoint) (g : Graph) (symbols : SymbolSet) : Automaton :=
  (withClamp min max).fill g symbols

end Automaton

end SymbolAutomata
