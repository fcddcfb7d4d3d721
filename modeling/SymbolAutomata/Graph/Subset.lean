/-
  SymbolAutomata/Graph/Subset.lean
  ================================
  **Deterministic and total graphs.**

  The subset construction reads a graph at one codepoint per class, which is
  enough because no arc tells the codepoints of a class apart. A total graph has
  a move for every codepoint at every node, so that swapping the accept flags of
  a deterministic total graph gives the complement.
-/
import SymbolAutomata.Graph.Trim

namespace SymbolAutomata

namespace Graph

/-! ### Subset construction -/

/-- The set of nodes that a set of nodes leads to over `c`, in increasing order. -/
def subsetStep (g : Graph) (places : List NodeId) (c : Codepoint) : List NodeId :=
  ascending (places.flatMap (g.targets · c))

/-- The nonempty sets that a set of nodes leads to, with the class of codepoints that leads
    there. -/
def subsetMoves (g : Graph) (classes : List (Codepoint × Interval)) (places : List NodeId) :
    List (Interval × List NodeId) :=
  (classes.map fun (p, i) => (i, g.subsetStep places p)).filter (!·.2.isEmpty)

/-- The graph of all sets of nodes found from the set `[start]`. -/
def subsets (g : Graph) (start : NodeId) : Graph :=
  let classes := g.classes
  let found := explore (fun places => (g.subsetMoves classes places).map (·.2))
    (Nat.pow 2 g.nodeCount + 1) [] [[start]]
  let arcs := found.zipIdx.flatMap fun (places, n) =>
    (g.subsetMoves classes places).map fun (i, dest) => (n, i, found.idxOf dest)
  build (found.map fun places => places.any g.isAccept) arcs 0

/-- **A deterministic graph for the same language.** A graph that is deterministic already is
    kept, whatever it is declared to be. -/
def determinize (g : Graph) : Graph :=
  match g.initial with
  | none => emptyLanguage
  | some start => if g.isDeterministic then g.declare true else (g.subsets start).reduce.declare true

/-! ### Totality and complement -/

/-- The codepoints from `next` on that a sorted list of labels leaves out. -/
def gapsFrom (next : Codepoint) : List Interval → List Interval
  | [] => if next ≤ Codec.maxCodepoint then [Interval.between next Codec.maxCodepoint] else []
  | i :: rest =>
    let before := if next < i.min then [Interval.between next (i.min - 1)] else []
    before ++ gapsFrom (Nat.max next (i.max + 1)) rest

/-- **A total graph for the same language**: a new rejecting node takes all codepoints that other
    nodes leave out, and keeps them. -/
def totalize (g : Graph) : Graph :=
  let sink := g.nextNode
  let looped := (g.addNode false).connect sink
    (Interval.between Codec.minCodepoint Codec.maxCodepoint) sink
  g.nodeIds.foldl (fun h n =>
    (gapsFrom Codec.minCodepoint ((h.moves n).map (·.1))).foldl (fun h i => h.connect n i sink) h)
    looped

/-- **Complement** with respect to all words of codepoints. -/
def complement (g : Graph) : Graph :=
  let total := g.determinize.totalize
  let flipped := total.nodeIds.foldl (fun h n => h.setAccept n (!h.isAccept n)) total
  flipped.removeDead.prune.declare true

end Graph

end SymbolAutomata
