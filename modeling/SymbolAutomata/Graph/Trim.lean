/-
  SymbolAutomata/Graph/Trim.lean
  ==============================
  **Fewer arcs for the same language.**

  `reduce` joins labels between the same two nodes that overlap or follow each
  other; `removeDead` drops the arcs into nodes from which nothing is accepted.
-/
import SymbolAutomata.Graph.Reach
import SymbolAutomata.Interval.Merged

namespace SymbolAutomata

namespace Graph

/-- The moves from node `n` with labels joined, by destination. -/
def mergedMoves (g : Graph) (n : NodeId) : List Move :=
  let out := g.outgoing n
  (ascending (out.map (·.target))).flatMap fun dest =>
    (Interval.merged ((out.filter (·.target = dest)).map (·.label))).map fun i => (i, dest)

/-- Joins the labels of the arcs that leave node `n`. If none can be joined, the arcs stay as they
    are stored. -/
def reduceAt (g : Graph) (n : NodeId) : Graph :=
  let out := g.outgoing n
  let merged := g.mergedMoves n
  if merged.length = out.length then g
  else merged.foldl (fun h (i, dest) => h.connect n i dest) (out.foldl removeArc g)

def reduce (g : Graph) : Graph := g.nodeIds.foldl reduceAt g

/-- Drops every arc into a node from which no accepting node can be reached, then joins labels. -/
def removeDead (g : Graph) : Graph :=
  let alive := g.live
  (g.nodeIds.foldl (fun h n => ((h.outgoing n).filter (·.target ∉ alive)).foldl removeArc h) g).reduce

end Graph

end SymbolAutomata
