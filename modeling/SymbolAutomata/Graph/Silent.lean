/-
  SymbolAutomata/Graph/Silent.lean
  ================================
  **Silent moves.**

  A pair `(p, q)` lets node `p` behave as `q` without reading anything. Graphs
  have no silent arcs: splicing gives `p` a copy of the moves of every node it
  reaches silently, and makes it accept if one of them does.
-/
import SymbolAutomata.Graph.Reach

namespace SymbolAutomata

namespace Graph

/-- The second components of the pairs that start at `p`. -/
def silentNext (pairs : List (NodeId × NodeId)) (p : NodeId) : List NodeId :=
  (pairs.filter (·.1 = p)).map (·.2)

/-- The nodes other than `p` that pairs lead to from `p`. -/
def silentReach (pairs : List (NodeId × NodeId)) (p : NodeId) : List NodeId :=
  (explore (silentNext pairs) (pairs.length + 1) [] [p]).tail

/-- Every node at which a pair starts, with every other node that it reaches silently. -/
def silentPairs (pairs : List (NodeId × NodeId)) : List (NodeId × NodeId) :=
  (fresh [] (pairs.map (·.1))).flatMap fun p => (silentReach pairs p).map fun q => (p, q)

/-- Gives `p` a copy of the moves of `q`, for each of the pairs `(p, q)`, and makes it accept if `q`
    does. All copies are taken from the graph as it is before. -/
def inherit (g : Graph) (reached : List (NodeId × NodeId)) : Graph :=
  let flagged := (reached.filter fun (_, q) => g.isAccept q).foldl
    (fun h (p, _) => h.setAccept p true) g
  (reached.flatMap fun (p, q) => (g.moves q).map fun m => (p, m)).foldl
    (fun h (p, i, dest) => h.connect p i dest) flagged

/-- **Splices silent moves into the graph.** The result is declared nondeterministic. -/
def splice (g : Graph) (pairs : List (NodeId × NodeId)) : Graph :=
  (g.inherit (silentPairs pairs)).declare false

end Graph

end SymbolAutomata
