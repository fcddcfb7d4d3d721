/-
  SymbolAutomata/Graph/Minimal.lean
  =================================
  **The minimal deterministic graph.**

  The total deterministic graph of a language is written as a table over its
  reachable nodes and its codepoint classes. Equivalent nodes fall into one class
  of the table; the minimal graph has a node for each class, less the class from
  which nothing is accepted.
-/
import SymbolAutomata.Graph.Subset
import SymbolAutomata.Refinement

namespace SymbolAutomata

namespace Graph

/-- The graph as a table. State `i` is the `i`-th node of `order` and letter `j` the `j`-th of
    `points`. -/
def tableOf (g : Graph) (order : List NodeId) (points : List Codepoint) : Table :=
  let rows := order.toArray.map fun n => points.toArray.map fun p =>
    ((g.step n p).map order.idxOf).filter (· < order.length)
  { size := order.length
    letters := points.length
    next := fun i j => ((rows[i]?).bind (·[j]?)).join
    accepting := fun i => ((order[i]?).map g.isAccept).getD false }

/-- The graph of the classes of a table. Each class moves as its first state does. -/
def ofClasses (t : Table) (classes : List Nat) (labels : List Interval) : Graph :=
  let firsts := (fresh [] classes).map classes.idxOf
  let arcs := firsts.zipIdx.flatMap fun (i, b) => labels.zipIdx.filterMap fun (label, j) =>
    (t.next i j).map fun dest => (b, label, classes.getD dest 0)
  build (firsts.map t.accepting) arcs 0

/-- **The minimal deterministic graph** for the language. -/
def minimize (g : Graph) : Graph :=
  let total := g.determinize.totalize.prune
  let order := total.reachable
  if order.isEmpty then emptyLanguage
  else
    let classes := total.classes
    let table := total.tableOf order (classes.map (·.1))
    ((ofClasses table table.classes (classes.map (·.2))).removeDead.prune).declare true

end Graph

end SymbolAutomata
