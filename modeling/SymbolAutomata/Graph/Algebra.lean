/-
  SymbolAutomata/Graph/Algebra.lean
  =================================
  **Operations on languages**, each of which builds a new graph.

  Union, concatenation and repetition copy their operands side by side and join
  the copies by silent moves, so their results are declared nondeterministic. The
  product of two graphs walks both at once.
-/
import SymbolAutomata.Graph.Silent

namespace SymbolAutomata

namespace Graph

/-! ### Copying one graph into another -/

/-- The arcs of a graph in the order of their cells. -/
def storedArcs (g : Graph) : List Arc := arrange (fun a b => a.cell ≤ b.cell) g.arcs

/-- A copy of one graph within another: the whole, and the new number of each node of the part. -/
structure Copy where
  whole : Graph
  names : List (NodeId × NodeId)

def Copy.name? (c : Copy) (n : NodeId) : Option NodeId := c.names.lookup n

/-- Adds a copy of every node, in increasing order. -/
def adoptNodes (g part : Graph) : Copy :=
  part.nodeIds.foldl
    (fun c n => ⟨c.whole.addNode (part.isAccept n), c.names ++ [(n, c.whole.nextNode)]⟩) ⟨g, []⟩

/-- Adds a copy of every node and every arc of `part`. The initial node and the declaration of `g`
    stay. -/
def adopt (g part : Graph) : Copy :=
  let nodes := adoptNodes g part
  let whole := part.storedArcs.foldl (fun h a =>
    match nodes.name? a.source, nodes.name? a.target with
    | some p, some q => h.addArc p a.label q
    | _, _ => h) nodes.whole
  ⟨whole, nodes.names⟩

/-! ### Union, concatenation, repetition -/

/-- **Union.** A new initial node moves silently to both initial nodes. -/
def union (a b : Graph) : Graph :=
  let start := (empty.addNode false).setInitial 0
  let left := start.adopt a
  let right := left.whole.adopt b
  let entries := [a.initial.bind left.name?, b.initial.bind right.name?].reduceOption
  (right.whole.splice (entries.map fun n => (0, n))).prune

/-- **Concatenation.** The accepting nodes of the first graph move silently to the initial node of
    the second and accept only if that does. -/
def concatenate (a b : Graph) : Graph :=
  let left := empty.adopt a
  let right := left.whole.adopt b
  match a.initial.bind left.name?, b.initial.bind right.name? with
  | some start, some join =>
    let ends := a.acceptIds.filterMap left.name?
    let opened := ends.foldl (fun h n => h.setAccept n false) (right.whole.setInitial start)
    (opened.splice (ends.map fun n => (n, join))).prune
  | _, _ => emptyLanguage

/-- **Repetition**, any number of times. A new accepting initial node moves silently to the old
    one, and every accepting node moves silently back to it. -/
def star (a : Graph) : Graph :=
  let copy := ((empty.addNode true).setInitial 0).adopt a
  let entry := (a.initial.bind copy.name?).toList.map fun n => (0, n)
  let back := (a.acceptIds.filterMap copy.name?).map fun n => (n, 0)
  (copy.whole.splice (entry ++ back)).prune

def repeatMin (a : Graph) (least : Nat) : Graph := Nat.repeat a.concatenate least a.star

def optional (a : Graph) : Graph := a.union emptyWord

/-- Between `least` and `most` repetitions; the empty language if there is no such number. -/
def repeatRange (a : Graph) (least most : Nat) : Graph :=
  if most < least then emptyLanguage
  else
    let required := Nat.repeat (·.concatenate a) least emptyWord
    let other := a.optional
    Nat.repeat (·.concatenate other) (most - least) required

/-! ### Intersection -/

def commonMoves (a b : Graph) (pair : NodeId × NodeId) : List (Interval × NodeId × NodeId) :=
  (a.moves pair.1).flatMap fun (i, p) => (b.moves pair.2).filterMap fun (j, q) =>
    (i.intersect j).map fun k => (k, p, q)

/-- **Intersection**: the pairs of nodes reachable by common moves. -/
def intersection (a b : Graph) : Graph :=
  match a.initial, b.initial with
  | some p, some q =>
    let pairs := explore (fun pair => (commonMoves a b pair).map (·.2))
      (a.nodeCount * b.nodeCount + 1) [] [(p, q)]
    let flags := pairs.map fun (p, q) => a.isAccept p && b.isAccept q
    let arcs := pairs.zipIdx.flatMap fun (pair, n) =>
      (commonMoves a b pair).map fun (i, dest) => (n, i, pairs.idxOf dest)
    (build flags arcs 0).declare (a.deterministic && b.deterministic)
  | _, _ => emptyLanguage

end Graph

end SymbolAutomata
