/-
  SymbolAutomata/Refinement.lean
  ==============================
  **The coarsest congruence on a table.**

  A table has finitely many states and letters, a partial successor function and
  an accept flag per state. Partition refinement starts from the accepting and
  the rejecting states and splits every block that a waiting block tells apart:
  if some states of the block enter it over a letter and others do not, the
  block falls into two. Of the two the smaller waits next, unless the whole was
  waiting already.

  The order in which the affected blocks of one round are taken is a parameter;
  the classes do not depend on it.
-/
import SymbolAutomata.Ascending

namespace SymbolAutomata

/-- A finite automaton as a table. A missing successor ends every reading there. -/
structure Table where
  /-- The states are `0 … size - 1`. -/
  size : Nat
  /-- The letters are `0 … letters - 1`. -/
  letters : Nat
  next : Nat → Nat → Option Nat
  accepting : Nat → Bool

namespace Table

/-- The state of a reading: the blocks by number and the numbers of the blocks that wait, the
    first of which is taken first. -/
structure Partition where
  blocks : List (List Nat)
  waiting : List Nat

/-- The number of the block that holds state `i`. -/
def Partition.blockOf (p : Partition) (i : Nat) : Nat := p.blocks.findIdx (i ∈ ·)

/-- The accepting states and the others, as far as there are any; both wait. -/
def start (t : Table) : Partition :=
  let states := List.range t.size
  let blocks := [states.filter t.accepting, states.filter (!t.accepting ·)].filter (!·.isEmpty)
  ⟨blocks, (List.range blocks.length).reverse⟩

/-- The states that enter `splitter` over letter `c`. -/
def entering (t : Table) (splitter : List Nat) (c : Nat) : List Nat :=
  (List.range t.size).filter fun i =>
    match t.next i c with
    | some j => splitter.contains j
    | none => false

/-- Splits block `b` into its members among `hits` and the others. The others get a new number. -/
def Partition.split (p : Partition) (hits : List Nat) (b : Nat) : Partition :=
  let block := p.blocks.getD b []
  let kept := block.filter hits.contains
  let moved := block.filter (!hits.contains ·)
  if kept.isEmpty || moved.isEmpty then p
  else
    let new := p.blocks.length
    let next := if p.waiting.contains b || moved.length ≤ kept.length then new else b
    ⟨p.blocks.set b kept ++ [moved], next :: p.waiting⟩

/-- Splits every block that `splitter` tells apart over letter `c`. -/
def splitOver (t : Table) (order : List Nat → List Nat) (splitter : List Nat) (p : Partition)
    (c : Nat) : Partition :=
  let hits := t.entering splitter c
  (order (fresh [] (hits.map p.blockOf))).foldl (fun q b => q.split hits b) p

/-- Takes waiting blocks until none is left, at most `fuel` of them. `order` says in which order
    the affected blocks are taken; its first argument counts down over the rounds. -/
def refine (t : Table) (order : Nat → Nat → List Nat → List Nat) : Nat → Partition → Partition
  | 0, p => p
  | fuel + 1, p =>
    match p.waiting with
    | [] => p
    | b :: rest =>
      let splitter := p.blocks.getD b []
      refine t order fuel ((List.range t.letters).foldl
        (fun q c => t.splitOver (order fuel c) splitter q c) { p with waiting := rest })

/-- **The class of every state.** Classes are numbered in the order of their first states. A split
    makes one more block and lets one more wait, and there are at most `size` blocks, so `size`
    rounds are enough. -/
def classesBy (t : Table) (order : Nat → Nat → List Nat → List Nat) : List Nat :=
  let last := t.refine order t.size t.start
  let blocks := (List.range t.size).map last.blockOf
  let numbers := fresh [] blocks
  blocks.map fun b => numbers.idxOf b

/-- The class of every state. -/
def classes (t : Table) : List Nat := t.classesBy fun _ _ bs => bs

end Table

end SymbolAutomata
