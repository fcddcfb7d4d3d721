/-
  SymbolAutomata/Graph/Basic.lean
  ===============================
  **Automaton graphs**: numbered nodes joined by arcs that are labelled with
  intervals of codepoints.

  A node has a number and a flag that says whether it accepts. Numbers given up
  by removed nodes are handed out again, the one given up last first; the cells
  in which arcs are stored work in the same way. Arcs are listed newest first.
  Several arcs may join the same two nodes.

  The initial node is a number that need not belong to a node, and `deterministic`
  is what has been declared, not what has been measured.

  A graph carries three invariants: no number waits twice to be handed out, only
  numbers without a node wait, and every arc joins two nodes of the graph. All
  other operations are built from the primitives of this file.
-/
import SymbolAutomata.Codec
import SymbolAutomata.Interval

namespace SymbolAutomata

abbrev NodeId := Nat

/-- An arc of a graph. `cell` is the place where it is stored; copying a graph goes by cells. -/
structure Arc where
  source : NodeId
  label : Interval
  target : NodeId
  cell : Nat
deriving DecidableEq

def HasNode (nodes : List (Option Bool)) (n : NodeId) : Prop := ∃ b, nodes[n]? = some (some b)

structure Graph where
  /-- The accept flag of every node, by number; `none` where there is no node. -/
  nodes : List (Option Bool)
  /-- Numbers given up by removed nodes, the latest first. -/
  vacated : List NodeId
  /-- All arcs, the newest first. -/
  arcs : List Arc
  /-- How many cells have been used for arcs so far. -/
  cells : Nat
  /-- Cells given up by removed arcs, the latest first. -/
  vacatedCells : List Nat
  initial : Option NodeId
  deterministic : Bool
  vacated_nodup : vacated.Nodup
  vacated_empty : ∀ n ∈ vacated, nodes[n]? = some none
  arcs_joined : ∀ a ∈ arcs, HasNode nodes a.source ∧ HasNode nodes a.target

namespace Graph

/-! ### Reading a graph -/

/-- The accept flag of node `n`, if there is such a node. -/
def flag? (g : Graph) (n : NodeId) : Option Bool := (g.nodes[n]?).join

def contains (g : Graph) (n : NodeId) : Bool := (g.flag? n).isSome

/-- Whether there is a node `n` and it accepts. -/
def isAccept (g : Graph) (n : NodeId) : Bool := (g.flag? n).getD false

def nodeIds (g : Graph) : List NodeId := (List.range g.nodes.length).filter g.contains

def acceptIds (g : Graph) : List NodeId := g.nodeIds.filter g.isAccept

def nodeCount (g : Graph) : Nat := g.nodeIds.length

def arcCount (g : Graph) : Nat := g.arcs.length

def outgoing (g : Graph) (n : NodeId) : List Arc := g.arcs.filter (·.source = n)

def incoming (g : Graph) (n : NodeId) : List Arc := g.arcs.filter (·.target = n)

/-- Whether an arc from `p` to `q` carries exactly the label `i`. -/
def hasArc (g : Graph) (p q : NodeId) (i : Interval) : Bool :=
  (g.outgoing p).any fun a => a.target = q && a.label = i

/-- **The arrow relation** of a graph: some arc leads from `p` to `q` with label `i`. -/
def Arrow (g : Graph) (p : NodeId) (i : Interval) (q : NodeId) : Prop :=
  ∃ a ∈ g.arcs, a.source = p ∧ a.label = i ∧ a.target = q

theorem contains_iff {g : Graph} {n : NodeId} : g.contains n = true ↔ HasNode g.nodes n := by
  unfold contains flag? HasNode
  cases h : g.nodes[n]? with
  | none => simp
  | some b => cases b <;> simp

theorem hasArc_iff {g : Graph} {p q : NodeId} {i : Interval} :
    g.hasArc p q i = true ↔ g.Arrow p i q := by
  simp only [hasArc, outgoing, Arrow, List.any_eq_true, List.mem_filter, decide_eq_true_eq,
    Bool.and_eq_true]
  constructor
  · rintro ⟨a, ⟨ha, hp⟩, hq, hi⟩
    exact ⟨a, ha, hp, hi, hq⟩
  · rintro ⟨a, ha, hp, hi, hq⟩
    exact ⟨a, ⟨ha, hp⟩, hq, hi⟩

/-! ### The table of nodes -/

theorem HasNode.set {nodes : List (Option Bool)} {m n : NodeId} {b : Bool}
    (h : HasNode nodes n) : HasNode (nodes.set m (some b)) n := by
  obtain ⟨c, hc⟩ := h
  by_cases hm : m = n
  · subst hm
    refine ⟨b, ?_⟩
    rw [List.getElem?_set]
    have := (List.getElem?_eq_some_iff.1 hc).1
    simp [this]
  · refine ⟨c, ?_⟩
    rw [List.getElem?_set]
    simp [hm, hc]

theorem HasNode.append {nodes more : List (Option Bool)} {n : NodeId} (h : HasNode nodes n) :
    HasNode (nodes ++ more) n := by
  obtain ⟨c, hc⟩ := h
  refine ⟨c, ?_⟩
  rw [List.getElem?_append_left (List.getElem?_eq_some_iff.1 hc).1]
  exact hc

/-! ### Primitives -/

/-- The graph without nodes, declared deterministic. -/
def empty : Graph where
  nodes := []
  vacated := []
  arcs := []
  cells := 0
  vacatedCells := []
  initial := none
  deterministic := true
  vacated_nodup := List.nodup_nil
  vacated_empty := by simp
  arcs_joined := by simp

/-- The number that the next node gets. -/
def nextNode (g : Graph) : NodeId := g.vacated.headD g.nodes.length

/-- Adds the node `g.nextNode`. -/
def addNode (g : Graph) (accept : Bool) : Graph :=
  match h : g.vacated with
  | [] =>
    { g with
      nodes := g.nodes ++ [some accept]
      vacated := []
      vacated_nodup := List.nodup_nil
      vacated_empty := by simp
      arcs_joined := fun a ha =>
        ⟨HasNode.append (g.arcs_joined a ha).1, HasNode.append (g.arcs_joined a ha).2⟩ }
  | v :: vs =>
    { g with
      nodes := g.nodes.set v (some accept)
      vacated := vs
      vacated_nodup := (List.nodup_cons.1 (h ▸ g.vacated_nodup)).2
      vacated_empty := fun n hn => by
        have hne : v ≠ n := fun e =>
          (List.nodup_cons.1 (h ▸ g.vacated_nodup)).1 (e ▸ hn)
        rw [List.getElem?_set_ne hne]
        exact g.vacated_empty n (h ▸ List.mem_cons_of_mem v hn)
      arcs_joined := fun a ha =>
        ⟨HasNode.set (g.arcs_joined a ha).1, HasNode.set (g.arcs_joined a ha).2⟩ }

/-- Gives node `n` an accept flag; a number without a node is left alone. -/
def setAccept (g : Graph) (n : NodeId) (accept : Bool) : Graph :=
  if h : g.contains n = true then
    { g with
      nodes := g.nodes.set n (some accept)
      vacated_empty := fun m hm => by
        have hne : n ≠ m := by
          rintro rfl
          obtain ⟨b, hb⟩ := contains_iff.1 h
          have hv := g.vacated_empty n hm
          rw [hb] at hv
          cases hv
        rw [List.getElem?_set_ne hne]
        exact g.vacated_empty m hm
      arcs_joined := fun a ha =>
        ⟨HasNode.set (g.arcs_joined a ha).1, HasNode.set (g.arcs_joined a ha).2⟩ }
  else g

/-- Makes `n` the initial node, whether or not there is such a node. -/
def setInitial (g : Graph) (n : NodeId) : Graph := { g with initial := some n }

def declare (g : Graph) (deterministic : Bool) : Graph := { g with deterministic := deterministic }

def nextCell (g : Graph) : Nat := g.vacatedCells.headD g.cells

/-- Adds an arc, next to any that may already be there. Both ends have to be nodes. -/
def addArc (g : Graph) (p : NodeId) (i : Interval) (q : NodeId) : Graph :=
  if h : g.contains p = true ∧ g.contains q = true then
    { g with
      arcs := ⟨p, i, q, g.nextCell⟩ :: g.arcs
      cells := if g.vacatedCells.isEmpty then g.cells + 1 else g.cells
      vacatedCells := g.vacatedCells.tail
      arcs_joined := fun a ha => by
        rcases List.mem_cons.1 ha with rfl | ha
        · exact ⟨contains_iff.1 h.1, contains_iff.1 h.2⟩
        · exact g.arcs_joined a ha }
  else g

/-- Adds an arc unless an equal one joins the two nodes already. -/
def connect (g : Graph) (p : NodeId) (i : Interval) (q : NodeId) : Graph :=
  if g.hasArc p q i then g else g.addArc p i q

def removeArc (g : Graph) (a : Arc) : Graph :=
  if a ∈ g.arcs then
    { g with
      arcs := g.arcs.erase a
      vacatedCells := a.cell :: g.vacatedCells
      arcs_joined := fun b hb => g.arcs_joined b (List.mem_of_mem_erase hb) }
  else g

/-- The arcs at node `n` in the order in which they go when the node goes: first those that leave
    it, then the remaining ones that enter it. -/
def arcsAt (g : Graph) (n : NodeId) : List Arc :=
  g.outgoing n ++ (g.incoming n).filter (·.source ≠ n)

/-- Removes node `n` with all its arcs; a number without a node is left alone. -/
def removeNode (g : Graph) (n : NodeId) : Graph :=
  if h : g.contains n = true then
    { g with
      nodes := g.nodes.set n none
      vacated := n :: g.vacated
      arcs := g.arcs.filter fun a => a.source ≠ n && a.target ≠ n
      vacatedCells := ((g.arcsAt n).map (·.cell)).reverse ++ g.vacatedCells
      vacated_nodup := by
        refine List.nodup_cons.2 ⟨fun hm => ?_, g.vacated_nodup⟩
        obtain ⟨b, hb⟩ := contains_iff.1 h
        have hv := g.vacated_empty n hm
        rw [hb] at hv
        cases hv
      vacated_empty := fun m hm => by
        rw [List.getElem?_set]
        by_cases hmn : n = m
        · subst hmn
          obtain ⟨b, hb⟩ := contains_iff.1 h
          simp [(List.getElem?_eq_some_iff.1 hb).1]
        · rcases List.mem_cons.1 hm with rfl | hm
          · exact absurd rfl hmn
          · simpa [hmn] using g.vacated_empty m hm
      arcs_joined := fun a ha => by
        simp only [List.mem_filter, Bool.and_eq_true, decide_eq_true_eq] at ha
        obtain ⟨ha, hs, ht⟩ := ha
        obtain ⟨⟨b, hb⟩, ⟨c, hc⟩⟩ := g.arcs_joined a ha
        exact ⟨⟨b, by rw [List.getElem?_set_ne (Ne.symm hs)]; exact hb⟩,
          ⟨c, by rw [List.getElem?_set_ne (Ne.symm ht)]; exact hc⟩⟩ }
  else g

/-! ### Small graphs -/

/-- The graph of nodes with the given flags, numbered from 0, and the given arcs. -/
def build (flags : List Bool) (arcs : List (NodeId × Interval × NodeId)) (initial : NodeId) :
    Graph :=
  (arcs.foldl (fun g (p, i, q) => g.connect p i q) (flags.foldl addNode empty)).setInitial initial

/-- One node that rejects: the empty language. -/
def emptyLanguage : Graph := build [false] [] 0

def emptyWord : Graph := build [true] [] 0

/-- One step over any codepoint of one of the labels. -/
def oneOf (labels : List Interval) : Graph :=
  build [false, true] (labels.map fun i => (0, i, 1)) 0

end Graph

end SymbolAutomata
