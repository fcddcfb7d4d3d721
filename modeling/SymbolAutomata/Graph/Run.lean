/-
  SymbolAutomata/Graph/Run.lean
  =============================
  **Reading words.**

  A graph reads a word by keeping the set of nodes where it may stand; `run`
  accepts if the set holds an accepting node at the end. `step` and `walk` follow
  the newest arc only and are right for graphs that are deterministic.
-/
import SymbolAutomata.Ascending
import SymbolAutomata.Graph.Basic

namespace SymbolAutomata

/-- Where an arc of a known node leads, and by what label. -/
abbrev Move := Interval × NodeId

/-- Moves are ordered by label, then by destination. -/
def Move.precedes (a b : Move) : Bool :=
  match a.1.compare b.1 with
  | .lt => true
  | .eq => a.2 ≤ b.2
  | .gt => false

namespace Graph

/-- The moves from node `n`, sorted. -/
def moves (g : Graph) (n : NodeId) : List Move :=
  arrange Move.precedes ((g.outgoing n).map fun a => (a.label, a.target))

/-- The destination of the newest arc that carries `c`. -/
def step (g : Graph) (n : NodeId) (c : Codepoint) : Option NodeId :=
  ((g.outgoing n).find? (·.label.contains c)).map (·.target)

/-- The destinations of all arcs that carry `c`, the newest first, one per arc. -/
def targets (g : Graph) (n : NodeId) (c : Codepoint) : List NodeId :=
  ((g.outgoing n).filter (·.label.contains c)).map (·.target)

def advance (g : Graph) (c : Codepoint) (places : List NodeId) : List NodeId :=
  fresh [] (places.flatMap (g.targets · c))

/-- Whether the word leads from one of `places` to an accepting node. -/
def runFrom (g : Graph) : List NodeId → List Codepoint → Bool
  | places, [] => places.any g.isAccept
  | places, c :: w => g.runFrom (g.advance c places) w

/-- **Acceptance.** Without an initial node nothing is accepted. -/
def run (g : Graph) (w : List Codepoint) : Bool :=
  match g.initial with
  | none => false
  | some i => g.runFrom [i] w

/-- Whether the newest arcs lead from node `n` to an accepting node. -/
def walk (g : Graph) : NodeId → List Codepoint → Bool
  | n, [] => g.isAccept n
  | n, c :: w =>
    match g.step n c with
    | none => false
    | some m => g.walk m w

/-! ### What the readings say about arrows -/

theorem mem_moves {g : Graph} {n m : NodeId} {i : Interval} :
    (i, m) ∈ g.moves n ↔ g.Arrow n i m := by
  simp only [moves, List.mem_mergeSort, List.mem_map, outgoing, List.mem_filter, decide_eq_true_eq,
    Prod.mk.injEq, Arrow]
  constructor
  · rintro ⟨a, ⟨ha, hs⟩, hi, ht⟩
    exact ⟨a, ha, hs, hi, ht⟩
  · rintro ⟨a, ha, hs, hi, ht⟩
    exact ⟨a, ⟨ha, hs⟩, hi, ht⟩

theorem mem_targets {g : Graph} {n m : NodeId} {c : Codepoint} :
    m ∈ g.targets n c ↔ ∃ i, g.Arrow n i m ∧ i.contains c = true := by
  simp only [targets, List.mem_map, outgoing, List.mem_filter, decide_eq_true_eq, Arrow]
  constructor
  · rintro ⟨a, ⟨⟨ha, hs⟩, hc⟩, ht⟩
    exact ⟨a.label, ⟨a, ha, hs, rfl, ht⟩, hc⟩
  · rintro ⟨i, ⟨a, ha, hs, hi, ht⟩, hc⟩
    exact ⟨a, ⟨⟨ha, hs⟩, hi ▸ hc⟩, ht⟩

theorem mem_advance {g : Graph} {c : Codepoint} {places : List NodeId} {m : NodeId} :
    m ∈ g.advance c places ↔ ∃ n ∈ places, m ∈ g.targets n c := by
  simp [advance, mem_fresh]

end Graph

end SymbolAutomata
