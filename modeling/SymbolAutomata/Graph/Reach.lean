/-
  SymbolAutomata/Graph/Reach.lean
  ===============================
  **Reachable and live nodes.**

  `reachable` numbers the nodes by a breadth-first search from the initial node;
  it is the canonical order of a graph. `live` collects the nodes from which an
  accepting node can be reached. `prune` removes what the search does not find.

  In terms of paths, a node is reachable if some word leads there from the initial
  node (`mem_reachable`) and live if some word is accepted from it (`mem_live`).
-/
import SymbolAutomata.Graph.Language
import SymbolAutomata.Graph.Lemmas
import SymbolAutomata.Graph.Search

namespace SymbolAutomata

namespace Graph

/-- The nodes found from the initial node, in the order of the search, which takes moves in their
    order. A graph whose initial node is missing lists all its nodes in increasing order. -/
def reachable (g : Graph) : List NodeId :=
  match g.initial.filter g.contains with
  | none => g.nodeIds
  | some i => explore (fun n => (g.moves n).map (·.2)) g.nodeCount [] [i]

/-- Removes the nodes that are not reachable. A graph that has never been given an initial node is
    left alone. -/
def prune (g : Graph) : Graph :=
  if g.initial.isNone then g
  else
    let kept := g.reachable
    (g.nodeIds.filter (· ∉ kept)).foldl removeNode g

/-- The nodes from which some accepting node can be reached. -/
def live (g : Graph) : List NodeId :=
  explore (fun n => (g.incoming n).map (·.source)) g.nodeCount [] g.acceptIds

/-! ### Paths to and from a node -/

theorem Reads.of_arrow {g : Graph} {p q : NodeId} {i : Interval} (h : g.Arrow p i q) :
    g.Reads p [i.min] q :=
  .cons h i.contains_min (.nil q)

theorem leads_moves_iff {g : Graph} {p q : NodeId} :
    Leads (fun n => (g.moves n).map (·.2)) p q ↔ ∃ w, g.Reads p w q := by
  constructor
  · intro h
    induction h with
    | refl n => exact ⟨[], .nil n⟩
    | step first _ ih =>
      obtain ⟨⟨i, m⟩, hm, rfl⟩ := List.mem_map.1 first
      obtain ⟨w, hw⟩ := ih
      exact ⟨_, reads_append_iff.2 ⟨m, Reads.of_arrow (mem_moves.1 hm), hw⟩⟩
  · rintro ⟨w, h⟩
    induction h with
    | nil n => exact .refl n
    | cons arrow _ _ ih => exact .step (List.mem_map.2 ⟨_, mem_moves.2 arrow, rfl⟩) ih

/-- **Reachable nodes** are those that words lead to from the initial node. -/
theorem mem_reachable {g : Graph} {i n : NodeId} (h : g.initial = some i)
    (hi : g.contains i = true) : n ∈ g.reachable ↔ ∃ w, g.Reads i w n := by
  have hfilter : g.initial.filter g.contains = some i := by simp [h, hi]
  have closed : ∀ x ∈ g.nodeIds, ∀ y ∈ (g.moves x).map (·.2), y ∈ g.nodeIds := by
    intro x _ y hy
    obtain ⟨⟨j, m⟩, hm, rfl⟩ := List.mem_map.1 hy
    exact mem_nodeIds.2 (mem_moves.1 hm).contains_target
  unfold reachable
  rw [hfilter]
  refine (mem_explore_iff closed (by simp [hi]) (by simp) (Nat.le_refl _)).trans ?_
  simp [leads_moves_iff]

theorem leads_incoming_iff {g : Graph} {p q : NodeId} :
    Leads (fun n => (g.incoming n).map (·.source)) q p ↔ ∃ w, g.Reads p w q := by
  constructor
  · intro h
    induction h with
    | refl n => exact ⟨[], .nil n⟩
    | step first _ ih =>
      obtain ⟨a, ha, hs⟩ := List.mem_map.1 first
      obtain ⟨harc, ht⟩ := mem_incoming.1 ha
      obtain ⟨w, hw⟩ := ih
      exact ⟨_, reads_append_iff.2 ⟨_, hw, Reads.of_arrow ⟨a, harc, hs, rfl, ht⟩⟩⟩
  · rintro ⟨w, h⟩
    induction h with
    | nil n => exact .refl n
    | cons arrow _ _ ih =>
      obtain ⟨a, ha, rfl, -, rfl⟩ := arrow
      exact ih.trans (.step (List.mem_map.2 ⟨a, mem_incoming.2 ⟨ha, rfl⟩, rfl⟩) (.refl _))

/-- **Live nodes** are those from which some word is accepted. -/
theorem mem_live {g : Graph} {n : NodeId} : n ∈ g.live ↔ ∃ w, g.AcceptsFrom n w := by
  have closed : ∀ x ∈ g.nodeIds, ∀ y ∈ (g.incoming x).map (·.source), y ∈ g.nodeIds := by
    intro x _ y hy
    obtain ⟨a, ha, rfl⟩ := List.mem_map.1 hy
    have arrow : g.Arrow a.source a.label a.target := ⟨a, (mem_incoming.1 ha).1, rfl, rfl, rfl⟩
    exact mem_nodeIds.2 arrow.contains_source
  have known : ∀ x ∈ g.acceptIds, x ∈ g.nodeIds := fun x hx =>
    mem_nodeIds.2 (contains_of_isAccept (mem_acceptIds.1 hx))
  have distinct : g.acceptIds.Nodup := (g.nodeIds_sorted.imp Nat.ne_of_lt).filter _
  unfold live AcceptsFrom
  refine (mem_explore_iff closed known distinct (Nat.le_refl _)).trans ?_
  simp only [leads_incoming_iff, mem_acceptIds]
  constructor
  · rintro ⟨q, hq, w, hw⟩
    exact ⟨w, q, hw, hq⟩
  · rintro ⟨w, q, hw, hq⟩
    exact ⟨q, hq, w, hw⟩

/-! ### Determinism -/

/-- Whether the sorted moves of one node never lead over one codepoint to two places. `reach` is
    the furthest upper bound so far and the destination it belongs to. -/
def sweep : Option (Codepoint × NodeId) → List Move → Bool
  | _, [] => true
  | none, (i, dest) :: rest => sweep (some (i.max, dest)) rest
  | some (max, last), (i, dest) :: rest =>
    if i.min ≤ max ∧ last ≠ dest then false
    else sweep (if max < i.max then some (i.max, dest) else some (max, last)) rest

/-- Whether no node has overlapping labels that lead to different nodes. -/
def isDeterministic (g : Graph) : Bool := g.nodeIds.all fun n => sweep none (g.moves n)

/-! ### Codepoint classes -/

/-- The codepoints at which the arcs that apply may change: 0, the start of every label and the
    codepoint after every label. -/
def startPoints (g : Graph) : List Codepoint :=
  ascending (Codec.minCodepoint :: g.arcs.flatMap fun a =>
    a.label.min :: (if a.label.max < Codec.maxCodepoint then [a.label.max + 1] else []))

/-- **Codepoint classes.** Each start point stands for the codepoints up to the next one, the last
    for those up to the end of the codec. No arc tells the codepoints of a class apart. -/
def classesOf : List Codepoint → List (Codepoint × Interval)
  | [] => []
  | [p] => [(p, Interval.between p Codec.maxCodepoint)]
  | p :: q :: rest => (p, Interval.between p (q - 1)) :: classesOf (q :: rest)

/-- The start points of the graph with their classes. -/
def classes (g : Graph) : List (Codepoint × Interval) := classesOf g.startPoints

end Graph

end SymbolAutomata
