/-
  SymbolAutomata/Proofs/Graph/Splicing.lean
  =========================================
  **Spliced graphs are automata with silent moves.**

  `withSilent` reads a graph and a list of pairs as a nondeterministic automaton in
  which every pair is a move that reads nothing.  A graph into which the pairs have been
  spliced has no such moves and accepts the same words, from every node
  (`splice_correct`).

  Splicing goes through the nodes at which pairs start, and for each of them through
  the nodes that it reaches, in an order that means nothing (`SplicingOrder`).  All copies
  are taken from the graph as it is before, so the flags and the arrows of the result
  depend on what is listed and not on where it stands (`splicedBy_congr`).
-/
import Mathlib
import SymbolAutomata.Proofs.Graph.Silent

namespace SymbolAutomata

namespace Graph

/-! ### Silent moves -/

/-- **The graph with the pairs as silent moves**, started at `p`. -/
def withSilent (g : Graph) (pairs : List (NodeId × NodeId)) (p : NodeId) :
    εNFA Codepoint NodeId where
  step n
    | none => {m | (n, m) ∈ pairs}
    | some c => {m | m ∈ g.targets n c}
  start := {p}
  accept := {n | g.isAccept n = true}

section Silent

variable {g : Graph} {pairs : List (NodeId × NodeId)}

/-- Wandering along a word is following a path that spells it once the silent steps are left out. -/
theorem wanders_iff_isPath {s p q : NodeId} {w : List Codepoint} :
    Wanders g pairs p w q ↔ ∃ x, x.reduceOption = w ∧ (g.withSilent pairs s).IsPath p q x := by
  constructor
  · intro h
    induction h with
    | stay p => exact ⟨[], rfl, .nil p⟩
    | silent pair _ ih =>
      obtain ⟨x, rfl, path⟩ := ih
      exact ⟨none :: x, List.reduceOption_cons_of_none x, .cons _ _ _ none x pair path⟩
    | @read _ _ _ c _ dest _ ih =>
      obtain ⟨x, rfl, path⟩ := ih
      exact ⟨some c :: x, List.reduceOption_cons_of_some c x, .cons _ _ _ (some c) x dest path⟩
  · intro h
    obtain ⟨x, rfl, path⟩ := h
    induction path with
    | nil p => exact .stay p
    | cons t s u a x step _ ih =>
      cases a with
      | none =>
        rw [List.reduceOption_cons_of_none]
        exact .silent step ih
      | some c =>
        rw [List.reduceOption_cons_of_some]
        exact .read step ih

theorem mem_accepts_withSilent {p : NodeId} {w : List Codepoint} :
    w ∈ (g.withSilent pairs p).accepts ↔ ∃ q, Wanders g pairs p w q ∧ g.isAccept q = true := by
  rw [εNFA.mem_accepts_iff_exists_path]
  simp only [wanders_iff_isPath (s := p)]
  constructor
  · intro h
    obtain ⟨_, q, x, rfl, hq, hx, path⟩ := h
    exact ⟨q, ⟨x, hx, path⟩, hq⟩
  · intro h
    obtain ⟨q, ⟨x, hx, path⟩, hq⟩ := h
    exact ⟨p, q, x, rfl, hq, hx, path⟩

end Silent

/-! ### Orders of splicing -/

/-- The list holds the members of a set, each of them once. -/
def Lists {α : Type} (xs : List α) (P : α → Prop) : Prop := xs.Nodup ∧ ∀ x, x ∈ xs ↔ P x

/-- **An order of splicing**: the nodes at which pairs start are listed in some order, and for each
    of them, again in some order, the other nodes that it reaches silently. -/
def SplicingOrder (pairs reached : List (NodeId × NodeId)) : Prop :=
  ∃ (sources : List NodeId) (reach : NodeId → List NodeId),
    Lists sources (fun p => ∃ q, (p, q) ∈ pairs) ∧
    (∀ p ∈ sources, Lists (reach p) fun q => q ≠ p ∧ Leads (silentNext pairs) p q) ∧
    reached = sources.flatMap fun p => (reach p).map fun q => (p, q)

section Orders

variable {g : Graph} {pairs reached : List (NodeId × NodeId)}

theorem SplicingOrder.mem_iff (h : SplicingOrder pairs reached) {p q : NodeId} :
    (p, q) ∈ reached ↔ (p, q) ∈ silentPairs pairs := by
  obtain ⟨sources, reach, hsources, hreach, rfl⟩ := h
  rw [mem_silentPairs]
  simp only [List.mem_flatMap, List.mem_map, Prod.mk.injEq]
  constructor
  · intro hfound
    obtain ⟨p, hp, q, hq, rfl, rfl⟩ := hfound
    exact ((hreach p hp).2 q).1 hq
  · intro hfound
    obtain ⟨hne, hlead⟩ := hfound
    have hp : p ∈ sources := by
      rw [hsources.2]
      -- a way to another node has a first step
      cases hlead with
      | refl _ => exact absurd rfl hne
      | step first _ => exact ⟨_, mem_silentNext.1 first⟩
    exact ⟨p, hp, q, ((hreach p hp).2 q).2 ⟨hne, hlead⟩, rfl, rfl⟩

/-- Any rearrangement of what the library goes through is an order of splicing. -/
theorem splicingOrder_of_perm (sources : List NodeId) (reach : NodeId → List NodeId)
    (hsources : sources.Perm (fresh [] (pairs.map (·.1))))
    (hreach : ∀ p ∈ sources, (reach p).Perm (silentReach pairs p)) :
    SplicingOrder pairs (sources.flatMap fun p => (reach p).map fun q => (p, q)) := by
  refine ⟨sources, reach, ⟨hsources.nodup_iff.2 (fresh_nodup _ _), ?_⟩, ?_, rfl⟩
  · intro p
    rw [hsources.mem_iff]
    simp [mem_fresh]
  · intro p hp
    refine ⟨(hreach p hp).nodup_iff.2 (silentReach_nodup pairs p), fun q => ?_⟩
    rw [(hreach p hp).mem_iff, mem_silentReach]

/-- The order of first appearance, which the library takes, is one of them. -/
theorem splicingOrder_silentPairs (pairs : List (NodeId × NodeId)) :
    SplicingOrder pairs (silentPairs pairs) :=
  splicingOrder_of_perm _ (silentReach pairs) (List.Perm.refl _) fun _ _ => List.Perm.refl _

/-- **What is listed decides, not the order.** -/
theorem splicedBy_congr {more : List (NodeId × NodeId)}
    (same : ∀ p q, (p, q) ∈ reached ↔ (p, q) ∈ more) :
    (∀ n, (g.splicedBy reached).flag? n = (g.splicedBy more).flag? n) ∧
      ∀ p i q, (g.splicedBy reached).Arrow p i q ↔ (g.splicedBy more).Arrow p i q := by
  constructor
  · intro n
    apply flag?_congr
    · rw [contains_splicedBy, contains_splicedBy]
    · rw [Bool.eq_iff_iff, isAccept_splicedBy, isAccept_splicedBy]
      simp only [same]
  · intro p i q
    rw [arrow_splicedBy, arrow_splicedBy]
    simp only [same]

end Orders

/-- **Splicing is right, and its order does not matter.**  Let pairs start at nodes of a graph.  The
    graph into which they are spliced accepts from every node just the words that the graph with the
    pairs as silent moves accepts from there.  Whatever order the nodes and what they reach are
    gone through in, the result has the same nodes with the same flags and the same arrows. -/
theorem splice_correct {g : Graph} {pairs : List (NodeId × NodeId)}
    (hpairs : ∀ e ∈ pairs, g.contains e.1 = true) :
    (∀ p w, (g.splice pairs).runFrom [p] w = true ↔ w ∈ (g.withSilent pairs p).accepts) ∧
      ∀ reached, SplicingOrder pairs reached →
        (∀ n, (g.splicedBy reached).flag? n = (g.splice pairs).flag? n) ∧
          ∀ p i q, (g.splicedBy reached).Arrow p i q ↔ (g.splice pairs).Arrow p i q := by
  constructor
  · intro p w
    rw [runFrom_eq_true_iff, mem_accepts_withSilent]
    simp only [List.mem_singleton, exists_eq_left]
    exact acceptsFrom_splice hpairs
  · intro reached horder
    exact splicedBy_congr fun _ _ => horder.mem_iff

/-- Two nodes with one arrow each and a third that accepts. -/
def relay : Graph :=
  build [false, false, true] [(0, Interval.single 10, 1), (1, Interval.single 20, 2)] 0

/-- Silent moves in a cycle, one of them given twice, one from a node to itself and one into the
    cycle; spliced in the order of first appearance and in the opposite one. -/
theorem splice_correct_relay :
    let pairs := [(0, 1), (1, 0), (0, 1), (2, 2), (2, 0)]
    (∀ e ∈ pairs, relay.contains e.1 = true) ∧
      (relay.splice pairs).runFrom [2] [10, 10, 20, 20] = true ∧
      [10, 10, 20, 20] ∈ (relay.withSilent pairs 2).accepts ∧
      SplicingOrder pairs [(2, 1), (2, 0), (1, 0), (0, 1)] ∧
      (relay.splicedBy [(2, 1), (2, 0), (1, 0), (0, 1)]).Arrow 2 (Interval.single 20) 2 := by
  intro pairs
  have hpairs : ∀ e ∈ pairs, relay.contains e.1 = true := by decide
  have hrun : (relay.splice pairs).runFrom [2] [10, 10, 20, 20] = true := by decide_cbv
  have horder : SplicingOrder pairs [(2, 1), (2, 0), (1, 0), (0, 1)] :=
    splicingOrder_of_perm [2, 1, 0] (fun p => (silentReach pairs p).reverse) (by decide)
      fun _ _ => List.reverse_perm _
  have harrow : (relay.splice pairs).Arrow 2 (Interval.single 20) 2 := hasArc_iff.1 (by decide_cbv)
  obtain ⟨hwords, horders⟩ := splice_correct hpairs
  exact ⟨hpairs, hrun, (hwords 2 _).1 hrun, horder, ((horders _ horder).2 2 _ 2).2 harrow⟩

end Graph

end SymbolAutomata
