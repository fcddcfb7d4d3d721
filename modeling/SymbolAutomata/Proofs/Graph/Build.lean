/-
  SymbolAutomata/Proofs/Graph/Build.lean
  ======================================
  **What repeated primitives do to a graph.**

  Constructions add nodes, set flags and connect nodes in loops over lists.  A
  loop keeps every view that its body keeps (`foldl_keeps`); what it changes is
  said here once for each kind of loop: `arrow_connectAll` for arrows,
  `flag?_setAcceptAll` for flags, and `flag?_build`, `arrow_build` for graphs
  that are written down as a list of flags and a list of arcs.  Such a graph may
  grow at the end of either list, in any order (`addNode_build`, `connect_build`).
-/
import SymbolAutomata.Ascending
import SymbolAutomata.Graph.Lemmas

namespace SymbolAutomata

theorem foldl_keeps {α β γ : Type} (view : β → γ) {round : β → α → β}
    (keep : ∀ b a, view (round b a) = view b) (items : List α) (b : β) :
    view (items.foldl round b) = view b := by
  induction items generalizing b with
  | nil => rfl
  | cons a items ih => rw [List.foldl_cons, ih, keep]

namespace Graph

/-! ### Connecting nodes in a loop -/

/-- Connects the nodes that the list names, one pair after the other. -/
def connectAll (g : Graph) (arrows : List (NodeId × Interval × NodeId)) : Graph :=
  arrows.foldl (fun h (p, i, q) => h.connect p i q) g

@[simp] theorem flag?_connectAll (g : Graph) (arrows : List (NodeId × Interval × NodeId))
    (n : NodeId) : (g.connectAll arrows).flag? n = g.flag? n :=
  foldl_keeps (fun h => h.flag? n) (fun h a => flag?_connect h a.1 a.2.1 a.2.2 n) arrows g

@[simp] theorem initial_connectAll (g : Graph) (arrows : List (NodeId × Interval × NodeId)) :
    (g.connectAll arrows).initial = g.initial :=
  foldl_keeps (·.initial) (fun h a => initial_connect h a.1 a.2.1 a.2.2) arrows g

@[simp] theorem deterministic_connectAll (g : Graph)
    (arrows : List (NodeId × Interval × NodeId)) :
    (g.connectAll arrows).deterministic = g.deterministic :=
  foldl_keeps (·.deterministic) (fun h a => deterministic_connect h a.1 a.2.1 a.2.2) arrows g

@[simp] theorem contains_connectAll (g : Graph) (arrows : List (NodeId × Interval × NodeId))
    (n : NodeId) : (g.connectAll arrows).contains n = g.contains n := by
  simp [contains_eq_isSome]

/-- **The arrows of a loop** that connects nodes: the old ones and those on the list. -/
theorem arrow_connectAll {g : Graph} {arrows : List (NodeId × Interval × NodeId)} {p q : NodeId}
    {i : Interval} :
    (g.connectAll arrows).Arrow p i q ↔
      g.Arrow p i q ∨
        ((g.contains p = true ∧ g.contains q = true) ∧ (p, i, q) ∈ arrows) := by
  induction arrows generalizing g with
  | nil => simp [connectAll]
  | cons a arrows ih =>
    obtain ⟨p', i', q'⟩ := a
    have hrest : g.connectAll ((p', i', q') :: arrows) =
        (g.connect p' i' q').connectAll arrows := rfl
    rw [hrest, ih, arrow_connect]
    simp only [contains_connect, List.mem_cons, Prod.mk.injEq]
    constructor
    · intro h
      rcases h with (old | ⟨hends, rfl, rfl, rfl⟩) | ⟨hends, hmem⟩
      · exact Or.inl old
      · exact Or.inr ⟨hends, Or.inl ⟨rfl, rfl, rfl⟩⟩
      · exact Or.inr ⟨hends, Or.inr hmem⟩
    · intro h
      rcases h with old | ⟨hends, ⟨rfl, rfl, rfl⟩ | hmem⟩
      · exact Or.inl (Or.inl old)
      · exact Or.inl (Or.inr ⟨hends, rfl, rfl, rfl⟩)
      · exact Or.inr ⟨hends, hmem⟩

/-! ### Setting flags in a loop -/

/-- Gives all the nodes of a list the same flag. -/
def setAcceptAll (g : Graph) (ns : List NodeId) (accept : Bool) : Graph :=
  ns.foldl (fun h n => h.setAccept n accept) g

@[simp] theorem arcs_setAcceptAll (g : Graph) (ns : List NodeId) (b : Bool) :
    (g.setAcceptAll ns b).arcs = g.arcs :=
  foldl_keeps (·.arcs) (fun h n => arcs_setAccept h n b) ns g

@[simp] theorem initial_setAcceptAll (g : Graph) (ns : List NodeId) (b : Bool) :
    (g.setAcceptAll ns b).initial = g.initial :=
  foldl_keeps (·.initial) (fun h n => initial_setAccept h n b) ns g

@[simp] theorem contains_setAcceptAll (g : Graph) (ns : List NodeId) (b : Bool) (n : NodeId) :
    (g.setAcceptAll ns b).contains n = g.contains n :=
  foldl_keeps (·.contains n) (fun h m => contains_setAccept h m b n) ns g

@[simp] theorem arrow_setAcceptAll {g : Graph} {ns : List NodeId} {b : Bool} {p q : NodeId}
    {i : Interval} : (g.setAcceptAll ns b).Arrow p i q ↔ g.Arrow p i q :=
  arrow_congr (arcs_setAcceptAll g ns b)

theorem flag?_setAcceptAll (g : Graph) (ns : List NodeId) (b : Bool) (n : NodeId) :
    (g.setAcceptAll ns b).flag? n =
      if n ∈ ns ∧ g.contains n = true then some b else g.flag? n := by
  induction ns generalizing g with
  | nil => simp [setAcceptAll]
  | cons m ns ih =>
    have hrest : g.setAcceptAll (m :: ns) b = (g.setAccept m b).setAcceptAll ns b := rfl
    rw [hrest, ih, contains_setAccept, flag?_setAccept]
    by_cases hn : g.contains n = true
    · by_cases hmem : n ∈ ns
      · simp [hn, hmem]
      · by_cases hm : n = m
        · subst hm
          simp [hn]
        · simp [hmem, hm]
    · have hno : ¬ (n = m ∧ g.contains m = true) := by
        intro h
        rcases h with ⟨rfl, hm⟩
        exact hn hm
      simp [hn, hno]

theorem isAccept_setAcceptAll (g : Graph) (ns : List NodeId) (b : Bool) (n : NodeId) :
    (g.setAcceptAll ns b).isAccept n =
      if n ∈ ns ∧ g.contains n = true then b else g.isAccept n := by
  unfold isAccept
  rw [flag?_setAcceptAll]
  split <;> rfl

/-! ### Graphs written down as lists -/

theorem nodes_foldl_addNode {g : Graph} (hv : g.vacated = []) (flags : List Bool) :
    (flags.foldl addNode g).nodes = g.nodes ++ flags.map some ∧
      (flags.foldl addNode g).vacated = [] := by
  induction flags generalizing g with
  | nil => simp [hv]
  | cons b flags ih =>
    have hstep : (g.addNode b).nodes = g.nodes ++ [some b] ∧ (g.addNode b).vacated = [] := by
      unfold addNode
      split
      next => exact ⟨rfl, rfl⟩
      next h => rw [hv] at h; cases h
    obtain ⟨hnodes, hvac⟩ := ih hstep.2
    refine ⟨?_, hvac⟩
    rw [List.foldl_cons, hnodes, hstep.1]
    simp

theorem build_eq (flags : List Bool) (arcs : List (NodeId × Interval × NodeId))
    (initial : NodeId) :
    build flags arcs initial = ((flags.foldl addNode empty).connectAll arcs).setInitial initial :=
  rfl

@[simp] theorem flag?_build (flags : List Bool) (arcs : List (NodeId × Interval × NodeId))
    (initial n : NodeId) : (build flags arcs initial).flag? n = flags[n]? := by
  rw [build_eq, flag?_setInitial, flag?_connectAll]
  unfold flag?
  rw [(nodes_foldl_addNode (g := empty) rfl flags).1]
  simp only [empty, List.nil_append, List.getElem?_map]
  cases flags[n]? <;> rfl

theorem contains_build {flags : List Bool} {arcs : List (NodeId × Interval × NodeId)}
    {initial n : NodeId} : (build flags arcs initial).contains n = true ↔ n < flags.length := by
  rw [contains_eq_isSome, flag?_build]
  simp

/-- **The arrows of a graph that is written down** are those of the list that join its nodes. -/
theorem arrow_build {flags : List Bool} {arcs : List (NodeId × Interval × NodeId)}
    {initial p q : NodeId} {i : Interval} :
    (build flags arcs initial).Arrow p i q ↔
      (p, i, q) ∈ arcs ∧ p < flags.length ∧ q < flags.length := by
  have hnone : ¬ (flags.foldl addNode empty).Arrow p i q := by
    have harcs := foldl_keeps (·.arcs) arcs_addNode flags empty
    rw [arrow_congr harcs]
    exact not_arrow_empty
  have hnode : ∀ n, (flags.foldl addNode empty).contains n = true ↔ n < flags.length := by
    intro n
    have hbuild : (build flags [] initial).contains n = true ↔ n < flags.length := contains_build
    rw [← hbuild]
    rfl
  rw [build_eq, arrow_setInitial, arrow_connectAll, hnode, hnode]
  constructor
  · intro h
    rcases h with old | ⟨hends, hmem⟩
    · exact absurd old hnone
    · exact ⟨hmem, hends⟩
  · intro h
    rcases h with ⟨hmem, hends⟩
    exact Or.inr ⟨hends, hmem⟩

/-- **The nodes of a graph that is written down** are numbered in the order of their flags. -/
theorem nodeIds_build (flags : List Bool) (arcs : List (NodeId × Interval × NodeId))
    (initial : NodeId) : (build flags arcs initial).nodeIds = List.range flags.length :=
  eq_of_sorted (nodeIds_sorted _) List.pairwise_lt_range fun _ =>
    mem_nodeIds.trans (contains_build.trans List.mem_range.symm)

theorem isAccept_build (flags : List Bool) (arcs : List (NodeId × Interval × NodeId))
    (initial n : NodeId) : (build flags arcs initial).isAccept n = flags[n]?.getD false := by
  rw [isAccept, flag?_build]

/-! ### One more node, one more arc -/

theorem nodes_connect (g : Graph) (p : NodeId) (i : Interval) (q : NodeId) :
    (g.connect p i q).nodes = g.nodes := by
  unfold connect addArc
  split
  · rfl
  · split <;> rfl

theorem vacated_connect (g : Graph) (p : NodeId) (i : Interval) (q : NodeId) :
    (g.connect p i q).vacated = g.vacated := by
  unfold connect addArc
  split
  · rfl
  · split <;> rfl

theorem addNode_setInitial (g : Graph) (n : NodeId) (b : Bool) :
    (g.setInitial n).addNode b = (g.addNode b).setInitial n := by
  obtain ⟨nodes, vacated, arcs, cells, vacatedCells, initial, deterministic, h1, h2, h3⟩ := g
  cases vacated <;> rfl

theorem connect_setInitial (g : Graph) (n p q : NodeId) (i : Interval) :
    (g.setInitial n).connect p i q = (g.connect p i q).setInitial n := by
  have hcontains : ∀ m, (g.setInitial n).contains m = g.contains m := fun _ => rfl
  have harc : (g.setInitial n).hasArc p q i = g.hasArc p q i := rfl
  unfold connect addArc
  simp only [hcontains, harc]
  split
  · rfl
  · split <;> rfl

theorem contains_addNode {g : Graph} {n : NodeId} (h : g.contains n = true) (b : Bool) :
    (g.addNode b).contains n = true := by
  rw [contains_eq_isSome, flag?_addNode]
  split
  · rfl
  · exact h

/-- Where no number waits, a node may be added before or after old nodes are connected. -/
theorem addNode_connect {g : Graph} (hv : g.vacated = []) {p q : NodeId}
    (hp : g.contains p = true) (hq : g.contains q = true) (i : Interval) (b : Bool) :
    (g.connect p i q).addNode b = (g.addNode b).connect p i q := by
  have harc : (g.addNode b).hasArc p q i = g.hasArc p q i := by
    unfold hasArc outgoing
    rw [arcs_addNode]
  unfold connect
  rw [harc]
  split
  · rfl
  · unfold addArc
    rw [dif_pos ⟨hp, hq⟩, dif_pos ⟨contains_addNode hp b, contains_addNode hq b⟩]
    obtain ⟨nodes, vacated, arcs, cells, vacatedCells, initial, deterministic, h1, h2, h3⟩ := g
    obtain rfl : vacated = [] := hv
    rfl

theorem addNode_connectAll {g : Graph} (hv : g.vacated = [])
    {arcs : List (NodeId × Interval × NodeId)}
    (harcs : ∀ e ∈ arcs, g.contains e.1 = true ∧ g.contains e.2.2 = true) (b : Bool) :
    (g.connectAll arcs).addNode b = (g.addNode b).connectAll arcs := by
  induction arcs generalizing g with
  | nil => rfl
  | cons e arcs ih =>
    obtain ⟨p, i, q⟩ := e
    obtain ⟨⟨hp, hq⟩, hrest⟩ := List.forall_mem_cons.1 harcs
    have hnext : ∀ e ∈ arcs,
        (g.connect p i q).contains e.1 = true ∧ (g.connect p i q).contains e.2.2 = true := by
      simpa only [contains_connect] using hrest
    have hstep := ih ((vacated_connect g p i q).trans hv) hnext
    rw [addNode_connect hv hp hq] at hstep
    exact hstep

/-- The arcs join nodes among the first `count`. -/
def Within (arcs : List (NodeId × Interval × NodeId)) (count : Nat) : Prop :=
  ∀ e ∈ arcs, e.1 < count ∧ e.2.2 < count

theorem Within.mono {arcs : List (NodeId × Interval × NodeId)} {count more : Nat}
    (h : Within arcs count) (hle : count ≤ more) : Within arcs more :=
  fun e he => ⟨Nat.lt_of_lt_of_le (h e he).1 hle, Nat.lt_of_lt_of_le (h e he).2 hle⟩

theorem within_append {arcs more : List (NodeId × Interval × NodeId)} {count : Nat} :
    Within (arcs ++ more) count ↔ Within arcs count ∧ Within more count := List.forall_mem_append

section Build

variable {flags : List Bool} {arcs : List (NodeId × Interval × NodeId)} {initial : NodeId}

theorem nodes_build : (build flags arcs initial).nodes = flags.map some := by
  have hkeep := foldl_keeps (·.nodes) (fun h e => nodes_connect h e.1 e.2.1 e.2.2) arcs
    (flags.foldl addNode empty)
  exact hkeep.trans (nodes_foldl_addNode rfl flags).1

theorem vacated_build : (build flags arcs initial).vacated = [] := by
  have hkeep := foldl_keeps (·.vacated) (fun h e => vacated_connect h e.1 e.2.1 e.2.2) arcs
    (flags.foldl addNode empty)
  exact hkeep.trans (nodes_foldl_addNode rfl flags).2

theorem nextNode_build : (build flags arcs initial).nextNode = flags.length := by
  rw [nextNode, vacated_build, nodes_build, List.headD_nil, List.length_map]

theorem connect_build (p : NodeId) (i : Interval) (q : NodeId) :
    (build flags arcs initial).connect p i q = build flags (arcs ++ [(p, i, q)]) initial := by
  simp only [build, List.foldl_append, List.foldl_cons, List.foldl_nil, connect_setInitial]

/-- **One more node** may be added before the arcs or after them. -/
theorem addNode_build (harcs : Within arcs flags.length) (b : Bool) :
    (build flags arcs initial).addNode b = build (flags ++ [b]) arcs initial := by
  have hnode : ∀ n, n < flags.length → (flags.foldl addNode empty).contains n = true := by
    intro n hn
    have hbuild : (build flags [] initial).contains n = true := contains_build.2 hn
    exact hbuild
  rw [build_eq, build_eq, addNode_setInitial, List.foldl_append, List.foldl_cons, List.foldl_nil,
    addNode_connectAll (nodes_foldl_addNode rfl flags).2]
  intro e he
  exact ⟨hnode e.1 (harcs e he).1, hnode e.2.2 (harcs e he).2⟩

end Build

end Graph

end SymbolAutomata
