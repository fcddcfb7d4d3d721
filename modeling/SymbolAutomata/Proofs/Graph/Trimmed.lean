/-
  SymbolAutomata/Proofs/Graph/Trimmed.lean
  ========================================
  **Trimming does all it has to do at once.**

  For each pass there are graphs on which it has nothing to do: reduction on those whose
  labels are apart (`Joined`), dropping dead arcs on those that are joined and have no dead
  arcs, pruning on those whose nodes are all reachable.  It gives such a graph back as it is,
  down to the cells in which arcs are stored (`Joined.reduce_eq_self`,
  `Joined.removeDead_eq_self`, `prune_eq_self`).  Since every pass ends in a graph of its
  kind, a second one changes nothing.

  What the first one changes is said by `JoinsLabels`, `DropsDead` and `KeepsReached`.
-/
import Mathlib
import SymbolAutomata.Proofs.Graph.Trim

namespace SymbolAutomata

namespace Graph

variable {g : Graph}

/-! ### Nothing to join -/

/-- **Labels between the same two nodes are apart**: they neither overlap nor follow each other. -/
def Joined (g : Graph) : Prop := ∀ p, (g.exits p).Pairwise Apart

/-- Labels that are apart differ, so no arc is stored twice. -/
theorem Joined.nodup_exits (hg : g.Joined) (p : NodeId) : (g.exits p).Nodup := by
  refine (hg p).imp ?_
  rintro x y hapart rfl
  have hle := x.1.min_le_max
  rcases hapart rfl with h | h <;> omega

theorem joined_reduce (g : Graph) : g.reduce.Joined := exits_reduce_apart g

theorem Joined.prune (hg : g.Joined) : g.prune.Joined :=
  fun p => (hg p).sublist (exits_prune_sublist g p)

theorem reduceAt_eq_self {n : NodeId} (h : (g.exits n).Pairwise Apart) : g.reduceAt n = g := by
  rw [reduceAt_eq, if_pos (mergeExits_perm_of_apart h).length_eq]

theorem Joined.reduce_eq_self (hg : g.Joined) : g.reduce = g :=
  List.foldlRecOn (motive := (· = g)) g.nodeIds reduceAt rfl fun h hh n _ => by
    rw [hh, reduceAt_eq_self (hg n)]

/-! ### Nothing dead -/

theorem withoutDead_eq_self (h : ∀ p i q, g.Arrow p i q → q ∈ g.live) : g.withoutDead = g := by
  refine List.foldlRecOn (motive := (· = g)) g.nodeIds _ rfl fun k hk n _ => ?_
  have hnone : (g.outgoing n).filter (·.target ∉ g.live) = [] := by
    rw [List.filter_eq_nil_iff]
    intro a ha
    have hlive := h a.source a.label a.target ⟨a, (mem_outgoing.1 ha).1, rfl, rfl, rfl⟩
    simpa using hlive
  rw [hk, hnone, List.foldl_nil]

theorem Joined.removeDead_eq_self (hg : g.Joined) (h : ∀ p i q, g.Arrow p i q → q ∈ g.live) :
    g.removeDead = g := by
  rw [removeDead_eq, withoutDead_eq_self h, hg.reduce_eq_self]

theorem joined_removeDead (g : Graph) : g.removeDead.Joined := joined_reduce _

/-- **What is left leads to live nodes**, which are as live as before. -/
theorem mem_live_of_arrow_removeDead {p q : NodeId} {i : Interval}
    (h : g.removeDead.Arrow p i q) : q ∈ g.removeDead.live := by
  have htarget := mem_targets_removeDead.1 (mem_targets.2 ⟨i, h, i.contains_min⟩)
  obtain ⟨w, hw⟩ := mem_live.1 htarget.2
  exact mem_live.2 ⟨w, acceptsFrom_removeDead.2 hw⟩

/-- Pruning keeps all that a reachable node can accept, so it makes no arc dead. -/
theorem mem_live_of_arrow_prune (hg : ∀ p i q, g.Arrow p i q → q ∈ g.live) {p q : NodeId}
    {i : Interval} (h : g.prune.Arrow p i q) : q ∈ g.prune.live := by
  obtain ⟨w, hw⟩ := mem_live.1 (hg p i q (arrow_prune.1 h).1)
  exact mem_live.2 ⟨w, (acceptsFrom_prune (contains_prune.1 h.contains_target)).2 hw⟩

/-! ### What a pass changes -/

/-- **`h` is `g` with its labels joined**: every node has the same destinations over each codepoint,
    and between two nodes no label can be joined to another. -/
structure JoinsLabels (g h : Graph) : Prop where
  flag? : ∀ n, h.flag? n = g.flag? n
  initial : h.initial = g.initial
  deterministic : h.deterministic = g.deterministic
  targets : ∀ p q c, q ∈ h.targets p c ↔ q ∈ g.targets p c
  joined : h.Joined
  distinct : ∀ p, (h.exits p).Nodup

/-- **`h` is `g` without the moves into dead nodes**, those from which no word is accepted. What is
    left is joined. -/
structure DropsDead (g h : Graph) : Prop where
  flag? : ∀ n, h.flag? n = g.flag? n
  initial : h.initial = g.initial
  deterministic : h.deterministic = g.deterministic
  targets : ∀ p q c, q ∈ h.targets p c ↔ q ∈ g.targets p c ∧ ∃ w, g.AcceptsFrom q w
  joined : h.Joined
  accepts : ∀ p w, h.runFrom [p] w = g.runFrom [p] w

/-- **`h` is the part of `g` that words lead to** from the node `start`. -/
structure KeepsReached (start : NodeId) (g h : Graph) : Prop where
  initial : h.initial = g.initial
  deterministic : h.deterministic = g.deterministic
  kept : ∀ n, (∃ w, g.Reads start w n) → h.flag? n = g.flag? n ∧ h.outgoing n = g.outgoing n
  dropped : ∀ n, (¬ ∃ w, g.Reads start w n) → h.flag? n = none
  run : ∀ w, h.run w = g.run w

theorem joinsLabels_reduce (g : Graph) : JoinsLabels g g.reduce where
  flag? := flag?_reduce g
  initial := initial_reduce g
  deterministic := deterministic_reduce g
  targets _ _ _ := mem_targets_reduce
  joined := joined_reduce g
  distinct := (joined_reduce g).nodup_exits

theorem dropsDead_removeDead (g : Graph) : DropsDead g g.removeDead where
  flag? := flag?_removeDead g
  initial := initial_removeDead g
  deterministic := deterministic_removeDead g
  targets p q c := by rw [mem_targets_removeDead, mem_live]
  joined := joined_removeDead g
  accepts p w := by
    rw [Bool.eq_iff_iff, runFrom_eq_true_iff, runFrom_eq_true_iff]
    simp only [acceptsFrom_removeDead]

theorem keepsReached_prune {start : NodeId} (hi : g.initial = some start)
    (hc : g.contains start = true) : KeepsReached start g g.prune where
  initial := initial_prune g
  deterministic := deterministic_prune g
  kept n hn := by
    have hreach := (mem_reachable hi hc).2 hn
    refine ⟨by rw [flag?_prune, if_pos hreach], ?_⟩
    unfold outgoing
    rw [arcs_prune, List.filter_filter]
    refine List.filter_congr fun a _ => ?_
    by_cases ha : a.source = n
    · simp [ha, hreach]
    · simp [ha]
  dropped n hn := by rw [flag?_prune, if_neg fun hreach => hn ((mem_reachable hi hc).1 hreach)]
  run _ := run_eq_of_accepts_iff accepts_prune

/-! ### Once is enough -/

theorem reduce_reduce (g : Graph) : g.reduce.reduce = g.reduce := (joined_reduce g).reduce_eq_self

theorem removeDead_removeDead (g : Graph) : g.removeDead.removeDead = g.removeDead :=
  (joined_removeDead g).removeDead_eq_self fun _ _ _ => mem_live_of_arrow_removeDead

theorem prune_prune (g : Graph) : g.prune.prune = g.prune :=
  prune_eq_self fun _ => mem_reachable_prune.2

/-- **The passes are exact, and once is enough.**  Joining labels keeps every destination and leaves
    nothing to join.  The live nodes are those from which a word is accepted, and just the moves
    into other nodes are dropped, which changes no answer at any node.  Pruning keeps just the nodes
    that words lead to from the initial one, with their flags and arcs.  No pass changes anything
    when it is repeated. -/
theorem passes_exact (g : Graph) :
    (JoinsLabels g g.reduce ∧ g.reduce.reduce = g.reduce) ∧
      ((∀ n, n ∈ g.live ↔ ∃ w, g.AcceptsFrom n w) ∧ DropsDead g g.removeDead ∧
        g.removeDead.removeDead = g.removeDead) ∧
      (∀ start, g.initial = some start → g.contains start = true →
        KeepsReached start g g.prune) ∧ g.prune.prune = g.prune :=
  ⟨⟨joinsLabels_reduce g, reduce_reduce g⟩,
    ⟨fun _ => mem_live, dropsDead_removeDead g, removeDead_removeDead g⟩,
    fun _ hi hc => keepsReached_prune hi hc, prune_prune g⟩

/-- Labels that overlap or follow each other, an arc stored twice, cycles through live and through
    dead nodes, and a node that nothing leads to. -/
def tangled : Graph :=
  (build [false, false, true, false, false]
    [(0, Interval.between 10 20, 1), (0, Interval.between 15 30, 1), (0, Interval.between 31 40, 1),
      (1, Interval.single 5, 0), (1, Interval.single 7, 2), (1, Interval.single 8, 3),
      (3, Interval.single 9, 3), (4, Interval.single 1, 2)] 0).addArc 1 (Interval.single 7) 2

theorem passes_exact_tangled :
    tangled.initial = some 0 ∧ tangled.contains 0 = true ∧ tangled.arcCount = 9 ∧
      tangled.reduce.exits 0 = [(Interval.between 10 40, 1)] ∧ tangled.reduce.arcCount = 6 ∧
      JoinsLabels tangled tangled.reduce ∧ tangled.removeDead.arcCount = 4 ∧
      (¬ ∃ w, tangled.AcceptsFrom 3 w) ∧ DropsDead tangled tangled.removeDead ∧
      tangled.prune.nodeIds = [0, 1, 2, 3] ∧ KeepsReached 0 tangled tangled.prune := by
  obtain ⟨⟨hjoins, -⟩, ⟨hlive, hdrops, -⟩, hkeeps, -⟩ := passes_exact tangled
  have hinitial : tangled.initial = some 0 := rfl
  have hstart : tangled.contains 0 = true := by decide
  have hdead : ¬ ∃ w, tangled.AcceptsFrom 3 w := by
    rw [← hlive]
    decide
  exact ⟨hinitial, hstart, by decide, by decide_cbv, by decide_cbv, hjoins, by decide_cbv, hdead,
    hdrops, by decide_cbv, hkeeps 0 hinitial hstart⟩

end Graph

end SymbolAutomata
