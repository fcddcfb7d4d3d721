/-
  SymbolAutomata/Proofs/Graph/Product.lean
  ========================================
  **Intersection** walks two graphs at once.

  The search for pairs comes to its end and finds none twice (`drains_pairsFrom`,
  `length_pairsFrom_le`).  A node of the product stands for the pair found at its place
  (`pairsFrom`), moves where both nodes of the pair move (`mem_targets_product`), and
  accepts the words that both accept (`acceptsFrom_product`).  The product of graphs
  that are single valued is single valued, so the declaration it makes is true if
  theirs are.
-/
import Mathlib.Data.List.ProdSigma
import SymbolAutomata.Proofs.Graph.Proper

namespace SymbolAutomata

namespace Graph

/-! ### Common moves -/

theorem mem_commonMoves {a b : Graph} {p q p' q' : NodeId} {k : Interval} :
    (k, p', q') ∈ commonMoves a b (p, q) ↔
      ∃ i j, a.Arrow p i p' ∧ b.Arrow q j q' ∧ i.intersect j = some k := by
  simp only [commonMoves, List.mem_flatMap, List.mem_filterMap, Option.map_eq_some_iff,
    Prod.exists, mem_moves, Prod.mk.injEq]
  constructor
  · intro h
    rcases h with ⟨i, r, hi, j, s, hj, l, hl, rfl, rfl, rfl⟩
    exact ⟨i, j, hi, hj, hl⟩
  · intro h
    rcases h with ⟨i, j, hi, hj, hk⟩
    exact ⟨i, p', hi, j, q', hj, k, hk, rfl, rfl, rfl⟩

/-- **A common move carries** what moves of both nodes carry. -/
theorem exists_commonMove_iff {a b : Graph} {p q p' q' : NodeId} {c : Codepoint} :
    (∃ k, (k, p', q') ∈ commonMoves a b (p, q) ∧ k.contains c = true) ↔
      p' ∈ a.targets p c ∧ q' ∈ b.targets q c := by
  simp only [mem_commonMoves, mem_targets]
  constructor
  · intro h
    rcases h with ⟨k, ⟨i, j, hi, hj, hk⟩, hc⟩
    obtain ⟨hci, hcj⟩ := Interval.contains_clip.1 ⟨k, hk, hc⟩
    exact ⟨⟨i, hi, hci⟩, j, hj, Interval.contains_iff.2 hcj⟩
  · intro h
    rcases h with ⟨⟨i, hi, hci⟩, j, hj, hcj⟩
    obtain ⟨k, hk, hc⟩ := Interval.contains_clip.2 ⟨hci, Interval.contains_iff.1 hcj⟩
    exact ⟨k, ⟨i, j, hi, hj, hk⟩, hc⟩

/-! ### The pairs -/

/-- The pairs of nodes reached from the two given nodes, in the order of their discovery. -/
def pairsFrom (a b : Graph) (start : NodeId × NodeId) : List (NodeId × NodeId) :=
  explore (fun pair => (commonMoves a b pair).map (·.2)) (a.nodeCount * b.nodeCount + 1) []
    [start]

variable {a b : Graph} {start : NodeId × NodeId}

theorem pairsFrom_nodup : (pairsFrom a b start).Nodup := explore_nodup (List.nodup_singleton _)

theorem pairsFrom_head? : (pairsFrom a b start)[0]? = some start := explore_head?

/-- The pairs that a pair moves to. -/
abbrev commonNext (a b : Graph) (pair : NodeId × NodeId) : List (NodeId × NodeId) :=
  (commonMoves a b pair).map (·.2)

/-- Common moves lead from pairs of nodes to pairs of nodes. -/
theorem mem_product_of_commonNext {pair dest : NodeId × NodeId} (h : dest ∈ commonNext a b pair) :
    pair ∈ a.nodeIds ×ˢ b.nodeIds ∧ dest ∈ a.nodeIds ×ˢ b.nodeIds := by
  obtain ⟨⟨k, p, q⟩, hmove, rfl⟩ := List.mem_map.1 h
  obtain ⟨i, j, hi, hj, -⟩ := mem_commonMoves.1 hmove
  refine ⟨List.mem_product.2 ⟨?_, ?_⟩, List.mem_product.2 ⟨?_, ?_⟩⟩
  · exact mem_nodeIds.2 hi.contains_source
  · exact mem_nodeIds.2 hj.contains_source
  · exact mem_nodeIds.2 hi.contains_target
  · exact mem_nodeIds.2 hj.contains_target

/-- The first pair and all pairs of nodes: no other pair can be found. -/
def candidates (a b : Graph) (start : NodeId × NodeId) : List (NodeId × NodeId) :=
  start :: a.nodeIds ×ˢ b.nodeIds

theorem length_candidates (a b : Graph) (start : NodeId × NodeId) :
    (candidates a b start).length = a.nodeCount * b.nodeCount + 1 := by
  rw [candidates, List.length_cons, List.length_product]
  rfl

theorem candidates_closed (a b : Graph) (start : NodeId × NodeId) :
    ∀ pair ∈ candidates a b start, ∀ dest ∈ commonNext a b pair, dest ∈ candidates a b start :=
  fun _ _ _ hnext => List.mem_cons_of_mem _ (mem_product_of_commonNext hnext).2

theorem start_mem_candidates (a b : Graph) (start : NodeId × NodeId) :
    ∀ pair ∈ [start], pair ∈ candidates a b start :=
  fun _ hpair => List.mem_singleton.1 hpair ▸ List.mem_cons_self ..

/-- **The search for pairs comes to its end**, the queue having run empty. -/
theorem drains_pairsFrom : Drains (commonNext a b) [] [start] (pairsFrom a b start) := by
  refine drains_explore (candidates_closed a b start) (start_mem_candidates a b start)
    (List.nodup_singleton _) ?_
  rw [length_candidates, List.length_nil, Nat.zero_add]

/-- **The search finds the pairs** that the first one leads to. -/
theorem mem_pairsFrom {pair : NodeId × NodeId} :
    pair ∈ pairsFrom a b start ↔ Leads (commonNext a b) start pair := by
  have hfound : pair ∈ pairsFrom a b start ↔ ∃ x ∈ [start], Leads (commonNext a b) x pair :=
    mem_explore_iff (candidates_closed a b start) (start_mem_candidates a b start)
      (List.nodup_singleton _) (Nat.le_of_eq (length_candidates a b start))
  simpa only [List.mem_singleton, exists_eq_left] using hfound

/-- **The search misses no pair.** -/
theorem pairsFrom_closed {pair : NodeId × NodeId} {k : Interval} {p q : NodeId}
    (hpair : pair ∈ pairsFrom a b start) (hmove : (k, p, q) ∈ commonMoves a b pair) :
    (p, q) ∈ pairsFrom a b start := by
  rw [mem_pairsFrom] at hpair ⊢
  exact hpair.trans (.step (List.mem_map.2 ⟨_, hmove, rfl⟩) (.refl _))

/-- **No pair is counted twice**, and without moves there is only the first one. -/
theorem length_pairsFrom_le : (pairsFrom a b start).length ≤ max 1 (a.nodeCount * b.nodeCount) := by
  by_cases hstart : start ∈ a.nodeIds ×ˢ b.nodeIds
  · have hsub : pairsFrom a b start ⊆ a.nodeIds ×ˢ b.nodeIds := by
      intro pair hpair
      have hlead := mem_pairsFrom.1 hpair
      clear hpair
      induction hlead with
      | refl => exact hstart
      | step first _ ih => exact ih (mem_product_of_commonNext first).2
    have hle := pairsFrom_nodup.length_le_of_subset hsub
    rw [List.length_product] at hle
    exact hle.trans (Nat.le_max_right _ _)
  · have hsub : pairsFrom a b start ⊆ [start] := by
      intro pair hpair
      cases mem_pairsFrom.1 hpair with
      | refl => exact List.mem_singleton_self _
      | step first _ => exact absurd (mem_product_of_commonNext first).1 hstart
    exact (pairsFrom_nodup.length_le_of_subset hsub).trans (Nat.le_max_left _ _)

/-! ### The graph of pairs -/

/-- The product of two graphs from the two given nodes on. -/
def product (a b : Graph) (start : NodeId × NodeId) : Graph :=
  build ((pairsFrom a b start).map fun (p, q) => a.isAccept p && b.isAccept q)
    ((pairsFrom a b start).zipIdx.flatMap fun (pair, n) =>
      (commonMoves a b pair).map fun (i, dest) => (n, i, (pairsFrom a b start).idxOf dest)) 0

theorem intersection_eq {i j : NodeId} (hi : a.initial = some i) (hj : b.initial = some j) :
    a.intersection b = (product a b (i, j)).declare (a.deterministic && b.deterministic) := by
  rw [intersection, hi, hj]
  rfl

theorem isAccept_product {n p q : NodeId} (hn : (pairsFrom a b start)[n]? = some (p, q)) :
    (product a b start).isAccept n = (a.isAccept p && b.isAccept q) := by
  rw [product, isAccept_build, List.getElem?_map, hn]
  rfl

theorem arrow_product {n m : NodeId} {i : Interval} :
    (product a b start).Arrow n i m ↔
      ∃ pair dest, (pairsFrom a b start)[n]? = some pair ∧ (i, dest) ∈ commonMoves a b pair ∧
        (pairsFrom a b start)[m]? = some dest := by
  rw [product, arrow_build]
  simp only [List.mem_flatMap, List.mem_map, Prod.mk.injEq, Prod.exists, List.length_map]
  constructor
  · intro h
    rcases h with ⟨⟨p, q, n, hn, j, p', q', hmove, rfl, rfl, rfl⟩, -, -⟩
    have hn' := List.mem_zipIdx_iff_getElem?.1 hn
    refine ⟨p, q, p', q', hn', hmove, ?_⟩
    exact List.getElem?_idxOf (pairsFrom_closed (List.mem_of_getElem? hn') hmove)
  · intro h
    rcases h with ⟨p, q, p', q', hn, hmove, hm⟩
    have hindex := ((getElem?_eq_some_iff_idxOf pairsFrom_nodup).1 hm).2
    refine ⟨⟨p, q, n, List.mem_zipIdx_iff_getElem?.2 hn, i, p', q', hmove, rfl, rfl, hindex⟩,
      ?_, ?_⟩
    · exact (List.getElem?_eq_some_iff.1 hn).1
    · exact (List.getElem?_eq_some_iff.1 hm).1

/-- **Pairs move together.** -/
theorem mem_targets_product {n m : NodeId} {c : Codepoint} :
    m ∈ (product a b start).targets n c ↔
      ∃ p q p' q', (pairsFrom a b start)[n]? = some (p, q) ∧
        (p' ∈ a.targets p c ∧ q' ∈ b.targets q c) ∧
        (pairsFrom a b start)[m]? = some (p', q') := by
  rw [mem_targets]
  simp only [arrow_product, Prod.exists]
  constructor
  · intro h
    rcases h with ⟨i, ⟨p, q, p', q', hn, hmove, hm⟩, hc⟩
    exact ⟨p, q, p', q', hn, exists_commonMove_iff.1 ⟨i, hmove, hc⟩, hm⟩
  · intro h
    rcases h with ⟨p, q, p', q', hn, hstep, hm⟩
    obtain ⟨k, hmove, hc⟩ := exists_commonMove_iff.2 hstep
    exact ⟨k, ⟨p, q, p', q', hn, hmove, hm⟩, hc⟩

/-- **A pair accepts what both its nodes accept.** -/
theorem acceptsFrom_product {n p q : NodeId} (hn : (pairsFrom a b start)[n]? = some (p, q))
    {w : List Codepoint} :
    (product a b start).AcceptsFrom n w ↔ a.AcceptsFrom p w ∧ b.AcceptsFrom q w := by
  induction w generalizing n p q with
  | nil =>
    rw [acceptsFrom_nil_iff, isAccept_product hn, Bool.and_eq_true, acceptsFrom_nil_iff,
      acceptsFrom_nil_iff]
  | cons c w ih =>
    simp only [acceptsFrom_cons_iff]
    constructor
    · intro h
      rcases h with ⟨m, hm, hacc⟩
      obtain ⟨r, s, p', q', hn', ⟨hp', hq'⟩, hm⟩ := mem_targets_product.1 hm
      obtain ⟨rfl, rfl⟩ := Prod.mk.inj (Option.some.inj (hn.symm.trans hn'))
      obtain ⟨ha, hb⟩ := (ih hm).1 hacc
      exact ⟨⟨p', hp', ha⟩, q', hq', hb⟩
    · intro h
      rcases h with ⟨⟨p', hp', ha⟩, q', hq', hb⟩
      obtain ⟨k, hmove, -⟩ := exists_commonMove_iff.2 ⟨hp', hq'⟩
      have hm := List.getElem?_idxOf (pairsFrom_closed (List.mem_of_getElem? hn) hmove)
      exact ⟨_, mem_targets_product.2 ⟨p, q, p', q', hn, ⟨hp', hq'⟩, hm⟩, (ih hm).2 ⟨ha, hb⟩⟩

/-- **Intersection.** -/
theorem language_intersection (a b : Graph) :
    (a.intersection b).language = both a.language b.language := by
  ext w
  rw [mem_both, mem_language, mem_language, mem_language]
  cases hi : a.initial with
  | none =>
    rw [intersection, hi]
    exact iff_of_false not_accepts_emptyLanguage fun h => not_accepts_of_initial hi h.1
  | some i =>
    cases hj : b.initial with
    | none =>
      rw [intersection, hi, hj]
      exact iff_of_false not_accepts_emptyLanguage fun h => not_accepts_of_initial hj h.2
    | some j =>
      have hstart : (product a b (i, j)).initial = some 0 := rfl
      rw [intersection_eq hi hj, accepts_declare, accepts_iff_of_initial hstart,
        accepts_iff_of_initial hi, accepts_iff_of_initial hj, acceptsFrom_product pairsFrom_head?]

theorem singleValued_product (ha : a.SingleValued) (hb : b.SingleValued) :
    (product a b start).SingleValued := by
  intro n c m k hm hk
  obtain ⟨p, q, p', q', hn, ⟨hp, hq⟩, hm⟩ := mem_targets_product.1 hm
  obtain ⟨r, s, p'', q'', hn', ⟨hr, hs⟩, hk⟩ := mem_targets_product.1 hk
  obtain ⟨rfl, rfl⟩ := Prod.mk.inj (Option.some.inj (hn.symm.trans hn'))
  rw [getElem?_eq_some_iff_idxOf pairsFrom_nodup] at hm hk
  rw [← hm.2, ← hk.2, ha p c p' p'' hp hr, hb q c q' q'' hq hs]

theorem singleValued_intersection (ha : a.SingleValued) (hb : b.SingleValued) :
    (a.intersection b).SingleValued := by
  unfold intersection
  split
  · next i j hi hj =>
    have hone : (product a b (i, j)).SingleValued := singleValued_product ha hb
    exact hone.of_targets fun _ _ _ => mem_targets_declare.1
  · exact honest_emptyLanguage rfl

theorem nodeCount_intersection_le :
    (a.intersection b).nodeCount ≤ max 1 (a.nodeCount * b.nodeCount) := by
  unfold intersection
  split
  · next i j hi hj =>
    have hcount : (product a b (i, j)).nodeCount = (pairsFrom a b (i, j)).length := by
      rw [nodeCount, product, nodeIds_build, List.length_range, List.length_map]
    exact hcount.trans_le length_pairsFrom_le
  · exact Nat.le_max_left _ _

theorem honest_intersection (ha : a.Honest) (hb : b.Honest) : (a.intersection b).Honest := by
  unfold intersection
  split
  · next i j hi hj =>
    intro h
    obtain ⟨hda, hdb⟩ := Bool.and_eq_true_iff.1 h
    have hone : (product a b (i, j)).SingleValued := singleValued_product (ha hda) (hb hdb)
    exact hone.of_targets fun _ _ _ => mem_targets_declare.1
  · exact honest_emptyLanguage

end Graph

end SymbolAutomata
