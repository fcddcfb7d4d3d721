/-
  SymbolAutomata/Proofs/Graph/Total.lean
  ======================================
  **Total graphs.**

  The gaps between sorted labels hold just the codepoints that no label holds
  (`mem_gapsFrom`).  So the sink takes what a node left out and nothing else: the
  old destinations stay, a codepoint without destination leads to the sink
  (`mem_targets_totalize`), and since the sink accepts nothing the language is
  the same.
-/
import SymbolAutomata.Proofs.Graph.Subset

namespace SymbolAutomata

namespace Graph

/-! ### Gaps between labels -/

theorem mem_gap_before {next : Codepoint} {i : Interval} {c : Codepoint} :
    (∃ j ∈ (if next < i.min then [Interval.between next (i.min - 1)] else []),
        j.contains c = true) ↔ next ≤ c ∧ c < i.min := by
  split
  · next hlt =>
    simp only [List.mem_singleton, exists_eq_left, Interval.contains_between, Codepoint] at *
    omega
  · next hge =>
    simp only [List.not_mem_nil, false_and, exists_false, false_iff, Codepoint] at *
    omega

/-- **Gaps hold what the labels leave out.** -/
theorem mem_gapsFrom {labels : List Interval} {next c : Codepoint}
    (hsorted : labels.Pairwise fun i j => i.min ≤ j.min)
    (hbound : ∀ i ∈ labels, i.max ≤ Codec.maxCodepoint) :
    (∃ j ∈ gapsFrom next labels, j.contains c = true) ↔
      next ≤ c ∧ c ≤ Codec.maxCodepoint ∧ ∀ i ∈ labels, i.contains c = false := by
  induction labels generalizing next with
  | nil =>
    unfold gapsFrom
    split
    · next hle =>
      simp only [List.mem_singleton, exists_eq_left, Interval.contains_between, Codepoint] at *
      simp only [List.not_mem_nil, false_implies, implies_true, and_true]
      omega
    · next hgt =>
      simp only [List.not_mem_nil, false_and, exists_false, false_iff, Codepoint] at *
      omega
  | cons i labels ih =>
    obtain ⟨hhead, htail⟩ := List.pairwise_cons.1 hsorted
    have himax := hbound i (List.mem_cons_self ..)
    have hle := i.min_le_max
    have hrest := @ih (Nat.max next (i.max + 1)) htail
      fun j hj => hbound j (List.mem_cons_of_mem _ hj)
    have hsplit : (∃ j ∈ gapsFrom next (i :: labels), j.contains c = true) ↔
        (next ≤ c ∧ c < i.min) ∨
          (∃ j ∈ gapsFrom (Nat.max next (i.max + 1)) labels, j.contains c = true) := by
      rw [← mem_gap_before]
      simp only [gapsFrom, List.mem_append, or_and_right, exists_or]
    have hnext : Nat.max next (i.max + 1) ≤ c ↔ next ≤ c ∧ i.max < c := Nat.max_le
    have hi : i.contains c = false ↔ ¬ (i.min ≤ c ∧ c ≤ i.max) := by
      rw [← Interval.contains_iff, Bool.not_eq_true]
    rw [hsplit, hrest, hnext, List.forall_mem_cons, hi]
    constructor
    · intro hcase
      rcases hcase with ⟨hlo, hhi⟩ | ⟨⟨hlo, hpast⟩, hmax, hfree⟩
      · have hmax := Nat.le_of_lt (Nat.lt_of_lt_of_le hhi (Nat.le_trans hle himax))
        refine ⟨hlo, hmax, fun h => Nat.not_lt.2 h.1 hhi, ?_⟩
        -- later labels start no earlier than `i`
        intro j hj
        have hmin := hhead j hj
        rw [← Bool.not_eq_true, Interval.contains_iff]
        exact fun h => Nat.not_lt.2 (Nat.le_trans hmin h.1) hhi
      · exact ⟨hlo, hmax, fun h => Nat.not_lt.2 h.2 hpast, hfree⟩
    · intro hfound
      rcases hfound with ⟨hlo, hmax, hout, hfree⟩
      by_cases hlt : c < i.min
      · exact Or.inl ⟨hlo, hlt⟩
      · have hpast := Nat.lt_of_not_le fun h => hout ⟨Nat.le_of_not_lt hlt, h⟩
        exact Or.inr ⟨⟨hlo, hpast⟩, hmax, hfree⟩

/-! ### The sink -/

/-- What the sink takes from node `n`. -/
def gapsAt (g : Graph) (n : NodeId) : List Interval :=
  gapsFrom Codec.minCodepoint ((g.moves n).map (·.1))

/-- The graph with its sink, before the gaps are closed. -/
def withSink (g : Graph) : Graph :=
  (g.addNode false).connect g.nextNode (Interval.between Codec.minCodepoint Codec.maxCodepoint)
    g.nextNode

theorem nextNode_ne {g : Graph} {n : NodeId} (hn : g.contains n = true) : n ≠ g.nextNode := by
  rintro rfl
  rw [contains_eq_isSome, flag?_nextNode] at hn
  cases hn

theorem exits_withSink {g : Graph} {n : NodeId} (hn : n ≠ g.nextNode) :
    g.withSink.exits n = g.exits n := by
  rw [withSink, exits_connect_ne hn]
  exact exits_congr (arcs_addNode g false) n

theorem foldl_gaps_eq {g : Graph} {sink : NodeId} {ns : List NodeId} (hns : ns.Nodup) {h : Graph}
    (hsame : ∀ n ∈ ns, h.exits n = g.exits n) :
    ns.foldl (fun h n => (gapsFrom Codec.minCodepoint ((h.moves n).map (·.1))).foldl
        (fun h i => h.connect n i sink) h) h =
      h.connectAll (ns.flatMap fun n => (g.gapsAt n).map fun i => (n, i, sink)) := by
  induction ns generalizing h with
  | nil => rfl
  | cons n ns ih =>
    obtain ⟨hn, hns⟩ := List.nodup_cons.1 hns
    have hmoves : h.moves n = g.moves n := by
      show arrange _ (h.exits n) = arrange _ (g.exits n)
      rw [hsame n (List.mem_cons_self ..)]
    have hround : (gapsFrom Codec.minCodepoint ((h.moves n).map (·.1))).foldl
        (fun h i => h.connect n i sink) h =
          h.connectAll ((g.gapsAt n).map fun i => (n, i, sink)) := by
      rw [hmoves, connectAll, List.foldl_map]
      rfl
    rw [List.foldl_cons, hround, ih hns, List.flatMap_cons, connectAll, connectAll, connectAll,
      List.foldl_append]
    -- closing the gaps at `n` leaves the moves of the other nodes alone
    intro m hm
    rw [← hsame m (List.mem_cons_of_mem _ hm)]
    apply exits_connectAll_ne
    intro a ha
    obtain ⟨i, -, rfl⟩ := List.mem_map.1 ha
    rintro rfl
    exact hn hm

theorem totalize_eq (g : Graph) :
    g.totalize = g.withSink.connectAll
      (g.nodeIds.flatMap fun n => (g.gapsAt n).map fun i => (n, i, g.nextNode)) := by
  apply foldl_gaps_eq (g.nodeIds_sorted.imp Nat.ne_of_lt)
  intro n hn
  exact exits_withSink (nextNode_ne (mem_nodeIds.1 hn))

@[simp] theorem flag?_totalize (g : Graph) (n : NodeId) :
    g.totalize.flag? n = if n = g.nextNode then some false else g.flag? n := by
  rw [totalize_eq, flag?_connectAll, withSink, flag?_connect, flag?_addNode]

theorem contains_totalize {g : Graph} {n : NodeId} :
    g.totalize.contains n = true ↔ n = g.nextNode ∨ g.contains n = true := by
  rw [contains_eq_isSome, flag?_totalize, contains_eq_isSome]
  by_cases hn : n = g.nextNode <;> simp [hn]

theorem isAccept_totalize (g : Graph) (n : NodeId) : g.totalize.isAccept n = g.isAccept n := by
  rw [isAccept, isAccept, flag?_totalize]
  split
  · next hn => rw [hn, flag?_nextNode]; rfl
  · rfl

@[simp] theorem initial_totalize (g : Graph) : g.totalize.initial = g.initial := by
  rw [totalize_eq, initial_connectAll, withSink, initial_connect, initial_addNode]

@[simp] theorem deterministic_totalize (g : Graph) :
    g.totalize.deterministic = g.deterministic := by
  rw [totalize_eq, deterministic_connectAll, withSink, deterministic_connect,
    deterministic_addNode]

theorem arrow_totalize {g : Graph} {p q : NodeId} {i : Interval} :
    g.totalize.Arrow p i q ↔
      g.Arrow p i q ∨ (q = g.nextNode ∧
        ((p = g.nextNode ∧ i = Interval.between Codec.minCodepoint Codec.maxCodepoint) ∨
          (g.contains p = true ∧ i ∈ g.gapsAt p))) := by
  have hnode : ∀ n, g.withSink.contains n = true ↔ n = g.nextNode ∨ g.contains n = true := by
    intro n
    rw [← contains_totalize, totalize_eq, contains_connectAll]
  have hsink : (g.addNode false).contains g.nextNode = true := by
    rw [contains_eq_isSome, flag?_addNode, if_pos rfl]
    rfl
  rw [totalize_eq, arrow_connectAll, hnode, hnode, withSink, arrow_connect, arrow_addNode]
  simp only [List.mem_flatMap, List.mem_map, Prod.mk.injEq, mem_nodeIds]
  constructor
  · intro h
    rcases h with (old | ⟨-, rfl, rfl, rfl⟩) | ⟨-, n, hn, j, hj, rfl, rfl, rfl⟩
    · exact Or.inl old
    · exact Or.inr ⟨rfl, Or.inl ⟨rfl, rfl⟩⟩
    · exact Or.inr ⟨rfl, Or.inr ⟨hn, hj⟩⟩
  · intro h
    rcases h with old | ⟨rfl, ⟨rfl, rfl⟩ | ⟨hp, hi⟩⟩
    · exact Or.inl (Or.inl old)
    · exact Or.inl (Or.inr ⟨⟨hsink, hsink⟩, rfl, rfl, rfl⟩)
    · exact Or.inr ⟨⟨Or.inr hp, Or.inl rfl⟩, p, hp, i, hi, rfl, rfl, rfl⟩

theorem contains_full {c : Codepoint} :
    (Interval.between Codec.minCodepoint Codec.maxCodepoint).contains c = true ↔
      c ≤ Codec.maxCodepoint := by
  simp only [Interval.contains_between, Codec.minCodepoint, Codec.maxCodepoint, Codepoint]
  omega

/-- **The sink keeps all codepoints.** -/
theorem mem_targets_sink {g : Graph} {q : NodeId} {c : Codepoint} :
    q ∈ g.totalize.targets g.nextNode c ↔ q = g.nextNode ∧ c ≤ Codec.maxCodepoint := by
  constructor
  · intro hq
    obtain ⟨i, arrow, hc⟩ := mem_targets.1 hq
    rcases arrow_totalize.1 arrow with old | ⟨hsink, ⟨-, rfl⟩ | ⟨hp, -⟩⟩
    · exact absurd rfl (nextNode_ne old.contains_source)
    · exact ⟨hsink, contains_full.1 hc⟩
    · exact absurd rfl (nextNode_ne hp)
  · rintro ⟨rfl, hc⟩
    exact mem_targets.2
      ⟨_, arrow_totalize.2 (Or.inr ⟨rfl, Or.inl ⟨rfl, rfl⟩⟩), contains_full.2 hc⟩

theorem isAccept_sink (g : Graph) : g.totalize.isAccept g.nextNode = false := by
  rw [isAccept_totalize, isAccept, flag?_nextNode]
  rfl

theorem not_acceptsFrom_sink {g : Graph} {w : List Codepoint} :
    ¬ g.totalize.AcceptsFrom g.nextNode w := by
  induction w with
  | nil =>
    rw [acceptsFrom_nil_iff, isAccept_sink]
    exact Bool.false_ne_true
  | cons c w ih =>
    rw [acceptsFrom_cons_iff]
    rintro ⟨q, hq, hacc⟩
    rw [(mem_targets_sink.1 hq).1] at hacc
    exact ih hacc

/-! ### What totality does to destinations and to the language -/

/-- Every node has a destination for every codepoint. -/
def Complete (g : Graph) : Prop :=
  ∀ p c, g.contains p = true → c ≤ Codec.maxCodepoint → ∃ q, q ∈ g.targets p c

section Total

variable {g : Graph} (hg : g.Encoded)

include hg

theorem Encoded.mem_gapsAt {p : NodeId} {c : Codepoint} :
    (∃ i ∈ g.gapsAt p, i.contains c = true) ↔
      c ≤ Codec.maxCodepoint ∧ ∀ q, q ∉ g.targets p c := by
  have hsorted : ((g.moves p).map (·.1)).Pairwise fun i j => i.min ≤ j.min :=
    List.pairwise_map.2 (g.moves_pairwise_min p)
  have hbound : ∀ i ∈ (g.moves p).map (·.1), i.max ≤ Codec.maxCodepoint := by
    intro i hi
    obtain ⟨⟨i, q⟩, hm, rfl⟩ := List.mem_map.1 hi
    exact hg p i q (mem_moves.1 hm)
  rw [gapsAt, mem_gapsFrom hsorted hbound]
  constructor
  · intro h
    rcases h with ⟨-, hmax, hfree⟩
    refine ⟨hmax, ?_⟩
    intro q hq
    obtain ⟨i, hm, hc⟩ := mem_targets_iff_moves.1 hq
    have hno := hfree i (List.mem_map.2 ⟨(i, q), hm, rfl⟩)
    rw [hc] at hno
    cases hno
  · intro h
    rcases h with ⟨hmax, hnone⟩
    refine ⟨Nat.zero_le c, hmax, ?_⟩
    intro i hi
    obtain ⟨⟨i, q⟩, hm, rfl⟩ := List.mem_map.1 hi
    rw [← Bool.not_eq_true]
    exact fun hc => hnone q (mem_targets_iff_moves.2 ⟨i, hm, hc⟩)

/-- **The sink takes what was left out**, and everything stays that was there. -/
theorem Encoded.mem_targets_totalize {p q : NodeId} {c : Codepoint} :
    q ∈ g.totalize.targets p c ↔
      q ∈ g.targets p c ∨ (q = g.nextNode ∧ c ≤ Codec.maxCodepoint ∧
        (p = g.nextNode ∨ (g.contains p = true ∧ ∀ r, r ∉ g.targets p c))) := by
  rw [mem_targets, mem_targets]
  simp only [arrow_totalize]
  constructor
  · intro h
    rcases h with ⟨i, old | ⟨rfl, ⟨rfl, rfl⟩ | ⟨hp, hi⟩⟩, hc⟩
    · exact Or.inl ⟨i, old, hc⟩
    · exact Or.inr ⟨rfl, contains_full.1 hc, Or.inl rfl⟩
    · obtain ⟨hmax, hnone⟩ := hg.mem_gapsAt.1 ⟨i, hi, hc⟩
      exact Or.inr ⟨rfl, hmax, Or.inr ⟨hp, hnone⟩⟩
  · intro h
    rcases h with ⟨i, old, hc⟩ | ⟨rfl, hmax, rfl | ⟨hp, hnone⟩⟩
    · exact ⟨i, Or.inl old, hc⟩
    · exact ⟨_, Or.inr ⟨rfl, Or.inl ⟨rfl, rfl⟩⟩, contains_full.2 hmax⟩
    · obtain ⟨i, hi, hc⟩ := hg.mem_gapsAt.2 ⟨hmax, hnone⟩
      exact ⟨i, Or.inr ⟨rfl, Or.inr ⟨hp, hi⟩⟩, hc⟩

theorem Encoded.totalize : g.totalize.Encoded := by
  refine endsBy_iff.2 fun p q c hq => ?_
  rcases hg.mem_targets_totalize.1 hq with old | ⟨-, hmax, -⟩
  · exact endsBy_iff.1 hg p q c old
  · exact hmax

theorem SingleValued.totalize (hone : g.SingleValued) : g.totalize.SingleValued := by
  have hclash : ∀ {p q c}, q ∈ g.targets p c →
      ¬ (p = g.nextNode ∨ (g.contains p = true ∧ ∀ r, r ∉ g.targets p c)) := by
    rintro p q c hq (rfl | ⟨-, hnone⟩)
    · obtain ⟨i, arrow, -⟩ := mem_targets.1 hq
      exact nextNode_ne arrow.contains_source rfl
    · exact hnone q hq
  intro p c q r hq hr
  rcases hg.mem_targets_totalize.1 hq with hq | ⟨hq, -, hsink⟩
  · rcases hg.mem_targets_totalize.1 hr with hr | ⟨-, -, hsink⟩
    · exact hone p c q r hq hr
    · exact absurd hsink (hclash hq)
  · rcases hg.mem_targets_totalize.1 hr with hr | ⟨hr, -, -⟩
    · exact absurd hsink (hclash hr)
    · rw [hq, hr]

theorem Encoded.complete_totalize : g.totalize.Complete := by
  intro p c hp hc
  rcases contains_totalize.1 hp with hsink | hold
  · exact ⟨g.nextNode, hg.mem_targets_totalize.2 (Or.inr ⟨rfl, hc, Or.inl hsink⟩)⟩
  · by_cases hsome : ∃ q, q ∈ g.targets p c
    · obtain ⟨q, hq⟩ := hsome
      exact ⟨q, hg.mem_targets_totalize.2 (Or.inl hq)⟩
    · rw [not_exists] at hsome
      exact ⟨g.nextNode, hg.mem_targets_totalize.2 (Or.inr ⟨rfl, hc, Or.inr ⟨hold, hsome⟩⟩)⟩

/-- **Nothing more is accepted**: the sink does not lead back. -/
theorem Encoded.acceptsFrom_totalize {p : NodeId} {w : List Codepoint} :
    g.totalize.AcceptsFrom p w ↔ g.AcceptsFrom p w := by
  induction w generalizing p with
  | nil => rw [acceptsFrom_nil_iff, acceptsFrom_nil_iff, isAccept_totalize]
  | cons c w ih =>
    rw [acceptsFrom_cons_iff, acceptsFrom_cons_iff]
    constructor
    · intro h
      rcases h with ⟨q, hq, hacc⟩
      rcases hg.mem_targets_totalize.1 hq with old | ⟨rfl, -⟩
      · exact ⟨q, old, ih.1 hacc⟩
      · exact absurd hacc not_acceptsFrom_sink
    · intro h
      rcases h with ⟨q, hq, hacc⟩
      exact ⟨q, hg.mem_targets_totalize.2 (Or.inl hq), ih.2 hacc⟩

end Total

end Graph

end SymbolAutomata
