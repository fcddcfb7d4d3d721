/-
  SymbolAutomata/Proofs/Graph/Subset.lean
  =======================================
  **The subset construction.**

  A node of the new graph is a set of nodes of the old one, found by a search
  that starts with one node.  All sets that can come up, apart from the first, are
  sublists of the list of nodes; there are `2 ^ n` of them, so the search comes to
  its end (`drains_found`) with all that there are to find (`found_closed`).

  A set leads over a codepoint to the set of what its members lead to
  (`mem_targets_subsets`), which makes the graph single-valued and gives a word
  the same meaning in both graphs (`acceptsFrom_subsets`).

  Determinization keeps a graph that is single-valued already and takes the graph of
  sets for any other (`determinize_cases`); either way it is right
  (`Encoded.determinize_correct`).
-/
import Mathlib
import SymbolAutomata.Proofs.Graph.Build
import SymbolAutomata.Proofs.Graph.Classes
import SymbolAutomata.Proofs.Search

namespace SymbolAutomata

namespace Graph

/-! ### Sets of nodes -/

theorem mem_subsetStep {g : Graph} {places : List NodeId} {c : Codepoint} {m : NodeId} :
    m ∈ g.subsetStep places c ↔ ∃ n ∈ places, m ∈ g.targets n c := by
  rw [subsetStep, mem_ascending, List.mem_flatMap]

/-- Every set that is stepped to is a sublist of the list of all nodes. -/
theorem subsetStep_sublist (g : Graph) (places : List NodeId) (c : Codepoint) :
    (g.subsetStep places c).Sublist g.nodeIds := by
  have hsorted : (g.subsetStep places c).Pairwise (· < ·) := ascending_sorted _
  apply List.sublist_of_subperm_of_pairwise _ hsorted g.nodeIds_sorted
  have hnodup : (g.subsetStep places c).Nodup := hsorted.imp Nat.ne_of_lt
  apply hnodup.subperm
  intro m hm
  obtain ⟨n, -, hm⟩ := mem_subsetStep.1 hm
  obtain ⟨i, arrow, -⟩ := mem_targets.1 hm
  exact mem_nodeIds.2 arrow.contains_target

theorem mem_subsetMoves {g : Graph} {classes : List (Codepoint × Interval)}
    {places dest : List NodeId} {i : Interval} :
    (i, dest) ∈ g.subsetMoves classes places ↔
      ∃ p, (p, i) ∈ classes ∧ dest = g.subsetStep places p ∧ dest ≠ [] := by
  simp only [subsetMoves, List.mem_filter, List.mem_map, Prod.mk.injEq, Bool.not_eq_true',
    List.isEmpty_eq_false_iff]
  constructor
  · intro h
    rcases h with ⟨⟨⟨p, j⟩, hp, rfl, rfl⟩, hne⟩
    exact ⟨p, hp, rfl, hne⟩
  · intro h
    rcases h with ⟨p, hp, rfl, hne⟩
    exact ⟨⟨(p, i), hp, rfl, rfl⟩, hne⟩

/-- The nonempty sets that a set leads to. -/
def successors (g : Graph) (places : List NodeId) : List (List NodeId) :=
  (g.subsetMoves g.classes places).map (·.2)

theorem mem_successors {g : Graph} {places dest : List NodeId} :
    dest ∈ g.successors places ↔
      ∃ p i, (p, i) ∈ g.classes ∧ dest = g.subsetStep places p ∧ dest ≠ [] := by
  simp only [successors, List.mem_map, Prod.exists, exists_eq_right, mem_subsetMoves]
  exact exists_comm

/-- The sets in the order in which they are found. -/
def found (g : Graph) (start : NodeId) : List (List NodeId) :=
  explore g.successors (Nat.pow 2 g.nodeCount + 1) [] [[start]]

theorem found_nodup (g : Graph) (start : NodeId) : (g.found start).Nodup :=
  explore_nodup (List.nodup_singleton _)

theorem found_head? (g : Graph) (start : NodeId) : (g.found start)[0]? = some [start] :=
  explore_head?

/-- **The search comes to its end**: there are only so many sets. -/
theorem drains_found (g : Graph) (start : NodeId) :
    Drains g.successors [] [[start]] (g.found start) := by
  have hlength : ([start] :: g.nodeIds.sublists).length ≤ 0 + (Nat.pow 2 g.nodeCount + 1) := by
    rw [List.length_cons, List.length_sublists, Nat.zero_add]
    exact Nat.le_refl _
  refine drains_explore ?_ ?_ (List.nodup_singleton _) hlength
  · intro xs _ ys hys
    obtain ⟨p, i, -, rfl, -⟩ := mem_successors.1 hys
    exact List.mem_cons_of_mem _ (List.mem_sublists.2 (g.subsetStep_sublist xs p))
  · intro xs hxs
    rw [List.mem_singleton.1 hxs]
    exact List.mem_cons_self ..

/-- **The search misses nothing.** -/
theorem found_closed {g : Graph} {start : NodeId} {places : List NodeId} {p : Codepoint}
    {i : Interval} (hplaces : places ∈ g.found start) (hp : (p, i) ∈ g.classes)
    (hne : g.subsetStep places p ≠ []) : g.subsetStep places p ∈ g.found start :=
  (g.drains_found start).closed (by simp) places hplaces _ (mem_successors.2 ⟨p, i, hp, rfl, hne⟩)

/-! ### The graph of sets -/

/-- The graph of a list of sets: a set moves as `subsetMoves` says and accepts if a member does. -/
def ofSets (g : Graph) (sets : List (List NodeId)) : Graph :=
  build (sets.map fun places => places.any g.isAccept)
    (sets.zipIdx.flatMap fun (places, n) =>
      (g.subsetMoves g.classes places).map fun (i, dest) => (n, i, sets.idxOf dest)) 0

theorem subsets_eq (g : Graph) (start : NodeId) : g.subsets start = g.ofSets (g.found start) := rfl

theorem arrow_subsets {g : Graph} {start n m : NodeId} {i : Interval} :
    (g.subsets start).Arrow n i m ↔
      ∃ places p, (g.found start)[n]? = some places ∧ (p, i) ∈ g.classes ∧
        g.subsetStep places p ≠ [] ∧ (g.found start)[m]? = some (g.subsetStep places p) := by
  rw [subsets_eq, ofSets, arrow_build]
  simp only [List.mem_flatMap, List.mem_map, Prod.mk.injEq, Prod.exists, List.length_map]
  constructor
  · intro h
    rcases h with ⟨⟨places, n, hn, j, dest, hmove, rfl, rfl, rfl⟩, -, -⟩
    have hn' := List.mem_zipIdx_iff_getElem?.1 hn
    obtain ⟨p, hp, rfl, hne⟩ := mem_subsetMoves.1 hmove
    refine ⟨places, p, hn', hp, hne, ?_⟩
    exact List.getElem?_idxOf (found_closed (List.mem_of_getElem? hn') hp hne)
  · intro h
    rcases h with ⟨places, p, hn, hp, hne, hm⟩
    refine ⟨⟨places, n, List.mem_zipIdx_iff_getElem?.2 hn, i, g.subsetStep places p,
      mem_subsetMoves.2 ⟨p, hp, rfl, hne⟩, rfl, rfl, ?_⟩, ?_, ?_⟩
    · exact ((getElem?_eq_some_iff_idxOf (g.found_nodup start)).1 hm).2
    · exact (List.getElem?_eq_some_iff.1 hn).1
    · exact (List.getElem?_eq_some_iff.1 hm).1

@[simp] theorem initial_subsets (g : Graph) (start : NodeId) :
    (g.subsets start).initial = some 0 := rfl

theorem contains_subsets {g : Graph} {start n : NodeId} :
    (g.subsets start).contains n = true ↔ n < (g.found start).length := by
  rw [subsets_eq, ofSets, contains_build, List.length_map]

theorem isAccept_subsets {g : Graph} {start n : NodeId} {places : List NodeId}
    (hn : (g.found start)[n]? = some places) :
    (g.subsets start).isAccept n = places.any g.isAccept := by
  rw [subsets_eq, ofSets, isAccept_build, List.getElem?_map, hn]
  rfl

theorem rooted_subsets (g : Graph) (start : NodeId) : (g.subsets start).Rooted :=
  ⟨0, rfl, contains_subsets.2 (List.getElem?_eq_some_iff.1 (g.found_head? start)).1⟩

section Subsets

variable {g : Graph} (hg : g.Encoded) {start : NodeId}

include hg

theorem Encoded.subsets (start : NodeId) : (g.subsets start).Encoded := by
  intro n i m arrow
  obtain ⟨places, p, -, hp, -, -⟩ := arrow_subsets.1 arrow
  exact (hg.mem_classes hp).2.2.1

/-- **A set leads to the set of what its members lead to.** -/
theorem mem_targets_subsets {n m : NodeId} {c : Codepoint} :
    m ∈ (g.subsets start).targets n c ↔
      ∃ places, (g.found start)[n]? = some places ∧ g.subsetStep places c ≠ [] ∧
        (g.found start)[m]? = some (g.subsetStep places c) := by
  have hsame : ∀ {p i}, (p, i) ∈ g.classes → i.contains c = true →
      ∀ places, g.subsetStep places c = g.subsetStep places p := by
    intro p i hp hc places
    unfold subsetStep
    simp only [hg.targets_eq_start hp hc]
  rw [mem_targets]
  constructor
  · intro h
    rcases h with ⟨i, arrow, hc⟩
    obtain ⟨places, p, hn, hp, hne, hm⟩ := arrow_subsets.1 arrow
    rw [← hsame hp hc] at hne hm
    exact ⟨places, hn, hne, hm⟩
  · intro h
    rcases h with ⟨places, hn, hne, hm⟩
    -- some member moves over `c`, which therefore has a class
    obtain ⟨q, hq⟩ := List.exists_mem_of_ne_nil _ hne
    obtain ⟨r, -, hq⟩ := mem_subsetStep.1 hq
    obtain ⟨p, i, hp, hc⟩ := g.exists_class (endsBy_iff.1 hg r q c hq)
    rw [hsame hp hc] at hne hm
    exact ⟨i, arrow_subsets.2 ⟨places, p, hn, hp, hne, hm⟩, hc⟩

theorem Encoded.singleValued_subsets (start : NodeId) : (g.subsets start).SingleValued := by
  intro n c m k hm hk
  obtain ⟨places, hn, -, hm⟩ := (mem_targets_subsets hg).1 hm
  obtain ⟨places', hn', -, hk⟩ := (mem_targets_subsets hg).1 hk
  obtain rfl := Option.some.inj (hn.symm.trans hn')
  have hnodup := g.found_nodup start
  rw [getElem?_eq_some_iff_idxOf hnodup] at hm hk
  exact hm.2.symm.trans hk.2

/-- **A set accepts what its members accept.** -/
theorem acceptsFrom_subsets {n : NodeId} {places : List NodeId}
    (hn : (g.found start)[n]? = some places) {w : List Codepoint} :
    (g.subsets start).AcceptsFrom n w ↔ ∃ p ∈ places, g.AcceptsFrom p w := by
  induction w generalizing n places with
  | nil =>
    rw [acceptsFrom_nil_iff, isAccept_subsets hn, List.any_eq_true]
    simp only [acceptsFrom_nil_iff]
  | cons c w ih =>
    rw [acceptsFrom_cons_iff]
    constructor
    · intro h
      rcases h with ⟨m, hm, hacc⟩
      obtain ⟨places', hn', -, hm⟩ := (mem_targets_subsets hg).1 hm
      obtain rfl := Option.some.inj (hn.symm.trans hn')
      obtain ⟨q, hq, hacc⟩ := (ih hm).1 hacc
      obtain ⟨p, hp, hq⟩ := mem_subsetStep.1 hq
      exact ⟨p, hp, acceptsFrom_cons_iff.2 ⟨q, hq, hacc⟩⟩
    · intro h
      rcases h with ⟨p, hp, hacc⟩
      obtain ⟨q, hq, hacc⟩ := acceptsFrom_cons_iff.1 hacc
      have hmem : q ∈ g.subsetStep places c := mem_subsetStep.2 ⟨p, hp, hq⟩
      have hne : g.subsetStep places c ≠ [] := List.ne_nil_of_mem hmem
      obtain ⟨d, i, hd, hc⟩ := g.exists_class (endsBy_iff.1 hg p q c hq)
      have hstep : g.subsetStep places c = g.subsetStep places d := by
        unfold subsetStep
        simp only [hg.targets_eq_start hd hc]
      have hfound : g.subsetStep places c ∈ g.found start := by
        rw [hstep] at hne ⊢
        exact found_closed (List.mem_of_getElem? hn) hd hne
      have hm := List.getElem?_idxOf hfound
      exact ⟨_, (mem_targets_subsets hg).2 ⟨places, hn, hne, hm⟩, (ih hm).2 ⟨q, hmem, hacc⟩⟩

end Subsets

/-! ### Determinization -/

@[simp] theorem not_arrow_emptyLanguage {p q : NodeId} {i : Interval} :
    ¬ emptyLanguage.Arrow p i q := by
  unfold emptyLanguage
  rw [arrow_build]
  simp

@[simp] theorem not_mem_targets_emptyLanguage {p q : NodeId} {c : Codepoint} :
    q ∉ emptyLanguage.targets p c := by
  rw [mem_targets]
  intro h
  rcases h with ⟨i, arrow, -⟩
  exact not_arrow_emptyLanguage arrow

theorem rooted_emptyLanguage : emptyLanguage.Rooted := ⟨0, rfl, rfl⟩

theorem not_accepts_emptyLanguage {w : List Codepoint} : ¬ emptyLanguage.Accepts w := by
  rw [accepts_iff_of_initial (i := 0) rfl]
  cases w with
  | nil =>
    rw [acceptsFrom_nil_iff]
    exact Bool.false_ne_true
  | cons c w =>
    rw [acceptsFrom_cons_iff]
    intro h
    rcases h with ⟨q, hq, -⟩
    exact not_mem_targets_emptyLanguage hq

/-- **A graph is kept just when it is single-valued**, whatever it is declared to be. -/
theorem determinize_cases (g : Graph) :
    (g.initial = none ∧ g.determinize = emptyLanguage) ∨
      ∃ start, g.initial = some start ∧
        ((g.SingleValued ∧ g.determinize = g.declare true) ∨
          (¬ g.SingleValued ∧ g.determinize = (g.subsets start).reduce.declare true)) := by
  unfold determinize
  cases g.initial with
  | none => exact Or.inl ⟨rfl, rfl⟩
  | some start =>
    refine Or.inr ⟨start, rfl, ?_⟩
    dsimp only
    split
    · next hdet => exact Or.inl ⟨isDeterministic_iff.1 hdet, rfl⟩
    · next hdet => exact Or.inr ⟨fun hone => hdet (isDeterministic_iff.2 hone), rfl⟩

theorem deterministic_determinize (g : Graph) : g.determinize.deterministic = true := by
  rcases g.determinize_cases with ⟨-, heq⟩ | ⟨start, -, ⟨-, heq⟩ | ⟨-, heq⟩⟩ <;> rw [heq] <;> rfl

theorem Encoded.determinize {g : Graph} (hg : g.Encoded) : g.determinize.Encoded := by
  rcases g.determinize_cases with ⟨-, heq⟩ | ⟨start, -, ⟨-, heq⟩ | ⟨-, heq⟩⟩ <;> rw [heq]
  · exact fun p i q arrow => absurd arrow not_arrow_emptyLanguage
  · exact hg
  · apply (hg.subsets start).of_targets
    intro p q c hq
    rw [mem_targets_declare, mem_targets_reduce] at hq
    exact ⟨p, q, hq⟩

/-- **No node of the result leads to two places.** -/
theorem Encoded.singleValued_determinize {g : Graph} (hg : g.Encoded) :
    g.determinize.SingleValued := by
  rcases g.determinize_cases with ⟨-, heq⟩ | ⟨start, -, ⟨hone, heq⟩ | ⟨-, heq⟩⟩ <;> rw [heq]
  · exact fun p c q r hq => absurd hq not_mem_targets_emptyLanguage
  · exact hone
  · apply (hg.singleValued_subsets start).of_targets
    intro p q c hq
    rwa [mem_targets_declare, mem_targets_reduce] at hq

theorem Grounded.rooted_determinize {g : Graph} (hroot : g.Grounded) : g.determinize.Rooted := by
  rcases g.determinize_cases with ⟨-, heq⟩ | ⟨start, hstart, ⟨-, heq⟩ | ⟨-, heq⟩⟩ <;> rw [heq]
  · exact rooted_emptyLanguage
  · exact ⟨start, hstart, hroot start hstart⟩
  · obtain ⟨i, hi, hc⟩ := g.rooted_subsets start
    refine ⟨i, ?_, ?_⟩
    · rw [initial_declare, initial_reduce, hi]
    · rw [contains_eq_isSome, flag?_declare, flag?_reduce]
      exact hc

/-- **Determinization keeps the language.** -/
theorem accepts_determinize {g : Graph} (hg : g.Encoded) {w : List Codepoint} :
    g.determinize.Accepts w ↔ g.Accepts w := by
  rcases g.determinize_cases with ⟨hnone, heq⟩ | ⟨start, hstart, ⟨-, heq⟩ | ⟨-, heq⟩⟩ <;> rw [heq]
  · exact iff_of_false not_accepts_emptyLanguage (not_accepts_of_initial hnone)
  · exact accepts_declare
  · have hkeep : ((g.subsets start).reduce.declare true).AcceptsFrom 0 w ↔
        (g.subsets start).AcceptsFrom 0 w := by
      rw [acceptsFrom_declare]
      exact acceptsFrom_congr_targets (isAccept_reduce _) fun p q c => mem_targets_reduce
    rw [accepts_iff_of_initial (i := 0) (by simp), hkeep, accepts_iff_of_initial hstart,
      acceptsFrom_subsets hg (g.found_head? start)]
    simp

/-- **What determinization does**, to any graph with labels inside the codec.  The result accepts
    the same words, leads to one place at most over each codepoint and is declared deterministic.
    A graph that leads to one place already is kept.  For any other the search for sets of nodes
    comes to its end, and the result is the graph of the sets that are found. -/
theorem Encoded.determinize_correct {g : Graph} (hg : g.Encoded) :
    (∀ w, g.determinize.run w = g.run w) ∧ g.determinize.SingleValued ∧
      g.determinize.deterministic = true ∧
      ∀ start, g.initial = some start →
        (g.SingleValued ∧ g.determinize = g.declare true) ∨
          (¬ g.SingleValued ∧ ∃ sets, Drains g.successors [] [[start]] sets ∧
            g.determinize = (g.ofSets sets).reduce.declare true) := by
  refine ⟨?_, hg.singleValued_determinize, g.deterministic_determinize, ?_⟩
  · intro w
    exact run_eq_of_accepts_iff (accepts_determinize hg)
  · intro start hstart
    rcases g.determinize_cases with ⟨hnone, -⟩ | ⟨first, hfirst, hways⟩
    · rw [hnone] at hstart
      cases hstart
    · obtain rfl := Option.some.inj (hfirst.symm.trans hstart)
      rcases hways with hkept | ⟨hmany, heq⟩
      · exact Or.inl hkept
      · exact Or.inr ⟨hmany, g.found first, g.drains_found first, heq⟩

/-- Labels that overlap and lead to two nodes, of which one leads back. -/
def forked : Graph :=
  build [false, true, false]
    [(0, Interval.between 10 20, 1), (0, Interval.between 15 30, 2), (2, Interval.single 40, 0)] 0

theorem determinize_correct_forked :
    forked.Encoded ∧ ¬ forked.SingleValued ∧ forked.determinize.SingleValued ∧
      forked.determinize.run [17, 40, 12] = true ∧
      ∃ sets, Drains forked.successors [] [[0]] sets ∧
        forked.determinize = (forked.ofSets sets).reduce.declare true := by
  have henc : forked.Encoded := by
    apply EndsBy.build
    decide
  obtain ⟨hrun, hone, -, hways⟩ := henc.determinize_correct
  have hmany : ¬ forked.SingleValued := by
    rw [← isDeterministic_iff]
    decide_cbv
  refine ⟨henc, hmany, hone, ?_, ?_⟩
  · rw [hrun]
    decide
  · exact ((hways 0 rfl).resolve_left fun hkept => hmany hkept.1).2

end Graph

end SymbolAutomata
