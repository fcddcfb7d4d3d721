/-
  SymbolAutomata/Proofs/Graph/Astray.lean
  =======================================
  **Graphs whose initial node is missing.**

  Any number may be named as the initial node.  If there is no such node nothing is
  accepted, and most operations see the empty language (`Astray.verdicts`): those that
  copy the graph find no copy of the initial node, a product starts from a pair that has
  no moves, and so does the search for sets of nodes.

  Determinization keeps a graph that is deterministic, with the number it names.  What is
  built on it, minimization and complement, then depends on the number.  The sink is the
  next new node; if it takes the number, it becomes the initial node, from which nothing
  is accepted, and all is well.  Otherwise the number stays without a node.  The
  complement still has nothing to start from and rejects all words.  The table of the
  minimal graph has a first state though, the lowest node of the graph, and the minimal
  graph accepts what is accepted from there.

  Where the sink is added to the graph itself, its labels have to be such that numbers of
  32 bits are enough (`Within32`).
-/
import SymbolAutomata.Proofs.Graph.Complement
import SymbolAutomata.Proofs.Graph.Overflow
import SymbolAutomata.Proofs.Graph.Product

namespace SymbolAutomata

namespace Graph

/-- **The graph names a number as its initial node that is no node.** -/
structure Astray (g : Graph) (m : NodeId) : Prop where
  named : g.initial = some m
  missing : g.contains m = false

variable {g : Graph} {m : NodeId}

theorem run_eq_of_language_eq {h : Graph} (same : g.language = h.language) (w : List Codepoint) :
    g.run w = h.run w := by
  rw [Bool.eq_iff_iff, run_iff_mem_language, run_iff_mem_language, same]

theorem run_eq_false (hempty : g.language = 0) (w : List Codepoint) : g.run w = false := by
  rw [← Bool.not_eq_true, run_iff_mem_language, hempty]
  exact Language.notMem_zero w

namespace Astray

/-! ### Nothing is accepted -/

theorem language (h : g.Astray m) : g.language = 0 := by
  ext w
  refine iff_of_false ?_ (Language.notMem_zero w)
  rw [mem_language, accepts_iff_of_initial h.named]
  exact not_acceptsFrom_of_not_contains h.missing

theorem run (h : g.Astray m) (w : List Codepoint) : g.run w = false := run_eq_false h.language w

theorem declare (h : g.Astray m) (d : Bool) : (g.declare d).Astray m := ⟨h.named, h.missing⟩

theorem not_mem_targets (h : g.Astray m) {q : NodeId} {c : Codepoint} : q ∉ g.targets m c := by
  intro hq
  obtain ⟨i, arrow, -⟩ := mem_targets.1 hq
  exact Bool.false_ne_true (h.missing.symm.trans arrow.contains_source)

/-! ### Sets of nodes -/

theorem successors (h : g.Astray m) : g.successors [m] = [] := by
  refine List.eq_nil_iff_forall_not_mem.2 fun dest hdest => ?_
  obtain ⟨p, i, -, rfl, hne⟩ := mem_successors.1 hdest
  obtain ⟨q, hq⟩ := List.exists_mem_of_ne_nil _ hne
  obtain ⟨n, hn, hq⟩ := mem_subsetStep.1 hq
  rw [List.mem_singleton.1 hn] at hq
  exact h.not_mem_targets hq

/-- **The search for sets finds nothing** beyond the set it starts from. -/
theorem found (h : g.Astray m) : g.found m = [[m]] := by
  have hdrains := g.drains_found m
  generalize g.found m = sets at hdrains
  cases hdrains with
  | visit rest =>
    rw [h.successors] at rest
    cases rest
    rfl

theorem not_isAccept (h : g.Astray m) : g.isAccept m = false := by
  rw [← Bool.not_eq_true]
  exact fun hacc => Bool.false_ne_true (h.missing.symm.trans (contains_of_isAccept hacc))

theorem subsets (h : g.Astray m) : g.subsets m = emptyLanguage := by
  have hmoves : g.subsetMoves g.classes [m] = [] := List.map_eq_nil_iff.1 h.successors
  rw [subsets_eq, h.found]
  simp [ofSets, hmoves, h.not_isAccept, emptyLanguage]

/-- **A graph that is deterministic is kept**; of any other nothing is left. -/
theorem determinize (h : g.Astray m) :
    g.determinize = if g.isDeterministic then g.declare true else emptyLanguage := by
  have hreduce : emptyLanguage.reduce.declare true = emptyLanguage := rfl
  unfold Graph.determinize
  rw [h.named]
  dsimp only
  rw [h.subsets, hreduce]

end Astray

/-! ### Where nothing is left -/

/-- Minimization and complement see what determinization leaves, and nothing else. -/
theorem minimize_congr {h : Graph} (same : g.determinize = h.determinize) :
    g.minimize = h.minimize := by
  unfold minimize
  rw [same]

theorem complement_congr {h : Graph} (same : g.determinize = h.determinize) :
    g.complement = h.complement := by
  rw [complement_eq, complement_eq, same]

theorem run_minimize_emptyLanguage (w : List Codepoint) : emptyLanguage.minimize.run w = false := by
  rw [← Bool.not_eq_true, run_eq_true_iff,
    accepts_minimize endsBy_emptyLanguage rooted_emptyLanguage.grounded]
  exact not_accepts_emptyLanguage

theorem run_complement_emptyLanguage (w : List Codepoint) :
    emptyLanguage.complement.run w = true ↔ ∀ c ∈ w, c ≤ Codec.maxCodepoint := by
  rw [run_eq_true_iff,
    accepts_complement endsBy_emptyLanguage rooted_emptyLanguage.grounded]
  exact and_iff_left not_accepts_emptyLanguage

/-! ### Where the sink takes the number -/

theorem eq_sink_of_reads {q : NodeId} {w : List Codepoint}
    (h : g.totalize.Reads g.nextNode w q) : q = g.nextNode := by
  induction w generalizing q with
  | nil => exact (reads_nil_iff.1 h).symm
  | cons c w ih =>
    obtain ⟨r, hr, rest⟩ := reads_cons_iff.1 h
    rw [(mem_targets_sink.1 hr).1] at rest
    exact ih rest

theorem acceptsFrom_flipped_sink {w : List Codepoint} :
    g.totalize.flipped.AcceptsFrom g.nextNode w ↔ ∀ c ∈ w, c ≤ Codec.maxCodepoint := by
  induction w with
  | nil =>
    rw [acceptsFrom_nil_iff, isAccept_flipped (contains_totalize.2 (Or.inl rfl)),
      isAccept_sink]
    exact iff_of_true rfl fun _ h => absurd h List.not_mem_nil
  | cons c w ih =>
    rw [acceptsFrom_cons_iff, List.forall_mem_cons, ← ih]
    simp only [mem_targets_flipped, mem_targets_sink]
    constructor
    · rintro ⟨q, ⟨rfl, hc⟩, hacc⟩
      exact ⟨hc, hacc⟩
    · exact fun h => ⟨g.nextNode, ⟨rfl, h.1⟩, h.2⟩

section Sink

variable (hkeep : g.determinize = g.declare true) (hi : g.initial = some g.nextNode)

include hkeep hi

theorem mem_targets_completion_sink {p q : NodeId} {c : Codepoint}
    (hq : q ∈ g.completion.targets p c) : q = g.nextNode ∧ c ≤ Codec.maxCodepoint := by
  have hcompletion : g.completion = (g.declare true).totalize.prune := by
    rw [completion, hkeep]
  have hi' : (g.declare true).totalize.initial = some g.nextNode := by
    rw [initial_totalize, initial_declare, hi]
  rw [hcompletion] at hq
  obtain ⟨hq, hp⟩ := mem_targets_prune.1 hq
  obtain ⟨w, path⟩ := (mem_reachable hi' (contains_totalize.2 (Or.inl rfl))).1 hp
  have hsink := eq_sink_of_reads (g := g.declare true) path
  rw [hsink] at hq
  exact (mem_targets_sink (g := g.declare true)).1 hq

theorem run_minimize_of_sink (w : List Codepoint) : g.minimize.run w = false := by
  have hi' : (g.declare true).totalize.initial = some g.nextNode := by
    rw [initial_totalize, initial_declare, hi]
  have hc : (g.declare true).totalize.contains g.nextNode = true :=
    contains_totalize.2 (Or.inl rfl)
  have hreach := mem_reachable_initial hi' hc
  have henc : g.completion.Encoded :=
    endsBy_iff.2 fun p q c hq => (mem_targets_completion_sink hkeep hi hq).2
  have hone : g.completion.SingleValued := fun p c q r hq hr =>
    (mem_targets_completion_sink hkeep hi hq).1.trans
      (mem_targets_completion_sink hkeep hi hr).1.symm
  have hfirst : g.completion.reachable[0]? = some g.nextNode := by
    rw [completion, hkeep]
    exact reachable_head? (by rw [initial_prune, hi']) (contains_prune.2 hreach)
  rw [← Bool.not_eq_true, run_eq_true_iff, accepts_minimize_iff henc hone hfirst, completion,
    hkeep, acceptsFrom_prune hreach]
  exact not_acceptsFrom_sink (g := g.declare true)

theorem run_complement_of_sink (w : List Codepoint) :
    g.complement.run w = true ↔ ∀ c ∈ w, c ≤ Codec.maxCodepoint := by
  have hi' : (g.declare true).totalize.flipped.initial = some g.nextNode := by
    rw [initial_flipped, initial_totalize, initial_declare, hi]
  have hroot : (g.declare true).totalize.flipped.Rooted :=
    ⟨_, hi', (contains_flipped _ _).trans (contains_totalize.2 (Or.inl rfl))⟩
  obtain ⟨j, hj, -, -, hreach⟩ := hroot.mem_reachable_removeDead
  obtain rfl := Option.some.inj (hi'.symm.trans hj)
  rw [run_eq_true_iff, complement_eq, hkeep, accepts_iff_of_initial ((initial_trimmed _).trans hi'),
    acceptsFrom_trimmed hreach]
  exact acceptsFrom_flipped_sink (g := g.declare true)

end Sink

/-! ### Where the number stays without a node -/

namespace Astray

theorem totalize (h : g.Astray m) (hm : m ≠ g.nextNode) : g.totalize.Astray m where
  named := by rw [initial_totalize, h.named]
  missing := by
    rw [← Bool.not_eq_true, contains_totalize, not_or, Bool.not_eq_true]
    exact ⟨hm, h.missing⟩

theorem trimmed (h : g.Astray m) : g.trimmed.Astray m where
  named := by rw [initial_trimmed, h.named]
  missing := by
    rw [← Bool.not_eq_true, contains_trimmed]
    intro hreach
    have hc := mem_nodeIds_of_mem_reachable hreach
    rw [contains_removeDead, h.missing] at hc
    cases hc

theorem flipped (h : g.Astray m) : g.flipped.Astray m where
  named := by rw [initial_flipped, h.named]
  missing := by rw [contains_flipped, h.missing]

theorem reachable (h : g.Astray m) : g.reachable = g.nodeIds := by
  apply reachable_of_missing
  intro i hi hc
  obtain rfl := Option.some.inj (h.named.symm.trans hi)
  exact Bool.false_ne_true (h.missing.symm.trans hc)

theorem prune (h : g.Astray m) : g.prune = g := by
  apply prune_eq_self
  intro n hn
  rw [h.reachable]
  exact mem_nodeIds.2 hn

/-- The lowest node of the total graph: a node of the graph or the sink. -/
theorem exists_lowest (g : Graph) : ∃ n, g.totalize.nodeIds[0]? = some n ∧
    (n = g.nextNode ∨ g.contains n = true) ∧
      ∀ k, k = g.nextNode ∨ g.contains k = true → n ≤ k := by
  have hsink : g.nextNode ∈ g.totalize.nodeIds :=
    mem_nodeIds.2 (contains_totalize.2 (Or.inl rfl))
  have hsorted := g.totalize.nodeIds_sorted
  cases hids : g.totalize.nodeIds with
  | nil =>
    rw [hids] at hsink
    cases hsink
  | cons n rest =>
    have hmem : ∀ k, k ∈ n :: rest ↔ k = g.nextNode ∨ g.contains k = true := by
      intro k
      rw [← hids, mem_nodeIds, contains_totalize]
    rw [hids, List.pairwise_cons] at hsorted
    refine ⟨n, rfl, (hmem n).1 (List.mem_cons_self ..), fun k hk => ?_⟩
    rcases List.mem_cons.1 ((hmem k).2 hk) with rfl | hrest
    · exact Nat.le_refl k
    · exact Nat.le_of_lt (hsorted.1 k hrest)

section Lost

variable (h : g.Astray m) (hone : g.isDeterministic = true) (hm : m ≠ g.nextNode)

include h hone hm

theorem run_complement_adrift (w : List Codepoint) : g.complement.run w = false := by
  have hkeep := h.determinize
  rw [if_pos hone] at hkeep
  rw [complement_eq, hkeep]
  exact ((h.declare true).totalize hm).flipped.trimmed.run w

/-- **The minimal graph accepts what the lowest node accepts.** -/
theorem run_minimize_adrift (hg : g.Encoded) : ∃ n, (n = g.nextNode ∨ g.contains n = true) ∧
    (∀ k, k = g.nextNode ∨ g.contains k = true → n ≤ k) ∧
      ∀ w, g.minimize.run w = g.runFrom [n] w := by
  have hkeep := h.determinize
  rw [if_pos hone] at hkeep
  have htotal := (h.declare true).totalize hm
  have hcompletion : g.completion = (g.declare true).totalize := by
    rw [completion, hkeep, htotal.prune]
  obtain ⟨n, hn, hnode, hleast⟩ := exists_lowest (g.declare true)
  refine ⟨n, hnode, hleast, fun w => ?_⟩
  have hfirst : g.completion.reachable[0]? = some n := by
    rw [hcompletion, htotal.reachable, hn]
  rw [Bool.eq_iff_iff, run_eq_true_iff, runFrom_eq_true_iff,
    accepts_minimize_iff hg.completion hg.singleValued_completion hfirst, hcompletion]
  have hdeclared : (g.declare true).Encoded := hg
  rw [hdeclared.acceptsFrom_totalize, acceptsFrom_declare]
  simp only [List.mem_singleton, exists_eq_left]

end Lost

/-! ### All operations -/

theorem run_determinize (h : g.Astray m) (w : List Codepoint) : g.determinize.run w = false := by
  rw [h.determinize]
  split
  · exact (h.declare true).run w
  · exact run_eq_false language_emptyLanguage w

theorem run_repetitions (h : g.Astray m) (w : List Codepoint) : (g.star.run w = true ↔ w = []) ∧
    ∀ least, ((g.repeatMin least).run w = true ↔ w = [] ∧ least = 0) ∧
      ∀ most, (g.repeatRange least most).run w = true ↔ w = [] ∧ least = 0 := by
  refine ⟨?_, fun least => ⟨?_, fun most => ?_⟩⟩
  · rw [run_iff_mem_language, language_star, kstar_eq_repeated, h.language, mem_repeated_zero]
    exact and_iff_left trivial
  · rw [run_iff_mem_language, language_repeatMin, h.language, mem_repeated_zero, Nat.le_zero]
  · rw [run_iff_mem_language, language_repeatRange, h.language, mem_repeated_zero, Nat.le_zero]
    exact and_congr_right fun _ => and_iff_left (Nat.zero_le most)

/-- **What a missing initial node means**, whatever the graph.  Nothing is accepted before and after
    determinization, and union, concatenation, intersection and repetition see the empty language.
    So do minimization and complement if the graph is not deterministic, or if the sink takes the
    number and the graph can be made total within 32 bits.  Otherwise the complement rejects every
    word, again within 32 bits, and the minimal graph accepts what is accepted from the lowest
    node. -/
theorem verdicts (h : g.Astray m) :
    (∀ w, g.run w = false ∧ g.determinize.run w = false) ∧
    (∀ a w, (g.union a).run w = a.run w ∧ (a.union g).run w = a.run w) ∧
    (∀ a w, (g.concatenate a).run w = false ∧ (a.concatenate g).run w = false) ∧
    (∀ a w, (g.intersection a).run w = false ∧ (a.intersection g).run w = false) ∧
    (∀ w, (g.star.run w = true ↔ w = []) ∧
      ∀ least, ((g.repeatMin least).run w = true ↔ w = [] ∧ least = 0) ∧
        ∀ most, (g.repeatRange least most).run w = true ↔ w = [] ∧ least = 0) ∧
    (g.isDeterministic = false ∨ m = g.nextNode ∧ g.Within32 → ∀ w, g.minimize.run w = false ∧
      (g.complement.run w = true ↔ ∀ c ∈ w, c ≤ Codec.maxCodepoint)) ∧
    (g.isDeterministic = true → m ≠ g.nextNode →
      (g.Within32 → ∀ w, g.complement.run w = false) ∧
      (g.Encoded → ∃ n, (n = g.nextNode ∨ g.contains n = true) ∧
        (∀ k, k = g.nextNode ∨ g.contains k = true → n ≤ k) ∧
          ∀ w, g.minimize.run w = g.runFrom [n] w)) := by
  have hempty := h.language
  refine ⟨fun w => ⟨h.run w, h.run_determinize w⟩, fun a w => ⟨?_, ?_⟩, fun a w => ⟨?_, ?_⟩,
    fun a w => ⟨?_, ?_⟩, h.run_repetitions, fun hcase w => ?_, fun hone hm => ⟨?_, ?_⟩⟩
  · exact run_eq_of_language_eq (by rw [language_union, hempty, zero_add]) w
  · exact run_eq_of_language_eq (by rw [language_union, hempty, add_zero]) w
  · exact run_eq_false (by rw [language_concatenate, hempty, zero_mul]) w
  · exact run_eq_false (by rw [language_concatenate, hempty, mul_zero]) w
  · exact run_eq_false (by rw [language_intersection, hempty, both_zero]) w
  · exact run_eq_false (by rw [language_intersection, hempty, both_comm, both_zero]) w
  · by_cases hone : g.isDeterministic = true
    · have hkeep := h.determinize
      rw [if_pos hone] at hkeep
      have hm : m = g.nextNode := (hcase.resolve_left fun hmany => by simp [hone] at hmany).1
      have hi : g.initial = some g.nextNode := hm ▸ h.named
      exact ⟨run_minimize_of_sink hkeep hi w, run_complement_of_sink hkeep hi w⟩
    · have hagain : emptyLanguage.determinize = emptyLanguage :=
        if_pos (by decide_cbv : emptyLanguage.isDeterministic = true)
      have hleft : g.determinize = emptyLanguage.determinize := by
        rw [h.determinize, if_neg hone, hagain]
      rw [minimize_congr hleft, complement_congr hleft]
      exact ⟨run_minimize_emptyLanguage w, run_complement_emptyLanguage w⟩
  · exact fun _ => h.run_complement_adrift hone hm
  · exact h.run_minimize_adrift hone hm

end Astray

/-- One arc that ends in acceptance, while the initial node is another number. -/
def adrift : Graph := build [false, true] [(0, .single 5, 1)] 7

/-- The same with a choice. -/
def adriftTwice : Graph := build [false, true] [(0, .single 5, 1), (0, .single 5, 0)] 7

/-- The initial node was removed, and its number is the next to be used. -/
def beheaded : Graph := (build [false, true, true] [(1, .single 5, 2)] 0).removeNode 0

theorem verdicts_adrift :
    adrift.Astray 7 ∧ adriftTwice.Astray 7 ∧ beheaded.Astray 0 ∧
      adrift.determinize.run [5] = false ∧ (adrift.union ring).run [5, 5] = true ∧
      (ring.concatenate adrift).run [5] = false ∧ (ring.intersection adrift).run [] = false ∧
      (adrift.repeatMin 0).run [] = true ∧ adriftTwice.minimize.run [5] = false ∧
      adriftTwice.complement.run [5] = true ∧ beheaded.minimize.run [] = false ∧
      beheaded.complement.run [] = true ∧ adrift.complement.run [] = false ∧
      ∃ n, (∀ k, k = 2 ∨ adrift.contains k = true → n ≤ k) ∧
        ∀ w, adrift.minimize.run w = adrift.runFrom [n] w := by
  have hadrift : adrift.Astray 7 := ⟨rfl, by decide⟩
  have htwice : adriftTwice.Astray 7 := ⟨rfl, by decide⟩
  have hbeheaded : beheaded.Astray 0 := ⟨rfl, by decide⟩
  have henc : adrift.Encoded := by
    apply EndsBy.build
    decide
  have hwithin : beheaded.Within32 := by
    have hall : ∀ a ∈ beheaded.arcs, a.label.max < Text.natural32 := by decide
    rintro p i q ⟨a, ha, -, rfl, -⟩
    exact hall a ha
  obtain ⟨hrun, hunion, hconcatenate, hintersection, hrepeat, -, hlost⟩ := hadrift.verdicts
  obtain ⟨-, -, -, -, -, hmany, -⟩ := htwice.verdicts
  obtain ⟨-, -, -, -, -, hsink, -⟩ := hbeheaded.verdicts
  obtain ⟨hnone, hfirst⟩ := hlost (by decide_cbv) (by decide)
  obtain ⟨n, -, hleast, hsame⟩ := hfirst henc
  refine ⟨hadrift, htwice, hbeheaded, (hrun [5]).2, ?_, (hconcatenate ring [5]).2,
    (hintersection ring []).2, (((hrepeat []).2 0).1).2 ⟨rfl, rfl⟩,
    (hmany (Or.inl (by decide_cbv)) [5]).1, ((hmany (Or.inl (by decide_cbv)) [5]).2).2 (by decide),
    (hsink (Or.inr ⟨rfl, hwithin⟩) []).1, ((hsink (Or.inr ⟨rfl, hwithin⟩) []).2).2 (by decide),
    hnone henc.within32 [], n, hleast, hsame⟩
  rw [(hunion ring [5, 5]).1]
  decide

/-- **The minimal graph accepts a word that the graph rejects**, and the complement rejects it,
    too. -/
theorem not_empty_adrift :
    adrift.Astray 7 ∧ adrift.run [5] = false ∧ adrift.minimize.run [5] = true ∧
      adrift.complement.run [5] = false := by
  have hadrift : adrift.Astray 7 := ⟨rfl, by decide⟩
  have henc : adrift.Encoded := by
    apply EndsBy.build
    decide
  obtain ⟨n, -, hleast, hsame⟩ := hadrift.run_minimize_adrift (by decide_cbv) (by decide) henc
  obtain rfl : n = 0 := Nat.le_zero.1 (hleast 0 (Or.inr (by decide)))
  refine ⟨hadrift, hadrift.run [5], ?_,
    hadrift.run_complement_adrift (by decide_cbv) (by decide) [5]⟩
  rw [hsame]
  decide

end Graph

end SymbolAutomata
