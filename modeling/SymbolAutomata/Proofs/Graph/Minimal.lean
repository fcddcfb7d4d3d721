/-
  SymbolAutomata/Proofs/Graph/Minimal.lean
  ========================================
  **Minimization keeps the language and delivers a minimal graph.**

  On the way to the minimal graph each stage is known by what it does to
  destinations and to acceptance.  `completion` is the single-valued total graph
  of the language, all of whose nodes are reachable; its `quotient` has a node per
  class of equivalent nodes; dropping the arcs into dead nodes and what is then out of
  reach takes the sink away again and no node from which something is accepted.

  `Minimal` collects what the result is like, and `minimal_minimize` says that
  minimization delivers it.
-/
import SymbolAutomata.Proofs.Graph.Quotient

namespace SymbolAutomata

namespace Graph

/-! ### The total graph of the language -/

/-- The graph that is written down as a table. -/
def completion (g : Graph) : Graph := g.determinize.totalize.prune

section Completion

variable {g : Graph}

theorem Grounded.exists_initial_completion (hroot : g.Grounded) :
    ∃ i, g.completion.initial = some i ∧ i ∈ g.determinize.totalize.reachable := by
  obtain ⟨i, hi, hc⟩ := hroot.rooted_determinize
  have hi' : g.determinize.totalize.initial = some i := by rw [initial_totalize, hi]
  refine ⟨i, ?_, mem_reachable_initial hi' (contains_totalize.2 (Or.inr hc))⟩
  rw [completion, initial_prune, hi']

theorem Grounded.rooted_completion (hroot : g.Grounded) : g.completion.Rooted := by
  obtain ⟨i, hi, hreach⟩ := hroot.exists_initial_completion
  exact ⟨i, hi, contains_prune.2 hreach⟩

variable (hg : g.Encoded)

include hg

theorem Encoded.completion : g.completion.Encoded :=
  hg.determinize.totalize.of_targets fun p q _ hq => ⟨p, q, (mem_targets_prune.1 hq).1⟩

theorem Encoded.singleValued_completion : g.completion.SingleValued :=
  (hg.singleValued_determinize.totalize hg.determinize).of_targets
    fun _ _ _ hq => (mem_targets_prune.1 hq).1

theorem Encoded.complete_completion : g.completion.Complete := by
  intro p c hp hc
  have hreach := contains_prune.1 hp
  obtain ⟨q, hq⟩ := hg.determinize.complete_totalize p c (mem_nodeIds_of_mem_reachable hreach) hc
  exact ⟨q, mem_targets_prune.2 ⟨hq, hreach⟩⟩

theorem Encoded.accepts_completion (hroot : g.Grounded) {w : List Codepoint} :
    g.completion.Accepts w ↔ g.Accepts w := by
  obtain ⟨i, hi, -⟩ := hroot.rooted_determinize
  rw [Graph.completion, accepts_prune, ← accepts_determinize hg]
  rw [accepts_iff_of_initial (by rw [initial_totalize, hi]), accepts_iff_of_initial hi]
  exact hg.determinize.acceptsFrom_totalize

end Completion

/-! ### The minimal graph -/

/-- **A minimal deterministic graph**: it has an initial node, all nodes are reachable, all
    destinations live, different nodes accept different words, and labels are as long as they can
    be. -/
structure Minimal (g : Graph) : Prop where
  rooted : g.Rooted
  encoded : g.Encoded
  singleValued : g.SingleValued
  declared : g.deterministic = true
  reached : ∀ i n, g.initial = some i → g.contains n = true → ∃ w, g.Reads i w n
  live : ∀ p q c, q ∈ g.targets p c → ∃ w, g.AcceptsFrom q w
  distinct : ∀ p q, g.contains p = true → g.contains q = true →
    (∀ w, g.AcceptsFrom p w ↔ g.AcceptsFrom q w) → p = q
  apart : ∀ p, (g.exits p).Pairwise Apart

/-- What a quotient becomes once its dead parts are gone. -/
def trimmed (g : Graph) : Graph := g.removeDead.prune.declare true

section Trimmed

variable {g : Graph}

theorem mem_targets_trimmed {p q : NodeId} {c : Codepoint} :
    q ∈ g.trimmed.targets p c ↔
      (q ∈ g.targets p c ∧ q ∈ g.live) ∧ p ∈ g.removeDead.reachable := by
  rw [trimmed, mem_targets_declare, mem_targets_prune, mem_targets_removeDead]

theorem contains_trimmed {n : NodeId} :
    g.trimmed.contains n = true ↔ n ∈ g.removeDead.reachable := contains_prune

theorem initial_trimmed (g : Graph) : g.trimmed.initial = g.initial := by
  rw [trimmed, initial_declare, initial_prune, initial_removeDead]

theorem acceptsFrom_trimmed {p : NodeId} (hp : p ∈ g.removeDead.reachable) {w : List Codepoint} :
    g.trimmed.AcceptsFrom p w ↔ g.AcceptsFrom p w := by
  rw [trimmed, acceptsFrom_declare, acceptsFrom_prune hp, acceptsFrom_removeDead]

theorem Rooted.mem_reachable_removeDead (hroot : g.Rooted) :
    ∃ i, g.initial = some i ∧ g.removeDead.initial = some i ∧
      g.removeDead.contains i = true ∧ i ∈ g.removeDead.reachable := by
  obtain ⟨i, hi, hc⟩ := hroot
  have hi' : g.removeDead.initial = some i := by rw [initial_removeDead, hi]
  have hc' : g.removeDead.contains i = true := by rw [contains_removeDead, hc]
  exact ⟨i, hi, hi', hc', mem_reachable_initial hi' hc'⟩

/-- **Trimming makes a reduced graph minimal.** -/
theorem minimal_trimmed (hroot : g.Rooted) (hg : g.Encoded) (hone : g.SingleValued)
    (hdistinct : ∀ p q, g.contains p = true → g.contains q = true →
      (∀ w, g.AcceptsFrom p w ↔ g.AcceptsFrom q w) → p = q) : g.trimmed.Minimal := by
  obtain ⟨i, hi, hi', hc', hreach⟩ := hroot.mem_reachable_removeDead
  have hnode : ∀ {n}, n ∈ g.removeDead.reachable → g.contains n = true := by
    intro n hn
    rw [← contains_removeDead]
    exact mem_nodeIds_of_mem_reachable hn
  refine ⟨⟨i, ?_, contains_trimmed.2 hreach⟩, ?_, ?_, rfl, ?_, ?_, ?_, ?_⟩
  · rw [initial_trimmed, hi]
  · exact hg.of_targets fun p q c hq => ⟨p, q, (mem_targets_trimmed.1 hq).1.1⟩
  · exact hone.of_targets fun p q c hq => (mem_targets_trimmed.1 hq).1.1
  · intro j n hj hn
    rw [initial_trimmed, hi] at hj
    obtain rfl := Option.some.inj hj
    obtain ⟨w, path⟩ := (mem_reachable hi' hc').1 (contains_trimmed.1 hn)
    exact ⟨w, reads_declare.2 ((reads_prune hreach).2 path)⟩
  · intro p q c hq
    obtain ⟨⟨hq, hlive⟩, hp⟩ := mem_targets_trimmed.1 hq
    obtain ⟨w, hacc⟩ := mem_live.1 hlive
    have hqreach := mem_reachable_of_mem_targets hp (mem_targets_removeDead.2 ⟨hq, hlive⟩)
    exact ⟨w, (acceptsFrom_trimmed hqreach).2 hacc⟩
  · intro p q hp hq hsame
    rw [contains_trimmed] at hp hq
    refine hdistinct p q (hnode hp) (hnode hq) ?_
    intro w
    rw [← acceptsFrom_trimmed hp, ← acceptsFrom_trimmed hq]
    exact hsame w
  · intro p
    have hexits : g.trimmed.exits p = g.removeDead.prune.exits p := rfl
    rw [hexits]
    refine List.Pairwise.sublist (exits_prune_sublist _ p) ?_
    rw [removeDead_eq]
    exact exits_reduce_apart _ p

end Trimmed

theorem minimize_eq_trimmed {g : Graph} (h : ¬ g.completion.reachable.isEmpty = true) :
    g.minimize = g.completion.quotient.trimmed := if_neg h

theorem minimize_eq {g : Graph} (hroot : g.Grounded) :
    g.minimize = g.completion.quotient.trimmed := by
  obtain ⟨i, hi, hc⟩ := hroot.rooted_completion
  apply minimize_eq_trimmed
  rw [List.isEmpty_iff]
  exact List.ne_nil_of_mem (mem_reachable_initial hi hc)

theorem rooted_quotient {g : Graph} {n : NodeId} (h : g.InClass 0 n) : g.quotient.Rooted := by
  obtain ⟨k, hk, hclass⟩ := h
  obtain ⟨j, hj⟩ := exists_firsts (lt_size_of_reachable hk)
  exact ⟨0, rfl, contains_quotient.2 ⟨j, hclass ▸ hj⟩⟩

/-- **Minimization delivers a minimal graph.** -/
theorem minimal_minimize {g : Graph} (hg : g.Encoded) (hroot : g.Grounded) :
    g.minimize.Minimal := by
  obtain ⟨i, hi, hc⟩ := hroot.rooted_completion
  have henc := hg.completion
  have hone := hg.singleValued_completion
  rw [minimize_eq hroot]
  apply minimal_trimmed
  · exact rooted_quotient (inClass_initial hi hc)
  · exact henc.quotient
  · exact henc.singleValued_quotient
  · intro p q hp hq
    exact quotient_distinct henc hone hg.complete_completion hp hq

/-- **What minimization accepts** is what the first node of the table accepts. -/
theorem accepts_minimize_iff {g : Graph} (henc : g.completion.Encoded)
    (hone : g.completion.SingleValued) {n : NodeId} (hfirst : g.completion.reachable[0]? = some n)
    {w : List Codepoint} : g.minimize.Accepts w ↔ g.completion.AcceptsFrom n w := by
  have hclass : g.completion.InClass 0 n :=
    ⟨0, hfirst, Table.classesBy_zero g.completion.table _⟩
  have hsome : ¬ g.completion.reachable.isEmpty = true := by
    rw [List.isEmpty_iff]
    exact List.ne_nil_of_mem (List.mem_of_getElem? hfirst)
  obtain ⟨j, hj, -, -, hreach⟩ := (rooted_quotient hclass).mem_reachable_removeDead
  obtain rfl : 0 = j := Option.some.inj hj
  rw [minimize_eq_trimmed hsome, accepts_iff_of_initial (by rw [initial_trimmed, hj]),
    acceptsFrom_trimmed hreach]
  exact acceptsFrom_quotient henc hone hclass

/-- **Minimization keeps the language.** -/
theorem accepts_minimize {g : Graph} (hg : g.Encoded) (hroot : g.Grounded)
    {w : List Codepoint} : g.minimize.Accepts w ↔ g.Accepts w := by
  obtain ⟨i, hi, hc⟩ := hroot.rooted_completion
  rw [accepts_minimize_iff hg.completion hg.singleValued_completion (reachable_head? hi hc),
    ← hg.accepts_completion hroot, accepts_iff_of_initial hi]

/-- **What minimization promises** of any graph with labels in range and an initial node that is
    missing or a node: the same language, no choice, nothing out of reach and no dead end. -/
theorem minimize_correct {g : Graph} (hroot : g.Grounded) (hg : g.Encoded) :
    (∀ w, g.minimize.run w = g.run w) ∧ g.minimize.isDeterministic = true ∧
      g.minimize.deterministic = true ∧
      (∃ i, g.minimize.initial = some i ∧ g.minimize.contains i = true ∧
        ∀ n, g.minimize.contains n = true → ∃ w, g.minimize.Reads i w n) ∧
      ∀ p i q, g.minimize.Arrow p i q → ∃ w, g.minimize.AcceptsFrom q w := by
  have hmin := minimal_minimize hg hroot
  obtain ⟨i, hi, hc⟩ := hmin.rooted
  refine ⟨?_, isDeterministic_iff.2 hmin.singleValued, hmin.declared, ?_, ?_⟩
  · exact fun w => run_eq_of_accepts_iff (accepts_minimize hg hroot)
  · exact ⟨i, hi, hc, fun n hn => hmin.reached i n hi hn⟩
  · intro p label q arrow
    apply hmin.live p q label.min
    exact mem_targets.2 ⟨label, arrow, label.contains_min⟩

/-- A graph with a choice over one codepoint, which its declaration denies, and a dead end. -/
def branching : Graph :=
  build [false, true, false]
    [(0, Interval.between 97 98, 0), (0, Interval.single 98, 1), (1, Interval.single 99, 2)] 0

theorem minimize_correct_branching :
    branching.Grounded ∧ branching.Encoded ∧
      branching.isDeterministic = false ∧ branching.deterministic = true ∧
      (∀ w, branching.minimize.run w = branching.run w) ∧
      branching.minimize.isDeterministic = true ∧ branching.run [97, 98] = true := by
  have hroot : branching.Grounded := by
    intro i hi
    obtain rfl := Option.some.inj hi
    decide
  have henc : branching.Encoded := by
    apply EndsBy.build
    decide
  have hmin := minimize_correct hroot henc
  exact ⟨hroot, henc, by decide_cbv, rfl, hmin.1, hmin.2.1, by decide⟩

end Graph

end SymbolAutomata
