/-
  SymbolAutomata/Proofs/Graph/Discerned.lean
  ==========================================
  **Nodes that words over some letters discern.**

  A minimal graph has no fewer nodes than needed for all words of codepoints.  If only
  the words over some of the codepoints are of interest, the spoken ones, then fewer
  nodes may do.  `Discerned` says that they do not: spoken words lead to every node,
  from every node but the initial one some spoken word is accepted, and spoken words
  tell any two nodes apart.

  A discerned graph has the fewest nodes of all single-valued graphs that accept the
  same spoken words (`Discerned.nodeCount_le`), and conversely a graph that has no more
  nodes than a discerned one is discerned (`Discerned.of_nodeCount_le`).  Minimal graphs
  are discerned by all words, hence by the spoken ones if they accept no others
  (`Minimal.discerned`).
-/
import SymbolAutomata.Proofs.Graph.Canonical

namespace SymbolAutomata

namespace Graph

/-- All codepoints of the word are spoken. -/
def Over (spoken : Codepoint → Prop) (w : List Codepoint) : Prop := ∀ c ∈ w, spoken c

/-- **Spoken words discern the nodes.** -/
structure Discerned (g : Graph) (spoken : Codepoint → Prop) : Prop where
  reached : ∀ i n, g.initial = some i → g.contains n = true → ∃ w, Over spoken w ∧ g.Reads i w n
  live : ∀ n, g.contains n = true → g.initial ≠ some n → ∃ w, Over spoken w ∧ g.AcceptsFrom n w
  distinct : ∀ p q, g.contains p = true → g.contains q = true →
    (∀ w, Over spoken w → (g.AcceptsFrom p w ↔ g.AcceptsFrom q w)) → p = q

variable {g h : Graph} {spoken : Codepoint → Prop} {p q p' q' : NodeId}

theorem over_append_iff {v w : List Codepoint} :
    Over spoken (v ++ w) ↔ Over spoken v ∧ Over spoken w := List.forall_mem_append

/-- Where the initial node rejects and no spoken codepoint leads away from it, no spoken word is
    accepted. -/
theorem not_accepts_of_stuck {i : NodeId} (hi : g.initial = some i)
    (hreject : g.isAccept i = false) (hstuck : ∀ c, spoken c → ∀ q, q ∉ g.targets i c)
    {w : List Codepoint} (hw : Over spoken w) : ¬ g.Accepts w := by
  rw [accepts_iff_of_initial hi]
  cases w with
  | nil =>
    rw [acceptsFrom_nil_iff, hreject]
    exact Bool.false_ne_true
  | cons c w =>
    rw [acceptsFrom_cons_iff]
    rintro ⟨q, hq, -⟩
    exact hstuck c (hw c (List.mem_cons_self ..)) q hq

/-- **One spoken word leads to both nodes.** -/
def MatchesOver (spoken : Codepoint → Prop) (g h : Graph) (p q : NodeId) : Prop :=
  ∃ i j w, Over spoken w ∧ (g.initial = some i ∧ g.Reads i w p) ∧
    h.initial = some j ∧ h.Reads j w q

theorem matchesOver_initial (hp : g.initial = some p) (hq : h.initial = some q) :
    MatchesOver spoken g h p q :=
  ⟨p, q, [], List.forall_mem_nil _, ⟨hp, .nil p⟩, hq, .nil q⟩

section SameSpokenLanguage

variable (hsame : ∀ w, Over spoken w → (g.Accepts w ↔ h.Accepts w)) (hone : g.SingleValued)
  (hone' : h.SingleValued)

include hsame hone hone'

theorem MatchesOver.acceptsFrom_iff (m : MatchesOver spoken g h p q) {w : List Codepoint}
    (hw : Over spoken w) : g.AcceptsFrom p w ↔ h.AcceptsFrom q w := by
  obtain ⟨i, j, v, hv, ⟨hi, path⟩, hj, path'⟩ := m
  rw [← hone.accepts_append_iff hi path, ← hone'.accepts_append_iff hj path']
  exact hsame _ (over_append_iff.2 ⟨hv, hw⟩)

variable (hg : g.Discerned spoken) (hroot : g.Rooted) (hroot' : h.Rooted)

include hg hroot

theorem Discerned.eq_left (m : MatchesOver spoken g h p q) (m' : MatchesOver spoken g h p' q) :
    p = p' := by
  have hcontains : ∀ {r}, MatchesOver spoken g h r q → g.contains r = true := by
    rintro r ⟨i, j, w, -, ⟨hi, path⟩, -⟩
    exact path.contains (hroot.grounded i hi)
  refine hg.distinct p p' (hcontains m) (hcontains m') fun w hw => ?_
  rw [m.acceptsFrom_iff hsame hone hone' hw, m'.acceptsFrom_iff hsame hone hone' hw]

include hroot'

omit hone' in
/-- **Every node has a match.** The word that leads there is the beginning of an accepted one, so
    the other graph can follow it. -/
theorem Discerned.exists_match (hp : g.contains p = true) :
    ∃ q ∈ h.nodeIds, MatchesOver spoken g h p q := by
  obtain ⟨i, hi, -⟩ := hroot
  obtain ⟨j, hj, hc⟩ := hroot'
  by_cases hstart : g.initial = some p
  · exact ⟨j, mem_nodeIds.2 hc, matchesOver_initial hstart hj⟩
  · obtain ⟨v, hv, path⟩ := hg.reached i p hi hp
    obtain ⟨w, hw, hacc⟩ := hg.live p hp hstart
    have haccepts : h.Accepts (v ++ w) := by
      rw [← hsame _ (over_append_iff.2 ⟨hv, hw⟩), hone.accepts_append_iff hi path]
      exact hacc
    rw [accepts_iff_of_initial hj, acceptsFrom_append_iff] at haccepts
    obtain ⟨q, path', -⟩ := haccepts
    exact ⟨q, mem_nodeIds.2 (path'.contains hc), i, j, v, hv, ⟨hi, path⟩, hj, path'⟩

/-- **A discerned graph has the fewest nodes** for the spoken words that it accepts. -/
theorem Discerned.nodeCount_le : g.nodeCount ≤ h.nodeCount := by
  apply length_le_of_partners (g.nodeIds_sorted.imp Nat.ne_of_lt)
  · exact fun p hp => hg.exists_match hsame hone hroot hroot' (mem_nodeIds.1 hp)
  · exact hg.eq_left hsame hone hone' hroot

/-- **With no more nodes the matches use up the other graph**, so each of its nodes has one. -/
theorem Discerned.exists_match_right (hle : h.nodeCount ≤ g.nodeCount)
    (hq : h.contains q = true) : ∃ p, g.contains p = true ∧ MatchesOver spoken g h p q := by
  obtain ⟨p, hp, m⟩ := exists_of_partners (g.nodeIds_sorted.imp Nat.ne_of_lt)
    (fun p hp => hg.exists_match hsame hone hroot hroot' (mem_nodeIds.1 hp))
    (hg.eq_left hsame hone hone' hroot) hle (mem_nodeIds.2 hq)
  exact ⟨p, mem_nodeIds.1 hp, m⟩

theorem Discerned.eq_right (hle : h.nodeCount ≤ g.nodeCount) (hq : h.contains q = true)
    (hq' : h.contains q' = true) (m : MatchesOver spoken g h p q)
    (m' : MatchesOver spoken g h p q') : q = q' :=
  eq_of_partners (g.nodeIds_sorted.imp Nat.ne_of_lt)
    (fun _ hp => hg.exists_match hsame hone hroot hroot' (mem_nodeIds.1 hp))
    (hg.eq_left hsame hone hone' hroot) hle (mem_nodeIds.2 hq) (mem_nodeIds.2 hq') m m'

/-- **A graph that has no more nodes than a discerned one** for the same spoken words is
    discerned. -/
theorem Discerned.of_nodeCount_le (hle : h.nodeCount ≤ g.nodeCount) : h.Discerned spoken := by
  have honto : ∀ q, h.contains q = true →
      ∃ p, g.contains p = true ∧ MatchesOver spoken g h p q :=
    fun q hq => hg.exists_match_right hsame hone hone' hroot hroot' hle hq
  have hright : ∀ {p q q'}, h.contains q = true → h.contains q' = true →
      MatchesOver spoken g h p q → MatchesOver spoken g h p q' → q = q' :=
    fun hq hq' => hg.eq_right hsame hone hone' hroot hroot' hle hq hq'
  refine ⟨?_, ?_, ?_⟩
  · intro j q hj hq
    obtain ⟨p, -, i, j', w, hw, -, hj', path⟩ := honto q hq
    obtain rfl := Option.some.inj (hj.symm.trans hj')
    exact ⟨w, hw, path⟩
  · intro q hq hstart
    obtain ⟨p, hp, m⟩ := honto q hq
    have hpstart : g.initial ≠ some p := by
      -- the initial nodes match, and no other node matches the initial one
      intro hi
      obtain ⟨j, hj, hc⟩ := hroot'
      obtain rfl := hright hc hq (matchesOver_initial hi hj) m
      exact hstart hj
    obtain ⟨w, hw, hacc⟩ := hg.live p hp hpstart
    exact ⟨w, hw, (m.acceptsFrom_iff hsame hone hone' hw).1 hacc⟩
  · intro q q' hq hq' heq
    obtain ⟨p, hp, m⟩ := honto q hq
    obtain ⟨p', hp', m'⟩ := honto q' hq'
    obtain rfl : p = p' := by
      refine hg.distinct p p' hp hp' fun w hw => ?_
      rw [m.acceptsFrom_iff hsame hone hone' hw, m'.acceptsFrom_iff hsame hone hone' hw]
      exact heq w hw
    exact hright hq hq' m m'

end SameSpokenLanguage

/-! ### Minimal graphs -/

theorem Reads.eq_or_entered {w : List Codepoint} (path : g.Reads p w q) :
    p = q ∨ ∃ r c, q ∈ g.targets r c := by
  induction path with
  | nil p => exact Or.inl rfl
  | @cons p q r i c w arrow carries _ ih =>
    rcases ih with rfl | entered
    · exact Or.inr ⟨p, c, mem_targets.2 ⟨i, arrow, carries⟩⟩
    · exact Or.inr entered

/-- **A minimal graph is discerned by the words that it accepts.** -/
theorem Minimal.discerned (hg : g.Minimal) (hspoken : ∀ w, g.Accepts w → Over spoken w) :
    g.Discerned spoken := by
  obtain ⟨i, hi, -⟩ := hg.rooted
  have hafter : ∀ {n v w}, g.Reads i v n → g.AcceptsFrom n w → Over spoken v ∧ Over spoken w := by
    intro n v w path hacc
    exact over_append_iff.1 (hspoken _ ((hg.singleValued.accepts_append_iff hi path).2 hacc))
  have hlive : ∀ {n v}, g.Reads i v n → i ≠ n → ∃ w, g.AcceptsFrom n w := by
    intro n v path hne
    obtain ⟨r, c, hentered⟩ := path.eq_or_entered.resolve_left hne
    exact hg.live r n c hentered
  refine ⟨?_, ?_, ?_⟩
  · intro j n hj hn
    obtain rfl := Option.some.inj (hi.symm.trans hj)
    obtain ⟨v, path⟩ := hg.reached i n hi hn
    by_cases hin : i = n
    · exact ⟨[], List.forall_mem_nil _, hin ▸ .nil i⟩
    · obtain ⟨w, hacc⟩ := hlive path hin
      exact ⟨v, (hafter path hacc).1, path⟩
  · intro n hn hstart
    obtain ⟨v, path⟩ := hg.reached i n hi hn
    have hin : i ≠ n := by
      rintro rfl
      exact hstart hi
    obtain ⟨w, hacc⟩ := hlive path hin
    exact ⟨w, (hafter path hacc).2, hacc⟩
  · intro p q hp hq hsame
    obtain ⟨u, path⟩ := hg.reached i p hi hp
    obtain ⟨v, path'⟩ := hg.reached i q hi hq
    refine hg.distinct p q hp hq fun w => ⟨fun hacc => ?_, fun hacc => ?_⟩
    · exact (hsame w (hafter path hacc).2).1 hacc
    · exact (hsame w (hafter path' hacc).2).2 hacc

end Graph

end SymbolAutomata
