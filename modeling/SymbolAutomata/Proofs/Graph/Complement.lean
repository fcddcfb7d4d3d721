/-
  SymbolAutomata/Proofs/Graph/Complement.lean
  ===========================================
  **Complements.**

  Where every node has one destination for every codepoint a word ends in one node,
  whose flag decides.  Exchanging the flags then exchanges the words that are
  accepted and those that are not (`SingleValued.acceptsFrom_flipped`).  The total
  deterministic graph of a language is of this kind, and trimming keeps what the
  exchanged flags accept, so the complement accepts just the words of codepoints that
  the graph rejects (`accepts_complement`, `Encoded.run_complement`).
-/
import SymbolAutomata.Proofs.Graph.Proper

namespace SymbolAutomata

namespace Graph

/-! ### Exchanged flags -/

/-- The graph with the accept flags of all nodes exchanged. -/
def flipped (g : Graph) : Graph := g.nodeIds.foldl (fun h n => h.setAccept n (!h.isAccept n)) g

theorem flag?_foldl_flip {ns : List NodeId} (hns : ns.Nodup) (g : Graph) (n : NodeId) :
    (ns.foldl (fun h n => h.setAccept n (!h.isAccept n)) g).flag? n =
      if n ∈ ns then (g.flag? n).map (!·) else g.flag? n := by
  induction ns generalizing g with
  | nil => rfl
  | cons m ns ih =>
    obtain ⟨hm, hns⟩ := List.nodup_cons.1 hns
    rw [List.foldl_cons, ih hns, flag?_setAccept]
    by_cases hn : n = m
    · subst hn
      rw [if_neg hm, if_pos (List.mem_cons_self ..), contains_eq_isSome, isAccept]
      cases g.flag? n <;> simp
    · simp only [hn, false_and, if_false, List.mem_cons, false_or]

theorem flag?_flipped (g : Graph) (n : NodeId) : g.flipped.flag? n = (g.flag? n).map (!·) := by
  rw [flipped, flag?_foldl_flip (g.nodeIds_sorted.imp Nat.ne_of_lt)]
  split
  · rfl
  · next hn =>
    rw [mem_nodeIds, contains_eq_isSome, Bool.not_eq_true, Option.isSome_eq_false_iff,
      Option.isNone_iff_eq_none] at hn
    rw [hn]
    rfl

@[simp] theorem contains_flipped (g : Graph) (n : NodeId) :
    g.flipped.contains n = g.contains n := by
  rw [contains_eq_isSome, contains_eq_isSome, flag?_flipped, Option.isSome_map]

theorem isAccept_flipped {g : Graph} {n : NodeId} (hn : g.contains n = true) :
    g.flipped.isAccept n = !g.isAccept n := by
  rw [isAccept, isAccept, flag?_flipped]
  rw [contains_eq_isSome] at hn
  obtain ⟨b, hb⟩ := Option.isSome_iff_exists.1 hn
  rw [hb]
  rfl

@[simp] theorem arcs_flipped (g : Graph) : g.flipped.arcs = g.arcs :=
  foldl_keeps (·.arcs) (fun h n => arcs_setAccept h n _) _ _

@[simp] theorem initial_flipped (g : Graph) : g.flipped.initial = g.initial :=
  foldl_keeps (·.initial) (fun h n => initial_setAccept h n _) _ _

theorem mem_targets_flipped {g : Graph} {p q : NodeId} {c : Codepoint} :
    q ∈ g.flipped.targets p c ↔ q ∈ g.targets p c := by
  simp only [mem_targets, arrow_congr (arcs_flipped g)]

/-! ### Words that end in one node -/

section SingleValued

variable {g : Graph} (hone : g.SingleValued)

include hone

theorem SingleValued.acceptsFrom_cons_iff {p q : NodeId} {c : Codepoint} {w : List Codepoint}
    (hq : q ∈ g.targets p c) : g.AcceptsFrom p (c :: w) ↔ g.AcceptsFrom q w := by
  rw [Graph.acceptsFrom_cons_iff]
  constructor
  · intro hfound
    obtain ⟨r, hr, hacc⟩ := hfound
    rwa [hone p c q r hq hr]
  · exact fun hacc => ⟨q, hq, hacc⟩

theorem SingleValued.flipped : g.flipped.SingleValued :=
  hone.of_targets fun _ _ _ => mem_targets_flipped.1

/-- **Exchanged flags accept what is rejected**, provided that no word gets stuck. -/
theorem SingleValued.acceptsFrom_flipped (htotal : g.Complete) {p : NodeId}
    (hp : g.contains p = true) {w : List Codepoint} (hw : ∀ c ∈ w, c ≤ Codec.maxCodepoint) :
    g.flipped.AcceptsFrom p w ↔ ¬ g.AcceptsFrom p w := by
  induction w generalizing p with
  | nil =>
    rw [acceptsFrom_nil_iff, acceptsFrom_nil_iff, isAccept_flipped hp, Bool.not_eq_true',
      Bool.not_eq_true]
  | cons c w ih =>
    rw [List.forall_mem_cons] at hw
    obtain ⟨q, hq⟩ := htotal p c hp hw.1
    obtain ⟨i, arrow, -⟩ := mem_targets.1 hq
    rw [hone.acceptsFrom_cons_iff hq, hone.flipped.acceptsFrom_cons_iff (mem_targets_flipped.2 hq)]
    exact ih arrow.contains_target hw.2

end SingleValued

theorem Encoded.le_of_acceptsFrom {g : Graph} (hg : g.Encoded) {p : NodeId} {w : List Codepoint}
    (hacc : g.AcceptsFrom p w) : ∀ c ∈ w, c ≤ Codec.maxCodepoint :=
  forall_mem_of_acceptsFrom (endsBy_iff.1 hg) hacc

/-! ### The complement -/

theorem complement_eq (g : Graph) : g.complement = g.determinize.totalize.flipped.trimmed := rfl

section Complement

variable {g : Graph} (hg : g.Encoded)

include hg

theorem Encoded.singleValued_complement : g.complement.SingleValued :=
  (hg.singleValued_determinize.totalize hg.determinize).flipped.of_targets
    fun _ _ _ hq => (mem_targets_trimmed.1 hq).1.1

theorem Encoded.complement : g.complement.Encoded :=
  hg.determinize.totalize.of_targets fun p q _ hq =>
    ⟨p, q, mem_targets_flipped.1 (mem_targets_trimmed.1 hq).1.1⟩

variable (hroot : g.Grounded)

include hroot

/-- **The complement accepts the words of codepoints that are rejected.** -/
theorem accepts_complement {w : List Codepoint} :
    g.complement.Accepts w ↔ (∀ c ∈ w, c ≤ Codec.maxCodepoint) ∧ ¬ g.Accepts w := by
  obtain ⟨i, hi, hc⟩ := hroot.rooted_determinize
  have henc := hg.determinize
  have hi' : g.determinize.totalize.flipped.initial = some i := by
    rw [initial_flipped, initial_totalize, hi]
  have hc' : g.determinize.totalize.contains i = true := contains_totalize.2 (Or.inr hc)
  have hrooted : g.determinize.totalize.flipped.Rooted := ⟨i, hi', (contains_flipped _ i).trans hc'⟩
  obtain ⟨j, hj, -, -, hreach⟩ := hrooted.mem_reachable_removeDead
  obtain rfl := Option.some.inj (hi'.symm.trans hj)
  have hsame : g.Accepts w ↔ g.determinize.totalize.AcceptsFrom i w := by
    rw [← accepts_determinize hg, accepts_iff_of_initial hi, henc.acceptsFrom_totalize]
  have hflip : g.complement.Accepts w ↔ g.determinize.totalize.flipped.AcceptsFrom i w := by
    rw [complement_eq, accepts_iff_of_initial ((initial_trimmed _).trans hi'),
      acceptsFrom_trimmed hreach]
  have hencoded : g.determinize.totalize.flipped.Encoded :=
    henc.totalize.of_targets fun p q c hq => ⟨p, q, mem_targets_flipped.1 hq⟩
  have hone' := hg.singleValued_determinize.totalize henc
  rw [hsame, hflip]
  constructor
  · intro hacc
    have hw := hencoded.le_of_acceptsFrom hacc
    exact ⟨hw, (hone'.acceptsFrom_flipped henc.complete_totalize hc' hw).1 hacc⟩
  · intro hfound
    exact (hone'.acceptsFrom_flipped henc.complete_totalize hc' hfound.1).2 hfound.2

/-- **The complement exchanges the verdicts** on all words of codepoints.  Words with anything else
    in them are rejected by both graphs. -/
theorem Encoded.run_complement (w : List Codepoint) :
    ((∀ c ∈ w, c ≤ Codec.maxCodepoint) → g.complement.run w = !g.run w) ∧
      ((∃ c ∈ w, Codec.maxCodepoint < c) → g.complement.run w = false ∧ g.run w = false) := by
  constructor
  · intro hw
    rw [Bool.eq_iff_iff, run_eq_true_iff, accepts_complement hg hroot, Bool.not_eq_true',
      ← Bool.not_eq_true, run_eq_true_iff]
    exact and_iff_right hw
  · intro hbeyond
    obtain ⟨c, hc, hlt⟩ := hbeyond
    have hnone : ∀ h : Graph, h.Encoded → h.run w = false := by
      intro h hh
      rw [← Bool.not_eq_true, run_eq_true_iff]
      rintro ⟨i, -, hacc⟩
      exact Nat.not_le.2 hlt (hh.le_of_acceptsFrom hacc c hc)
    exact ⟨hnone _ hg.complement, hnone _ hg⟩

end Complement

/-- Overlapping labels that leave gaps at both ends of the codec. -/
def gapped : Graph :=
  build [false, true, false]
    [(0, Interval.between 5 20, 1), (0, Interval.between 10 65000, 2),
      (2, Interval.between 0 65535, 1)] 0

theorem run_complement_gapped :
    gapped.Encoded ∧ gapped.Grounded ∧ ¬ gapped.SingleValued ∧
      gapped.complement.run [65535] = true ∧ gapped.complement.run [12, 0] = false ∧
      gapped.complement.run [65536] = false := by
  have henc : gapped.Encoded := by
    apply EndsBy.build
    decide
  have hroot : gapped.Grounded := by
    intro i hi
    obtain rfl := Option.some.inj hi
    decide
  have hmany : ¬ gapped.SingleValued := by
    rw [← isDeterministic_iff]
    decide_cbv
  have hrun := fun w => henc.run_complement hroot w
  refine ⟨henc, hroot, hmany, ?_, ?_, ?_⟩
  · rw [(hrun [65535]).1 (by decide)]
    decide
  · rw [(hrun [12, 0]).1 (by decide)]
    decide
  · exact ((hrun [65536]).2 (by decide)).1

end Graph

end SymbolAutomata
