/-
  SymbolAutomata/Proofs/Graph/Overflow.lean
  =========================================
  **Total graphs with numbers of 32 bits.**

  A gap starts at the number after the end of a label, and the last number of 32 bits has
  none after it.  A label that ends there stops the search for gaps (`gapsFrom32`).  As long
  as no label does, the gaps are those of `gapsFrom` (`within32_iff`).

  Determinization makes no label that ends higher than those of the graph or the codec
  (`Within32.determinize`), so what minimization and complement make total is in bounds if
  the graph is (`Within32.gapsFrom32_determinize`).
-/
import SymbolAutomata.Proofs.Graph.Total
import SymbolAutomata.Text.Numeral

namespace SymbolAutomata

namespace Graph

open Text (natural32)

/-! ### The search for gaps -/

/-- The gaps between sorted labels, unless the number after a label has more than 32 bits. -/
def gapsFrom32 (next : Codepoint) : List Interval → Option (List Interval)
  | [] => some (gapsFrom next [])
  | i :: rest =>
    if i.max < natural32 then
      let before := if next < i.min then [Interval.between next (i.min - 1)] else []
      (gapsFrom32 (Nat.max next (i.max + 1)) rest).map (before ++ ·)
    else none

/-- **The search succeeds just if there is a number after each label**, and then it finds the
    gaps. -/
theorem gapsFrom32_eq_some_iff {next : Codepoint} {labels gaps : List Interval} :
    gapsFrom32 next labels = some gaps ↔
      (∀ i ∈ labels, i.max < natural32) ∧ gaps = gapsFrom next labels := by
  induction labels generalizing next gaps with
  | nil => simp [gapsFrom32, eq_comm]
  | cons i labels ih =>
    rw [List.forall_mem_cons]
    by_cases hi : i.max < natural32
    · rw [gapsFrom32, if_pos hi, Option.map_eq_some_iff]
      simp only [ih, hi, true_and]
      constructor
      · rintro ⟨rest, ⟨hlabels, rfl⟩, rfl⟩
        exact ⟨hlabels, rfl⟩
      · rintro ⟨hlabels, rfl⟩
        exact ⟨_, ⟨hlabels, rfl⟩, rfl⟩
    · simp [gapsFrom32, hi]

/-! ### Graphs -/

/-- **No label ends at the last number of 32 bits.** -/
def Within32 (g : Graph) : Prop := ∀ p i q, g.Arrow p i q → i.max < natural32

variable {g : Graph}

/-- These are the graphs that can be made total with numbers of 32 bits. -/
theorem within32_iff : g.Within32 ↔
    ∀ n, gapsFrom32 Codec.minCodepoint ((g.moves n).map (·.1)) = some (g.gapsAt n) := by
  simp only [gapsFrom32_eq_some_iff, gapsAt, and_true, List.forall_mem_map]
  constructor
  · rintro h n ⟨i, q⟩ hm
    exact h n i q (mem_moves.1 hm)
  · intro h p i q arrow
    exact h p (i, q) (mem_moves.2 arrow)

theorem EndsBy.within32 {top : Codepoint} (hg : g.EndsBy top) (htop : top < natural32) :
    g.Within32 :=
  fun p i q arrow => Nat.lt_of_le_of_lt (hg p i q arrow) htop

theorem Encoded.within32 (hg : g.Encoded) : g.Within32 := EndsBy.within32 hg (by decide)

theorem within32_iff_targets :
    g.Within32 ↔ ∀ p q c, q ∈ g.targets p c → c < natural32 := by
  simp only [Within32, Nat.lt_iff_le_pred (show 0 < natural32 by decide)]
  exact endsBy_iff

/-! ### Determinization -/

theorem max_between_lt {a b top : Nat} (ha : a < top) (hb : b < top) :
    (Interval.between a b).max < top := by
  unfold Interval.between
  split
  · exact hb
  · exact ha

theorem max_lt_of_mem_classesOf {points : List Codepoint} {top : Nat}
    (htop : Codec.maxCodepoint < top) (hpoints : ∀ p ∈ points, p < top) {p : Codepoint}
    {i : Interval} (h : (p, i) ∈ classesOf points) : i.max < top := by
  induction points with
  | nil => cases h
  | cons a points ih =>
    obtain ⟨ha, hrest⟩ := List.forall_mem_cons.1 hpoints
    cases points with
    | nil =>
      obtain ⟨rfl, rfl⟩ := Prod.mk.inj (List.mem_singleton.1 h)
      exact max_between_lt ha htop
    | cons b points =>
      rcases List.mem_cons.1 h with heq | h
      · obtain ⟨rfl, rfl⟩ := Prod.mk.inj heq
        have hb : b < top := hrest b (List.mem_cons_self ..)
        exact max_between_lt ha (Nat.lt_of_le_of_lt (Nat.pred_le b) hb)
      · exact ih hrest h

theorem Within32.classes (hg : g.Within32) {p : Codepoint} {i : Interval}
    (h : (p, i) ∈ g.classes) : i.max < natural32 := by
  refine max_lt_of_mem_classesOf (by decide) ?_ h
  intro c hc
  rcases mem_startPoints.1 hc with rfl | ⟨a, ha, rfl | ⟨hmax, rfl⟩⟩
  · decide
  · exact Nat.lt_of_le_of_lt a.label.min_le_max (hg _ _ _ ⟨a, ha, rfl, rfl, rfl⟩)
  · exact Nat.lt_of_le_of_lt hmax (by decide)

/-- **Determinization keeps within 32 bits.** -/
theorem Within32.determinize (hg : g.Within32) : g.determinize.Within32 := by
  rcases g.determinize_cases with ⟨-, heq⟩ | ⟨start, -, ⟨-, heq⟩ | ⟨-, heq⟩⟩ <;> rw [heq]
  · exact fun p i q arrow => absurd arrow not_arrow_emptyLanguage
  · exact hg
  · rw [within32_iff_targets]
    intro p q c hq
    rw [mem_targets_declare, mem_targets_reduce] at hq
    obtain ⟨i, arrow, hc⟩ := mem_targets.1 hq
    obtain ⟨places, first, -, hclass, -⟩ := arrow_subsets.1 arrow
    exact Nat.lt_of_le_of_lt (Interval.contains_iff.1 hc).2 (hg.classes hclass)

/-- **Minimization and complement do not run out of numbers** if the graph is within 32 bits: what
    they make total is the determinized graph, and the search finds all its gaps. -/
theorem Within32.gapsFrom32_determinize (hg : g.Within32) (n : NodeId) :
    gapsFrom32 Codec.minCodepoint ((g.determinize.moves n).map (·.1)) =
      some (g.determinize.gapsAt n) :=
  within32_iff.1 hg.determinize n

end Graph

end SymbolAutomata
