/-
  SymbolAutomata/Proofs/Automaton/Labels.lean
  ===========================================
  **What of a label is imported.**

  A label is cut to the clamp, read as a span of symbols, cut to a set of symbols and
  written as labels again, one for each run of consecutive symbols.  The new labels
  lie inside the old one and inside the clamp (`contains_of_mem_carriedLabels`);
  of the codepoints of symbols they hold just those whose symbol was asked for
  (`mem_carriedLabels_iff`).  A run may stretch over reserved codepoints, so of
  these nothing more is said.
-/
import Mathlib.Data.List.Pairwise
import SymbolAutomata.Automaton.Fill
import SymbolAutomata.Proofs.Codec

namespace SymbolAutomata

namespace SymbolSet

/-! ### Runs -/

theorem mem_runsFrom_iff {first last s : Symbol} {xs : List Symbol} (hle : first ≤ last)
    (hlast : ∀ x ∈ xs, last < x) (hxs : xs.Pairwise (· < ·)) :
    (∃ r ∈ runsFrom first last xs, r.1 ≤ s ∧ s ≤ r.2) ↔ (first ≤ s ∧ s ≤ last) ∨ s ∈ xs := by
  induction xs generalizing first last with
  | nil => simp [runsFrom]
  | cons x xs ih =>
    obtain ⟨hx, hxs⟩ := List.pairwise_cons.1 hxs
    have hlt := hlast x (List.mem_cons_self ..)
    unfold runsFrom
    split
    · next hnext =>
      rw [ih (Int.le_trans hle (Int.le_of_lt hlt)) hx hxs, List.mem_cons]
      simp only [Symbol] at *
      constructor
      · intro h
        rcases h with ⟨hfirst, hs⟩ | hs
        · by_cases hsx : s = x
          · exact Or.inr (Or.inl hsx)
          · have hbelow : s < last + 1 := hnext ▸ Int.lt_iff_le_and_ne.2 ⟨hs, hsx⟩
            exact Or.inl ⟨hfirst, Int.lt_add_one_iff.1 hbelow⟩
        · exact Or.inr (Or.inr hs)
      · intro h
        rcases h with ⟨hfirst, hs⟩ | rfl | hs
        · exact Or.inl ⟨hfirst, by omega⟩
        · exact Or.inl ⟨by omega, Int.le_refl _⟩
        · exact Or.inr hs
    · simp only [List.mem_cons, exists_eq_or_imp]
      rw [ih (Int.le_refl x) hx hxs]
      simp only [Symbol] at *
      constructor
      · intro h
        rcases h with hs | ⟨h₁, h₂⟩ | hs
        · exact Or.inl hs
        · exact Or.inr (Or.inl (Int.le_antisymm h₂ h₁))
        · exact Or.inr (Or.inr hs)
      · intro h
        rcases h with hs | rfl | hs
        · exact Or.inl hs
        · exact Or.inr (Or.inl ⟨Int.le_refl _, Int.le_refl _⟩)
        · exact Or.inr (Or.inr hs)

theorem ends_of_mem_runsFrom {first last : Symbol} {xs : List Symbol} {r : Symbol × Symbol}
    (hr : r ∈ runsFrom first last xs) :
    (r.1 = first ∨ r.1 ∈ xs) ∧ (r.2 = last ∨ r.2 ∈ xs) := by
  induction xs generalizing first last with
  | nil =>
    rw [runsFrom, List.mem_singleton] at hr
    rw [hr]
    exact ⟨Or.inl rfl, Or.inl rfl⟩
  | cons x xs ih =>
    unfold runsFrom at hr
    split at hr
    · obtain ⟨h₁, h₂⟩ := ih hr
      refine ⟨h₁.imp_right (List.mem_cons_of_mem _), Or.inr ?_⟩
      rcases h₂ with h₂ | h₂
      · rw [h₂]
        exact List.mem_cons_self ..
      · exact List.mem_cons_of_mem _ h₂
    · rcases List.mem_cons.1 hr with rfl | hr
      · exact ⟨Or.inl rfl, Or.inl rfl⟩
      · obtain ⟨h₁, h₂⟩ := ih hr
        constructor
        · rcases h₁ with h₁ | h₁
          · exact Or.inr (h₁ ▸ List.mem_cons_self ..)
          · exact Or.inr (List.mem_cons_of_mem _ h₁)
        · rcases h₂ with h₂ | h₂
          · exact Or.inr (h₂ ▸ List.mem_cons_self ..)
          · exact Or.inr (List.mem_cons_of_mem _ h₂)

theorem le_of_mem_runsFrom {first last : Symbol} {xs : List Symbol} (hle : first ≤ last)
    (hlast : ∀ x ∈ xs, last < x) (hxs : xs.Pairwise (· < ·)) {r : Symbol × Symbol}
    (hr : r ∈ runsFrom first last xs) : r.1 ≤ r.2 := by
  induction xs generalizing first last with
  | nil =>
    rw [runsFrom, List.mem_singleton] at hr
    rwa [hr]
  | cons x xs ih =>
    obtain ⟨hx, hxs⟩ := List.pairwise_cons.1 hxs
    have hlt := hlast x (List.mem_cons_self ..)
    unfold runsFrom at hr
    split at hr
    · exact ih (Int.le_trans hle (Int.le_of_lt hlt)) hx hxs hr
    · rcases List.mem_cons.1 hr with rfl | hr
      · exact hle
      · exact ih (Int.le_refl x) hx hxs hr

/-- **The runs of an increasing list** hold its members and nothing else. -/
theorem mem_runs_iff {s : Symbol} {xs : List Symbol} (hxs : xs.Pairwise (· < ·)) :
    (∃ r ∈ runs xs, r.1 ≤ s ∧ s ≤ r.2) ↔ s ∈ xs := by
  cases xs with
  | nil => simp [runs]
  | cons x xs =>
    obtain ⟨hx, hxs⟩ := List.pairwise_cons.1 hxs
    rw [runs, mem_runsFrom_iff (Int.le_refl x) hx hxs, List.mem_cons]
    constructor
    · intro h
      rcases h with ⟨h₁, h₂⟩ | hs
      · exact Or.inl (Int.le_antisymm h₂ h₁)
      · exact Or.inr hs
    · intro h
      rcases h with rfl | hs
      · exact Or.inl ⟨Int.le_refl _, Int.le_refl _⟩
      · exact Or.inr hs

theorem ends_of_mem_runs {xs : List Symbol} {r : Symbol × Symbol} (hr : r ∈ runs xs) :
    r.1 ∈ xs ∧ r.2 ∈ xs := by
  cases xs with
  | nil => cases hr
  | cons x xs =>
    obtain ⟨h₁, h₂⟩ := ends_of_mem_runsFrom hr
    exact ⟨List.mem_cons.2 h₁, List.mem_cons.2 h₂⟩

theorem le_of_mem_runs {xs : List Symbol} (hxs : xs.Pairwise (· < ·)) {r : Symbol × Symbol}
    (hr : r ∈ runs xs) : r.1 ≤ r.2 := by
  cases xs with
  | nil => cases hr
  | cons x xs =>
    obtain ⟨hx, hxs⟩ := List.pairwise_cons.1 hxs
    exact le_of_mem_runsFrom (Int.le_refl x) hx hxs hr

theorem runsFrom_separated {first last : Symbol} {xs : List Symbol} (hlast : ∀ x ∈ xs, last < x)
    (hxs : xs.Pairwise (· < ·)) : (runsFrom first last xs).Pairwise fun r t => r.2 < t.1 := by
  induction xs generalizing first last with
  | nil => exact List.pairwise_singleton _ _
  | cons x xs ih =>
    obtain ⟨hx, hxs⟩ := List.pairwise_cons.1 hxs
    have hlt := hlast x (List.mem_cons_self ..)
    unfold runsFrom
    split
    · exact ih hx hxs
    · refine List.pairwise_cons.2 ⟨fun t ht => ?_, ih hx hxs⟩
      -- a later run starts with a later symbol
      rcases (ends_of_mem_runsFrom ht).1 with heq | hmem
      · exact heq ▸ hlt
      · exact hlast _ (List.mem_cons_of_mem _ hmem)

/-- **Runs lie one behind the other.** -/
theorem runs_separated {xs : List Symbol} (hxs : xs.Pairwise (· < ·)) :
    (runs xs).Pairwise fun r t => r.2 < t.1 := by
  cases xs with
  | nil => exact List.Pairwise.nil
  | cons x xs =>
    obtain ⟨hx, hxs⟩ := List.pairwise_cons.1 hxs
    exact runsFrom_separated hx hxs

theorem mem_between {set : SymbolSet} {first last s : Symbol} :
    s ∈ set.between first last ↔ s ∈ set ∧ first ≤ s ∧ s ≤ last := by
  rw [between, List.mem_filter, Std.ExtTreeSet.mem_toList]
  simp

theorem between_sorted (set : SymbolSet) (first last : Symbol) :
    (set.between first last).Pairwise (· < ·) := by
  apply List.Pairwise.filter
  refine Std.ExtTreeSet.ordered_toList.imp ?_
  intro a b hab
  exact Int.compare_eq_lt.1 hab

end SymbolSet

namespace Automaton

/-! ### Labels inside a clamp -/

/-- The symbols of a label inside `[lo, hi]`, by the first and the last of them. -/
def spanWithin (lo hi : Codepoint) (label : Interval) : Option (Symbol × Symbol) :=
  (label.clip lo hi).bind fun i => Codec.symbolSpan i.min i.max

theorem span?_eq (a : Automaton) (label : Interval) :
    a.span? label = spanWithin a.min a.max label := rfl

/-- A label carries a symbol inside the clamp. -/
def Carries (lo hi : Codepoint) (label : Interval) (s : Symbol) : Prop :=
  Codec.IsSymbol s ∧ label.contains (Codec.code s) = true ∧
    lo ≤ Codec.code s ∧ Codec.code s ≤ hi

theorem mem_spanWithin_iff {lo hi : Codepoint} {label : Interval} {s : Symbol} :
    (∃ first last, spanWithin lo hi label = some (first, last) ∧ first ≤ s ∧ s ≤ last) ↔
      Carries lo hi label s := by
  unfold Carries spanWithin
  simp only [Option.bind_eq_some_iff]
  constructor
  · intro h
    rcases h with ⟨first, last, ⟨i, hi, hspan⟩, hs⟩
    obtain ⟨hsym, hmin, hmax⟩ := Codec.mem_symbolSpan_iff.1 ⟨first, last, hspan, hs⟩
    have hclip := Interval.contains_clip.1 ⟨i, hi, Interval.contains_iff.2 ⟨hmin, hmax⟩⟩
    exact ⟨hsym, hclip⟩
  · intro h
    rcases h with ⟨hsym, hclip⟩
    obtain ⟨i, hi, hc⟩ := Interval.contains_clip.2 hclip
    rw [Interval.contains_iff] at hc
    obtain ⟨first, last, hspan, hs⟩ := Codec.mem_symbolSpan_iff.2 ⟨hsym, hc⟩
    exact ⟨first, last, ⟨i, hi, hspan⟩, hs⟩

/-- The symbols of a label that are among `symbols` and inside the clamp, in increasing order. -/
def carried (lo hi : Codepoint) (symbols : SymbolSet) (label : Interval) : List Symbol :=
  match spanWithin lo hi label with
  | none => []
  | some (first, last) => symbols.between first last

theorem mem_carried {lo hi : Codepoint} {symbols : SymbolSet} {label : Interval} {s : Symbol} :
    s ∈ carried lo hi symbols label ↔ s ∈ symbols ∧ Carries lo hi label s := by
  rw [← mem_spanWithin_iff]
  unfold carried
  split
  · next hnone => simp [hnone]
  · next first last hspan =>
    rw [SymbolSet.mem_between, hspan]
    constructor
    · intro h
      rcases h with ⟨hs, hle⟩
      exact ⟨hs, first, last, rfl, hle⟩
    · intro h
      rcases h with ⟨hs, first', last', heq, hle⟩
      obtain ⟨rfl, rfl⟩ := Prod.mk.inj (Option.some.inj heq)
      exact ⟨hs, hle⟩

theorem carried_sorted (lo hi : Codepoint) (symbols : SymbolSet) (label : Interval) :
    (carried lo hi symbols label).Pairwise (· < ·) := by
  unfold carried
  split
  · exact List.Pairwise.nil
  · exact SymbolSet.between_sorted _ _ _

/-- The labels that an imported label is written as. -/
def carriedLabels (lo hi : Codepoint) (symbols : SymbolSet) (label : Interval) : List Interval :=
  (SymbolSet.runs (carried lo hi symbols label)).filterMap runLabel?

/-- The label of a run holds what lies between the codepoints of its ends. -/
theorem contains_label_iff {lo hi : Codepoint} {symbols : SymbolSet} {label : Interval}
    {r : Symbol × Symbol} (hr : r ∈ SymbolSet.runs (carried lo hi symbols label))
    {c : Codepoint} : (Interval.between (Codec.code r.1) (Codec.code r.2)).contains c = true ↔
      Codec.code r.1 ≤ c ∧ c ≤ Codec.code r.2 := by
  obtain ⟨hfirst, hlast⟩ := SymbolSet.ends_of_mem_runs hr
  have hle : Codec.code r.1 ≤ Codec.code r.2 :=
    (Codec.code_le_iff (mem_carried.1 hfirst).2.1 (mem_carried.1 hlast).2.1).2
      (SymbolSet.le_of_mem_runs (carried_sorted lo hi symbols label) hr)
  constructor
  · intro hc
    rcases Interval.contains_between.1 hc with h | h
    · exact h
    · exact ⟨Nat.le_trans hle h.1, Nat.le_trans h.2 hle⟩
  · exact fun h => Interval.contains_between.2 (Or.inl h)

theorem mem_carriedLabels {lo hi : Codepoint} {symbols : SymbolSet} {label i : Interval} :
    i ∈ carriedLabels lo hi symbols label ↔
      ∃ r ∈ SymbolSet.runs (carried lo hi symbols label),
        i = Interval.between (Codec.code r.1) (Codec.code r.2) := by
  unfold carriedLabels
  rw [List.mem_filterMap]
  have hlabel : ∀ r ∈ SymbolSet.runs (carried lo hi symbols label), runLabel? r =
      some (Interval.between (Codec.code r.1) (Codec.code r.2)) := by
    rintro ⟨first, last⟩ hr
    obtain ⟨hfirst, hlast⟩ := SymbolSet.ends_of_mem_runs hr
    have h₁ := Codec.codepoint?_eq_some_iff.2 ⟨(mem_carried.1 hfirst).2.1, rfl⟩
    have h₂ := Codec.codepoint?_eq_some_iff.2 ⟨(mem_carried.1 hlast).2.1, rfl⟩
    simp only [runLabel?, h₁, h₂]
    rfl
  constructor
  · intro h
    rcases h with ⟨r, hr, hi⟩
    rw [hlabel r hr] at hi
    exact ⟨r, hr, (Option.some.inj hi).symm⟩
  · intro h
    rcases h with ⟨r, hr, hi⟩
    exact ⟨r, hr, by rw [hi, hlabel r hr]⟩

/-- **Imported labels lie inside the label, the clamp and the codec.** -/
theorem contains_of_mem_carriedLabels {lo hi : Codepoint} {symbols : SymbolSet}
    {label i : Interval} (hmem : i ∈ carriedLabels lo hi symbols label) {c : Codepoint}
    (hc : i.contains c = true) :
    label.contains c = true ∧ lo ≤ c ∧ c ≤ hi ∧ c ≤ Codec.maxCodepoint := by
  obtain ⟨r, hr, hlabel⟩ := mem_carriedLabels.1 hmem
  rw [hlabel] at hc
  have hbounds := (contains_label_iff hr).1 hc
  obtain ⟨hfirst, hlast⟩ := SymbolSet.ends_of_mem_runs hr
  obtain ⟨-, -, hfirst, hlo, -⟩ := mem_carried.1 hfirst
  obtain ⟨-, hsym, hlast, -, hhi⟩ := mem_carried.1 hlast
  have hmax := Codec.code_le_max hsym
  rw [Interval.contains_iff] at hfirst hlast
  refine ⟨Interval.contains_iff.2 ⟨?_, ?_⟩, ?_, ?_, ?_⟩
  · exact Nat.le_trans hfirst.1 hbounds.1
  · exact Nat.le_trans hbounds.2 hlast.2
  · exact Nat.le_trans hlo hbounds.1
  · exact Nat.le_trans hbounds.2 hhi
  · exact Nat.le_trans hbounds.2 hmax

/-- **Of the codepoints of symbols** imported labels hold those that were asked for. -/
theorem mem_carriedLabels_iff {lo hi : Codepoint} {symbols : SymbolSet} {label : Interval}
    {s : Symbol} (hs : Codec.IsSymbol s) :
    (∃ i ∈ carriedLabels lo hi symbols label, i.contains (Codec.code s) = true) ↔
      s ∈ symbols ∧ Carries lo hi label s := by
  rw [← mem_carried, ← SymbolSet.mem_runs_iff (carried_sorted lo hi symbols label)]
  constructor
  · intro hfound
    rcases hfound with ⟨i, hmem, hc⟩
    obtain ⟨r, hr, hlabel⟩ := mem_carriedLabels.1 hmem
    rw [hlabel, contains_label_iff hr] at hc
    obtain ⟨hfirst, hlast⟩ := SymbolSet.ends_of_mem_runs hr
    refine ⟨r, hr, ?_, ?_⟩
    · exact (Codec.code_le_iff (mem_carried.1 hfirst).2.1 hs).1 hc.1
    · exact (Codec.code_le_iff hs (mem_carried.1 hlast).2.1).1 hc.2
  · intro hfound
    rcases hfound with ⟨r, hr, hfirst, hlast⟩
    obtain ⟨hfirst', hlast'⟩ := SymbolSet.ends_of_mem_runs hr
    refine ⟨_, mem_carriedLabels.2 ⟨r, hr, rfl⟩, (contains_label_iff hr).2 ⟨?_, ?_⟩⟩
    · exact (Codec.code_le_iff (mem_carried.1 hfirst').2.1 hs).2 hfirst
    · exact (Codec.code_le_iff hs (mem_carried.1 hlast').2.1).2 hlast

/-- **The labels that one label becomes** do not overlap. -/
theorem carriedLabels_disjoint {lo hi : Codepoint} {symbols : SymbolSet} {label i j : Interval}
    (hmem : i ∈ carriedLabels lo hi symbols label) (hj : j ∈ carriedLabels lo hi symbols label)
    (hne : i ≠ j) {c : Codepoint} (hic : i.contains c = true) : ¬ j.contains c = true := by
  intro hjc
  obtain ⟨r, hr, hri⟩ := mem_carriedLabels.1 hmem
  obtain ⟨t, ht, htj⟩ := mem_carriedLabels.1 hj
  rw [hri, contains_label_iff hr] at hic
  rw [htj, contains_label_iff ht] at hjc
  have hsorted := carried_sorted lo hi symbols label
  -- the end of one of the runs lies below the start of the other
  have hlt : ∀ {u v : Symbol}, u ∈ carried lo hi symbols label →
      v ∈ carried lo hi symbols label → u < v → Codec.code u < Codec.code v := by
    intro u v hu hv huv
    exact (Codec.code_lt_iff (mem_carried.1 hu).2.1 (mem_carried.1 hv).2.1).2 huv
  have hsymm : Std.Symm fun r t : Symbol × Symbol => r.2 < t.1 ∨ t.2 < r.1 :=
    ⟨fun _ _ => Or.symm⟩
  have hgap : r.2 < t.1 ∨ t.2 < r.1 := by
    have hruns : (SymbolSet.runs (carried lo hi symbols label)).Pairwise
        fun r t => r.2 < t.1 ∨ t.2 < r.1 := (SymbolSet.runs_separated hsorted).imp Or.inl
    refine hruns.forall hr ht fun heq => hne ?_
    rw [hri, htj, heq]
  rcases hgap with hgap | hgap
  · have hend := hlt (SymbolSet.ends_of_mem_runs hr).2 (SymbolSet.ends_of_mem_runs ht).1 hgap
    exact Nat.not_lt.2 (Nat.le_trans hjc.1 hic.2) hend
  · have hend := hlt (SymbolSet.ends_of_mem_runs ht).2 (SymbolSet.ends_of_mem_runs hr).1 hgap
    exact Nat.not_lt.2 (Nat.le_trans hic.1 hjc.2) hend

/-! ### The symbols that a graph carries -/

theorem mem_expand {a : Automaton} {label : Interval} {s : Symbol} :
    s ∈ a.expand label ↔ Carries a.min a.max label s := by
  rw [← mem_spanWithin_iff]
  unfold expand
  rw [span?_eq]
  cases spanWithin a.min a.max label with
  | none => simp
  | some ends =>
    obtain ⟨first, last⟩ := ends
    rw [SymbolSet.mem_span]
    constructor
    · exact fun h => ⟨first, last, rfl, h⟩
    · intro hfound
      rcases hfound with ⟨first', last', heq, h⟩
      obtain ⟨rfl, rfl⟩ := Prod.mk.inj (Option.some.inj heq)
      exact h

theorem mem_symbolsOf {a : Automaton} {g : Graph} {s : Symbol} :
    s ∈ a.symbolsOf g ↔ ∃ p label q, g.Arrow p label q ∧ Carries a.min a.max label s := by
  have hfold : ∀ (arcs : List Arc) (set : SymbolSet),
      s ∈ arcs.foldl (fun set arc => set.insertMany (a.expand arc.label)) set ↔
        s ∈ set ∨ ∃ arc ∈ arcs, Carries a.min a.max arc.label s := by
    intro arcs
    induction arcs with
    | nil => simp
    | cons arc arcs ih =>
      intro set
      rw [List.foldl_cons, ih, Std.ExtTreeSet.mem_insertMany_list, List.contains_iff_mem,
        mem_expand, or_assoc]
      simp only [List.mem_cons, exists_eq_or_imp]
  unfold symbolsOf
  rw [hfold]
  constructor
  · intro h
    rcases h with hempty | ⟨arc, harc, hs⟩
    · exact absurd hempty Std.ExtTreeSet.not_mem_empty
    · exact ⟨_, _, _, ⟨arc, harc, rfl, rfl, rfl⟩, hs⟩
  · intro h
    rcases h with ⟨p, label, q, ⟨arc, harc, rfl, rfl, rfl⟩, hs⟩
    exact Or.inr ⟨arc, harc, hs⟩

end Automaton

end SymbolAutomata
