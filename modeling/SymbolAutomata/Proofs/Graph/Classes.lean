/-
  SymbolAutomata/Proofs/Graph/Classes.lean
  ========================================
  **Codepoint classes.**

  Between two neighbouring start points no label begins and none ends.  So each
  codepoint lies in just one class (`exists_class`, `class_unique`), and no arc
  tells the codepoints of a class apart (`targets_eq_start`): a construction that
  reads a graph at one codepoint per class has read all of it.

  This needs the labels to lie inside the range of the codec, which `Encoded`
  says.
-/
import SymbolAutomata.Graph.Subset
import SymbolAutomata.Proofs.Graph.Trim

namespace SymbolAutomata

namespace Graph

/-! ### Labels in the range of the codec -/

/-- No label ends behind `top`. -/
def EndsBy (g : Graph) (top : Codepoint) : Prop := ∀ p i q, g.Arrow p i q → i.max ≤ top

/-- **All labels end inside the codec.** -/
abbrev Encoded (g : Graph) : Prop := g.EndsBy Codec.maxCodepoint

theorem endsBy_iff {g : Graph} {top : Codepoint} :
    g.EndsBy top ↔ ∀ p q c, q ∈ g.targets p c → c ≤ top := by
  constructor
  · intro h p q c hq
    obtain ⟨i, arrow, hc⟩ := mem_targets.1 hq
    exact Nat.le_trans (Interval.contains_iff.1 hc).2 (h p i q arrow)
  · intro h p i q arrow
    exact h p q i.max (mem_targets.2 ⟨i, arrow, i.contains_max⟩)

theorem EndsBy.of_targets {g h : Graph} {top : Codepoint} (hg : g.EndsBy top)
    (hsub : ∀ p q c, q ∈ h.targets p c → ∃ p' q', q' ∈ g.targets p' c) : h.EndsBy top := by
  rw [endsBy_iff] at hg ⊢
  intro p q c hq
  obtain ⟨p', q', hq'⟩ := hsub p q c hq
  exact hg p' q' c hq'

theorem EndsBy.build {flags : List Bool} {arcs : List (NodeId × Interval × NodeId)} {n : NodeId}
    {top : Codepoint} (h : ∀ a ∈ arcs, a.2.1.max ≤ top) : (Graph.build flags arcs n).EndsBy top :=
  fun _ _ _ arrow => h _ (arrow_build.1 arrow).1

theorem Encoded.label_max_le {g : Graph} (hg : g.Encoded) {a : Arc} (ha : a ∈ g.arcs) :
    a.label.max ≤ Codec.maxCodepoint :=
  hg a.source a.label a.target ⟨a, ha, rfl, rfl, rfl⟩

/-! ### Classes between sorted points -/

theorem map_fst_classesOf (points : List Codepoint) : (classesOf points).map (·.1) = points := by
  induction points with
  | nil => rfl
  | cons p points ih =>
    cases points with
    | nil => rfl
    | cons q points => simpa [classesOf] using ih

theorem mem_classesOf {points : List Codepoint} (hsorted : points.Pairwise (· < ·))
    (hbound : ∀ p ∈ points, p ≤ Codec.maxCodepoint) {p : Codepoint} {i : Interval}
    (h : (p, i) ∈ classesOf points) :
    p ∈ points ∧ i.min = p ∧ i.max ≤ Codec.maxCodepoint ∧
      ∀ q ∈ points, p < q → i.max < q := by
  induction points with
  | nil => cases h
  | cons a points ih =>
    obtain ⟨ha, hpoints⟩ := List.pairwise_cons.1 hsorted
    have hamax := hbound a (List.mem_cons_self ..)
    cases points with
    | nil =>
      obtain ⟨rfl, rfl⟩ := Prod.mk.inj (List.mem_singleton.1 h)
      have hbetween : Interval.between p Codec.maxCodepoint = ⟨p, Codec.maxCodepoint, hamax⟩ :=
        dif_pos hamax
      rw [hbetween]
      refine ⟨List.mem_singleton_self _, rfl, Nat.le_refl _, ?_⟩
      intro q hq hpq
      rw [List.mem_singleton.1 hq] at hpq
      exact absurd hpq (Nat.lt_irrefl _)
    | cons b points =>
      have hab : a < b := ha b (List.mem_cons_self ..)
      rcases List.mem_cons.1 h with heq | h
      · obtain ⟨rfl, rfl⟩ := Prod.mk.inj heq
        have hle : p ≤ b - 1 := Nat.le_pred_of_lt hab
        have hbetween : Interval.between p (b - 1) = ⟨p, b - 1, hle⟩ := dif_pos hle
        have hbmax : b ≤ Codec.maxCodepoint := hbound b (by simp)
        rw [hbetween]
        refine ⟨List.mem_cons_self .., rfl, Nat.le_trans (Nat.sub_le _ _) hbmax, ?_⟩
        -- the next point is the least of those behind `p`
        intro q hq hpq
        have hbq : b ≤ q := by
          rcases List.mem_cons.1 hq with rfl | hq
          · exact absurd hpq (Nat.lt_irrefl _)
          · rcases List.mem_cons.1 hq with rfl | hq
            · exact Nat.le_refl _
            · exact Nat.le_of_lt ((List.pairwise_cons.1 hpoints).1 q hq)
        exact Nat.lt_of_lt_of_le (Nat.sub_lt_of_pos_le Nat.one_pos (Nat.one_le_of_lt hab)) hbq
      · obtain ⟨hmem, hmin, hmax, hnext⟩ := ih hpoints (fun q hq => hbound q (by simp [hq])) h
        refine ⟨List.mem_cons_of_mem _ hmem, hmin, hmax, ?_⟩
        intro q hq hpq
        rcases List.mem_cons.1 hq with rfl | hq
        · exact absurd (ha p hmem) (Nat.lt_asymm hpq)
        · exact hnext q hq hpq

theorem exists_mem_classesOf {first : Codepoint} {points : List Codepoint}
    (hsorted : (first :: points).Pairwise (· < ·)) {c : Codepoint} (hfirst : first ≤ c)
    (hc : c ≤ Codec.maxCodepoint) :
    ∃ p i, (p, i) ∈ classesOf (first :: points) ∧ i.contains c = true := by
  induction points generalizing first with
  | nil =>
    refine ⟨first, _, List.mem_singleton_self _, ?_⟩
    exact Interval.contains_between.2 (Or.inl ⟨hfirst, hc⟩)
  | cons b points ih =>
    by_cases hb : b ≤ c
    · obtain ⟨p, i, hmem, hi⟩ := ih (List.pairwise_cons.1 hsorted).2 hb
      exact ⟨p, i, List.mem_cons_of_mem _ hmem, hi⟩
    · refine ⟨first, _, List.mem_cons_self .., ?_⟩
      exact Interval.contains_between.2 (Or.inl ⟨hfirst, Nat.le_pred_of_lt (Nat.lt_of_not_le hb)⟩)

/-! ### The classes of a graph -/

theorem startPoints_sorted (g : Graph) : g.startPoints.Pairwise (· < ·) := ascending_sorted _

theorem mem_startPoints {g : Graph} {c : Codepoint} :
    c ∈ g.startPoints ↔ c = Codec.minCodepoint ∨ ∃ a ∈ g.arcs, c = a.label.min ∨
      (a.label.max < Codec.maxCodepoint ∧ c = a.label.max + 1) := by
  unfold startPoints
  simp only [mem_ascending, List.mem_cons, List.mem_flatMap]
  constructor
  · intro h
    rcases h with rfl | ⟨a, ha, rfl | hc⟩
    · exact Or.inl rfl
    · exact Or.inr ⟨a, ha, Or.inl rfl⟩
    · split at hc
      · next hmax => exact Or.inr ⟨a, ha, Or.inr ⟨hmax, List.mem_singleton.1 hc⟩⟩
      · cases hc
  · intro h
    rcases h with rfl | ⟨a, ha, rfl | ⟨hmax, rfl⟩⟩
    · exact Or.inl rfl
    · exact Or.inr ⟨a, ha, Or.inl rfl⟩
    · exact Or.inr ⟨a, ha, Or.inr (by simp [hmax])⟩

theorem Encoded.startPoints_le {g : Graph} (hg : g.Encoded) {c : Codepoint}
    (hc : c ∈ g.startPoints) : c ≤ Codec.maxCodepoint := by
  rcases mem_startPoints.1 hc with rfl | ⟨a, ha, rfl | ⟨hmax, rfl⟩⟩
  · exact Nat.zero_le _
  · exact Nat.le_trans a.label.min_le_max (hg.label_max_le ha)
  · exact hmax

theorem map_fst_classes (g : Graph) : g.classes.map (·.1) = g.startPoints := map_fst_classesOf _

/-- **Every codepoint has a class.** -/
theorem exists_class (g : Graph) {c : Codepoint} (hc : c ≤ Codec.maxCodepoint) :
    ∃ p i, (p, i) ∈ g.classes ∧ i.contains c = true := by
  unfold classes
  have hzero : Codec.minCodepoint ∈ g.startPoints := mem_startPoints.2 (Or.inl rfl)
  have hsorted := g.startPoints_sorted
  cases hpoints : g.startPoints with
  | nil =>
    rw [hpoints] at hzero
    cases hzero
  | cons first points =>
    rw [hpoints] at hzero hsorted
    have hfirst : first ≤ Codec.minCodepoint := by
      rcases List.mem_cons.1 hzero with h | h
      · exact Nat.le_of_eq h.symm
      · exact Nat.le_of_lt ((List.pairwise_cons.1 hsorted).1 _ h)
    exact exists_mem_classesOf hsorted (Nat.le_trans hfirst (Nat.zero_le c)) hc

section Classes

variable {g : Graph} (hg : g.Encoded)

include hg

theorem Encoded.mem_classes {p : Codepoint} {i : Interval} (h : (p, i) ∈ g.classes) :
    p ∈ g.startPoints ∧ i.min = p ∧ i.max ≤ Codec.maxCodepoint ∧
      ∀ q ∈ g.startPoints, p < q → i.max < q :=
  mem_classesOf g.startPoints_sorted (fun _ => hg.startPoints_le) h

/-- **No codepoint has two.** -/
theorem Encoded.class_unique {p q c : Codepoint} {i j : Interval} (hi : (p, i) ∈ g.classes)
    (hj : (q, j) ∈ g.classes) (hci : i.contains c = true) (hcj : j.contains c = true) : p = q := by
  obtain ⟨hp, hpmin, -, hpnext⟩ := hg.mem_classes hi
  obtain ⟨hq, hqmin, -, hqnext⟩ := hg.mem_classes hj
  rw [Interval.contains_iff] at hci hcj
  rcases Nat.lt_trichotomy p q with hlt | heq | hgt
  · have hlt' := hpnext q hq hlt
    omega
  · exact heq
  · have hlt' := hqnext p hp hgt
    omega

theorem Encoded.contains_eq_start {p c : Codepoint} {i : Interval} (hi : (p, i) ∈ g.classes)
    (hc : i.contains c = true) {a : Arc} (ha : a ∈ g.arcs) :
    a.label.contains c = a.label.contains p := by
  obtain ⟨-, hmin, hmax, hnext⟩ := hg.mem_classes hi
  rw [Interval.contains_iff, hmin] at hc
  rw [Bool.eq_iff_iff, Interval.contains_iff, Interval.contains_iff]
  have hstart := hnext _ (mem_startPoints.2 (Or.inr ⟨a, ha, Or.inl rfl⟩))
  constructor
  · intro h
    rcases h with ⟨hlo, hhi⟩
    refine ⟨?_, Nat.le_trans hc.1 hhi⟩
    -- a label that began between `p` and `c` would have ended the class
    by_contra hno
    have hlt := hstart (Nat.lt_of_not_le hno)
    omega
  · intro h
    rcases h with ⟨hlo, hhi⟩
    refine ⟨Nat.le_trans hlo hc.1, ?_⟩
    by_contra hno
    have hpast := Nat.lt_of_not_le hno
    have hlast : a.label.max < Codec.maxCodepoint :=
      Nat.lt_of_lt_of_le hpast (Nat.le_trans hc.2 hmax)
    have hlt := hnext _ (mem_startPoints.2 (Or.inr ⟨a, ha, Or.inr ⟨hlast, rfl⟩⟩))
      (Nat.lt_succ_of_le hhi)
    omega

/-- **No arc tells the codepoints of a class apart.** -/
theorem Encoded.targets_eq_start {p c : Codepoint} {i : Interval} (hi : (p, i) ∈ g.classes)
    (hc : i.contains c = true) (n : NodeId) : g.targets n c = g.targets n p := by
  unfold targets outgoing
  rw [List.filter_filter, List.filter_filter]
  congr 1
  apply List.filter_congr
  intro a ha
  rw [hg.contains_eq_start hi hc ha]

end Classes

end Graph

end SymbolAutomata
