/-
  SymbolAutomata/Proofs/Graph/Proper.lean
  =======================================
  **What every built graph has** (`Fits`): an initial node, labels that do not end behind
  some codepoint, and a declaration that is true.

  All operations of the algebra keep this, whatever the codepoint is.  If it is the last
  one of the codec the graph is `Proper`, which is what minimization asks for and what
  running an automaton relies on; minimization keeps it as well.
-/
import SymbolAutomata.Proofs.Graph.Algebra
import SymbolAutomata.Proofs.Graph.Minimal

namespace SymbolAutomata

namespace Graph

/-- What is declared deterministic is. -/
def Honest (g : Graph) : Prop := g.deterministic = true → g.SingleValued

/-- **A graph as it is built** of labels that end at `top` or before. -/
structure Fits (g : Graph) (top : Codepoint) : Prop where
  rooted : g.Rooted
  endsBy : g.EndsBy top
  honest : g.Honest

/-- **A graph that may be minimized and run.** -/
abbrev Proper (g : Graph) : Prop := g.Fits Codec.maxCodepoint

theorem Fits.mono {g : Graph} {top top' : Codepoint} (hg : g.Fits top) (h : top ≤ top') :
    g.Fits top' :=
  ⟨hg.rooted, fun p i q arrow => Nat.le_trans (hg.endsBy p i q arrow) h, hg.honest⟩

theorem honest_of_not_deterministic {g : Graph} (h : g.deterministic = false) : g.Honest := by
  intro htrue
  rw [h] at htrue
  cases htrue

/-! ### Labels -/

section Labels

variable {g part : Graph} {top : Codepoint}

theorem EndsBy.prune (hg : g.EndsBy top) : g.prune.EndsBy top :=
  fun p i q arrow => hg p i q (arrow_prune.1 arrow).1

theorem EndsBy.splice (hg : g.EndsBy top) (pairs : List (NodeId × NodeId)) :
    (g.splice pairs).EndsBy top := by
  intro p i q arrow
  rcases arrow_splice.1 arrow with old | ⟨-, r, -, copied⟩
  · exact hg p i q old
  · exact hg r i q copied

theorem EndsBy.adopt (hg : g.EndsBy top) (hpart : part.EndsBy top) :
    (g.adopt part).whole.EndsBy top := by
  intro p i q arrow
  rcases ((adopted_adopt g part).arrow p i q).1 arrow with old | ⟨m, n, -, -, copied⟩
  · exact hg p i q old
  · exact hpart m i n copied

theorem endsBy_empty : empty.EndsBy top := by
  rintro p i q ⟨a, ha, -⟩
  cases ha

theorem endsBy_single (accept : Bool) : (single accept).EndsBy top :=
  fun _ _ _ arrow => absurd arrow not_arrow_single

theorem endsBy_emptyLanguage : emptyLanguage.EndsBy top :=
  fun _ _ _ arrow => absurd arrow not_arrow_emptyLanguage

theorem endsBy_emptyWord : emptyWord.EndsBy top := by
  rintro p i q ⟨a, ha, -⟩
  cases ha

theorem endsBy_oneOf {labels : List Interval} (h : ∀ i ∈ labels, i.max ≤ top) :
    (oneOf labels).EndsBy top := by
  apply EndsBy.build
  intro a ha
  obtain ⟨i, hi, rfl⟩ := List.mem_map.1 ha
  exact h i hi

end Labels

/-! ### Initial nodes -/

theorem Rooted.prune {g : Graph} (hg : g.Rooted) : g.prune.Rooted := by
  obtain ⟨i, hi, hc⟩ := hg
  exact ⟨i, (initial_prune g).trans hi, contains_prune.2 (mem_reachable_initial hi hc)⟩

theorem Rooted.splice {g : Graph} (hg : g.Rooted) (pairs : List (NodeId × NodeId)) :
    (g.splice pairs).Rooted := by
  obtain ⟨i, hi, hc⟩ := hg
  exact ⟨i, (initial_splice g pairs).trans hi, (contains_splice g pairs i).trans hc⟩

theorem Rooted.adopt {g : Graph} (hg : g.Rooted) (part : Graph) : (g.adopt part).whole.Rooted := by
  obtain ⟨i, hi, hc⟩ := hg
  have h := adopted_adopt g part
  exact ⟨i, h.initial.trans hi, h.contains_old hc⟩

theorem rooted_single (accept : Bool) : (single accept).Rooted :=
  ⟨0, rfl, contains_single.2 rfl⟩

/-! ### Small graphs -/

theorem honest_emptyLanguage : emptyLanguage.Honest :=
  fun _ _ _ _ _ hq _ => absurd hq not_mem_targets_emptyLanguage

theorem rooted_emptyWord : emptyWord.Rooted := ⟨0, rfl, rfl⟩

theorem honest_emptyWord : emptyWord.Honest := by
  intro _ p c q r hq _
  obtain ⟨i, ⟨a, ha, -⟩, -⟩ := mem_targets.1 hq
  cases ha

theorem rooted_oneOf (labels : List Interval) : (oneOf labels).Rooted :=
  ⟨0, rfl, contains_build.2 (by decide)⟩

theorem honest_oneOf (labels : List Interval) : (oneOf labels).Honest := by
  intro _ p c q r hq hr
  rw [(mem_targets_oneOf.1 hq).2.1, (mem_targets_oneOf.1 hr).2.1]

/-! ### Declarations -/

theorem honest_union (a b : Graph) : (a.union b).Honest :=
  honest_of_not_deterministic (deterministic_prune _)

theorem honest_concatenate (a b : Graph) : (a.concatenate b).Honest := by
  rw [concatenate]
  split
  · exact honest_of_not_deterministic (deterministic_prune _)
  · exact honest_emptyLanguage

theorem honest_star (a : Graph) : a.star.Honest :=
  honest_of_not_deterministic (deterministic_prune _)

theorem repeat_keeps {P : Graph → Prop} {round : Graph → Graph} (keep : ∀ g, P g → P (round g))
    {g : Graph} (hg : P g) (k : Nat) : P (Nat.repeat round k g) := by
  induction k with
  | zero => exact hg
  | succ k ih => exact keep _ ih

theorem honest_repeatMin (a : Graph) (least : Nat) : (a.repeatMin least).Honest :=
  repeat_keeps (fun g _ => honest_concatenate a g) (honest_star a) least

theorem honest_repeatRange (a : Graph) (least most : Nat) : (a.repeatRange least most).Honest := by
  unfold repeatRange
  split
  · exact honest_emptyLanguage
  · refine repeat_keeps (fun g _ => honest_concatenate g _) ?_ _
    exact repeat_keeps (fun g _ => honest_concatenate g _) honest_emptyWord _

/-! ### The operations -/

theorem rooted_union (a b : Graph) : (a.union b).Rooted :=
  ((((rooted_single false).adopt a).adopt b).splice _).prune

theorem rooted_star (a : Graph) : a.star.Rooted :=
  (((rooted_single true).adopt a).splice _).prune

theorem rooted_concatenate (a b : Graph) : (a.concatenate b).Rooted := by
  rw [concatenate]
  have hleft := adopted_adopt empty a
  have hright := adopted_adopt (empty.adopt a).whole b
  split
  · next start join hstart _ =>
    obtain ⟨i, -, hi⟩ := hleft.bind_name?_eq_some_iff.1 hstart
    refine Rooted.prune (Rooted.splice ⟨start, initial_setAcceptAll _ _ _, ?_⟩ _)
    refine (contains_setAcceptAll _ _ _ _).trans ?_
    exact hright.contains_old (hleft.contains_name hi)
  · exact rooted_emptyLanguage

theorem rooted_repeatMin (a : Graph) (least : Nat) : (a.repeatMin least).Rooted :=
  repeat_keeps (fun g _ => rooted_concatenate a g) (rooted_star a) least

theorem rooted_repeatRange (a : Graph) (least most : Nat) : (a.repeatRange least most).Rooted := by
  unfold repeatRange
  split
  · exact rooted_emptyLanguage
  · refine repeat_keeps (fun g _ => rooted_concatenate g _) ?_ _
    exact repeat_keeps (fun g _ => rooted_concatenate g _) rooted_emptyWord _

section Operations

variable {a b : Graph} {top : Codepoint}

theorem EndsBy.union (ha : a.EndsBy top) (hb : b.EndsBy top) : (a.union b).EndsBy top :=
  ((((endsBy_single false).adopt ha).adopt hb).splice _).prune

theorem EndsBy.concatenate (ha : a.EndsBy top) (hb : b.EndsBy top) :
    (a.concatenate b).EndsBy top := by
  rw [Graph.concatenate]
  split
  · next start join _ _ =>
    refine EndsBy.prune (EndsBy.splice ?_ _)
    have hboth : (((empty.adopt a).whole.adopt b).whole.setInitial start).EndsBy top :=
      (endsBy_empty.adopt ha).adopt hb
    exact fun p j q arrow => hboth p j q (arrow_setAcceptAll.1 arrow)
  · exact endsBy_emptyLanguage

theorem EndsBy.star (ha : a.EndsBy top) : a.star.EndsBy top :=
  (((endsBy_single true).adopt ha).splice _).prune

theorem EndsBy.repeatMin (ha : a.EndsBy top) (least : Nat) : (a.repeatMin least).EndsBy top :=
  repeat_keeps (P := (EndsBy · top)) (fun _ hg => ha.concatenate hg) ha.star least

theorem EndsBy.repeatRange (ha : a.EndsBy top) (least most : Nat) :
    (a.repeatRange least most).EndsBy top := by
  unfold Graph.repeatRange
  split
  · exact endsBy_emptyLanguage
  · have hrequired : (Nat.repeat (·.concatenate a) least emptyWord).EndsBy top :=
      repeat_keeps (P := (EndsBy · top)) (fun _ hg => hg.concatenate ha) endsBy_emptyWord _
    exact repeat_keeps (P := (EndsBy · top))
      (fun _ hg => hg.concatenate (ha.union endsBy_emptyWord)) hrequired _

theorem fits_emptyLanguage : emptyLanguage.Fits top :=
  ⟨rooted_emptyLanguage, endsBy_emptyLanguage, honest_emptyLanguage⟩

theorem fits_emptyWord : emptyWord.Fits top :=
  ⟨rooted_emptyWord, endsBy_emptyWord, honest_emptyWord⟩

theorem fits_oneOf {labels : List Interval} (h : ∀ i ∈ labels, i.max ≤ top) :
    (oneOf labels).Fits top :=
  ⟨rooted_oneOf labels, endsBy_oneOf h, honest_oneOf labels⟩

theorem Fits.union (ha : a.Fits top) (hb : b.Fits top) : (a.union b).Fits top :=
  ⟨rooted_union a b, ha.endsBy.union hb.endsBy, honest_union a b⟩

theorem Fits.concatenate (ha : a.Fits top) (hb : b.Fits top) : (a.concatenate b).Fits top :=
  ⟨rooted_concatenate a b, ha.endsBy.concatenate hb.endsBy, honest_concatenate a b⟩

theorem Fits.repeatMin (ha : a.Fits top) (least : Nat) : (a.repeatMin least).Fits top :=
  ⟨rooted_repeatMin a least, ha.endsBy.repeatMin least, honest_repeatMin a least⟩

theorem Fits.repeatRange (ha : a.Fits top) (least most : Nat) :
    (a.repeatRange least most).Fits top :=
  ⟨rooted_repeatRange a least most, ha.endsBy.repeatRange least most,
    honest_repeatRange a least most⟩

theorem Proper.minimize (ha : a.Proper) : a.minimize.Proper := by
  have h := minimal_minimize ha.endsBy ha.rooted.grounded
  exact ⟨h.rooted, h.encoded, fun _ => h.singleValued⟩

end Operations

end Graph

end SymbolAutomata
