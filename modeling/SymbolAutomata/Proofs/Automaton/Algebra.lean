/-
  SymbolAutomata/Proofs/Automaton/Algebra.lean
  ============================================
  **Automata compute with languages.**

  A `Faithful` automaton is deterministic if it is declared so, keeps its labels
  inside its clamp and lists in its alphabet every symbol that its labels carry.
  Every import is faithful (`faithful_fill`), and a faithful automaton loses no word
  when its symbols are cut down to its alphabet and clamp or to anything wider
  (`Faithful.language_eq_clip`).  So each operation gives the language it should.

  `Combination` nests the operations at will.  What a combination gives is faithful
  again, and it accepts the combination of the languages of its operands.
-/
import SymbolAutomata.Automaton.Algebra
import SymbolAutomata.Proofs.Automaton.Acceptance
import SymbolAutomata.Proofs.Graph.Product

namespace SymbolAutomata

namespace Automaton

open SymbolAutomata.Graph

/-! ### Faithful automata -/

/-- **What operations rely on.** -/
structure Faithful (a : Automaton) : Prop where
  honest : a.graph.Honest
  clamped : ∀ p i q, a.graph.Arrow p i q → a.min ≤ i.min ∧ i.max ≤ a.max
  covered : ∀ p i q s, a.graph.Arrow p i q → Codec.IsSymbol s →
    i.contains (Codec.code s) = true → s ∈ a.alphabet

/-- The symbols that an automaton may use. -/
def Uses (a : Automaton) (s : Symbol) : Prop := Kept a.min a.max a.alphabet s

section Faithful

variable {a b : Automaton} (ha : a.Faithful) (hb : b.Faithful)

include ha

theorem Faithful.uses {p : NodeId} {w : List Symbol} (hw : Codec.Spells w)
    (hacc : a.graph.AcceptsFrom p (w.map Codec.code)) : ∀ s ∈ w, a.Uses s := by
  induction w generalizing p with
  | nil => exact fun s hs => absurd hs List.not_mem_nil
  | cons s w ih =>
    rw [Codec.Spells, List.forall_mem_cons] at hw
    rw [List.map_cons, acceptsFrom_cons_iff] at hacc
    obtain ⟨q, hq, hacc⟩ := hacc
    obtain ⟨i, arrow, hc⟩ := Graph.mem_targets.1 hq
    obtain ⟨hmin, hmax⟩ := Interval.contains_iff.1 hc
    obtain ⟨hlo, hhi⟩ := ha.clamped p i q arrow
    refine List.forall_mem_cons.2 ⟨⟨hw.1, ha.covered p i q s arrow hw.1 hc, ?_, ?_⟩, ih hw.2 hacc⟩
    · exact Nat.le_trans hlo hmin
    · exact Nat.le_trans hmax hhi

/-- **No word is lost** by cutting down to symbols that include all those the automaton may use. -/
theorem Faithful.language_eq_clip {allowed : Symbol → Prop} (huses : ∀ s, a.Uses s → allowed s)
    (hsymbols : ∀ s, allowed s → Codec.IsSymbol s) :
    a.language = clip allowed (comap Codec.code a.graph.language) := by
  rw [language_eq ha.honest]
  ext w
  rw [mem_clip, mem_clip, mem_comap, Graph.mem_language]
  constructor
  · intro h
    rcases h with ⟨hacc, hw⟩
    obtain ⟨i, hi, hfrom⟩ := hacc
    exact ⟨⟨i, hi, hfrom⟩, fun s hs => huses s (ha.uses hw hfrom s hs)⟩
  · intro h
    rcases h with ⟨hacc, hall⟩
    exact ⟨hacc, fun s hs => hsymbols s (hall s hs)⟩

end Faithful

/-! ### Imports -/

/-- **Every import is faithful.** -/
theorem faithful_fill {source : Graph} (h : source.Honest) (lo hi : Codepoint)
    (symbols : SymbolSet) : ((withClamp lo hi).fill source symbols).Faithful := by
  refine ⟨honest_fill h lo hi symbols, ?_, ?_⟩
  all_goals obtain ⟨names, hfilled⟩ := filled_fill (withClamp lo hi) source symbols
  · intro p i q arrow
    rcases (hfilled.arrow p i q).1 arrow with old | ⟨n, label, m, -, -, -, hi⟩
    · exact absurd old not_arrow_withClamp
    · have hlow := contains_of_mem_carriedLabels hi i.contains_min
      have hhigh := contains_of_mem_carriedLabels hi i.contains_max
      rw [hfilled.min, hfilled.max]
      exact ⟨hlow.2.1, hhigh.2.2.1⟩
  · intro p i q s arrow hs hc
    rcases (hfilled.arrow p i q).1 arrow with old | ⟨n, label, m, hn, harrow, -, hi⟩
    · exact absurd old not_arrow_withClamp
    · obtain ⟨hmem, hcarries⟩ := (mem_carriedLabels_iff hs).1 ⟨i, hi, hc⟩
      exact (hfilled.alphabet s).2
        (Or.inr ⟨n, label, m, hfilled.mem_reachable hn, harrow, hmem, hcarries⟩)

/-! ### The operations -/

section Operations

variable {a b : Automaton} (ha : a.Faithful) (hb : b.Faithful)

include ha hb

/-- Symbols of either operand are kept by their common hull. -/
theorem Faithful.language_eq_hull :
    let allowed := Kept (Nat.min a.min b.min) (Nat.max a.max b.max) (a.alphabet ∪ b.alphabet)
    a.language = clip allowed (comap Codec.code a.graph.language) ∧
      b.language = clip allowed (comap Codec.code b.graph.language) := by
  refine ⟨ha.language_eq_clip ?_ fun s hs => hs.1, hb.language_eq_clip ?_ fun s hs => hs.1⟩
  · rintro s ⟨hs, hmem, hlo, hhi⟩
    refine ⟨hs, Std.ExtTreeSet.mem_union_iff.2 (Or.inl hmem), ?_, ?_⟩
    · exact Nat.le_trans (Nat.min_le_left _ _) hlo
    · exact Nat.le_trans hhi (Nat.le_max_left _ _)
  · rintro s ⟨hs, hmem, hlo, hhi⟩
    refine ⟨hs, Std.ExtTreeSet.mem_union_iff.2 (Or.inr hmem), ?_, ?_⟩
    · exact Nat.le_trans (Nat.min_le_right _ _) hlo
    · exact Nat.le_trans hhi (Nat.le_max_right _ _)

theorem Faithful.union :
    (a.union b).Faithful ∧ (a.union b).language = a.language + b.language := by
  have honest : (a.graph.union b.graph).Honest :=
    honest_of_not_deterministic (deterministic_prune _)
  refine ⟨faithful_fill honest _ _ _, ?_⟩
  obtain ⟨hla, hlb⟩ := ha.language_eq_hull hb
  rw [hla, hlb, ← clip_add, ← comap_add, ← language_union]
  exact language_fill honest _ _ _

theorem Faithful.concatenate :
    (a.concatenate b).Faithful ∧ (a.concatenate b).language = a.language * b.language := by
  have honest : (a.graph.concatenate b.graph).Honest := honest_concatenate _ _
  refine ⟨faithful_fill honest _ _ _, ?_⟩
  obtain ⟨hla, hlb⟩ := ha.language_eq_hull hb
  rw [hla, hlb, ← clip_mul, ← comap_mul, ← language_concatenate]
  exact language_fill honest _ _ _

theorem Faithful.intersection :
    (a.intersection b).Faithful ∧ (a.intersection b).language = both a.language b.language := by
  have honest := honest_intersection ha.honest hb.honest
  refine ⟨faithful_fill honest _ _ _, (language_fill honest _ _ _).trans ?_⟩
  rw [ha.language_eq_clip (fun _ h => h) fun _ h => h.1,
    hb.language_eq_clip (fun _ h => h) fun _ h => h.1, language_intersection, comap_both]
  ext w
  constructor
  · intro hfound
    rcases hfound with ⟨⟨hwa, hwb⟩, hall⟩
    constructor
    · refine ⟨hwa, fun s hs => ?_⟩
      obtain ⟨hsym, hmem, hlo, hhi⟩ := hall s hs
      exact ⟨hsym, (Std.ExtTreeSet.mem_inter_iff.1 hmem).1, (Nat.max_le.1 hlo).1,
        (Nat.le_min.1 hhi).1⟩
    · refine ⟨hwb, fun s hs => ?_⟩
      obtain ⟨hsym, hmem, hlo, hhi⟩ := hall s hs
      exact ⟨hsym, (Std.ExtTreeSet.mem_inter_iff.1 hmem).2, (Nat.max_le.1 hlo).2,
        (Nat.le_min.1 hhi).2⟩
  · intro hfound
    rcases hfound with ⟨⟨hwa, halla⟩, hwb, hallb⟩
    refine ⟨⟨hwa, hwb⟩, fun s hs => ?_⟩
    obtain ⟨hsym, hmema, hloa, hhia⟩ := halla s hs
    obtain ⟨-, hmemb, hlob, hhib⟩ := hallb s hs
    exact ⟨hsym, Std.ExtTreeSet.mem_inter_iff.2 ⟨hmema, hmemb⟩, Nat.max_le.2 ⟨hloa, hlob⟩,
      Nat.le_min.2 ⟨hhia, hhib⟩⟩

omit hb in
theorem Faithful.language_eq_repeated {g : Graph} (honest : g.Honest) {permitted : Nat → Prop}
    (hg : g.language = repeated a.graph.language permitted) :
    (ofGraphWithin a.min a.max g a.alphabet).Faithful ∧
      (ofGraphWithin a.min a.max g a.alphabet).language = repeated a.language permitted := by
  refine ⟨faithful_fill honest _ _ _, (language_fill honest _ _ _).trans ?_⟩
  rw [hg, comap_repeated, clip_repeated]
  exact congrArg (repeated · permitted)
    (ha.language_eq_clip (fun _ h => h) fun _ h => h.1).symm

end Operations

/-! ### Combinations -/

/-- Operations nested at will. -/
inductive Combination where
  | operand (a : Automaton)
  | union (x y : Combination)
  | intersection (x y : Combination)
  | concatenate (x y : Combination)
  | star (x : Combination)
  | repeatMin (x : Combination) (least : Nat)
  | repeatRange (x : Combination) (least most : Nat)

namespace Combination

/-- The automata that a combination starts from. -/
def operands : Combination → List Automaton
  | operand a => [a]
  | union x y | intersection x y | concatenate x y => x.operands ++ y.operands
  | star x | repeatMin x _ | repeatRange x _ _ => x.operands

/-- The automaton that the operations give. -/
def automaton : Combination → Automaton
  | operand a => a
  | union x y => x.automaton.union y.automaton
  | intersection x y => x.automaton.intersection y.automaton
  | concatenate x y => x.automaton.concatenate y.automaton
  | star x => x.automaton.star
  | repeatMin x least => x.automaton.repeatMin least
  | repeatRange x least most => x.automaton.repeatRange least most

/-- The words that a combination is meant to accept. -/
def language : Combination → Language Symbol
  | operand a => a.language
  | union x y => x.language + y.language
  | intersection x y => both x.language y.language
  | concatenate x y => x.language * y.language
  | star x => repeated x.language fun _ => True
  | repeatMin x least => repeated x.language (least ≤ ·)
  | repeatRange x least most => repeated x.language fun k => least ≤ k ∧ k ≤ most

theorem faithful_and_language (x : Combination) (h : ∀ a ∈ x.operands, a.Faithful) :
    x.automaton.Faithful ∧ x.automaton.language = x.language := by
  induction x with
  | operand a => exact ⟨h a (List.mem_singleton_self a), rfl⟩
  | union x y hx hy =>
    rw [operands, List.forall_mem_append] at h
    obtain ⟨⟨hx, hlx⟩, hy, hly⟩ := hx h.1, hy h.2
    obtain ⟨hxy, hl⟩ := hx.union hy
    exact ⟨hxy, by rw [automaton, hl, hlx, hly, language]⟩
  | intersection x y hx hy =>
    rw [operands, List.forall_mem_append] at h
    obtain ⟨⟨hx, hlx⟩, hy, hly⟩ := hx h.1, hy h.2
    obtain ⟨hxy, hl⟩ := hx.intersection hy
    exact ⟨hxy, by rw [automaton, hl, hlx, hly, language]⟩
  | concatenate x y hx hy =>
    rw [operands, List.forall_mem_append] at h
    obtain ⟨⟨hx, hlx⟩, hy, hly⟩ := hx h.1, hy h.2
    obtain ⟨hxy, hl⟩ := hx.concatenate hy
    exact ⟨hxy, by rw [automaton, hl, hlx, hly, language]⟩
  | star x hx =>
    obtain ⟨hx, hlx⟩ := hx h
    rw [language, ← hlx]
    exact hx.language_eq_repeated (honest_star _) ((language_star _).trans (kstar_eq_repeated _))
  | repeatMin x least hx =>
    obtain ⟨hx, hlx⟩ := hx h
    rw [language, ← hlx]
    exact hx.language_eq_repeated (honest_repeatMin _ _) (language_repeatMin _ _)
  | repeatRange x least most hx =>
    obtain ⟨hx, hlx⟩ := hx h
    rw [language, ← hlx]
    exact hx.language_eq_repeated (honest_repeatRange _ _ _) (language_repeatRange _ _ _)

/-- **The operations compute with languages**, under any nesting and whatever the alphabets and
    clamps of the operands are. What they give is faithful again. -/
theorem homomorphic (x : Combination) (h : ∀ a ∈ x.operands, a.Faithful) :
    x.automaton.Faithful ∧ ∀ w, Codec.Spells w →
      ∃ b, x.automaton.run w = .ok b ∧ (b = true ↔ w ∈ x.language) := by
  obtain ⟨hx, hl⟩ := x.faithful_and_language h
  refine ⟨hx, fun w hw => ?_⟩
  obtain ⟨b, hb, hiff⟩ := run_eq_of_language hx.honest hw
  exact ⟨b, hb, by rw [hiff, hl]⟩

/-- One or two words that each are a letter of the first automaton, alone or followed by a letter
    of the second one, whose clamp is another. -/
def letterPairs : Combination :=
  let a := ofGraphWithin 97 98 (oneOf [Interval.between 97 98]) (SymbolSet.ofList [90, 91])
  let b := ofGraphWithin 98 120 (oneOf [Interval.between 98 110]) (SymbolSet.ofList [91, 92, 93])
  .repeatRange (.union (.operand a) (.concatenate (.operand a) (.operand b))) 1 2

theorem faithful_operands_letterPairs : ∀ a ∈ letterPairs.operands, a.Faithful := by
  intro a ha
  simp only [letterPairs, operands, List.mem_append, List.mem_singleton] at ha
  rcases ha with rfl | rfl | rfl
  all_goals exact faithful_fill (honest_oneOf _) _ _ _

theorem homomorphic_letterPairs :
    (∀ a ∈ letterPairs.operands, a.Faithful) ∧ letterPairs.automaton.Faithful ∧
      letterPairs.automaton.run [90, 91, 92] = .ok true ∧ [90, 91, 92] ∈ letterPairs.language := by
  have h := faithful_operands_letterPairs
  obtain ⟨hfaithful, hrun⟩ := homomorphic letterPairs h
  have hspells : Codec.Spells [90, 91, 92] := by
    unfold Codec.Spells Codec.IsSymbol
    decide
  obtain ⟨b, hb, hiff⟩ := hrun [90, 91, 92] hspells
  have haccepted : letterPairs.automaton.run [90, 91, 92] = .ok true := by decide_cbv
  refine ⟨h, hfaithful, haccepted, hiff.1 ?_⟩
  rw [hb] at haccepted
  exact Except.ok.inj haccepted

end Combination

end Automaton

end SymbolAutomata
