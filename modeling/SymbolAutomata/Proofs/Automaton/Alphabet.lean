/-
  SymbolAutomata/Proofs/Automaton/Alphabet.lean
  =============================================
  **The alphabet of an automaton is the set of symbols on its arcs.**

  The alphabet is not computed when it is asked for.  It is kept beside the graph:
  adding a symbol or importing a label inserts into it, deleting a symbol takes the
  symbol out when no arc carries it any more, and numbering the states anew reads it
  off the graph.  `Tallied` says that the two stay in step: each symbol inside the
  clamp that some arc carries is listed, and each listed symbol is carried by some
  arc.  Every edit keeps this (`Tallied.perform`) except the two that set the
  alphabet directly.

  Symbols outside the clamp may be carried and listed, or carried and not listed
  after numbering anew, which is why the full statement, `Tended.alphabet_exact`,
  distinguishes the cases.
-/
import SymbolAutomata.Proofs.Automaton.Cut
import SymbolAutomata.Proofs.Automaton.Paths

namespace SymbolAutomata

namespace Graph

/-- Some arc carries the codepoint. -/
def Holds (g : Graph) (c : Codepoint) : Prop := ∃ p q, q ∈ g.targets p c

theorem holds_iff_arrow {g : Graph} {c : Codepoint} :
    g.Holds c ↔ ∃ p i q, g.Arrow p i q ∧ i.contains c = true := by
  unfold Holds
  simp only [mem_targets]
  constructor
  · rintro ⟨p, q, i, h⟩
    exact ⟨p, i, q, h⟩
  · rintro ⟨p, i, q, h⟩
    exact ⟨p, q, i, h⟩

theorem holds_iff_arcs {g : Graph} {c : Codepoint} :
    g.Holds c ↔ (g.arcs.any (·.label.contains c)) = true := by
  rw [holds_iff_arrow, List.any_eq_true]
  constructor
  · rintro ⟨_, _, _, ⟨arc, harc, -, rfl, -⟩, hc⟩
    exact ⟨arc, harc, hc⟩
  · rintro ⟨arc, harc, hc⟩
    exact ⟨_, _, _, ⟨arc, harc, rfl, rfl, rfl⟩, hc⟩

theorem holds_congr {g h : Graph} (harrow : ∀ p i q, g.Arrow p i q ↔ h.Arrow p i q)
    (c : Codepoint) : g.Holds c ↔ h.Holds c := by
  simp only [holds_iff_arrow, harrow]

theorem holds_splice {g : Graph} {pairs : List (NodeId × NodeId)} {c : Codepoint} :
    (g.splice pairs).Holds c ↔ g.Holds c := by
  rw [holds_iff_arrow, holds_iff_arrow]
  constructor
  · rintro ⟨p, i, q, arrow, hc⟩
    rcases arrow_splice.1 arrow with old | ⟨-, r, -, copied⟩
    · exact ⟨p, i, q, old, hc⟩
    · exact ⟨r, i, q, copied, hc⟩
  · rintro ⟨p, i, q, arrow, hc⟩
    exact ⟨p, i, q, arrow_splice.2 (Or.inl arrow), hc⟩

end Graph

namespace Automaton

open SymbolAutomata.Graph

/-- **The alphabet is in step with the arcs.** -/
structure Tallied (a : Automaton) : Prop where
  listed : ∀ s, Codec.IsSymbol s → a.Clamped s → a.graph.Holds (Codec.code s) → s ∈ a.alphabet
  carried : ∀ s ∈ a.alphabet, Codec.IsSymbol s ∧ a.graph.Holds (Codec.code s)

section Tally

variable {a b : Automaton} {s t : Symbol} {c : Codepoint}

theorem tallied_withClamp (min max : Codepoint) : (withClamp min max).Tallied := by
  refine ⟨?_, fun s hs => absurd hs Std.ExtTreeSet.not_mem_empty⟩
  rintro s - - ⟨p, q, hq⟩
  obtain ⟨i, arrow, -⟩ := mem_targets.1 hq
  exact absurd arrow not_arrow_empty

/-! ### Edits that leave the labels alone -/

/-- A change of neither the alphabet nor the codepoints that arcs carry. -/
structure KeepsSymbols (a b : Automaton) : Prop where
  alphabet : b.alphabet = a.alphabet
  min : b.min = a.min
  max : b.max = a.max
  holds : ∀ c, b.graph.Holds c ↔ a.graph.Holds c

theorem KeepsSymbols.refl (a : Automaton) : KeepsSymbols a a := ⟨rfl, rfl, rfl, fun _ => Iff.rfl⟩

theorem KeepsSymbols.trans {a b c : Automaton} (hab : KeepsSymbols a b) (hbc : KeepsSymbols b c) :
    KeepsSymbols a c :=
  ⟨hbc.alphabet.trans hab.alphabet, hbc.min.trans hab.min, hbc.max.trans hab.max,
    fun d => (hbc.holds d).trans (hab.holds d)⟩

theorem KeepsSymbols.tallied (h : KeepsSymbols a b) (ha : a.Tallied) : b.Tallied := by
  refine ⟨?_, ?_⟩
  · intro s hs hclamp hholds
    rw [h.alphabet]
    rw [Clamped, h.min, h.max] at hclamp
    exact ha.listed s hs hclamp ((h.holds _).1 hholds)
  · intro s hs
    rw [h.alphabet] at hs
    obtain ⟨hsym, hholds⟩ := ha.carried s hs
    exact ⟨hsym, (h.holds _).2 hholds⟩

theorem keepsSymbols_editState {action : String} {i : StateIndex} {edit : Graph → NodeId → Graph}
    (hedit : ∀ g n p j q, (edit g n).Arrow p j q ↔ g.Arrow p j q) :
    KeepsSymbols a (a.editState action i edit).value := by
  unfold editState resolve
  cases a.states[i]? with
  | none => exact .refl a
  | some n => exact ⟨rfl, rfl, rfl, holds_congr (hedit a.graph n)⟩

theorem keepsSymbols_eachState {edit : Automaton → StateIndex → Noted Automaton}
    (hedit : ∀ a i, KeepsSymbols a (edit a i).value) (is : List StateIndex) :
    KeepsSymbols a (eachState edit a is).value :=
  eachState_keeps (fun b i hb => hb.trans (hedit b i)) (KeepsSymbols.refl a) is

theorem keepsSymbols_addSilent (i j : StateIndex) : KeepsSymbols a (a.addSilent i j).value := by
  unfold addSilent
  simp only
  split
  · exact ⟨rfl, rfl, rfl, fun _ => holds_splice⟩
  · exact .refl a

/-! ### Imports -/

theorem Tallied.fill (ha : a.Tallied) (source : Graph) (symbols : SymbolSet) :
    (a.fill source symbols).Tallied := by
  obtain ⟨names, h⟩ := filled_fill a source symbols
  refine ⟨?_, ?_⟩
  · intro s hs hclamp hholds
    rw [Clamped, h.min, h.max] at hclamp
    obtain ⟨x, i, y, arrow, hc⟩ := holds_iff_arrow.1 hholds
    rw [h.alphabet]
    rcases (h.arrow x i y).1 arrow with old | ⟨n, label, m, hn, harrow, -, hi⟩
    · exact Or.inl (ha.listed s hs hclamp (holds_iff_arrow.2 ⟨x, i, y, old, hc⟩))
    · exact Or.inr
        ⟨n, label, m, h.mem_reachable hn, harrow, (mem_carriedLabels_iff hs).1 ⟨i, hi, hc⟩⟩
  · intro s hs
    rw [holds_iff_arrow]
    rcases (h.alphabet s).1 hs with old | ⟨n, label, m, hn, harrow, hcarried⟩
    · obtain ⟨hsym, hholds⟩ := ha.carried s old
      obtain ⟨x, i, y, arrow, hc⟩ := holds_iff_arrow.1 hholds
      exact ⟨hsym, x, i, y, (h.arrow x i y).2 (Or.inl arrow), hc⟩
    · -- the arrow leads to a node that the search finds, so both ends are copied
      have hm := mem_reachable_of_mem_targets hn
        (mem_targets.2 ⟨label, harrow, label.contains_min⟩)
      obtain ⟨x, hx⟩ := h.exists_name hn
      obtain ⟨y, hy⟩ := h.exists_name hm
      obtain ⟨i, hi, hc⟩ := (mem_carriedLabels_iff hcarried.2.1).2 hcarried
      exact ⟨hcarried.2.1, x, i, y, (h.arrow x i y).2 (Or.inr ⟨n, label, m, hx, harrow, hy, hi⟩),
        hc⟩

/-! ### Transitions -/

theorem Tallied.insert (ha : a.Tallied) (hc : Codec.codepoint s = .ok c) {g : Graph}
    (hholds : ∀ d, g.Holds d ↔ a.graph.Holds d ∨ d = c) :
    ({ a with alphabet := a.alphabet.insert s, graph := g } : Automaton).Tallied := by
  obtain ⟨hs, rfl⟩ := Codec.codepoint_eq_ok_iff.1 hc
  refine ⟨?_, ?_⟩
  · intro t ht hclamp hheld
    rw [Std.ExtTreeSet.mem_insert]
    rcases (hholds _).1 hheld with old | heq
    · exact Or.inr (ha.listed t ht hclamp old)
    · exact Or.inl (Int.compare_eq_eq.2 (Codec.code_inj ht hs heq).symm)
  · intro t ht
    rcases Std.ExtTreeSet.mem_insert.1 ht with heq | old
    · obtain rfl := Int.compare_eq_eq.1 heq
      exact ⟨hs, (hholds _).2 (Or.inr rfl)⟩
    · obtain ⟨hsym, hheld⟩ := ha.carried t old
      exact ⟨hsym, (hholds _).2 (Or.inl hheld)⟩

/-- The symbols up to one that has no codepoint are tallied. -/
theorem Tallied.addSymbols (ha : a.Tallied) {p q : NodeId} (hp : a.graph.contains p = true)
    (hq : a.graph.contains q = true) (symbols : List Symbol) :
    (a.addSymbols p q symbols).1.Tallied := by
  induction symbols generalizing a with
  | nil => exact ha
  | cons s rest ih =>
    unfold Automaton.addSymbols
    split
    · exact ha
    · next c hc =>
      simp only
      split
      · next hcovered =>
        obtain ⟨arc, harc, hcov⟩ := List.any_eq_true.1 hcovered
        simp only [Bool.and_eq_true] at hcov
        have hheld : a.graph.Holds c :=
          holds_iff_arcs.2 (List.any_eq_true.2 ⟨arc, (mem_outgoing.1 harc).1, hcov.2⟩)
        refine ih (ha.insert hc fun d => ⟨Or.inl, ?_⟩) hp hq
        rintro (old | rfl)
        · exact old
        · exact hheld
      · refine ih (ha.insert hc fun d => ?_) ?_ ?_
        · simp only [holds_iff_arrow, arrow_connect]
          constructor
          · rintro ⟨x, i, y, old | ⟨-, rfl, rfl, rfl⟩, hd⟩
            · exact Or.inl ⟨x, i, y, old, hd⟩
            · exact Or.inr (Interval.contains_single.1 hd)
          · rintro (⟨x, i, y, old, hd⟩ | rfl)
            · exact ⟨x, i, y, Or.inl old, hd⟩
            · exact ⟨p, _, q, Or.inr ⟨⟨hp, hq⟩, rfl, rfl, rfl⟩, Interval.contains_single.2 rfl⟩
        · exact (contains_connect a.graph p _ q p).trans hp
        · exact (contains_connect a.graph p _ q q).trans hq

theorem states_of_resolveBoth {action : String} {i j : StateIndex} {p q : NodeId}
    (h : (a.resolveBoth action i j).value = some (p, q)) :
    a.states[i]? = some p ∧ a.states[j]? = some q := by
  unfold resolveBoth resolve at h
  cases hi : a.states[i]? <;> cases hj : a.states[j]? <;> rw [hi, hj] at h <;> cases h
  exact ⟨rfl, rfl⟩

theorem Tallied.addTransition (ha : a.Tallied) (hstep : a.InStep) (i j : StateIndex)
    (symbols : List Symbol) : (a.addTransition i j symbols).automaton.Tallied := by
  unfold Automaton.addTransition
  simp only
  split
  · exact ha
  · next p q hends =>
    obtain ⟨hp, hq⟩ := states_of_resolveBoth hends
    exact ha.addSymbols (hstep.contains_of_getElem? hp) (hstep.contains_of_getElem? hq) symbols

theorem mem_erase_iff {set : SymbolSet} : t ∈ set.erase s ↔ t ≠ s ∧ t ∈ set := by
  rw [Std.ExtTreeSet.mem_erase, Ne, Int.compare_eq_eq, eq_comm]

/-- A symbol that no arc carries any more is taken out of the alphabet. -/
theorem Tallied.without (ha : a.Tallied) (hc : Codec.codepoint s = .ok c) (hmin : b.min = a.min)
    (hmax : b.max = a.max) (hmem : ∀ t, t ∈ b.alphabet ↔ t ≠ s ∧ t ∈ a.alphabet)
    (hholds : ∀ d, b.graph.Holds d ↔ a.graph.Holds d ∧ d ≠ c) : b.Tallied := by
  obtain ⟨hs, rfl⟩ := Codec.codepoint_eq_ok_iff.1 hc
  refine ⟨?_, ?_⟩
  · intro t ht hclamp hheld
    rw [Clamped, hmin, hmax] at hclamp
    obtain ⟨hheld, hne⟩ := (hholds _).1 hheld
    refine (hmem t).2 ⟨?_, ha.listed t ht hclamp hheld⟩
    rintro rfl
    exact hne rfl
  · intro t ht
    obtain ⟨hne, ht⟩ := (hmem t).1 ht
    obtain ⟨hsym, hheld⟩ := ha.carried t ht
    exact ⟨hsym, (hholds _).2 ⟨hheld, fun heq => hne (Codec.code_inj hsym hs heq)⟩⟩

theorem Tallied.deleteTransition (ha : a.Tallied) (i j : StateIndex) (s : Symbol) :
    (a.deleteTransition i j s).automaton.Tallied := by
  rcases deleteTransition_cases a i j s with hsame | ⟨c, p, q, hc, hcut⟩
  · rwa [hsame]
  rw [hcut]
  have hless : ∀ d, (cutBetween a.graph p c q).Holds d → a.graph.Holds d := by
    rintro d ⟨x, y, hy⟩
    exact ⟨x, y, (mem_targets_cutBetween.1 hy).1⟩
  have hother : ∀ d, a.graph.Holds d → d ≠ c → (cutBetween a.graph p c q).Holds d := by
    rintro d ⟨x, y, hy⟩ hd
    exact ⟨x, y, mem_targets_cutBetween.2 ⟨hy, fun h => hd h.2.1⟩⟩
  generalize cutBetween a.graph p c q = g at hless hother
  by_cases hheld : g.Holds c
  · rw [if_pos (holds_iff_arcs.1 hheld)]
    have hsame : ∀ d, g.Holds d ↔ a.graph.Holds d := by
      refine fun d => ⟨hless d, fun hd => ?_⟩
      by_cases heq : d = c
      · rwa [heq]
      · exact hother d hd heq
    have hkeeps : KeepsSymbols a { a with graph := g } := ⟨rfl, rfl, rfl, hsame⟩
    exact hkeeps.tallied ha
  · rw [if_neg fun h => hheld (holds_iff_arcs.2 h)]
    refine ha.without hc rfl rfl (fun t => mem_erase_iff) fun d => ?_
    refine ⟨fun hd => ⟨hless d hd, ?_⟩, fun hd => hother d hd.1 hd.2⟩
    rintro rfl
    exact hheld hd

theorem clamp_deleteTransition (a : Automaton) (i j : StateIndex) (s : Symbol) :
    (a.deleteTransition i j s).automaton.min = a.min ∧
      (a.deleteTransition i j s).automaton.max = a.max := by
  rcases deleteTransition_cases a i j s with hsame | ⟨c, p, q, -, hcut⟩
  · rw [hsame]
    exact ⟨rfl, rfl⟩
  · rw [hcut]
    exact ⟨rfl, rfl⟩

theorem mem_alphabet_deleteTransition {i j : StateIndex} (ht : t ≠ s) :
    t ∈ (a.deleteTransition i j s).automaton.alphabet ↔ t ∈ a.alphabet := by
  rcases deleteTransition_cases a i j s with hsame | ⟨c, p, q, -, hcut⟩
  · rw [hsame]
  · rw [hcut]
    dsimp only
    split
    · rfl
    · exact mem_erase_iff.trans (and_iff_right ht)

/-- What single deletions keep is kept when states are cleared of a symbol. -/
theorem foldl_clearSymbol_keeps {γ : Type} (view : Automaton → γ)
    (keep : ∀ b i j, view (b.deleteTransition i j s).automaton = view b) (is : List StateIndex) :
    view (is.foldl (clearSymbol s c) a) = view a :=
  foldl_keeps view (fun b i => foldl_keeps view (fun b j => keep b i j) _ b) is a

theorem Tallied.removeSymbol (ha : a.Tallied) (hstep : a.InStep) (s : Symbol) :
    (a.removeSymbol s).automaton.Tallied := by
  cases hc : Codec.codepoint s with
  | error f =>
    unfold Automaton.removeSymbol
    rw [hc]
    exact ha
  | ok c =>
    have htargets := fun d p q => hstep.mem_targets_removeSymbol (d := d) (r := p) (s := q) hc
    have hremove : (a.removeSymbol s).automaton =
        ((List.range a.stateCount).foldl (clearSymbol s c) a).removeFromAlphabet s := by
      unfold Automaton.removeSymbol
      rw [hc]
    refine ha.without hc ?_ ?_ (fun t => ?_) fun d => ?_
    · rw [hremove]
      exact foldl_clearSymbol_keeps (·.min) (fun b i j => (clamp_deleteTransition b i j s).1) _
    · rw [hremove]
      exact foldl_clearSymbol_keeps (·.max) (fun b i j => (clamp_deleteTransition b i j s).2) _
    · rw [hremove]
      refine mem_erase_iff.trans (and_congr_right fun ht => iff_of_eq ?_)
      exact foldl_clearSymbol_keeps (t ∈ ·.alphabet)
        (fun b i j => propext (mem_alphabet_deleteTransition ht)) _
    · unfold Holds
      simp only [htargets, exists_and_right]

/-! ### Numbering anew -/

theorem mem_alphabet_renumber : s ∈ a.renumber.alphabet ↔
    Codec.IsSymbol s ∧ a.renumber.graph.Holds (Codec.code s) ∧ a.renumber.Clamped s := by
  show s ∈ a.symbolsOf a.graph.prune ↔ _
  rw [mem_symbolsOf, holds_iff_arrow]
  constructor
  · rintro ⟨p, i, q, arrow, hs, hc, hclamp⟩
    exact ⟨hs, ⟨p, i, q, arrow, hc⟩, hclamp⟩
  · rintro ⟨hs, ⟨p, i, q, arrow, hc⟩, hclamp⟩
    exact ⟨p, i, q, arrow, hs, hc, hclamp⟩

theorem tallied_renumber (a : Automaton) : a.renumber.Tallied where
  listed _ hs hclamp hholds := mem_alphabet_renumber.2 ⟨hs, hholds, hclamp⟩
  carried _ hs := ⟨(mem_alphabet_renumber.1 hs).1, (mem_alphabet_renumber.1 hs).2.1⟩

/-! ### All edits -/

end Tally

end Automaton

/-- The edits that set the alphabet without regard to the graph. -/
def Edit.setsAlphabet : Edit → Bool
  | .addToAlphabet _ | .removeFromAlphabet _ => true
  | _ => false

namespace Automaton

open SymbolAutomata.Graph

variable {a : Automaton}

/-- **Every edit keeps the alphabet in step with the arcs**, unless it sets the alphabet. -/
theorem Tallied.perform (ha : a.Tallied) (hstep : a.InStep) {e : Edit}
    (he : e.setsAlphabet = false) : (e.perform a).automaton.Tallied := by
  cases e with
  | fill source symbols => exact ha.fill source symbols
  | addState =>
    have hkeeps : KeepsSymbols a a.addState :=
      ⟨rfl, rfl, rfl, holds_congr fun _ _ _ => arrow_addNode⟩
    exact hkeeps.tallied ha
  | setInitial i =>
    have hkeeps : KeepsSymbols a (a.setInitial i).value :=
      keepsSymbols_editState fun _ _ _ _ _ => arrow_setInitial
    exact hkeeps.tallied ha
  | setFinal is =>
    exact (keepsSymbols_eachState
      (fun _ _ => keepsSymbols_editState fun _ _ _ _ _ => arrow_setAccept) is).tallied ha
  | setNonFinal is =>
    exact (keepsSymbols_eachState
      (fun _ _ => keepsSymbols_editState fun _ _ _ _ _ => arrow_setAccept) is).tallied ha
  | declare deterministic =>
    have hkeeps : KeepsSymbols a (a.declare deterministic) := ⟨rfl, rfl, rfl, fun _ => Iff.rfl⟩
    exact hkeeps.tallied ha
  | addToAlphabet s | removeFromAlphabet s => cases he
  | addTransition i j symbols => exact ha.addTransition hstep i j symbols
  | deleteTransition i j s => exact ha.deleteTransition i j s
  | removeSymbol s => exact ha.removeSymbol hstep s
  | addSilent i j => exact (keepsSymbols_addSilent i j).tallied ha
  | minimize | reduce | removeDead => exact tallied_renumber _

/-! ### Automata whose alphabet is never set -/

/-- **Automata made in any way and then edited, but never told their alphabet.** -/
inductive Tended : Automaton → Prop where
  | withClamp (min max : Codepoint) : Tended (withClamp min max)
  | ofCompiler {compiler : Pattern.Compiler} {pattern : String} {min max : Codepoint}
      {a : Automaton} (h : ofCompiler compiler pattern min max = .ok a) : Tended a
  | ofGraphWithin (min max : Codepoint) (g : Graph) (symbols : SymbolSet) :
      Tended (ofGraphWithin min max g symbols)
  | union (a b : Automaton) : Tended (a.union b)
  | intersection (a b : Automaton) : Tended (a.intersection b)
  | concatenate (a b : Automaton) : Tended (a.concatenate b)
  | complementOver (a : Automaton) (alphabet : SymbolSet) : Tended (a.complementOver alphabet)
  | star (a : Automaton) : Tended a.star
  | repeatMin (a : Automaton) (least : Nat) : Tended (a.repeatMin least)
  | repeatRange (a : Automaton) (least most : Nat) : Tended (a.repeatRange least most)
  | edited {a : Automaton} {e : Edit} (he : e.setsAlphabet = false) (ha : Tended a) :
      Tended (e.perform a).automaton

theorem tallied_ofGraphWithin (min max : Codepoint) (g : Graph) (symbols : SymbolSet) :
    (ofGraphWithin min max g symbols).Tallied := (tallied_withClamp min max).fill g symbols

theorem Tended.inStep (ha : a.Tended) : a.InStep := by
  induction ha with
  | withClamp min max => exact inStep_withClamp min max
  | ofCompiler h => exact (Made.ofCompiler h).built.inStep
  | edited _ _ ih => exact ih.perform _
  | _ => exact (built_ofGraphWithin _ _ _ _).inStep

theorem Tended.tallied (ha : a.Tended) : a.Tallied := by
  induction ha with
  | withClamp min max => exact tallied_withClamp min max
  | ofCompiler h =>
    obtain ⟨g, -, hfill⟩ := exists_of_bind_eq_ok h
    obtain rfl := Except.ok.inj hfill
    exact tallied_ofGraphWithin _ _ g _
  | edited he ha ih => exact ih.perform ha.inStep he
  | _ => exact tallied_ofGraphWithin _ _ _ _

theorem Tended.after (ha : a.Tended) {es : List Edit} (hes : ∀ e ∈ es, e.setsAlphabet = false) :
    (a.after es).Tended := by
  induction es generalizing a with
  | nil => exact ha
  | cons e es ih =>
    rw [List.forall_mem_cons] at hes
    exact ih (ha.edited hes.1) hes.2

/-- The symbols of the transitions are those that arcs carry inside the clamp. -/
theorem InStep.exists_transition_iff (ha : a.InStep) {s : Symbol} :
    (∃ t ∈ a.transitions, t.symbol = s) ↔
      Codec.IsSymbol s ∧ a.graph.Holds (Codec.code s) ∧ a.Clamped s := by
  rw [holds_iff_arrow]
  constructor
  · rintro ⟨⟨i, j, _⟩, ht, rfl⟩
    obtain ⟨p, q, label, -, -, arrow, hs, hc, hclamp⟩ := ha.mem_transitions.1 ht
    exact ⟨hs, ⟨p, label, q, arrow, hc⟩, hclamp⟩
  · rintro ⟨hs, ⟨p, label, q, arrow, hc⟩, hclamp⟩
    obtain ⟨i, hi⟩ := ha.exists_index arrow.contains_source
    obtain ⟨j, hj⟩ := ha.exists_index arrow.contains_target
    exact ⟨⟨i, j, s⟩, ha.mem_transitions.2 ⟨p, q, label, hi, hj, arrow, hs, hc, hclamp⟩, rfl⟩

theorem InStep.exists_interval_of_holds (ha : a.InStep) {c : Codepoint} (h : a.graph.Holds c) :
    ∃ i label j, (label, j) ∈ (a.intervals i).value ∧ label.contains c = true := by
  obtain ⟨p, label, q, arrow, hc⟩ := holds_iff_arrow.1 h
  obtain ⟨i, hi⟩ := ha.exists_index arrow.contains_source
  obtain ⟨j, hj⟩ := ha.exists_index arrow.contains_target
  exact ⟨i, label, j, ha.mem_intervals.2 ⟨p, q, hi, hj, arrow⟩, hc⟩

/-- **The alphabet is exact.**  Every symbol of a transition is in the alphabet, and the codepoint
    of every symbol in the alphabet lies inside a label of some state.  Over the full clamp, and
    after numbering anew over any clamp, the alphabet consists of the symbols of the transitions. -/
theorem Tended.alphabet_exact (ha : a.Tended) :
    (∀ t ∈ a.transitions, t.symbol ∈ a.alphabet) ∧
      (∀ s ∈ a.alphabet, ∃ c, Codec.codepoint s = .ok c ∧ ∃ i label j,
        (label, j) ∈ (a.intervals i).value ∧ label.contains c = true) ∧
      (a.FullyClamped → ∀ s, s ∈ a.alphabet ↔ ∃ t ∈ a.transitions, t.symbol = s) ∧
      ∀ e : Edit, e.renumbers = true → ∀ s, s ∈ (e.perform a).automaton.alphabet ↔
        ∃ t ∈ (e.perform a).automaton.transitions, t.symbol = s := by
  have hstep := ha.inStep
  have htally := ha.tallied
  have hshown : ∀ s, (∃ t ∈ a.transitions, t.symbol = s) → s ∈ a.alphabet := by
    intro s hs
    obtain ⟨hsym, hholds, hclamp⟩ := hstep.exists_transition_iff.1 hs
    exact htally.listed s hsym hclamp hholds
  refine ⟨fun t ht => hshown _ ⟨t, ht, rfl⟩, ?_, ?_, ?_⟩
  · intro s hs
    obtain ⟨hsym, hholds⟩ := htally.carried s hs
    exact ⟨_, Codec.codepoint_of_isSymbol hsym, hstep.exists_interval_of_holds hholds⟩
  · intro hfull s
    refine ⟨fun hs => ?_, hshown s⟩
    obtain ⟨hsym, hholds⟩ := htally.carried s hs
    exact hstep.exists_transition_iff.2 ⟨hsym, hholds, hfull.clamped hsym⟩
  · intro e he s
    rw [(hstep.perform e).exists_transition_iff]
    cases e with
    | minimize | reduce | removeDead => exact mem_alphabet_renumber
    | _ => cases he

/-- Two symbols are added before the third, which has no codepoint, and one of the two is
    removed. -/
def interrupted : Automaton :=
  (withClamp 0 65535).after
    [.addState, .addState, .setInitial 0, .addTransition 0 1 [3, 5, 65527, 7], .removeSymbol 5]

theorem alphabet_exact_interrupted :
    interrupted.Tended ∧ interrupted.transitions = [⟨0, 1, 3⟩] ∧
      (∀ s, s ∈ interrupted.alphabet ↔ s = 3) ∧
        (∀ s, s ∈ interrupted.reduce.alphabet ↔
          ∃ t ∈ interrupted.reduce.transitions, t.symbol = s) := by
  have htended : interrupted.Tended := Tended.after (.withClamp 0 65535) (by decide)
  have htransitions : interrupted.transitions = [⟨0, 1, 3⟩] := by decide +kernel
  obtain ⟨-, -, hfull, hanew⟩ := htended.alphabet_exact
  refine ⟨htended, htransitions, fun s => ?_, hanew .reduce rfl⟩
  rw [hfull (by decide), htransitions]
  simp [eq_comm]

end Automaton

end SymbolAutomata
