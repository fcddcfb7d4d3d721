/-
  SymbolAutomata/Proofs/Automaton/Complement.lean
  ===============================================
  **Complements over an alphabet.**

  The complement is taken over all codepoints and then cut down to an alphabet and to
  the clamp of the automaton (`Sound.mem_language_complementOver`).  Over symbols of both
  every verdict is the opposite one; a word with any other symbol is rejected, also if
  the automaton rejects it (`Built.complementOver_verdicts`).  The clamp matters: a symbol
  outside is not made part of the complement by asking for it
  (`not_run_complementOver_windowed`).
-/
import SymbolAutomata.Automaton.Algebra
import SymbolAutomata.Proofs.Automaton.Paths
import SymbolAutomata.Proofs.Graph.Complement

namespace SymbolAutomata

namespace Automaton

open SymbolAutomata.Graph

section Complement

variable {a : Automaton}

theorem Sound.honest_complement (ha : a.Sound) : a.graph.complement.Honest :=
  fun _ => ha.encoded.singleValued_complement

/-- **The words of the complement** are over the symbols that are kept, and the graph rejects
    them. -/
theorem Sound.mem_language_complementOver (ha : a.Sound) {symbols : SymbolSet} {w : List Symbol} :
    w ∈ (a.complementOver symbols).language ↔
      (∀ s ∈ w, Kept a.min a.max symbols s) ∧ ¬ a.graph.Accepts (w.map Codec.code) := by
  have hlanguage : (a.complementOver symbols).language =
      clip (Kept a.min a.max symbols) (comap Codec.code a.graph.complement.language) :=
    language_fill ha.honest_complement a.min a.max symbols
  rw [hlanguage, mem_clip, mem_comap, Graph.mem_language,
    accepts_complement ha.encoded ha.grounded]
  constructor
  · exact fun hfound => ⟨hfound.2, hfound.1.2⟩
  · intro hfound
    refine ⟨⟨?_, hfound.2⟩, hfound.1⟩
    intro c hc
    obtain ⟨s, hs, rfl⟩ := List.mem_map.1 hc
    exact Codec.code_le_max (hfound.1 s hs).1

theorem Sound.run_complementOver (ha : a.Sound) (symbols : SymbolSet) {w : List Symbol}
    (hw : Codec.Spells w) :
    ∃ b, (a.complementOver symbols).run w = .ok b ∧
      (b = true ↔ (∀ s ∈ w, s ∈ symbols ∧ a.Clamped s) ∧ ¬ a.graph.Accepts (w.map Codec.code)) := by
  have honest : (a.complementOver symbols).graph.Honest :=
    honest_fill ha.honest_complement a.min a.max symbols
  obtain ⟨b, hrun, hb⟩ := run_eq_of_language honest hw
  refine ⟨b, hrun, hb.trans (ha.mem_language_complementOver.trans ?_)⟩
  -- the symbols of the word have codepoints anyway
  refine and_congr_left fun _ => forall₂_congr fun s hs => ?_
  exact ⟨fun hkept => hkept.2, fun hmem => ⟨hw s hs, hmem⟩⟩

/-- **The complement relative to an alphabet.** Over symbols of the alphabet inside the clamp every
    verdict is the opposite one, and every word with another symbol is rejected, whether or not the
    number stands for a symbol. -/
theorem Built.complementOver_verdicts (ha : a.Built) (hflag : a.graph.Honest)
    (symbols : SymbolSet) :
    (∀ w, Codec.Spells w → ∃ b c, a.run w = .ok b ∧ (a.complementOver symbols).run w = .ok c ∧
      ((∀ s ∈ w, s ∈ symbols ∧ a.Clamped s) → c = !b) ∧
      ((∃ s ∈ w, s ∉ symbols ∨ ¬ a.Clamped s) → c = false)) ∧
    ∀ w, (∃ s ∈ w, s ∉ symbols) → (a.complementOver symbols).run w ≠ .ok true := by
  constructor
  · intro w hw
    obtain ⟨b, hrun, hb⟩ := run_of_spells hflag hw
    obtain ⟨c, hcomplement, hc⟩ := ha.sound.run_complementOver symbols hw
    rw [← hb] at hc
    refine ⟨b, c, hrun, hcomplement, ?_, ?_⟩
    · intro hall
      rw [Bool.eq_iff_iff, hc, Bool.not_eq_true', Bool.not_eq_true]
      exact and_iff_right hall
    · intro hother
      obtain ⟨s, hs, hother⟩ := hother
      rw [Bool.eq_false_iff]
      intro hyes
      obtain ⟨hmem, hclamped⟩ := (hc.1 hyes).1 s hs
      exact hother.elim (fun h => h hmem) fun h => h hclamped
  · intro w hother hyes
    obtain ⟨s, hs, hother⟩ := hother
    exact hother ((ha.sound.mem_language_complementOver.1 hyes).1 s hs).2.1

end Complement

theorem run_complementOver_windowed :
    windowed.Built ∧ windowed.graph.Honest ∧ windowed.run [3, 2] = .ok false ∧
      (windowed.complementOver (SymbolSet.ofList [2, 3])).run [3, 2] = .ok true ∧
      (windowed.complementOver (SymbolSet.ofList [3])).run [3, 2] ≠ .ok true := by
  have hno : windowed.run [3, 2] = .ok false := by decide
  have hw : Codec.Spells [3, 2] := by decide
  have hmem : ∀ s ∈ [(3 : Symbol), 2], s ∈ SymbolSet.ofList [2, 3] ∧ windowed.Clamped s := by
    decide
  obtain ⟨hopposite, -⟩ :=
    built_windowed.complementOver_verdicts honest_windowed (SymbolSet.ofList [2, 3])
  obtain ⟨-, hother⟩ :=
    built_windowed.complementOver_verdicts honest_windowed (SymbolSet.ofList [3])
  obtain ⟨b, c, hrun, hcomplement, hflip, -⟩ := hopposite [3, 2] hw
  rw [hno] at hrun
  refine ⟨built_windowed, honest_windowed, hno, ?_, hother [3, 2] ⟨2, by decide, by decide⟩⟩
  rw [hcomplement, hflip hmem, ← Except.ok.inj hrun]
  rfl

/-- The clamp ends at 3, so asking for 6 does not put it into the complement. -/
theorem not_run_complementOver_windowed :
    windowed.Built ∧ windowed.graph.Honest ∧ Codec.Spells [6] ∧ 6 ∈ SymbolSet.ofList [6] ∧
      windowed.run [6] = .ok false ∧
      (windowed.complementOver (SymbolSet.ofList [6])).run [6] = .ok false := by
  have hw : Codec.Spells [6] := by decide
  obtain ⟨b, hrun, hb⟩ := built_windowed.sound.run_complementOver (SymbolSet.ofList [6]) hw
  refine ⟨built_windowed, honest_windowed, hw, by decide, by decide, ?_⟩
  cases b with
  | false => exact hrun
  | true =>
    have hclamped := ((hb.1 rfl).1 6 (List.mem_singleton_self 6)).2
    exact absurd hclamped (by decide)

end Automaton

end SymbolAutomata
