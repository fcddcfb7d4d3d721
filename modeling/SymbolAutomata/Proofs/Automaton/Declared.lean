/-
  SymbolAutomata/Proofs/Automaton/Declared.lean
  =============================================
  **What automata are declared is true.**

  An import takes over the declaration of its source together with the moves, so an
  automaton made from a reliable graph is reliable, and so are compiled patterns and
  the results of the algebra.  The edits that work on the graph as a whole and those
  that only remove moves keep this.  Other edits do not: a transition can be added
  that breaks the declaration, and the declaration can be set.
-/
import SymbolAutomata.Proofs.Automaton.Cut
import SymbolAutomata.Proofs.Graph.Declared
import SymbolAutomata.Proofs.Pattern.Minimized

namespace SymbolAutomata

theorem Pattern.proper_of_compile {parser : Parser} {minimize : Bool} {pattern : String}
    {min max : Codepoint} {g : Graph} (hmax : max ≤ Codec.maxCodepoint)
    (h : compileWith parser minimize pattern min max = .ok g) : g.Proper := by
  cases minimize with
  | false =>
    obtain ⟨-, -, hfits, -⟩ := spec_of_compile h
    exact hfits.mono hmax
  | true =>
    rw [compile_true] at h
    cases hplain : compileWith parser false pattern min max with
    | error f =>
      rw [hplain] at h
      cases h
    | ok g' =>
      rw [hplain] at h
      obtain rfl := Except.ok.inj h
      obtain ⟨-, -, hfits, -⟩ := spec_of_compile hplain
      exact Graph.Proper.minimize (hfits.mono hmax)

/-- The edits that work on the graph as a whole or remove moves. -/
def Edit.keepsDeclaration : Edit → Bool
  | .minimize | .reduce | .removeDead | .deleteTransition _ _ _ | .removeSymbol _
  | .addSilent _ _ => true
  | _ => false

namespace Automaton

open SymbolAutomata.Graph

variable {a : Automaton}

/-! ### Edits -/

theorem reliable_deleteTransition (ha : a.graph.Reliable) (i j : StateIndex) (s : Symbol) :
    (a.deleteTransition i j s).automaton.graph.Reliable := by
  rcases deleteTransition_cases a i j s with hsame | ⟨c, p, q, -, hcut⟩
  · rwa [hsame]
  · rw [hcut]
    exact ha.of_targets deterministic_cutBetween initial_cutBetween
      (fun i _ hi => (contains_cutBetween i).trans hi)
      fun _ _ _ hq => (mem_targets_cutBetween.1 hq).1

theorem reliable_removeSymbol (ha : a.graph.Reliable) (s : Symbol) :
    (a.removeSymbol s).automaton.graph.Reliable := by
  unfold removeSymbol
  split
  · exact ha
  · next c _ =>
    show ((List.range a.stateCount).foldl (clearSymbol s c) a).graph.Reliable
    refine List.foldlRecOn (motive := fun b : Automaton => b.graph.Reliable) _ _ ha
      fun b hb i _ => ?_
    exact List.foldlRecOn (motive := fun b : Automaton => b.graph.Reliable) _ _ hb fun b hb j _ =>
      reliable_deleteTransition hb i j s

theorem reliable_addSilent (ha : a.graph.Reliable) (i j : StateIndex) :
    (a.addSilent i j).value.graph.Reliable := by
  unfold addSilent
  simp only
  split
  · exact ha.splice _
  · exact ha

theorem reliable_perform (ha : a.graph.Reliable) {e : Edit} (he : e.keepsDeclaration = true) :
    (e.perform a).automaton.graph.Reliable := by
  cases e with
  | minimize => exact ha.minimize.prune
  | reduce => exact ha.reduce.prune
  | removeDead => exact ha.removeDead.prune
  | deleteTransition i j s => exact reliable_deleteTransition ha i j s
  | removeSymbol s => exact reliable_removeSymbol ha s
  | addSilent i j => exact reliable_addSilent ha i j
  | _ => cases he

/-! ### Imports -/

theorem reliable_ofGraphWithin {g : Graph} (hg : g.Honest) (min max : Codepoint)
    (symbols : SymbolSet) : (ofGraphWithin min max g symbols).graph.Reliable := by
  have hsound := (built_ofGraphWithin min max g symbols).sound
  exact ⟨honest_fill hg min max symbols, hsound.encoded, hsound.grounded⟩

/-! ### All operations -/

/-- **Automata derived from reliable ones**: from patterns, from derived graphs, by the algebra, and
    by edits that remove moves or work on the graph as a whole. -/
inductive Derived : Automaton → Prop where
  | operand {a : Automaton} (ha : a.graph.Reliable) : Derived a
  | ofCompiler {parser : Pattern.Parser} {minimize : Bool} {pattern : String}
      {min max : Codepoint} {a : Automaton}
      (h : ofCompiler (Pattern.compileWith parser minimize) pattern min max = .ok a) : Derived a
  | ofGraphWithin {g : Graph} (hg : g.Derived) (min max : Codepoint) (symbols : SymbolSet) :
      Derived (ofGraphWithin min max g symbols)
  | union {a b : Automaton} (ha : Derived a) (hb : Derived b) : Derived (a.union b)
  | intersection {a b : Automaton} (ha : Derived a) (hb : Derived b) : Derived (a.intersection b)
  | concatenate {a b : Automaton} (ha : Derived a) (hb : Derived b) : Derived (a.concatenate b)
  | complementOver {a : Automaton} (ha : Derived a) (alphabet : SymbolSet) :
      Derived (a.complementOver alphabet)
  | star {a : Automaton} (ha : Derived a) : Derived a.star
  | repeatMin {a : Automaton} (ha : Derived a) (least : Nat) : Derived (a.repeatMin least)
  | repeatRange {a : Automaton} (ha : Derived a) (least most : Nat) :
      Derived (a.repeatRange least most)
  | edited {a : Automaton} {e : Edit} (he : e.keepsDeclaration = true) (ha : Derived a) :
      Derived (e.perform a).automaton

theorem Derived.reliable (ha : a.Derived) : a.graph.Reliable := by
  induction ha with
  | operand ha => exact ha
  | ofCompiler h =>
    obtain ⟨g, hg, hfill⟩ := exists_of_bind_eq_ok h
    obtain rfl := Except.ok.inj hfill
    exact reliable_ofGraphWithin (Pattern.proper_of_compile (Nat.min_le_right _ _) hg).honest _ _ _
  | ofGraphWithin hg min max symbols => exact reliable_ofGraphWithin hg.reliable.honest _ _ _
  | union _ _ iha ihb => exact reliable_ofGraphWithin (iha.union ihb).honest _ _ _
  | intersection _ _ iha ihb => exact reliable_ofGraphWithin (iha.intersection ihb).honest _ _ _
  | concatenate _ _ iha ihb => exact reliable_ofGraphWithin (iha.concatenate ihb).honest _ _ _
  | complementOver _ _ ih => exact reliable_ofGraphWithin ih.complement.honest _ _ _
  | star _ ih => exact reliable_ofGraphWithin ih.star.honest _ _ _
  | repeatMin _ least ih => exact reliable_ofGraphWithin (ih.repeatMin least).honest _ _ _
  | repeatRange _ least most ih =>
    exact reliable_ofGraphWithin (ih.repeatRange least most).honest _ _ _
  | edited he _ ih => exact reliable_perform ih he

/-- **No declaration that the program derives is wrong.**  If a graph or an automaton derived from
    reliable operands is declared deterministic, then no node has moves over one codepoint to two
    nodes. -/
theorem declarations_honest :
    (∀ g : Graph, g.Derived → g.Honest) ∧ ∀ a : Automaton, a.Derived → a.graph.Honest :=
  ⟨fun _ hg => hg.reliable.honest, fun _ ha => ha.reliable.honest⟩

/-- The codepoints that two classes have in common, written as a product. -/
def overlap : Graph := (oneOf [Interval.between 0 5]).intersection (oneOf [Interval.between 3 9])

theorem declarations_honest_overlap :
    overlap.Derived ∧ overlap.deterministic = true ∧ overlap.SingleValued ∧
      ∃ a : Automaton, a.Derived ∧ a.isDeterministic = true ∧ a.transitions = [⟨0, 1, 3⟩] ∧
        a.graph.SingleValued := by
  have hclass : ∀ lo hi, hi ≤ Codec.maxCodepoint → lo ≤ hi →
      (oneOf [Interval.between lo hi]).Derived := by
    intro lo hi hmax hle
    refine .operand (Proper.reliable (fits_oneOf fun i hi => ?_))
    rw [List.mem_singleton.1 hi, Interval.between, dif_pos hle]
    exact hmax
  have hoverlap : overlap.Derived :=
    (hclass 0 5 (by decide) (by decide)).intersection (hclass 3 9 (by decide) (by decide))
  have hdet : overlap.deterministic = true := by decide
  have hthinned : (Edit.perform (ofGraphWithin 0 100 overlap (.ofList [3, 4]))
      (.removeSymbol 4)).automaton.Derived := .edited rfl (.ofGraphWithin hoverlap 0 100 _)
  obtain ⟨hgraphs, hautomata⟩ := declarations_honest
  have hdet' : (Edit.perform (ofGraphWithin 0 100 overlap (.ofList [3, 4]))
      (.removeSymbol 4)).automaton.isDeterministic = true := by decide +kernel
  exact ⟨hoverlap, hdet, hgraphs _ hoverlap hdet, _, hthinned, hdet', by decide +kernel,
    hautomata _ hthinned hdet'⟩

end Automaton

end SymbolAutomata
