/-
  SymbolAutomata/Proofs/Automaton/Settled.lean
  ============================================
  **Numbering the states anew settles at once.**

  The edits that number the states anew trim the graph or replace it by the minimal one,
  drop what cannot be reached and number the rest by a search.  They change no answer
  (`run_perform`).  A second edit of the same kind finds nothing to trim and nothing to
  drop: the graph is the very one that the first edit left (`reduce_twice`,
  `removeDead_twice`), so the search goes the same way.  Minimization builds a new graph
  each time, and there it is the canonical form that makes both look the same.
-/
import SymbolAutomata.Proofs.Automaton.Least
import SymbolAutomata.Proofs.Automaton.Relation
import SymbolAutomata.Proofs.Graph.Trimmed

namespace SymbolAutomata

namespace Automaton

open SymbolAutomata.Graph

variable {a b : Automaton}

/-! ### Answers -/

/-- Automata whose graphs accept the same words give the same answers, failures included. -/
theorem run_eq_of_accepts (ha : a.graph.Honest) (hb : b.graph.Honest)
    (hsame : ∀ w, b.graph.Accepts w ↔ a.graph.Accepts w) (w : List Symbol) : b.run w = a.run w := by
  by_cases hw : Codec.Spells w
  · exact (run_eq_iff ha hb).2 (fun v _ => hsame v) w hw
  · exact run_of_not_spells hw b a

theorem accepts_graph_reduce (a : Automaton) {w : List Codepoint} :
    a.reduce.graph.Accepts w ↔ a.graph.Accepts w := by
  have hfrom : ∀ p, a.graph.reduce.AcceptsFrom p w ↔ a.graph.AcceptsFrom p w := fun p =>
    acceptsFrom_congr_targets (isAccept_reduce a.graph) fun _ _ _ => mem_targets_reduce
  refine accepts_prune.trans ?_
  simp only [Accepts, initial_reduce, hfrom]

theorem accepts_graph_perform (ha : a.Sound) {e : Edit} (he : e.renumbers = true)
    {w : List Codepoint} : (e.perform a).automaton.graph.Accepts w ↔ a.graph.Accepts w := by
  cases e with
  | minimize => exact accepts_graph_minimize ha
  | reduce => exact accepts_graph_reduce a
  | removeDead => exact accepts_graph_removeDead a
  | _ => cases he

theorem keepsDeclaration_of_renumbers {e : Edit} (he : e.renumbers = true) :
    e.keepsDeclaration = true := by
  cases e with
  | minimize | reduce | removeDead => rfl
  | _ => cases he

/-- **Numbering anew changes no answer.** -/
theorem run_perform (ha : a.Sound) (hhonest : a.graph.Honest) {e : Edit}
    (he : e.renumbers = true) (w : List Symbol) : (e.perform a).automaton.run w = a.run w := by
  have hreliable : a.graph.Reliable := ⟨hhonest, ha.encoded, ha.grounded⟩
  have hafter := reliable_perform hreliable (keepsDeclaration_of_renumbers he)
  exact run_eq_of_accepts hhonest hafter.honest (fun _ => accepts_graph_perform ha he) w

/-! ### Twice -/

/-- Numbering anew a second time only starts another epoch. -/
theorem renumber_renumber (a : Automaton) :
    a.renumber.renumber = { a.renumber with epoch := a.renumber.epoch + 1 } := by
  simp only [renumber, prune_prune]
  rfl

theorem sameView_renumber (a : Automaton) : SameView a.renumber.renumber a.renumber := by
  rw [renumber_renumber]
  exact ⟨rfl, rfl, rfl, fun _ => rfl, rfl, rfl, rfl⟩

theorem reduce_twice (a : Automaton) : a.reduce.reduce = a.reduce.renumber := by
  have hjoined : a.graph.reduce.prune.Joined := (joined_reduce a.graph).prune
  have hself : a.reduce.graph.reduce = a.reduce.graph := hjoined.reduce_eq_self
  rw [reduce, hself]

theorem removeDead_twice (a : Automaton) : a.removeDead.removeDead = a.removeDead.renumber := by
  have hjoined : a.graph.removeDead.prune.Joined := (joined_removeDead a.graph).prune
  have hself : a.removeDead.graph.removeDead = a.removeDead.graph :=
    hjoined.removeDead_eq_self fun _ _ _ =>
      mem_live_of_arrow_prune fun _ _ _ => mem_live_of_arrow_removeDead
  rw [removeDead, hself]

theorem Sound.sameView_minimize_minimize (ha : a.Sound) : SameView a.minimize.minimize a.minimize :=
  ha.minimize.sameView_minimize ha rfl rfl fun _ => accepts_graph_minimize ha

theorem Sound.sameView_perform (ha : a.Sound) {e : Edit} (he : e.renumbers = true) :
    SameView (a.after [e, e]) (a.after [e]) := by
  cases e with
  | minimize => exact ha.sameView_minimize_minimize
  | reduce =>
    show SameView a.reduce.reduce a.reduce
    rw [reduce_twice]
    exact sameView_renumber _
  | removeDead =>
    show SameView a.removeDead.removeDead a.removeDead
    rw [removeDead_twice]
    exact sameView_renumber _
  | _ => cases he

/-- **Numbering anew settles at once.**  However an automaton was made, if its declaration is true
    then each edit that numbers the states anew leaves all answers as they are and raises the epoch
    by one, and when it is repeated no question but that for the epoch tells the difference. -/
theorem Made.renumbering_settles (ha : a.Made) (hhonest : a.graph.Honest) {e : Edit}
    (he : e.renumbers = true) :
    (∀ w, (a.after [e]).run w = a.run w) ∧ (a.after [e]).epoch = a.epoch + 1 ∧
      SameView (a.after [e, e]) (a.after [e]) ∧ (a.after [e, e]).epoch = (a.after [e]).epoch + 1 := by
  have hsound := ha.built.sound
  have hepoch : ∀ b : Automaton, (e.perform b).automaton.epoch = b.epoch + 1 := by
    intro b
    rw [epoch_perform, he, if_pos rfl]
  exact ⟨run_perform hsound hhonest he, hepoch a, hsound.sameView_perform he, hepoch (a.after [e])⟩

/-- Two ways over one symbol, labels side by side, a way into a dead end, a symbol outside the clamp
    and a state that nothing leads to. -/
def frayed : Automaton :=
  (Automaton.withClamp 0 9).after
    [.addState, .addState, .addState, .addState, .addState, .setInitial 0, .setFinal [2],
      .declare false, .addTransition 0 1 [1, 2], .addTransition 0 2 [1], .addTransition 1 2 [200],
      .addTransition 0 3 [5], .addTransition 3 3 [5], .addTransition 4 2 [7]]

theorem renumbering_settles_frayed :
    frayed.Made ∧ frayed.graph.Honest ∧ frayed.stateCount = 5 ∧
      frayed.run [2, 200] = .ok true ∧ (frayed.after [.minimize]).run [2, 200] = .ok true ∧
      (frayed.after [.reduce]).stateCount = 4 ∧ (frayed.after [.removeDead]).stateCount = 3 ∧
      (frayed.after [.removeDead, .removeDead]).finalStates =
        (frayed.after [.removeDead]).finalStates ∧
      (frayed.after [.removeDead]).finalStates = [1] ∧
      (frayed.after [.reduce, .reduce]).epoch = frayed.epoch + 2 := by
  have hmade : frayed.Made := Made.after (.withClamp 0 9) _
  have hhonest : frayed.graph.Honest := honest_of_not_deterministic (by decide)
  have hrun : frayed.run [2, 200] = .ok true := by decide +kernel
  obtain ⟨hminimize, -⟩ := hmade.renumbering_settles hhonest (e := .minimize) rfl
  obtain ⟨-, -, hdead, -⟩ := hmade.renumbering_settles hhonest (e := .removeDead) rfl
  obtain ⟨-, hfirst, -, hsecond⟩ := hmade.renumbering_settles hhonest (e := .reduce) rfl
  exact ⟨hmade, hhonest, rfl, hrun, (hminimize _).trans hrun, by decide_cbv,
    by decide_cbv, hdead.finalStates, by decide_cbv, hsecond.trans (congrArg (· + 1) hfirst)⟩

end Automaton

end SymbolAutomata
