/-
  SymbolAutomata/Proofs/Automaton/Canonical.lean
  ==============================================
  **Minimization is a canonical form.**

  After minimization two automata with the same clamp and the same language cannot
  be told apart (`SameView`): their graphs are minimal, the searches that number
  their states find matching nodes at the same positions, and matching nodes have
  the same flags and the same labels.  No deterministic graph of the language has fewer
  nodes than they have states.
-/
import SymbolAutomata.Automaton.Query
import SymbolAutomata.Proofs.Automaton.Index
import SymbolAutomata.Proofs.Graph.Canonical

namespace SymbolAutomata

/-! ### Lists that correspond -/

theorem getElem?_of_forall₂ {α β : Type} {R : α → β → Prop} {xs : List α} {ys : List β}
    (h : List.Forall₂ R xs ys) (i : Nat) :
    (xs[i]? = none ∧ ys[i]? = none) ∨ ∃ x y, xs[i]? = some x ∧ ys[i]? = some y ∧ R x y := by
  induction h generalizing i with
  | nil => exact Or.inl ⟨rfl, rfl⟩
  | cons hxy _ ih =>
    cases i with
    | zero => exact Or.inr ⟨_, _, rfl, rfl, hxy⟩
    | succ i => exact ih i

theorem filterMap_eq_of_forall₂ {α β γ : Type} {R : α → β → Prop} {f : α → Option γ}
    {g : β → Option γ} {xs : List α} {ys : List β} (h : List.Forall₂ R xs ys)
    (hfg : ∀ {x y}, R x y → f x = g y) : xs.filterMap f = ys.filterMap g := by
  induction h with
  | nil => rfl
  | cons hxy _ ih => rw [List.filterMap_cons, List.filterMap_cons, hfg hxy, ih]

namespace Automaton

open SymbolAutomata.Graph

/-! ### What can be observed -/

/-- **No question tells the two automata apart**, except for the epoch. -/
structure SameView (a b : Automaton) : Prop where
  stateCount : a.stateCount = b.stateCount
  initialState : a.initialState = b.initialState
  finalStates : a.finalStates = b.finalStates
  intervals : ∀ i, a.intervals i = b.intervals i
  transitions : a.transitions = b.transitions
  alphabet : a.alphabet = b.alphabet
  isDeterministic : a.isDeterministic = b.isDeterministic

theorem mem_reachable_of_minimal {g : Graph} (hg : g.Minimal) {n : NodeId}
    (hn : g.contains n = true) : n ∈ g.reachable := by
  obtain ⟨i, hi, hc⟩ := hg.rooted
  exact (mem_reachable hi hc).2 (hg.reached i n hi hn)

theorem minimize_eq_of_sound {a : Automaton} (ha : a.Sound) :
    a.minimize = { a with
      graph := a.graph.minimize
      states := a.graph.minimize.reachable
      index := .ofNodes a.graph.minimize.reachable
      alphabet := a.symbolsOf a.graph.minimize
      epoch := a.epoch + 1 } := by
  have hmin := minimal_minimize ha.encoded ha.grounded
  have hself := prune_eq_self fun n => mem_reachable_of_minimal hmin
  unfold minimize renumber
  simp only [hself]
  rfl

section Views

variable {a b : Automaton} (hmin : a.min = b.min) (hmax : a.max = b.max)

include hmin hmax

theorem expand_congr (label : Interval) : a.expand label = b.expand label := by
  unfold expand
  rw [span?_eq, span?_eq, hmin, hmax]

theorem mem_symbolsOf_of_minimal (hga : a.graph.Minimal) (hgb : b.graph.Minimal)
    (hsame : ∀ w, a.graph.Accepts w ↔ b.graph.Accepts w) {s : Symbol}
    (hs : s ∈ a.symbolsOf a.graph) : s ∈ b.symbolsOf b.graph := by
  rw [mem_symbolsOf, ← hmin, ← hmax]
  obtain ⟨p, label, r, arrow, hs⟩ := mem_symbolsOf.1 hs
  obtain ⟨q, -, m⟩ := hga.exists_match hsame hgb.singleValued hgb.rooted arrow.contains_source
  obtain ⟨q', -, m'⟩ := hga.exists_match hsame hgb.singleValued hgb.rooted arrow.contains_target
  have hmove := (m.mem_moves_iff hga hgb hsame m').1 (mem_moves.2 arrow)
  exact ⟨q, label, q', mem_moves.1 hmove, hs⟩

theorem sameView_of_minimal (hga : a.graph.Minimal) (hgb : b.graph.Minimal)
    (hsame : ∀ w, a.graph.Accepts w ↔ b.graph.Accepts w) (hia : a.InStep) (hib : b.InStep)
    (hsa : a.states = a.graph.reachable) (hsb : b.states = b.graph.reachable)
    (hala : a.alphabet = a.symbolsOf a.graph) (halb : b.alphabet = b.symbolsOf b.graph) :
    SameView a b := by
  have hreach : List.Forall₂ (Matches a.graph b.graph) a.states b.states := by
    rw [hsa, hsb]
    exact reachable_forall₂ hga hgb hsame
  have hindex : ∀ {p q}, Matches a.graph b.graph p q → a.indexOf? p = b.indexOf? q := by
    intro p q m
    apply Option.ext
    intro i
    rw [indexOf?, indexOf?, hia.index, hib.index]
    rcases getElem?_of_forall₂ hreach i with ⟨ha, hb⟩ | ⟨p', q', ha, hb, m'⟩
    · rw [ha, hb]
      exact iff_of_false (fun h => by cases h) (fun h => by cases h)
    · rw [ha, hb, Option.some.injEq, Option.some.injEq]
      exact m'.eq_iff hga hgb hsame m
  have hcount : a.stateCount = b.stateCount := hreach.length_eq
  have hintervals : ∀ i, a.intervals i = b.intervals i := by
    intro i
    unfold intervals resolve
    rcases getElem?_of_forall₂ hreach i with ⟨ha, hb⟩ | ⟨p, q, ha, hb, m⟩
    · rw [ha, hb, hcount]
      rfl
    · rw [ha, hb]
      simp only [Option.toList_some, List.flatMap_singleton]
      congr 1
      refine filterMap_eq_of_forall₂ (m.moves_forall₂ hga hgb hsame) ?_
      rintro ⟨label, r⟩ ⟨label', s⟩ ⟨rfl, hrs⟩
      rw [hindex hrs]
  refine ⟨hcount, ?_, ?_, hintervals, ?_, ?_, ?_⟩
  · obtain ⟨i, hi, hic⟩ := hga.rooted
    obtain ⟨j, hj, hjc⟩ := hgb.rooted
    have hstart : Matches a.graph b.graph i j :=
      ⟨i, j, [], ⟨hi, hic, .nil i⟩, hj, hjc, .nil j⟩
    unfold initialState
    rw [hi, hj]
    exact hindex hstart
  · unfold finalStates
    rw [hreach.length_eq]
    apply List.filter_congr
    intro i _
    rcases getElem?_of_forall₂ hreach i with ⟨ha, hb⟩ | ⟨p, q, ha, hb, m⟩
    · rw [ha, hb, Option.any_none, Option.any_none]
    · rw [ha, hb, Option.any_some, Option.any_some,
        m.isAccept_eq hsame hga.singleValued hgb.singleValued]
  · unfold transitions
    rw [hcount]
    congr 1
    funext i
    unfold transitionsFrom
    rw [hintervals]
    simp only [expand_congr hmin hmax]
  · apply Std.ExtTreeSet.ext_mem
    intro s
    rw [hala, halb]
    constructor
    · exact mem_symbolsOf_of_minimal hmin hmax hga hgb hsame
    · exact mem_symbolsOf_of_minimal hmin.symm hmax.symm hgb hga fun w => (hsame w).symm
  · exact hga.declared.trans hgb.declared.symm

end Views

/-! ### The canonical form -/

section Canonical

variable {a b : Automaton}

theorem minimal_graph_minimize (ha : a.Sound) : a.minimize.graph.Minimal := by
  rw [minimize_eq_of_sound ha]
  exact minimal_minimize ha.encoded ha.grounded

theorem accepts_graph_minimize (ha : a.Sound) {w : List Codepoint} :
    a.minimize.graph.Accepts w ↔ a.graph.Accepts w := by
  rw [minimize_eq_of_sound ha]
  exact accepts_minimize ha.encoded ha.grounded

theorem Sound.sameView_minimize (ha : a.Sound) (hb : b.Sound) (hmin : a.min = b.min)
    (hmax : a.max = b.max) (hsame : ∀ w, a.graph.Accepts w ↔ b.graph.Accepts w) :
    SameView a.minimize b.minimize := by
  refine sameView_of_minimal hmin hmax (minimal_graph_minimize ha) (minimal_graph_minimize hb)
    ?_ (inStep_renumber _) (inStep_renumber _) rfl rfl rfl rfl
  intro w
  rw [accepts_graph_minimize ha, accepts_graph_minimize hb]
  exact hsame w

theorem Sound.stateCount_minimize_le (ha : a.Sound) {h : Graph} (hone : h.SingleValued)
    (hroot : h.Rooted) (hsame : ∀ w, a.graph.Accepts w ↔ h.Accepts w) :
    a.minimize.stateCount ≤ h.nodeCount := by
  have hmin := minimal_graph_minimize ha
  have hle : a.minimize.graph.nodeCount ≤ h.nodeCount := by
    refine hmin.nodeCount_le ?_ hone hroot
    intro w
    rw [accepts_graph_minimize ha]
    exact hsame w
  refine Nat.le_trans ?_ hle
  -- the states are nodes of the graph, each once
  exact (reachable_nodup _).length_le_of_subset fun n hn =>
    mem_nodeIds.2 (mem_nodeIds_of_mem_reachable hn)

/-- **Minimization is a canonical form.** Automata with the same clamp and the same language look
    the same once they are minimized, no deterministic graph of the language has fewer nodes, and
    minimizing once more changes nothing. -/
theorem minimize_canonical (ha : a.Built) (hb : b.Built) (hmin : a.min = b.min)
    (hmax : a.max = b.max) (hsame : ∀ w, a.graph.run w = b.graph.run w) :
    SameView a.minimize b.minimize ∧
      (∀ h : Graph, h.isDeterministic = true → h.Rooted → (∀ w, h.run w = a.graph.run w) →
        a.minimize.stateCount ≤ h.nodeCount) ∧
      SameView a.minimize.minimize a.minimize := by
  have haccepts : ∀ {g h : Graph}, (∀ w, g.run w = h.run w) →
      ∀ w, g.Accepts w ↔ h.Accepts w := by
    intro g h hrun w
    rw [← run_eq_true_iff, ← run_eq_true_iff, hrun]
  refine ⟨ha.sound.sameView_minimize hb.sound hmin hmax (haccepts hsame), ?_, ?_⟩
  · intro h hdet hroot hrun
    exact ha.sound.stateCount_minimize_le (isDeterministic_iff.1 hdet) hroot
      (haccepts fun w => (hrun w).symm)
  · exact ha.sound.minimize.sameView_minimize ha.sound rfl rfl
      fun w => accepts_graph_minimize ha.sound

end Canonical

/-- Dropping arcs that lead nowhere changes nothing about the language. -/
theorem accepts_graph_removeDead (a : Automaton) {w : List Codepoint} :
    a.removeDead.graph.Accepts w ↔ a.graph.Accepts w := by
  refine accepts_prune.trans ?_
  simp only [Accepts, initial_removeDead, acceptsFrom_removeDead]

/-- Three states, a choice of destinations over the symbol 1 and a way into a dead end. -/
def branching : Automaton :=
  [Edit.addState, .addState, .addState, .setInitial 0, .setFinal [1], .declare false,
    .addTransition 0 1 [0, 1], .addTransition 0 0 [1], .addTransition 1 2 [5]].foldl
    (fun a e => (e.perform a).automaton) (withClamp 0 255)

theorem built_branching : branching.Built := by
  unfold branching
  simp only [List.foldl_cons, List.foldl_nil]
  repeat' apply Built.edited
  exact Built.withClamp 0 255

theorem minimize_canonical_branching :
    branching.Built ∧ branching.removeDead.Built ∧
      (∀ w, branching.graph.run w = branching.removeDead.graph.run w) ∧
      branching.graph.arcCount ≠ branching.removeDead.graph.arcCount ∧
      SameView branching.minimize branching.removeDead.minimize := by
  have ha := built_branching
  have hb : branching.removeDead.Built := ha.edited .removeDead
  have hsame : ∀ w, branching.graph.run w = branching.removeDead.graph.run w :=
    fun w => run_eq_of_accepts_iff (accepts_graph_removeDead branching).symm
  refine ⟨ha, hb, hsame, ?_, (minimize_canonical ha hb rfl rfl hsame).1⟩
  decide_cbv

end Automaton

end SymbolAutomata
