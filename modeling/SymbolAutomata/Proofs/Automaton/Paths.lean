/-
  SymbolAutomata/Proofs/Automaton/Paths.lean
  ==========================================
  **Paths through the transitions of an automaton.**

  `transitions` lists the arcs of the graph symbol by symbol, and only the symbols
  inside the clamp (`InStep.mem_transitions`).  What an automaton shows is therefore
  what it accepts over the symbols inside the clamp and nothing else
  (`InStep.shows_iff`, `Built.run_iff_shows`).  Symbols outside the clamp can be put on
  arcs and are accepted all the same, so a word with such a symbol may be accepted
  without being shown (`not_shows_windowed`).
-/
import SymbolAutomata.Proofs.Automaton.Acceptance
import SymbolAutomata.Proofs.Automaton.Index

namespace SymbolAutomata

/-- **Transitions that spell a word** on the way from one state to another. -/
inductive Transition.Path (ts : List Transition) :
    StateIndex → List Symbol → StateIndex → Prop where
  | nil (i : StateIndex) : Path ts i [] i
  | cons {i j k : StateIndex} {s : Symbol} {w : List Symbol} (first : ⟨i, j, s⟩ ∈ ts)
      (rest : Path ts j w k) : Path ts i (s :: w) k

namespace Automaton

open SymbolAutomata.Graph
open Transition (Path)

/-- **Some path spells the word** from the initial state to a final state. -/
def Shows (a : Automaton) (w : List Symbol) : Prop :=
  ∃ i j, a.initialState = some i ∧ j ∈ a.finalStates ∧ Path a.transitions i w j

section Paths

variable {a : Automaton}

/-! ### What the lists hold -/

theorem mem_finalStates {i : StateIndex} :
    i ∈ a.finalStates ↔ ∃ n, a.states[i]? = some n ∧ a.graph.isAccept n = true := by
  unfold finalStates
  rw [List.mem_filter, List.mem_range, Option.any_eq_true]
  constructor
  · exact And.right
  · intro hfound
    obtain ⟨n, hn, hacc⟩ := hfound
    exact ⟨(List.getElem?_eq_some_iff.1 hn).1, n, hn, hacc⟩

theorem InStep.mem_intervals (ha : a.InStep) {i j : StateIndex} {label : Interval} :
    (label, j) ∈ (a.intervals i).value ↔
      ∃ p q, a.states[i]? = some p ∧ a.states[j]? = some q ∧ a.graph.Arrow p label q := by
  unfold intervals resolve
  cases hi : a.states[i]? with
  | none => simp
  | some p =>
    simp only [Option.toList_some, List.flatMap_singleton, List.mem_filterMap,
      Option.map_eq_some_iff, Prod.mk.injEq, Prod.exists, mem_moves]
    constructor
    · intro hfound
      obtain ⟨label', q, arrow, j', hj, rfl, rfl⟩ := hfound
      exact ⟨p, q, rfl, (ha.index q j').1 hj, arrow⟩
    · intro hfound
      obtain ⟨p', q, hp, hj, arrow⟩ := hfound
      obtain rfl := Option.some.inj hp
      exact ⟨label, q, arrow, j, (ha.index q j).2 hj, rfl, rfl⟩

/-- **The list of transitions** holds the arcs of the graph with the symbols that they carry inside
    the clamp. -/
theorem InStep.mem_transitions (ha : a.InStep) {i j : StateIndex} {s : Symbol} :
    ⟨i, j, s⟩ ∈ a.transitions ↔ ∃ p q label, a.states[i]? = some p ∧ a.states[j]? = some q ∧
      a.graph.Arrow p label q ∧ Carries a.min a.max label s := by
  unfold transitions transitionsFrom
  simp only [List.mem_flatMap, List.mem_range, List.mem_mergeSort, List.mem_map,
    Transition.mk.injEq, Prod.exists, mem_expand]
  constructor
  · intro hfound
    obtain ⟨i', -, label, j', hmem, s', hs, rfl, rfl, rfl⟩ := hfound
    obtain ⟨p, q, hp, hq, arrow⟩ := ha.mem_intervals.1 hmem
    exact ⟨p, q, label, hp, hq, arrow, hs⟩
  · intro hfound
    obtain ⟨p, q, label, hp, hq, arrow, hs⟩ := hfound
    have hlt : i < a.stateCount := (List.getElem?_eq_some_iff.1 hp).1
    exact ⟨i, hlt, label, j, ha.mem_intervals.2 ⟨p, q, hp, hq, arrow⟩, s, hs, rfl, rfl, rfl⟩

theorem InStep.mem_transitions_iff_targets (ha : a.InStep) {i : StateIndex} {p : NodeId}
    (hp : a.states[i]? = some p) {j : StateIndex} {s : Symbol} (hs : Codec.IsSymbol s) :
    ⟨i, j, s⟩ ∈ a.transitions ↔
      a.Clamped s ∧ ∃ q ∈ a.graph.targets p (Codec.code s), a.states[j]? = some q := by
  rw [ha.mem_transitions, hp]
  constructor
  · intro hfound
    obtain ⟨p', q, label, hp', hq, arrow, -, hlabel, hclamp⟩ := hfound
    obtain rfl := Option.some.inj hp'
    exact ⟨hclamp, q, mem_targets.2 ⟨label, arrow, hlabel⟩, hq⟩
  · intro hfound
    obtain ⟨hclamp, q, htarget, hq⟩ := hfound
    obtain ⟨label, arrow, hlabel⟩ := mem_targets.1 htarget
    exact ⟨p, q, label, rfl, hq, arrow, hs, hlabel, hclamp⟩

/-! ### Paths -/

theorem path_nil_iff {ts : List Transition} {i j : StateIndex} : Path ts i [] j ↔ i = j := by
  constructor
  · intro h
    cases h
    rfl
  · rintro rfl
    exact .nil i

theorem path_cons_iff {ts : List Transition} {i k : StateIndex} {s : Symbol} {w : List Symbol} :
    Path ts i (s :: w) k ↔ ∃ j, ⟨i, j, s⟩ ∈ ts ∧ Path ts j w k := by
  constructor
  · intro h
    cases h with
    | cons first rest => exact ⟨_, first, rest⟩
  · intro h
    obtain ⟨j, first, rest⟩ := h
    exact .cons first rest

/-- **A path through the transitions** is one through the graph that stays inside the clamp. -/
theorem InStep.path_iff (ha : a.InStep) {i : StateIndex} {p : NodeId} (hp : a.states[i]? = some p)
    {w : List Symbol} (hw : Codec.Spells w) {k : StateIndex} :
    Path a.transitions i w k ↔
      (∃ r, a.states[k]? = some r ∧ a.graph.Reads p (w.map Codec.code) r) ∧
        ∀ s ∈ w, a.Clamped s := by
  induction w generalizing i p with
  | nil =>
    rw [path_nil_iff, List.map_nil]
    simp only [reads_nil_iff, List.not_mem_nil, false_imp_iff, implies_true, and_true]
    constructor
    · rintro rfl
      exact ⟨p, hp, rfl⟩
    · rintro ⟨_, hk, rfl⟩
      -- a node has one index
      exact Option.some.inj (((ha.index p i).2 hp).symm.trans ((ha.index p k).2 hk))
  | cons s w ih =>
    rw [Codec.Spells, List.forall_mem_cons] at hw
    rw [path_cons_iff, List.map_cons, List.forall_mem_cons]
    constructor
    · intro hfound
      obtain ⟨j, first, rest⟩ := hfound
      obtain ⟨hs, q, hq, hj⟩ := (ha.mem_transitions_iff_targets hp hw.1).1 first
      obtain ⟨⟨r, hr, path⟩, hall⟩ := (ih hj hw.2).1 rest
      exact ⟨⟨r, hr, reads_cons_iff.2 ⟨q, hq, path⟩⟩, hs, hall⟩
    · intro hfound
      obtain ⟨⟨r, hr, path⟩, hs, hall⟩ := hfound
      obtain ⟨q, hq, path⟩ := reads_cons_iff.1 path
      obtain ⟨j, hj⟩ := ha.exists_index_of_mem_targets hq
      exact ⟨j, (ha.mem_transitions_iff_targets hp hw.1).2 ⟨hs, q, hq, hj⟩,
        (ih hj hw.2).2 ⟨⟨r, hr, path⟩, hall⟩⟩

/-- **What is shown** is what the graph accepts inside the clamp. -/
theorem InStep.shows_iff (ha : a.InStep) (hroot : a.graph.Grounded) {w : List Symbol}
    (hw : Codec.Spells w) :
    a.Shows w ↔ a.graph.Accepts (w.map Codec.code) ∧ ∀ s ∈ w, a.Clamped s := by
  constructor
  · intro hshows
    obtain ⟨i, k, hi, hk, path⟩ := hshows
    obtain ⟨p, hp, hindex⟩ := Option.bind_eq_some_iff.1 hi
    obtain ⟨⟨r, hr, path⟩, hall⟩ := (ha.path_iff ((ha.index p i).1 hindex) hw).1 path
    obtain ⟨r', hr', hacc⟩ := mem_finalStates.1 hk
    obtain rfl := Option.some.inj (hr.symm.trans hr')
    exact ⟨⟨p, hp, r, path, hacc⟩, hall⟩
  · intro hfound
    obtain ⟨⟨p, hp, r, path, hacc⟩, hall⟩ := hfound
    obtain ⟨i, hi⟩ := ha.exists_index (hroot p hp)
    obtain ⟨k, hk⟩ := ha.exists_index (contains_of_isAccept hacc)
    have hinitial : a.initialState = some i :=
      Option.bind_eq_some_iff.2 ⟨p, hp, (ha.index p i).2 hi⟩
    exact ⟨i, k, hinitial, mem_finalStates.2 ⟨r, hk, hacc⟩,
      (ha.path_iff hi hw).2 ⟨⟨r, hk, path⟩, hall⟩⟩

/-- **What the transitions show is what is accepted inside the clamp.** A word of symbols is
    answered, and some path through the transitions spells it from the initial state to a final one
    just when the answer is yes and no symbol of the word lies outside the clamp. -/
theorem Built.run_iff_shows (ha : a.Built) (hflag : a.graph.Honest) {w : List Symbol}
    (hw : Codec.Spells w) :
    ∃ b, a.run w = .ok b ∧ (a.Shows w ↔ b = true ∧ ∀ s ∈ w, a.Clamped s) := by
  obtain ⟨b, hrun, hb⟩ := run_of_spells hflag hw
  refine ⟨b, hrun, ?_⟩
  rw [hb]
  exact ha.inStep.shows_iff ha.sound.grounded hw

end Paths

/-- One arc over a symbol inside the clamp, one over a symbol outside. -/
def windowed : Automaton :=
  (withClamp 2 3).after
    [.addState, .addState, .setInitial 0, .setFinal [1], .addTransition 0 1 [2, 5]]

theorem built_windowed : windowed.Built := (Built.withClamp 2 3).after _

theorem honest_windowed : windowed.graph.Honest := by
  intro _
  exact isDeterministic_iff.1 (by decide_cbv)

theorem run_iff_shows_windowed :
    windowed.Built ∧ windowed.graph.Honest ∧ Codec.Spells [2] ∧
      windowed.run [2] = .ok true ∧ windowed.Shows [2] := by
  have hw : Codec.Spells [2] := by decide
  have hyes : windowed.run [2] = .ok true := by decide
  obtain ⟨b, hrun, hshows⟩ := built_windowed.run_iff_shows honest_windowed hw
  rw [hyes] at hrun
  have hclamped : ∀ s ∈ [(2 : Symbol)], windowed.Clamped s := by decide
  exact ⟨built_windowed, honest_windowed, hw, hyes,
    hshows.2 ⟨(Except.ok.inj hrun).symm, hclamped⟩⟩

/-- The symbol outside the clamp is accepted and not shown. -/
theorem not_shows_windowed :
    windowed.Built ∧ windowed.graph.Honest ∧ Codec.Spells [5] ∧
      windowed.run [5] = .ok true ∧ ¬ windowed.Shows [5] := by
  have hw : Codec.Spells [5] := by decide
  refine ⟨built_windowed, honest_windowed, hw, by decide, ?_⟩
  rw [built_windowed.inStep.shows_iff built_windowed.sound.grounded hw]
  intro hfound
  exact absurd (hfound.2 5 (List.mem_singleton_self 5)) (by decide)

end Automaton

end SymbolAutomata
