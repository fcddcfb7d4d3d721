/-
  SymbolAutomata/Proofs/Automaton/Visits.lean
  ===========================================
  **Which states the transitions visit.**

  Numbering the states anew keeps just the states that labels lead to from the initial
  one (`Made.linked_of_renumbers`).  The list of transitions shows less than the labels:
  it names the symbols of a label, and a label that holds reserved codepoints only has
  none.  So a state is visited by transitions just when labels that hold the codepoint
  of a symbol lead there (`InStep.visited_iff`).

  Labels without symbols come about when a run of symbols is stored under one label,
  which may stretch over reserved codepoints, and its symbols are removed one by one
  (`hollow`).
-/
import SymbolAutomata.Proofs.Automaton.Canonical
import SymbolAutomata.Proofs.Automaton.Paths

namespace SymbolAutomata

open Relation (ReflTransGen)

/-- Every codepoint of the codec that is not reserved is that of a symbol. -/
theorem Codec.exists_code {c : Codepoint} (hc : c ≤ Codec.maxCodepoint)
    (hfree : c ∉ Codec.reserved) : ∃ s, Codec.IsSymbol s ∧ Codec.code s = c :=
  ⟨Codec.rank c, Codec.isSymbol_rank hc hfree, Codec.code_rank hfree⟩

/-- The label holds a codepoint that is not reserved. -/
def Interval.Spoken (label : Interval) : Prop :=
  ∃ c, label.contains c = true ∧ c ∉ Codec.reserved

namespace Automaton

open SymbolAutomata.Graph
open Transition (Path)

/-- **Labels of a kind lead from one state to another**, any number of them. -/
def Linked (a : Automaton) (kind : Interval → Prop) : StateIndex → StateIndex → Prop :=
  ReflTransGen fun i j => ∃ label, (label, j) ∈ (a.intervals i).value ∧ kind label

/-- **Transitions lead from the initial state** to state `k`. -/
def Visited (a : Automaton) (k : StateIndex) : Prop :=
  ∃ i w, a.initialState = some i ∧ Path a.transitions i w k

section Visits

variable {a : Automaton} {i j k : StateIndex}

/-! ### Labels -/

/-- Where arrows lead labels lead. -/
theorem InStep.linked_of_reads (ha : a.InStep) {p r : NodeId} {w : List Codepoint}
    (path : a.graph.Reads p w r) (hi : a.states[i]? = some p) (hk : a.states[k]? = some r) :
    a.Linked (fun _ => True) i k := by
  induction path generalizing i with
  | nil p =>
    obtain rfl := ha.eq_of_getElem? hi hk
    exact .refl
  | cons arrow _ _ ih =>
    obtain ⟨j, hj⟩ := ha.exists_index arrow.contains_target
    exact .head ⟨_, ha.mem_intervals.2 ⟨_, _, hi, hj, arrow⟩, trivial⟩ (ih hj hk)

theorem InStep.spoken_of_transition (ha : a.InStep) {s : Symbol}
    (h : ⟨i, j, s⟩ ∈ a.transitions) :
    ∃ label, (label, j) ∈ (a.intervals i).value ∧ label.Spoken := by
  obtain ⟨p, q, label, hp, hq, arrow, -, hc, -⟩ := ha.mem_transitions.1 h
  exact ⟨label, ha.mem_intervals.2 ⟨p, q, hp, hq, arrow⟩, _, hc, Codec.code_not_mem s⟩

theorem InStep.transition_of_spoken (ha : a.InStep) (henc : a.graph.Encoded)
    (hfull : a.FullyClamped) {label : Interval} (hlabel : (label, j) ∈ (a.intervals i).value)
    (hspoken : label.Spoken) : ∃ s, ⟨i, j, s⟩ ∈ a.transitions := by
  obtain ⟨p, q, hp, hq, arrow⟩ := ha.mem_intervals.1 hlabel
  obtain ⟨c, hc, hfree⟩ := hspoken
  have hmax := Nat.le_trans (Interval.contains_iff.1 hc).2 (henc p label q arrow)
  obtain ⟨s, hs, rfl⟩ := Codec.exists_code hmax hfree
  exact ⟨s, ha.mem_transitions.2 ⟨p, q, label, hp, hq, arrow, hs, hc, hfull.clamped hs⟩⟩

/-- **Transitions lead where labels with a symbol lead.** -/
theorem InStep.exists_path_iff (ha : a.InStep) (henc : a.graph.Encoded) (hfull : a.FullyClamped) :
    (∃ w, Path a.transitions i w k) ↔ a.Linked Interval.Spoken i k := by
  constructor
  · rintro ⟨w, path⟩
    induction path with
    | nil i => exact .refl
    | cons first _ ih => exact .head (ha.spoken_of_transition first) ih
  · intro hlinked
    induction hlinked using ReflTransGen.head_induction_on with
    | refl => exact ⟨[], .nil k⟩
    | head hstep _ ih =>
      obtain ⟨label, hlabel, hspoken⟩ := hstep
      obtain ⟨s, hs⟩ := ha.transition_of_spoken henc hfull hlabel hspoken
      obtain ⟨w, path⟩ := ih
      exact ⟨s :: w, .cons hs path⟩

theorem InStep.visited_iff (ha : a.InStep) (henc : a.graph.Encoded) (hfull : a.FullyClamped)
    (hi : a.initialState = some i) : a.Visited k ↔ a.Linked Interval.Spoken i k := by
  rw [← ha.exists_path_iff henc hfull]
  constructor
  · rintro ⟨j, w, hj, path⟩
    obtain rfl := Option.some.inj (hi.symm.trans hj)
    exact ⟨w, path⟩
  · rintro ⟨w, path⟩
    exact ⟨i, w, hi, path⟩

/-! ### Numbering anew -/

theorem InStep.rooted_of_initialState (ha : a.InStep) (hi : a.initialState = some i) :
    a.graph.Rooted := by
  obtain ⟨p, hp, hindex⟩ := Option.bind_eq_some_iff.1 hi
  exact ⟨p, hp, ha.contains_of_getElem? ((ha.index p i).1 hindex)⟩

theorem rooted_perform (ha : a.Sound) (hroot : a.graph.Rooted) {e : Edit}
    (he : e.renumbers = true) : (e.perform a).automaton.graph.Rooted := by
  obtain ⟨i, hi, hc⟩ := hroot
  cases e with
  | minimize => exact (minimal_graph_minimize ha).rooted
  | reduce =>
    have hreduce : a.graph.reduce.Rooted :=
      ⟨i, (initial_reduce a.graph).trans hi, (contains_reduce a.graph i).trans hc⟩
    exact hreduce.prune
  | removeDead =>
    have hdead : a.graph.removeDead.Rooted :=
      ⟨i, (initial_removeDead a.graph).trans hi, (contains_removeDead a.graph i).trans hc⟩
    exact hdead.prune
  | _ => cases he

theorem clamp_perform {e : Edit} (he : e.renumbers = true) :
    (e.perform a).automaton.min = a.min ∧ (e.perform a).automaton.max = a.max := by
  cases e with
  | minimize | reduce | removeDead => exact ⟨rfl, rfl⟩
  | _ => cases he

theorem states_perform {e : Edit} (he : e.renumbers = true) :
    (e.perform a).automaton.states = (e.perform a).automaton.graph.reachable := by
  cases e with
  | minimize | reduce | removeDead => rfl
  | _ => cases he

/-- Where the states are the nodes of the search, labels lead to each of them. -/
theorem Built.linked_of_searched (ha : a.Built) (hroot : a.graph.Rooted)
    (hsearched : a.states = a.graph.reachable) :
    ∃ i, a.initialState = some i ∧ ∀ k < a.stateCount, a.Linked (fun _ => True) i k := by
  have hstep := ha.inStep
  obtain ⟨p, hp, hc⟩ := hroot
  obtain ⟨i, hi⟩ := hstep.exists_index hc
  refine ⟨i, Option.bind_eq_some_iff.2 ⟨p, hp, (hstep.index p i).2 hi⟩, fun k hk => ?_⟩
  obtain ⟨r, hr⟩ : ∃ r, a.states[k]? = some r := ⟨_, List.getElem?_eq_getElem hk⟩
  have hmem := List.mem_of_getElem? hr
  rw [hsearched] at hmem
  obtain ⟨w, path⟩ := (mem_reachable hp hc).1 hmem
  exact hstep.linked_of_reads path hi hr

/-- **Numbering anew keeps what labels lead to**, and transitions visit of it what labels with a
    symbol lead to: every state, unless some label holds reserved codepoints only. -/
theorem Made.visited_after_renumbering (ha : a.Made) (hfull : a.FullyClamped)
    (hstart : a.initialState.isSome = true) {e : Edit} (he : e.renumbers = true) :
    ∃ i, (a.after [e]).initialState = some i ∧
      (∀ k < (a.after [e]).stateCount, (a.after [e]).Linked (fun _ => True) i k) ∧
      (∀ k, (a.after [e]).Visited k ↔ (a.after [e]).Linked Interval.Spoken i k) ∧
      ((∀ j label k, (label, k) ∈ ((a.after [e]).intervals j).value → label.Spoken) →
        ∀ k < (a.after [e]).stateCount, (a.after [e]).Visited k) := by
  obtain ⟨i₀, hi₀⟩ := Option.isSome_iff_exists.1 hstart
  have hroot := rooted_perform ha.built.sound (ha.built.inStep.rooted_of_initialState hi₀) he
  have hbuilt : (a.after [e]).Built := ha.built.after [e]
  obtain ⟨i, hi, hlinked⟩ := hbuilt.linked_of_searched hroot (states_perform he)
  have hclamp : (a.after [e]).FullyClamped := by
    obtain ⟨hmin, hmax⟩ := clamp_perform (a := a) he
    exact ⟨hmin.trans hfull.1, hmax.trans hfull.2⟩
  have hvisited : ∀ k, (a.after [e]).Visited k ↔ (a.after [e]).Linked Interval.Spoken i k :=
    fun k => hbuilt.inStep.visited_iff hbuilt.sound.encoded hclamp hi
  refine ⟨i, hi, hlinked, hvisited, fun hall k hk => (hvisited k).2 ?_⟩
  refine ReflTransGen.mono ?_ _ _ (hlinked k hk)
  rintro j k ⟨label, hlabel, -⟩
  exact ⟨label, hlabel, hall j label k hlabel⟩

end Visits

/-- One arc over the symbols on both sides of a reserved codepoint. -/
def bridged : Automaton :=
  ofGraphWithin 0 65535 (oneOf [Interval.between 33 35]) (.ofList [33, 34])

theorem made_bridged : bridged.Made := .ofGraphWithin 0 65535 _ _

theorem visited_after_renumbering_bridged :
    bridged.Made ∧ bridged.FullyClamped ∧ bridged.initialState.isSome = true ∧
      (bridged.after [.reduce]).stateCount = 2 ∧ ∀ k < 2, (bridged.after [.reduce]).Visited k := by
  have hfull : bridged.FullyClamped := by decide +kernel
  have hstart : bridged.initialState.isSome = true := by decide +kernel
  have hinitial : (bridged.after [.reduce]).initialState = some 0 := by decide +kernel
  have hlabel : (Interval.between 33 35, 1) ∈ ((bridged.after [.reduce]).intervals 0).value := by
    decide +kernel
  obtain ⟨i, hi, -, hvisited, -⟩ :=
    made_bridged.visited_after_renumbering hfull hstart (e := .reduce) rfl
  obtain rfl := Option.some.inj (hinitial.symm.trans hi)
  refine ⟨made_bridged, hfull, hstart, by decide +kernel, fun k hk => (hvisited k).2 ?_⟩
  cases k with
  | zero => exact .refl
  | succ k =>
    obtain rfl := Nat.lt_one_iff.1 (Nat.lt_of_succ_lt_succ hk)
    exact .single ⟨_, hlabel, 33, by decide, by decide⟩

/-- Both symbols of the label are removed, the reserved codepoint between them is not. -/
def hollow : Automaton := bridged.after [.removeSymbol 33, .removeSymbol 34]

theorem made_hollow : hollow.Made := made_bridged.after _

/-- What is left of the label leads to a state that no transition visits. -/
theorem not_visited_hollow :
    hollow.Made ∧ hollow.FullyClamped ∧ hollow.initialState = some 0 ∧
      (hollow.after [.reduce]).stateCount = 2 ∧ (hollow.after [.reduce]).transitions = [] ∧
      ¬ (hollow.after [.reduce]).Visited 1 := by
  have htransitions : (hollow.after [.reduce]).transitions = [] := by decide +kernel
  have hinitial : (hollow.after [.reduce]).initialState = some 0 := by decide +kernel
  refine ⟨made_hollow, by decide +kernel, by decide +kernel, by decide +kernel, htransitions, ?_⟩
  rintro ⟨i, w, hi, path⟩
  obtain rfl := Option.some.inj (hinitial.symm.trans hi)
  rw [htransitions] at path
  cases path with
  | cons first _ => cases first

end Automaton

end SymbolAutomata
