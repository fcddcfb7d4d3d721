/-
  SymbolAutomata/Proofs/Automaton/Stepping.lean
  =============================================
  **Reading words by the indices of states.**

  A solver that only knows indices can read a word in two ways.  `simulate` keeps a
  set of states and collects all their destinations symbol by symbol; `follow` goes
  from state to state along `delta`.  The indices and the nodes of the graph move in
  lockstep: one round of `collect` does to the indices what `advance` does to the
  nodes (`InStep.denotes_collect`), and one `delta` does what `step` does (`delta_value`).
  No destination is lost on the way through the table of states, so `simulate` answers
  as the set simulation on the graph (`InStep.simulate_eq`) and `follow` as the walk along
  the newest arcs (`InStep.follow_eq`), be the declaration true or not.

  If it is true, or there is none, all ways of reading agree (`Made.queries_agree`).  Where
  two destinations are declared to be one they need not: `delta` names the newest of them
  (`InStep.delta_eq_head?`) and the other is lost.
-/
import SymbolAutomata.Proofs.Automaton.Acceptance
import SymbolAutomata.Proofs.Automaton.Index

namespace SymbolAutomata

namespace Automaton

open SymbolAutomata.Graph

/-! ### Reading by indices -/

/-- All destinations of some states over one symbol. -/
def collect (a : Automaton) (s : Symbol) (is : List StateIndex) :
    Except Failure (List StateIndex) := do
  let found ← is.mapM fun i => (a.destinations i s).value
  return ascending found.flatten

/-- Whether collecting the destinations symbol by symbol leads from some states to a final one. -/
def simulateFrom (a : Automaton) : List StateIndex → List Symbol → Except Failure Bool
  | is, [] => return is.any fun i => (a.isFinal i).value
  | is, s :: w => do
    let next ← a.collect s is
    simulateFrom a next w

/-- **The set simulation by indices**, from the initial state. -/
def simulate (a : Automaton) (w : List Symbol) : Except Failure Bool :=
  a.simulateFrom a.initialState.toList w

/-- Whether `delta` leads from one state to a final one. -/
def followFrom (a : Automaton) : StateIndex → List Symbol → Except Failure Bool
  | i, [] => return (a.isFinal i).value
  | i, s :: w => do
    match ← (a.delta i s).value with
    | none => return false
    | some j => followFrom a j w

/-- **The walk by indices**, from the initial state. -/
def follow (a : Automaton) (w : List Symbol) : Except Failure Bool :=
  match a.initialState with
  | none => return false
  | some i => a.followFrom i w

/-- The destinations of a state over a symbol that has a codepoint. -/
def reached (a : Automaton) (i : StateIndex) (s : Symbol) : List StateIndex :=
  (a.states[i]?).toList.flatMap fun p => (a.graph.targets p (Codec.code s)).filterMap a.indexOf?

/-- **The symbol relation**: state `j` is among the destinations of state `i` over a symbol. -/
def Relates (a : Automaton) (i : StateIndex) (s : Symbol) (j : StateIndex) : Prop :=
  ∃ js, (a.destinations i s).value = .ok js ∧ j ∈ js

section Stepping

variable {a : Automaton}

/-! ### What the queries answer -/

theorem isFinal_value (i : StateIndex) :
    (a.isFinal i).value = (a.states[i]?).any a.graph.isAccept := by
  simp [isFinal]

theorem destinations_value {s : Symbol} (hs : Codec.IsSymbol s) (i : StateIndex) :
    (a.destinations i s).value = .ok (a.reached i s) := by
  simp [destinations, reached, Codec.codepoint_of_isSymbol hs]

theorem delta_value (hdet : a.isDeterministic = true) {s : Symbol} (hs : Codec.IsSymbol s)
    (i : StateIndex) : (a.delta i s).value =
      .ok ((a.states[i]?).bind fun p => (a.graph.step p (Codec.code s)).bind a.indexOf?) := by
  simp [delta, hdet, Codec.codepoint_of_isSymbol hs]

theorem collect_eq {s : Symbol} (hs : Codec.IsSymbol s) (is : List StateIndex) :
    a.collect s is = .ok (ascending (is.flatMap (a.reached · s))) := by
  have hanswers : (fun i => (a.destinations i s).value) = fun i => pure (a.reached i s) :=
    funext (destinations_value hs)
  rw [collect, hanswers, List.mapM_pure, List.flatMap_def]
  rfl

/-! ### Nothing is lost in the table of states -/

theorem InStep.indexOf?_eq_some_iff (ha : a.InStep) {p : NodeId} {i : StateIndex} :
    a.indexOf? p = some i ↔ a.states[i]? = some p := ha.index p i

theorem InStep.mem_reached (ha : a.InStep) {i j : StateIndex} {s : Symbol} :
    j ∈ a.reached i s ↔ ∃ p q, a.states[i]? = some p ∧ a.states[j]? = some q ∧
      q ∈ a.graph.targets p (Codec.code s) := by
  simp only [reached, List.mem_flatMap, Option.mem_toList, List.mem_filterMap,
    ha.indexOf?_eq_some_iff]
  constructor
  · rintro ⟨p, hp, q, hq, hj⟩
    exact ⟨p, q, hp, hj, hq⟩
  · rintro ⟨p, q, hp, hj, hq⟩
    exact ⟨p, hp, q, hq, hj⟩

theorem relates_iff_mem_reached {i j : StateIndex} {s : Symbol} (hs : Codec.IsSymbol s) :
    a.Relates i s j ↔ j ∈ a.reached i s := by
  unfold Relates
  rw [destinations_value hs]
  constructor
  · rintro ⟨js, hjs, hj⟩
    exact Except.ok.inj hjs ▸ hj
  · exact fun hj => ⟨_, rfl, hj⟩

theorem Relates.isSymbol {i j : StateIndex} {s : Symbol} (h : a.Relates i s j) :
    Codec.IsSymbol s := by
  obtain ⟨js, hjs, -⟩ := h
  unfold destinations at hjs
  cases hc : Codec.codepoint s with
  | error f =>
    rw [hc] at hjs
    cases hjs
  | ok d => exact (Codec.codepoint_eq_ok_iff.1 hc).1

/-- **The relation is what the arcs of the graph carry.** -/
theorem InStep.relates_iff (ha : a.InStep) {i j : StateIndex} {s : Symbol} :
    a.Relates i s j ↔ Codec.IsSymbol s ∧ ∃ p q, a.states[i]? = some p ∧ a.states[j]? = some q ∧
      q ∈ a.graph.targets p (Codec.code s) := by
  constructor
  · intro h
    exact ⟨h.isSymbol, ha.mem_reached.1 ((relates_iff_mem_reached h.isSymbol).1 h)⟩
  · rintro ⟨hs, h⟩
    exact (relates_iff_mem_reached hs).2 (ha.mem_reached.2 h)

/-- **`delta` names the newest destination.** -/
theorem InStep.delta_eq_head? (ha : a.InStep) (hdet : a.isDeterministic = true) {s : Symbol}
    (hs : Codec.IsSymbol s) (i : StateIndex) :
    (a.delta i s).value = .ok (a.reached i s).head? := by
  rw [delta_value hdet hs, reached]
  cases a.states[i]? with
  | none => rfl
  | some p =>
    simp only [Option.bind_some, Option.toList_some, List.flatMap_singleton, step_eq_head?]
    cases htargets : a.graph.targets p (Codec.code s) with
    | nil => rfl
    | cons q rest =>
      -- the newest destination has an index, so it is not passed over for an older one
      obtain ⟨j, hj⟩ := ha.exists_index_of_mem_targets (htargets ▸ List.mem_cons_self ..)
      have hindex := ha.indexOf?_eq_some_iff.2 hj
      simp [hindex]

theorem InStep.eq_of_mem_reached (ha : a.InStep) (hone : a.graph.SingleValued)
    {i j k : StateIndex} {s : Symbol} (hj : j ∈ a.reached i s) (hk : k ∈ a.reached i s) :
    j = k := by
  obtain ⟨p, q, hp, hq, htarget⟩ := ha.mem_reached.1 hj
  obtain ⟨p', q', hp', hq', htarget'⟩ := ha.mem_reached.1 hk
  obtain rfl := Option.some.inj (hp.symm.trans hp')
  obtain rfl := hone p _ q q' htarget htarget'
  exact ha.eq_of_getElem? hq hq'

/-! ### Lockstep -/

/-- **Indices and nodes in lockstep**: the nodes are those of the indices. -/
def Denotes (a : Automaton) (is : List StateIndex) (places : List NodeId) : Prop :=
  ∀ p, p ∈ places ↔ ∃ i ∈ is, a.states[i]? = some p

theorem InStep.denotes_initialState (ha : a.InStep) (hroot : a.graph.Grounded) :
    a.Denotes a.initialState.toList a.graph.initial.toList := by
  intro p
  simp only [Option.mem_toList, initialState, Option.bind_eq_some_iff, ha.indexOf?_eq_some_iff]
  constructor
  · intro hp
    obtain ⟨i, hi⟩ := ha.exists_index (hroot p hp)
    exact ⟨i, ⟨p, hp, hi⟩, hi⟩
  · rintro ⟨i, ⟨q, hq, hi⟩, hp⟩
    exact Option.some.inj (hi.symm.trans hp) ▸ hq

/-- **One round keeps the lockstep.** -/
theorem InStep.denotes_collect (ha : a.InStep) {is : List StateIndex} {places : List NodeId}
    (h : a.Denotes is places) (s : Symbol) :
    a.Denotes (ascending (is.flatMap (a.reached · s)))
      (a.graph.advance (Codec.code s) places) := by
  intro q
  simp only [mem_advance, mem_ascending, List.mem_flatMap, ha.mem_reached]
  constructor
  · rintro ⟨p, hp, hq⟩
    obtain ⟨i, hmem, hi⟩ := (h p).1 hp
    obtain ⟨j, hj⟩ := ha.exists_index_of_mem_targets hq
    exact ⟨j, ⟨i, hmem, p, q, hi, hj, hq⟩, hj⟩
  · rintro ⟨j, ⟨i, hmem, p, q', hi, hj', hq'⟩, hj⟩
    obtain rfl := Option.some.inj (hj'.symm.trans hj)
    exact ⟨p, (h p).2 ⟨i, hmem, hi⟩, hq'⟩

theorem Denotes.any_isFinal {is : List StateIndex} {places : List NodeId}
    (h : a.Denotes is places) :
    (is.any fun i => (a.isFinal i).value) = places.any a.graph.isAccept := by
  rw [Bool.eq_iff_iff]
  simp only [List.any_eq_true, isFinal_value, Option.any_eq_true, h _]
  constructor
  · rintro ⟨i, hmem, p, hi, hacc⟩
    exact ⟨p, ⟨i, hmem, hi⟩, hacc⟩
  · rintro ⟨p, ⟨i, hmem, hi⟩, hacc⟩
    exact ⟨i, hmem, p, hi, hacc⟩

theorem InStep.simulateFrom_eq (ha : a.InStep) {w : List Symbol} (hw : Codec.Spells w)
    {is : List StateIndex} {places : List NodeId} (h : a.Denotes is places) :
    a.simulateFrom is w = .ok (a.graph.runFrom places (w.map Codec.code)) := by
  induction w generalizing is places with
  | nil => exact congrArg Except.ok h.any_isFinal
  | cons s w ih =>
    rw [Codec.Spells, List.forall_mem_cons] at hw
    rw [simulateFrom, collect_eq hw.1]
    exact ih hw.2 (ha.denotes_collect h s)

/-- **The set simulation by indices** answers as the one by nodes. -/
theorem InStep.simulate_eq (ha : a.InStep) (hroot : a.graph.Grounded) {w : List Symbol}
    (hw : Codec.Spells w) : a.simulate w = .ok (a.graph.run (w.map Codec.code)) := by
  rw [simulate, ha.simulateFrom_eq hw (ha.denotes_initialState hroot), Graph.run]
  cases a.graph.initial with
  | none => exact congrArg Except.ok (runFrom_nil _)
  | some p => rfl

theorem InStep.followFrom_eq (ha : a.InStep) (hdet : a.isDeterministic = true)
    {w : List Symbol} (hw : Codec.Spells w) {i : StateIndex} {p : NodeId}
    (hi : a.states[i]? = some p) :
    a.followFrom i w = .ok (a.graph.walk p (w.map Codec.code)) := by
  induction w generalizing i p with
  | nil => simp [followFrom, walk, isFinal_value, hi, pure, Except.pure]
  | cons s w ih =>
    rw [Codec.Spells, List.forall_mem_cons] at hw
    rw [followFrom, delta_value hdet hw.1, hi, List.map_cons, walk, Option.bind_some]
    cases hstep : a.graph.step p (Codec.code s) with
    | none => rfl
    | some q =>
      rw [step_eq_head?] at hstep
      obtain ⟨j, hj⟩ := ha.exists_index_of_mem_targets (List.mem_of_head? hstep)
      rw [Option.bind_some, ha.indexOf?_eq_some_iff.2 hj]
      exact ih hw.2 hj

/-- **The walk by indices** goes where the walk by nodes goes. -/
theorem InStep.follow_eq (ha : a.InStep) (hroot : a.graph.Grounded)
    (hdet : a.isDeterministic = true) {w : List Symbol} (hw : Codec.Spells w) :
    a.follow w = .ok (a.graph.initial.any (a.graph.walk · (w.map Codec.code))) := by
  unfold follow initialState
  cases hinitial : a.graph.initial with
  | none => rfl
  | some p =>
    obtain ⟨i, hi⟩ := ha.exists_index (hroot p hinitial)
    rw [Option.bind_some, ha.indexOf?_eq_some_iff.2 hi, Option.any_some]
    exact ha.followFrom_eq hdet hw hi

end Stepping

/-! ### All ways agree -/

theorem head?_eq_some_iff_of_subsingleton {α : Type} {xs : List α}
    (h : ∀ x ∈ xs, ∀ y ∈ xs, x = y) {x : α} : xs.head? = some x ↔ ∀ y, y ∈ xs ↔ y = x := by
  constructor
  · intro hhead y
    have hx := List.mem_of_head? hhead
    exact ⟨fun hy => h y hy x hx, fun heq => heq ▸ hx⟩
  · intro hall
    cases xs with
    | nil => exact absurd ((hall x).2 rfl) List.not_mem_nil
    | cons y ys => rw [List.head?_cons, (hall y).1 (List.mem_cons_self ..)]

/-- **All ways to read a word agree**, however the automaton was made. If it is declared
    nondeterministic, its own answer is that of the set simulation by indices. If it is declared
    deterministic, rightly, that is also the answer of the walk along `delta`; and `delta` names a
    state just when that state is the only destination, and none just when there is no
    destination. -/
theorem Made.queries_agree {a : Automaton} (ha : a.Made) {w : List Symbol} (hw : Codec.Spells w) :
    (a.isDeterministic = false → ∃ b, a.run w = .ok b ∧ a.simulate w = .ok b) ∧
      (a.isDeterministic = true → a.graph.SingleValued →
        (∃ b, a.run w = .ok b ∧ a.simulate w = .ok b ∧ a.follow w = .ok b) ∧
          ∀ i s, Codec.IsSymbol s → ∃ js, (a.destinations i s).value = .ok js ∧
            (∀ j, (a.delta i s).value = .ok (some j) ↔ ∀ k, k ∈ js ↔ k = j) ∧
            ((a.delta i s).value = .ok none ↔ js = [])) := by
  have hstep := ha.built.inStep
  have hroot := ha.built.sound.grounded
  have hsimulate := hstep.simulate_eq hroot hw
  refine ⟨fun hdet => ⟨_, run_eq_graph_run hdet hw, hsimulate⟩, fun hdet hone => ⟨?_, ?_⟩⟩
  · have hsame : a.graph.run (w.map Codec.code) =
        a.graph.initial.any (a.graph.walk · (w.map Codec.code)) := by
      rw [Bool.eq_iff_iff, run_eq_true_iff, hone.any_walk_iff]
    exact ⟨_, run_eq_any_walk hdet hw, hsame ▸ hsimulate, hstep.follow_eq hroot hdet hw⟩
  · intro i s hs
    refine ⟨a.reached i s, destinations_value hs i, fun j => ?_, ?_⟩
    · rw [hstep.delta_eq_head? hdet hs, Except.ok.injEq]
      apply head?_eq_some_iff_of_subsingleton
      exact fun x hx y hy => hstep.eq_of_mem_reached hone hx hy
    · rw [hstep.delta_eq_head? hdet hs, Except.ok.injEq, List.head?_eq_none_iff]

/-- Two labels that overlap lead from the first state to the second. -/
def laned : Automaton :=
  ofGraphWithin 0 9 (oneOf [Interval.between 2 5, Interval.between 3 7]) (.ofList [2, 3, 4, 5, 6])

theorem queries_agree_laned :
    laned.Made ∧ Codec.Spells [3] ∧ laned.isDeterministic = true ∧ laned.graph.SingleValued ∧
      laned.run [3] = .ok true ∧ laned.simulate [3] = .ok true ∧ laned.follow [3] = .ok true ∧
        (laned.destinations 0 3).value = .ok [1, 1] ∧ (laned.delta 0 3).value = .ok (some 1) := by
  have hmade : laned.Made := .ofGraphWithin 0 9 _ _
  have hw : Codec.Spells [3] := by decide
  have hdet : laned.isDeterministic = true := by decide_cbv
  have hone : laned.graph.SingleValued := isDeterministic_iff.1 (by decide_cbv)
  have hyes : laned.run [3] = .ok true := by decide_cbv
  have htwo : (laned.destinations 0 3).value = .ok [1, 1] := by decide_cbv
  obtain ⟨⟨b, hrun, hsimulate, hfollow⟩, hdelta⟩ := (hmade.queries_agree hw).2 hdet hone
  obtain ⟨js, hjs, hsome, -⟩ := hdelta 0 3 (by decide)
  obtain rfl := Except.ok.inj (hyes.symm.trans hrun)
  obtain rfl := Except.ok.inj (htwo.symm.trans hjs)
  exact ⟨hmade, hw, hdet, hone, hyes, hsimulate, hfollow, htwo, (hsome 1).2 (by simp)⟩

/-- Two destinations over one symbol, declared to be one. -/
def misdeclared : Automaton :=
  (withClamp 0 9).after
    [.addState, .addState, .addState, .setInitial 0, .setFinal [1], .addTransition 0 1 [3],
      .addTransition 0 2 [3]]

example : misdeclared.run [3] = .ok false ∧ misdeclared.simulate [3] = .ok true ∧
    (misdeclared.after [.declare false]).run [3] = .ok true := by decide

end Automaton

end SymbolAutomata
