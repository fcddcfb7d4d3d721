/-
  SymbolAutomata/Proofs/Automaton/Import.lean
  ===========================================
  **An import adds exactly what was asked for.**

  Filling appends one state for each reachable node of the source, in the order of the
  search.  Between the new states lie the transitions of the source over the symbols
  that were asked for and lie inside the clamp, and no others; no transition leads from
  an old state to a new one or back, and the old states answer as before (`Imported`).

  The declaration is an exception.  It is taken over from the source, whatever the
  automaton held before, so it is true of the result if the source is declared
  nondeterministic or the old part happens to be single-valued (`honest_fill_iff`), and
  false where a declared source is filled into a part with two destinations over one
  symbol (`not_honest_fill_forked`).
-/
import SymbolAutomata.Proofs.Automaton.Relation

namespace SymbolAutomata

namespace Automaton

open SymbolAutomata.Graph

variable {a b : Automaton} {source : Graph} {symbols : SymbolSet}
  {names : List (NodeId × NodeId)} {n p q : NodeId} {i j k : StateIndex}

/-! ### Old nodes -/

theorem exits_placed {e : NodeId × NodeId} (p : NodeId) :
    (a.placed source e).exits p = a.graph.exits p := by
  apply exits_congr
  unfold placed
  split <;> exact arcs_setAccept _ _ _

/-- Filling in a node leaves the exits of all other nodes alone. -/
theorem exits_fillNode_of_ne {e : NodeId × NodeId} (hp : p ≠ e.2) :
    (a.fillNode source symbols names e).graph.exits p = a.graph.exits p := by
  rw [fillNode_eq, fillMoves_eq]
  refine (exits_connectAll_ne fun arrow harrow => ?_).trans (exits_placed p)
  obtain ⟨m, -, hm⟩ := List.mem_flatMap.1 harrow
  obtain ⟨label, -, rfl⟩ := List.mem_map.1 hm
  exact hp

/-- **The nodes that were there before** keep their flags and their exits. -/
theorem old_fill (hp : a.graph.contains p = true) :
    (a.fill source symbols).graph.flag? p = a.graph.flag? p ∧
      (a.fill source symbols).graph.exits p = a.graph.exits p := by
  obtain ⟨new, grown, -, hgrown, hfill⟩ := exists_grown_fill a source symbols
  have hold : p ∉ new := by
    intro hmem
    have hnone := hgrown.fresh p hmem
    rw [flag?_declare] at hnone
    rw [contains_eq_isSome, hnone] at hp
    cases hp
  rw [hfill]
  refine List.foldlRecOn
    (motive := fun b : Automaton =>
      b.graph.flag? p = a.graph.flag? p ∧ b.graph.exits p = a.graph.exits p) _ _ ?_ ?_
  · constructor
    · rw [hgrown.flag?, if_neg hold]
      rfl
    · exact exits_congr hgrown.arcs p
  · intro b hb e he
    -- the names are new, so none of them is `p`
    have hne : p ≠ e.2 := fun heq => hold (heq ▸ (List.of_mem_zip he).2)
    rw [flag?_fillNode, if_neg fun h => hne h.1, exits_fillNode_of_ne hne]
    exact hb

/-! ### Old states -/

/-- A state that answers as before: same node, same flag, same labels, same destinations. -/
structure SameState (a b : Automaton) (i : StateIndex) : Prop where
  node : b.states[i]? = a.states[i]?
  final : b.isFinal i = a.isFinal i
  intervals : b.intervals i = a.intervals i
  destinations : ∀ s, b.destinations i s = a.destinations i s

/-- Old nodes have their old indices. -/
theorem Continues.indexOf?_eq (h : Continues a b) (ha : a.InStep)
    (hq : a.graph.contains q = true) : b.indexOf? q = a.indexOf? q := by
  obtain ⟨j, hj⟩ := ha.exists_index hq
  have hj' : b.states[j]? = some q := by
    obtain ⟨rest, hrest⟩ := h.states
    rw [← hrest, List.getElem?_append_left (List.getElem?_eq_some_iff.1 hj).1]
    exact hj
  rw [ha.indexOf?_eq_some_iff.2 hj, (h.inStep ha).indexOf?_eq_some_iff.2 hj']

theorem Continues.sameState (h : Continues a b) (ha : a.InStep)
    (hold : ∀ p, a.graph.contains p = true →
      b.graph.flag? p = a.graph.flag? p ∧ b.graph.exits p = a.graph.exits p)
    (hi : i < a.stateCount) : SameState a b i := by
  obtain ⟨p, hp⟩ := exists_node hi
  have hp' : b.states[i]? = some p := by
    obtain ⟨rest, hrest⟩ := h.states
    rw [← hrest, List.getElem?_append_left hi]
    exact hp
  obtain ⟨hflag, hexits⟩ := hold p (ha.contains_of_getElem? hp)
  have hindex : ∀ label q, (label, q) ∈ a.graph.exits p → b.indexOf? q = a.indexOf? q :=
    fun label q hq => h.indexOf?_eq ha (mem_exits.1 hq).contains_target
  refine ⟨hp'.trans hp.symm, ?_, ?_, fun s => ?_⟩
  · simp only [isFinal, resolve, hp, hp', Option.any_some, isAccept, hflag]
  · simp only [Automaton.intervals, resolve, hp, hp', Option.toList_some,
      List.flatMap_singleton, moves_eq_exits, hexits]
    congr 1
    refine List.filterMap_congr fun m hm => ?_
    rw [hindex m.1 m.2 (List.mem_mergeSort.1 hm)]
  · unfold Automaton.destinations
    cases Codec.codepoint s with
    | error f => rfl
    | ok c =>
      simp only [resolve, hp, hp', Option.toList_some, List.flatMap_singleton,
        targets_eq_exits, hexits]
      congr 2
      refine List.filterMap_congr fun q hq => ?_
      obtain ⟨m, hm, rfl⟩ := List.mem_map.1 hq
      exact hindex m.1 m.2 (List.mem_filter.1 hm).1

/-! ### New states -/

section Filled

variable (h : Filled a source symbols names b)

include h

/-- **The states at the end** stand for the reachable nodes of the source, in their order. -/
theorem Filled.getElem?_names : names[k]? = some (n, p) ↔
    source.reachable[k]? = some n ∧ b.states[a.stateCount + k]? = some p := by
  have hstate : b.states[a.stateCount + k]? = (names[k]?).map (·.2) := by
    rw [h.states, stateCount, List.getElem?_append_right (Nat.le_add_right _ _),
      Nat.add_sub_cancel_left, List.getElem?_map]
  rw [hstate, ← h.keys, List.getElem?_map]
  cases names[k]? with
  | none => simp
  | some e => simp [Prod.ext_iff]

theorem Filled.stateCount_eq : b.stateCount = a.stateCount + source.reachable.length := by
  rw [stateCount, h.states, List.length_append, List.length_map, ← h.keys, List.length_map]
  rfl

theorem Filled.exists_getElem?_names (hn : source.reachable[k]? = some n) :
    ∃ p, names[k]? = some (n, p) ∧ b.states[a.stateCount + k]? = some p := by
  rw [← h.keys, List.getElem?_map] at hn
  obtain ⟨⟨m, p⟩, hk, rfl⟩ := Option.map_eq_some_iff.1 hn
  exact ⟨p, hk, (h.getElem?_names.1 hk).2⟩

theorem Filled.final_of_getElem? (hn : source.reachable[k]? = some n) :
    (b.isFinal (a.stateCount + k)).value = source.isAccept n := by
  obtain ⟨p, hk, hp⟩ := h.exists_getElem?_names hn
  rw [isFinal_value, hp, Option.any_some]
  exact h.flagged n p (List.mem_of_getElem? hk)

variable (hb : b.InStep)

include hb

/-- **The copy of the initial node** is the initial state. -/
theorem Filled.initialState_of_contains (hinitial : source.initial = some n)
    (hn : source.contains n = true) :
    ∃ k, source.reachable[k]? = some n ∧ b.initialState = some (a.stateCount + k) := by
  obtain ⟨k, hk⟩ := List.mem_iff_getElem?.1 (mem_reachable_initial hinitial hn)
  obtain ⟨p, hname, hp⟩ := h.exists_getElem?_names hk
  refine ⟨k, hk, ?_⟩
  rw [initialState, h.started n p (List.mem_of_getElem? hname) hinitial, Option.bind_some]
  exact hb.indexOf?_eq_some_iff.2 hp

/-- **What leaves a new state** is what leaves the node that it stands for, over the symbols that
    are kept. -/
theorem Filled.relates_iff (hn : source.reachable[k]? = some n) {s : Symbol} :
    b.Relates (a.stateCount + k) s j ↔ Kept a.min a.max symbols s ∧
      ∃ l m, j = a.stateCount + l ∧ source.reachable[l]? = some m ∧
        m ∈ source.targets n (Codec.code s) := by
  obtain ⟨p, hname, hp⟩ := h.exists_getElem?_names hn
  have hmem := List.mem_of_getElem? hname
  rw [hb.relates_iff, hp]
  constructor
  · rintro ⟨hs, p', q, hp', hq, htarget⟩
    obtain rfl := Option.some.inj hp'
    obtain ⟨hkept, m, hm, hq'⟩ := (h.mem_targets_code hs hmem).1 htarget
    obtain ⟨l, hl⟩ := List.mem_iff_getElem?.1 hq'
    obtain ⟨hl, hq'⟩ := h.getElem?_names.1 hl
    exact ⟨hkept, l, m, hb.eq_of_getElem? hq hq', hl, hm⟩
  · rintro ⟨hkept, l, m, rfl, hl, hm⟩
    obtain ⟨q, hl, hq⟩ := h.exists_getElem?_names hl
    exact ⟨hkept.1, p, q, rfl, hq,
      (h.mem_targets_code hkept.1 hmem).2 ⟨hkept, m, hm, List.mem_of_getElem? hl⟩⟩

end Filled

theorem initialState_fill_of_not_contains (ha : a.InStep) (hroot : a.graph.Grounded)
    (hinitial : ∀ n, source.initial = some n → source.contains n = false) :
    (a.fill source symbols).initialState = a.initialState := by
  obtain ⟨names, h⟩ := filled_fill a source symbols
  have hsame : (a.fill source symbols).graph.initial = a.graph.initial := by
    refine h.unstarted fun n p hp hn => ?_
    have hc := mem_nodeIds_of_mem_reachable (h.mem_reachable hp)
    rw [hinitial n hn] at hc
    cases hc
  rw [initialState, hsame, initialState]
  cases hi : a.graph.initial with
  | none => rfl
  | some i => exact (continues_fill a source symbols).indexOf?_eq ha (hroot i hi)

/-! ### The whole import -/

/-- **An import**: what `b` has beyond `a` is the requested part of the source. -/
structure Imported (a : Automaton) (source : Graph) (symbols : SymbolSet) (b : Automaton) :
    Prop where
  count : b.stateCount = a.stateCount + source.reachable.length
  clamp : b.min = a.min ∧ b.max = a.max
  final : ∀ k n, source.reachable[k]? = some n →
    (b.isFinal (a.stateCount + k)).value = source.isAccept n
  started : ∀ n, source.initial = some n → source.contains n = true →
    ∃ k, source.reachable[k]? = some n ∧ b.initialState = some (a.stateCount + k)
  unstarted : (∀ n, source.initial = some n → source.contains n = false) →
    b.initialState = a.initialState
  relates : ∀ k n, source.reachable[k]? = some n → ∀ s j,
    b.Relates (a.stateCount + k) s j ↔ Kept a.min a.max symbols s ∧
      ∃ l m, j = a.stateCount + l ∧ source.reachable[l]? = some m ∧
        m ∈ source.targets n (Codec.code s)
  old : ∀ i < a.stateCount, SameState a b i

theorem kept_empty_iff {s : Symbol} (hs : Codec.IsSymbol s) :
    Kept empty.min empty.max symbols s ↔ s ∈ symbols := by
  have hfull : empty.FullyClamped := by decide
  exact ⟨fun h => h.2.1, fun hmem => ⟨hs, hmem, hfull.clamped hs⟩⟩

/-- **Filling imports exactly the requested part of a graph**, whatever the automaton held before,
    and what the imported graph accepts are the words of the source over the symbols that were
    asked for. -/
theorem Made.fill_imports (ha : a.Made) (source : Graph) (symbols : SymbolSet) :
    Imported a source symbols (a.fill source symbols) ∧
      ∀ w, Codec.Spells w → ((ofGraph source symbols).graph.run (w.map Codec.code) = true ↔
        (∀ s ∈ w, s ∈ symbols) ∧ source.run (w.map Codec.code) = true) := by
  have hstep := ha.built.inStep
  have hcontinues := continues_fill a source symbols
  have hb := hcontinues.inStep hstep
  obtain ⟨names, h⟩ := filled_fill a source symbols
  constructor
  · exact {
      count := h.stateCount_eq
      clamp := ⟨h.min, h.max⟩
      final := fun k n hn => h.final_of_getElem? hn
      started := fun n hinitial hn => h.initialState_of_contains hb hinitial hn
      unstarted := initialState_fill_of_not_contains hstep ha.built.sound.grounded
      relates := fun k n hn s j => h.relates_iff hb hn
      old := fun i hi => hcontinues.sameState hstep (fun p hp => old_fill hp) hi }
  · intro w hw
    obtain ⟨names, hnew⟩ := filled_fill empty source symbols
    rw [ofGraph, run_eq_true_iff, run_eq_true_iff, hnew.accepts rfl hw, and_comm]
    exact and_congr_left fun _ => forall₂_congr fun s hs => kept_empty_iff (hw s hs)

/-- Two symbols, and two numbers that are no symbols of the codec. -/
def asked : SymbolSet := .ofList [-1, 3, 7, 70000]

/-- Filled into an automaton over the codepoints 2 and 3, only the symbol 3 gets through. -/
theorem fill_imports_windowed :
    windowed.Made ∧ (windowed.fill (oneOf [Interval.between 1 7]) asked).stateCount = 4 ∧
      (windowed.fill (oneOf [Interval.between 1 7]) asked).initialState = some 2 ∧
      ((windowed.fill (oneOf [Interval.between 1 7]) asked).isFinal 3).value = true ∧
      (windowed.fill (oneOf [Interval.between 1 7]) asked).Relates 2 3 3 ∧
      ¬ (windowed.fill (oneOf [Interval.between 1 7]) asked).Relates 2 7 3 ∧
      ((windowed.fill (oneOf [Interval.between 1 7]) asked).destinations 0 5).value = .ok [1] ∧
      (ofGraph (oneOf [Interval.between 1 7]) asked).graph.run [7] = true := by
  have hmade : windowed.Made := Made.after (.withClamp 2 3) _
  obtain ⟨himported, hlanguage⟩ := hmade.fill_imports (oneOf [Interval.between 1 7]) asked
  have hreach : (oneOf [Interval.between 1 7]).reachable = [0, 1] := by decide_cbv
  have hfirst : (oneOf [Interval.between 1 7]).reachable[0]? = some 0 := by rw [hreach]; rfl
  have hsecond : (oneOf [Interval.between 1 7]).reachable[1]? = some 1 := by rw [hreach]; rfl
  refine ⟨hmade, ?_, ?_, ?_, ?_, ?_, ?_, ?_⟩
  · rw [himported.count, hreach]
    decide
  · obtain ⟨k, hk, hinitial⟩ := himported.started 0 (by decide) (by decide)
    -- the initial node is the first that the search finds
    have hlt := (List.getElem?_eq_some_iff.1 hk).1
    obtain rfl := (List.getElem?_inj hlt (reachable_nodup _)).1 (hk.trans hfirst.symm)
    exact hinitial
  · exact (himported.final 1 1 hsecond).trans (by decide)
  · have hkept : Kept windowed.min windowed.max asked 3 :=
      ⟨by decide, by decide, by decide, by decide⟩
    exact (himported.relates 0 0 hfirst 3 3).2 ⟨hkept, 1, 1, by decide, hsecond, by decide⟩
  · intro h
    have hkept := ((himported.relates 0 0 hfirst 7 3).1 h).1
    exact absurd hkept.2.2.2 (by decide)
  · rw [(himported.old 0 (by decide)).destinations]
    decide
  · exact (hlanguage [7] (by decide)).2 (by decide)

/-! ### The declaration -/

/-- What is filled in leaves the old arrows where they are. -/
theorem Filled.singleValued_of_filled (h : Filled a source symbols names b)
    (hb : b.graph.SingleValued) : a.graph.SingleValued := by
  refine hb.of_targets fun p q c hq => ?_
  obtain ⟨i, arrow, hc⟩ := Graph.mem_targets.1 hq
  exact Graph.mem_targets.2 ⟨i, (h.arrow p i q).2 (Or.inl arrow), hc⟩

/-- **When the declaration is true of what was filled in**: the source is declared nondeterministic,
    or the old part has one destination at most over each codepoint. -/
theorem honest_fill_iff (hsource : source.Honest) :
    (a.fill source symbols).graph.Honest ↔
      source.deterministic = false ∨ a.graph.SingleValued := by
  obtain ⟨names, h⟩ := filled_fill a source symbols
  constructor
  · intro hflag
    cases hdet : source.deterministic with
    | false => exact Or.inl rfl
    | true => exact Or.inr (h.singleValued_of_filled (hflag (h.deterministic.trans hdet)))
  · rintro (hdet | hone)
    · exact honest_of_not_deterministic (h.deterministic.trans hdet)
    · exact fun hdet => h.singleValued (hsource (h.deterministic.symm.trans hdet)) hone

/-- Where the declaration is true, `delta` fails at a state with two destinations. -/
theorem InStep.delta_of_relates (ha : a.InStep) (hflag : a.graph.Honest) {s : Symbol}
    (hj : a.Relates i s j) (hk : a.Relates i s k) (hne : j ≠ k) :
    (a.delta i s).value = .error .nondeterministic := by
  cases hdet : a.isDeterministic with
  | false => simp [delta, hdet]
  | true =>
    have hs := hj.isSymbol
    exact absurd (ha.eq_of_mem_reached (hflag hdet) ((relates_iff_mem_reached hs).1 hj)
      ((relates_iff_mem_reached hs).1 hk)) hne

/-- **Filling takes the declaration over from the source.** Where the automaton and the source are
    declared rightly, so is the result if the source is declared nondeterministic, or no state of
    the automaton had two destinations over one codepoint, and not otherwise; the second holds of
    automata that were declared deterministic. As long as the result is declared rightly, `delta`
    fails at states with two destinations. -/
theorem Made.fill_declares (ha : a.Made) (hflag : a.graph.Honest) (hsource : source.Honest)
    (symbols : SymbolSet) :
    (a.fill source symbols).isDeterministic = source.deterministic ∧
      ((a.fill source symbols).graph.Honest ↔
        source.deterministic = false ∨ a.graph.SingleValued) ∧
      (a.isDeterministic = true → (a.fill source symbols).graph.Honest) ∧
      ((a.fill source symbols).graph.Honest → ∀ i s j k,
        (a.fill source symbols).Relates i s j → (a.fill source symbols).Relates i s k → j ≠ k →
          ((a.fill source symbols).delta i s).value = .error .nondeterministic) := by
  obtain ⟨names, h⟩ := filled_fill a source symbols
  have hb := (continues_fill a source symbols).inStep ha.built.inStep
  refine ⟨h.deterministic, honest_fill_iff hsource, fun hdet => ?_, ?_⟩
  · exact (honest_fill_iff hsource).2 (Or.inr (hflag hdet))
  · exact fun hhonest i s j k hj hk hne => hb.delta_of_relates hhonest hj hk hne

/-- Two destinations over one symbol, rightly declared to be so. -/
def forked : Automaton :=
  (withClamp 0 9).after
    [.addState, .addState, .addState, .setInitial 0, .addTransition 0 1 [3],
      .addTransition 0 2 [3], .declare false]

/-- The one state of the empty language, declared deterministic, makes the declaration false, and
    `delta` names one of the two destinations. -/
theorem not_honest_fill_forked :
    forked.Made ∧ forked.graph.Honest ∧ emptyLanguage.Honest ∧
      (forked.delta 0 3).value = .error .nondeterministic ∧
      ¬ (forked.fill emptyLanguage ∅).graph.Honest ∧
      ((forked.fill emptyLanguage ∅).destinations 0 3).value = .ok [2, 1] ∧
      ((forked.fill emptyLanguage ∅).delta 0 3).value = .ok (some 2) := by
  have hsource : emptyLanguage.Honest := fun _ => isDeterministic_iff.1 (by decide_cbv)
  have hforked : ¬ forked.graph.SingleValued := fun h =>
    absurd (isDeterministic_iff.2 h) (by decide_cbv)
  refine ⟨Made.after (.withClamp 0 9) _, honest_of_not_deterministic (by decide), hsource,
    by decide, fun h => ?_, by decide_cbv, by decide_cbv⟩
  exact ((honest_fill_iff hsource).1 h).elim (by decide) hforked

/-- Declared nondeterministic, the same state leaves `delta` failing. -/
theorem fill_declares_forked :
    forked.Made ∧ forked.graph.Honest ∧ (emptyLanguage.declare false).Honest ∧
      (forked.fill (emptyLanguage.declare false) ∅).graph.Honest ∧
      ((forked.fill (emptyLanguage.declare false) ∅).delta 0 3).value =
        .error .nondeterministic := by
  have hmade : forked.Made := Made.after (.withClamp 0 9) _
  have hflag : forked.graph.Honest := honest_of_not_deterministic (by decide)
  have hsource : (emptyLanguage.declare false).Honest := honest_of_not_deterministic rfl
  obtain ⟨-, hiff, -, hdelta⟩ := hmade.fill_declares hflag hsource ∅
  have hhonest := hiff.2 (Or.inl rfl)
  have htwo : ((forked.fill (emptyLanguage.declare false) ∅).destinations 0 3).value =
      .ok [2, 1] := by decide_cbv
  exact ⟨hmade, hflag, hsource, hhonest,
    hdelta hhonest 0 3 2 1 ⟨_, htwo, by decide⟩ ⟨_, htwo, by decide⟩ (by decide)⟩

end Automaton

end SymbolAutomata
