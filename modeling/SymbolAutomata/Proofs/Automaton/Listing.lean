/-
  SymbolAutomata/Proofs/Automaton/Listing.lean
  ============================================
  **The list of all transitions.**

  `transitions` expands the labels of each state one by one and sorts what comes out.
  The list is in order by source, symbol and destination (`transitions_sorted`), and it
  holds a transition as often as the destinations of its source over its symbol hold its
  destination, if the symbol lies inside the clamp (`count_transitions`).

  So a transition is listed twice where two labels between the same states hold its
  symbol, and the list is strictly increasing just where no destination over a symbol
  inside the clamp is met twice.  That is so for automata whose labels do not overlap,
  which numbering anew achieves and which most edits keep (`tidy_after`).
-/
import Mathlib.Algebra.BigOperators.Group.List.Basic
import SymbolAutomata.Automaton.Query
import SymbolAutomata.Proofs.Automaton.Tidy

namespace SymbolAutomata

namespace Transition

/-- **The order of the list**: by source, then symbol, then destination. -/
def Before (t u : Transition) : Prop :=
  t.source < u.source ∨ t.source = u.source ∧
    (t.symbol < u.symbol ∨ t.symbol = u.symbol ∧ t.destination < u.destination)

instance (t u : Transition) : Decidable (t.Before u) :=
  inferInstanceAs (Decidable (_ ∨ _ ∧ (_ ∨ _ ∧ _)))

theorem Before.ne {t u : Transition} (h : t.Before u) : t ≠ u := by
  rintro rfl
  simp [Before] at h

theorem leaves_iff {t u : Transition} : t.leaves u = true ↔
    t.symbol < u.symbol ∨ t.symbol = u.symbol ∧ t.destination ≤ u.destination := by
  unfold leaves
  rcases Int.lt_trichotomy t.symbol u.symbol with hs | hs | hs
  · simp [Int.compare_eq_lt.2 hs, hs]
  · rcases Nat.lt_trichotomy t.destination u.destination with hd | hd | hd
    · simp [hs, Nat.compare_eq_lt.2 hd, Nat.le_of_lt hd]
    · simp [hs, hd]
    · simp [hs, Nat.compare_eq_gt.2 hd, Nat.not_le.2 hd]
  · have hle : ¬ t.symbol < u.symbol := Int.not_lt.2 (Int.le_of_lt hs)
    have hne : ¬ t.symbol = u.symbol := (Int.ne_of_lt hs).symm
    simp [Int.compare_eq_gt.2 hs, hle, hne]

theorem leaves_trans (t u v : Transition) (htu : t.leaves u = true) (huv : u.leaves v = true) :
    t.leaves v = true := by
  rw [leaves_iff] at *
  rcases htu with hlt | ⟨heq, hle⟩
  · rcases huv with hlt' | ⟨heq', -⟩
    · exact Or.inl (Int.lt_trans hlt hlt')
    · exact Or.inl (heq' ▸ hlt)
  · rcases huv with hlt' | ⟨heq', hle'⟩
    · exact Or.inl (heq ▸ hlt')
    · exact Or.inr ⟨heq.trans heq', Nat.le_trans hle hle'⟩

theorem leaves_total (t u : Transition) : (t.leaves u || u.leaves t) = true := by
  rw [Bool.or_eq_true, leaves_iff, leaves_iff]
  rcases Int.lt_trichotomy t.symbol u.symbol with hlt | heq | hgt
  · exact Or.inl (Or.inl hlt)
  · rcases Nat.le_total t.destination u.destination with hle | hle
    · exact Or.inl (Or.inr ⟨heq, hle⟩)
    · exact Or.inr (Or.inr ⟨heq.symm, hle⟩)
  · exact Or.inr (Or.inl hgt)

/-- Of two transitions of one state that are in order, the first is the second or before it. -/
theorem eq_or_before {t u : Transition} (hsource : t.source = u.source) (h : t.leaves u = true) :
    t = u ∨ t.Before u := by
  rcases leaves_iff.1 h with hlt | ⟨hsymbol, hle⟩
  · exact Or.inr (Or.inr ⟨hsource, Or.inl hlt⟩)
  · rcases Nat.eq_or_lt_of_le hle with heq | hlt
    · cases t
      cases u
      exact Or.inl (by simp_all)
    · exact Or.inr (Or.inr ⟨hsource, Or.inr ⟨hsymbol, hlt⟩⟩)

end Transition

namespace Automaton

open SymbolAutomata.Graph

variable {a : Automaton} {i j : StateIndex} {s : Symbol}

/-! ### The order -/

theorem source_of_mem_transitionsFrom {t : Transition} (ht : t ∈ (a.transitionsFrom i).value) :
    t.source = i := by
  unfold transitionsFrom at ht
  rw [List.mem_mergeSort, List.mem_flatMap] at ht
  obtain ⟨m, -, ht⟩ := ht
  obtain ⟨s, -, rfl⟩ := List.mem_map.1 ht
  rfl

/-- **The list is in order.** -/
theorem transitions_sorted (a : Automaton) :
    a.transitions.Pairwise fun t u => t = u ∨ t.Before u := by
  unfold transitions
  rw [List.pairwise_flatMap]
  constructor
  · intro i _
    have hsorted : (a.transitionsFrom i).value.Pairwise fun t u => t.leaves u = true :=
      List.pairwise_mergeSort Transition.leaves_trans Transition.leaves_total _
    refine hsorted.imp_of_mem fun ht hu hle => Transition.eq_or_before ?_ hle
    rw [source_of_mem_transitionsFrom ht, source_of_mem_transitionsFrom hu]
  · refine List.pairwise_lt_range.imp fun hlt t ht u hu => Or.inr (Or.inl ?_)
    rwa [source_of_mem_transitionsFrom ht, source_of_mem_transitionsFrom hu]

/-- In order, a list is strictly increasing just if nothing is repeated. -/
theorem transitions_increasing_iff (a : Automaton) :
    a.transitions.Pairwise Transition.Before ↔ a.transitions.Nodup := by
  constructor
  · exact fun h => h.imp Transition.Before.ne
  · exact fun h => (h.and (transitions_sorted a)).imp fun hboth => hboth.2.resolve_left hboth.1

/-! ### How often a transition is listed -/

theorem nodup_expand (a : Automaton) (label : Interval) : (a.expand label).Nodup := by
  unfold expand
  split
  · next first last _ =>
    refine List.nodup_range.map fun k l heq => ?_
    simpa only [Int.add_right_inj, Int.ofNat_inj] using heq
  · exact List.nodup_nil

/-- The labels of a state list one of its transitions once for each label that holds the symbol. -/
theorem count_flatMap_expand (a : Automaton) (i j : StateIndex) (s : Symbol)
    (arcs : List (Interval × StateIndex)) :
    (arcs.flatMap fun m => (a.expand m.1).map fun s => (⟨i, m.2, s⟩ : Transition)).count ⟨i, j, s⟩ =
      arcs.countP fun m => m.2 = j && decide (s ∈ a.expand m.1) := by
  induction arcs with
  | nil => rfl
  | cons m arcs ih =>
    have hfirst : ((a.expand m.1).map fun s => (⟨i, m.2, s⟩ : Transition)).count ⟨i, j, s⟩ =
        if m.2 = j && decide (s ∈ a.expand m.1) then 1 else 0 := by
      by_cases hj : m.2 = j
      · subst hj
        have hinj : Function.Injective fun s => (⟨i, m.2, s⟩ : Transition) :=
          fun s t heq => (Transition.mk.inj heq).2.2
        rw [List.count_map_of_injective _ _ hinj, (nodup_expand a m.1).count]
        simp
      · rw [List.count_eq_zero.2]
        · simp [hj]
        · intro hmem
          obtain ⟨t, -, heq⟩ := List.mem_map.1 hmem
          exact hj (Transition.mk.inj heq).2.1
    rw [List.flatMap_cons, List.count_append, hfirst, ih, List.countP_cons, Nat.add_comm]

theorem count_transitionsFrom (a : Automaton) (i k j : StateIndex) (s : Symbol) :
    (a.transitionsFrom k).value.count ⟨i, j, s⟩ = if k = i then
      (a.intervals i).value.countP fun m => m.2 = j && decide (s ∈ a.expand m.1) else 0 := by
  split
  · next hk =>
    subst hk
    unfold transitionsFrom
    rw [(List.mergeSort_perm _ _).count_eq]
    exact count_flatMap_expand a k j s _
  · next hk =>
    exact List.count_eq_zero.2 fun hmem => hk (source_of_mem_transitionsFrom hmem).symm

/-- The destinations over a symbol are met once for each label that holds it. -/
theorem count_reached (a : Automaton) (i j : StateIndex) (s : Symbol) :
    (a.reached i s).count j =
      (a.intervals i).value.countP fun m => m.2 = j && m.1.contains (Codec.code s) := by
  rw [reached, intervals_value]
  cases a.states[i]? with
  | none => rfl
  | some p =>
    rw [Option.toList_some, List.flatMap_singleton, List.flatMap_singleton, targets_eq_exits,
      List.count_filterMap, List.countP_map, List.countP_filter, List.countP_filterMap,
      (moves_perm a.graph p).countP_eq]
    refine List.countP_congr fun m _ => ?_
    cases hindex : a.indexOf? m.2 <;> simp [hindex]

/-- **A transition is listed as often as its destination is met**, if its symbol lies inside the
    clamp. -/
theorem count_transitions (a : Automaton) (i j : StateIndex) (s : Symbol) :
    a.transitions.count ⟨i, j, s⟩ =
      if Codec.IsSymbol s ∧ a.Clamped s then (a.reached i s).count j else 0 := by
  have hlisted : a.transitions.count ⟨i, j, s⟩ =
      (a.intervals i).value.countP fun m => m.2 = j && decide (s ∈ a.expand m.1) := by
    unfold transitions
    rw [List.count_flatMap, List.sum_map_eq_nsmul_single i]
    · rw [Function.comp_apply, count_transitionsFrom, if_pos rfl, List.nodup_range.count]
      split
      · exact one_nsmul _
      · next hi =>
        -- there is no such state, so there are no labels either
        have hnone : a.states[i]? = none :=
          List.getElem?_eq_none (Nat.not_lt.1 fun hlt => hi (List.mem_range.2 hlt))
        rw [zero_nsmul, intervals_value, hnone]
        rfl
    · intro k hk _
      rw [Function.comp_apply, count_transitionsFrom, if_neg hk]
  rw [hlisted]
  split
  · next hs =>
    rw [count_reached]
    refine List.countP_congr fun m _ => ?_
    have hiff : s ∈ a.expand m.1 ↔ m.1.contains (Codec.code s) = true :=
      mem_expand.trans ⟨fun h => h.2.1, fun h => ⟨hs.1, h, hs.2⟩⟩
    simp only [Bool.and_eq_true, decide_eq_true_eq, hiff]
  · next hs =>
    refine List.countP_eq_zero.2 fun m _ hmem => hs ?_
    rw [Bool.and_eq_true, decide_eq_true_eq, decide_eq_true_eq, mem_expand] at hmem
    exact ⟨hmem.2.1, hmem.2.2.2⟩

/-- **Every destination inside the clamp is listed**, and nothing else. -/
theorem mem_transitions_iff_relates :
    (⟨i, j, s⟩ : Transition) ∈ a.transitions ↔ a.Clamped s ∧ a.Relates i s j := by
  rw [← List.count_pos_iff, count_transitions]
  constructor
  · intro hpos
    split at hpos
    · next hs => exact ⟨hs.2, (relates_iff_mem_reached hs.1).2 (List.count_pos_iff.1 hpos)⟩
    · exact absurd hpos (Nat.lt_irrefl 0)
  · rintro ⟨hclamp, h⟩
    rw [if_pos ⟨h.isSymbol, hclamp⟩, List.count_pos_iff]
    exact (relates_iff_mem_reached h.isSymbol).1 h

/-! ### Strictly increasing -/

theorem isSymbol_of_destinations {js : List StateIndex}
    (h : (a.destinations i s).value = .ok js) : Codec.IsSymbol s ∧ js = a.reached i s := by
  cases hc : Codec.codepoint s with
  | error f =>
    unfold destinations at h
    rw [hc] at h
    cases h
  | ok c =>
    have hs := (Codec.codepoint_eq_ok_iff.1 hc).1
    rw [destinations_value hs] at h
    exact ⟨hs, (Except.ok.inj h).symm⟩

/-- **The list is strictly increasing** just where no destination inside the clamp is met twice. -/
theorem increasing_iff_nodup_reached (a : Automaton) :
    a.transitions.Pairwise Transition.Before ↔
      ∀ i s, Codec.IsSymbol s → a.Clamped s → (a.reached i s).Nodup := by
  rw [transitions_increasing_iff, List.nodup_iff_count_le_one]
  constructor
  · intro h i s hs hclamp
    refine List.nodup_iff_count_le_one.2 fun j => ?_
    have hone := h ⟨i, j, s⟩
    rwa [count_transitions, if_pos ⟨hs, hclamp⟩] at hone
  · rintro h ⟨i, j, s⟩
    rw [count_transitions]
    split
    · next hs => exact List.nodup_iff_count_le_one.1 (h i s hs.1 hs.2) j
    · exact Nat.zero_le 1

theorem InStep.nodup_reached (ha : a.InStep) (htidy : a.graph.Tidy) (i : StateIndex) (s : Symbol) :
    (a.reached i s).Nodup := by
  unfold reached
  cases a.states[i]? with
  | none => exact List.nodup_nil
  | some p =>
    rw [Option.toList_some, List.flatMap_singleton]
    refine (htidy.nodup_targets p _).filterMap fun q r j hq hr => ?_
    -- one index, one node
    have hq' := ha.indexOf?_eq_some_iff.1 hq
    have hr' := ha.indexOf?_eq_some_iff.1 hr
    exact Option.some.inj (hq'.symm.trans hr')

theorem Built.increasing_after (ha : a.Built) (htidy : a.graph.Tidy) {es : List Edit}
    (hes : ∀ e ∈ es, e.Looks) : (a.after es).transitions.Pairwise Transition.Before := by
  refine (increasing_iff_nodup_reached _).2 fun i s _ _ => ?_
  exact (ha.after es).inStep.nodup_reached (tidy_after ha htidy hes) i s

/-- **The list of transitions enumerates the symbol relation inside the clamp**, however the
    automaton was made: in order by source, symbol and destination, and each as often as its
    destination is met. It is strictly increasing just where no destination over a symbol inside the
    clamp is met twice. That holds while labels do not overlap: of a new automaton and after
    numbering anew, and then as long as no silent move is added and nothing is imported from a graph
    in which labels overlap. -/
theorem Made.transitions_enumerate {a : Automaton} (ha : a.Made) :
    a.transitions.Pairwise (fun t u => t = u ∨ t.Before u) ∧
      (∀ i j s, (⟨i, j, s⟩ : Transition) ∈ a.transitions ↔ a.Clamped s ∧ a.Relates i s j) ∧
      (∀ i j s js, (a.destinations i s).value = .ok js →
        a.transitions.count ⟨i, j, s⟩ = if a.Clamped s then js.count j else 0) ∧
      (a.transitions.Pairwise Transition.Before ↔
        ∀ i s js, a.Clamped s → (a.destinations i s).value = .ok js → js.Nodup) ∧
      ∀ es : List Edit, (∀ e ∈ es, e.Looks) →
        (∀ lo hi, ((Automaton.withClamp lo hi).after es).transitions.Pairwise Transition.Before) ∧
        (a.graph.Tidy → (a.after es).transitions.Pairwise Transition.Before) ∧
        ∀ e : Edit, e.renumbers = true →
          ((e.perform a).automaton.after es).transitions.Pairwise Transition.Before := by
  refine ⟨transitions_sorted a, fun i j s => mem_transitions_iff_relates, fun i j s js hjs => ?_,
    (increasing_iff_nodup_reached a).trans ?_,
    fun es hes => ⟨fun lo hi => ?_, fun htidy => ?_, fun e he => ?_⟩⟩
  · obtain ⟨hs, rfl⟩ := isSymbol_of_destinations hjs
    rw [count_transitions]
    simp only [hs, true_and]
  · constructor
    · intro h i s js hclamp hjs
      obtain ⟨hs, rfl⟩ := isSymbol_of_destinations hjs
      exact h i s hs hclamp
    · exact fun h i s hs hclamp => h i s _ hclamp (destinations_value hs i)
  · exact (Built.withClamp lo hi).increasing_after tidy_empty hes
  · exact ha.built.increasing_after htidy hes
  · exact (ha.built.edited e).increasing_after (ha.built.sound.tidy_perform he) hes

/-- The wide label and the narrow one both list their common symbol; joined, they list it once. -/
theorem transitions_enumerate_braided :
    braided.Made ∧ (⟨0, 1, 4⟩ : Transition) ∈ braided.transitions ∧
      braided.transitions.count ⟨0, 1, 3⟩ = 2 ∧ braided.transitions.count ⟨0, 1, 4⟩ = 1 ∧
      (braided.after [.reduce, .addState, .addTransition 0 1 [3, 8]]).transitions.Pairwise
        Transition.Before := by
  have hmade : braided.Made := Made.after (.withClamp 0 9) _
  obtain ⟨-, hmem, hcount, -, hruns⟩ := hmade.transitions_enumerate
  have hthree : (braided.destinations 0 3).value = .ok [1, 1] := by decide_cbv
  have hfour : (braided.destinations 0 4).value = .ok [1] := by decide_cbv
  refine ⟨hmade, (hmem 0 1 4).2 ⟨by decide_cbv, _, hfour, by decide⟩, ?_, ?_, ?_⟩
  · rw [hcount 0 1 3 _ hthree]
    decide_cbv
  · rw [hcount 0 1 4 _ hfour]
    decide_cbv
  · refine (hruns [.addState, .addTransition 0 1 [3, 8]] fun e he => ?_).2.2 .reduce rfl
    rcases List.mem_pair.1 he with rfl | rfl
    · exact trivial
    · exact trivial

/-- So the list may repeat a transition. -/
theorem not_increasing_braided :
    braided.Made ∧ (braided.destinations 0 3).value = .ok [1, 1] ∧
      ¬ braided.transitions.Pairwise Transition.Before := by
  refine ⟨Made.after (.withClamp 0 9) _, by decide_cbv, fun h => ?_⟩
  have hnodup := (increasing_iff_nodup_reached braided).1 h 0 3 (by decide) (by decide_cbv)
  exact absurd hnodup (by decide_cbv)

end Automaton

end SymbolAutomata
