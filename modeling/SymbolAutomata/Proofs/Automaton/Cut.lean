/-
  SymbolAutomata/Proofs/Automaton/Cut.lean
  ========================================
  **Taking a codepoint out of arcs.**

  A transition is deleted by cutting its codepoint out of each arc between the two
  nodes and adding what is left of the label on either side.  In terms of
  destinations that removes the one destination over the one codepoint and changes
  nothing else (`mem_targets_cutBetween`), however the labels were laid out.
-/
import Mathlib.Data.List.ReduceOption
import SymbolAutomata.Proofs.Automaton.Acceptance
import SymbolAutomata.Proofs.Automaton.Index

namespace SymbolAutomata

/-- **The two sides of a split** hold the numbers of the interval except the one it is split at. -/
theorem Interval.contains_splitAround {i : Interval} {c d : Nat} :
    (∃ j ∈ [(i.splitAround c).1, (i.splitAround c).2].reduceOption, j.contains d = true) ↔
      i.contains d = true ∧ d ≠ c := by
  simp only [List.reduceOption_mem_iff, List.mem_cons, List.not_mem_nil, or_false, contains_iff]
  unfold splitAround
  split
  · next hc =>
    dsimp only
    constructor
    · intro hfound
      obtain ⟨j, hj | hj, hd⟩ := hfound
      · split at hj
        · obtain rfl := Option.some.inj hj
          simp only at hd
          omega
        · cases hj
      · split at hj
        · obtain rfl := Option.some.inj hj
          simp only at hd
          omega
        · cases hj
    · intro hd
      rcases Nat.lt_or_gt_of_ne hd.2 with hlt | hgt
      · have hleft : i.min < c := by omega
        refine ⟨⟨i.min, c - 1, Nat.le_sub_one_of_lt hleft⟩, Or.inl ?_, hd.1.1,
          Nat.le_sub_one_of_lt hlt⟩
        rw [dif_pos hleft]
      · have hright : c < i.max := by omega
        refine ⟨⟨c + 1, i.max, hright⟩, Or.inr ?_, hgt, hd.1.2⟩
        rw [dif_pos hright]
  · next hc =>
    have hne : i.min ≤ d ∧ d ≤ i.max → d ≠ c := by
      rintro hd rfl
      exact hc hd
    split
    · simp only [Option.some.injEq, reduceCtorEq, or_false, exists_eq_left]
      exact ⟨fun hd => ⟨hd, hne hd⟩, And.left⟩
    · simp only [Option.some.injEq, reduceCtorEq, false_or, exists_eq_left]
      exact ⟨fun hd => ⟨hd, hne hd⟩, And.left⟩

namespace Automaton

open SymbolAutomata.Graph

variable {g : Graph} {arc : Arc} {c d : Codepoint} {p q r s : NodeId}

/-! ### One arc -/

/-- What is left of the label of an arc. -/
def remains (c : Codepoint) (arc : Arc) : List Interval :=
  [(arc.label.splitAround c).1, (arc.label.splitAround c).2].reduceOption

theorem contains_remains :
    (∃ i ∈ remains c arc, i.contains d = true) ↔ arc.label.contains d = true ∧ d ≠ c :=
  Interval.contains_splitAround

theorem cutArc_eq : cutArc c g arc =
    connectAll (g.removeArc arc) ((remains c arc).map fun i => (arc.source, i, arc.target)) := by
  rw [connectAll, List.foldl_map]
  rfl

/-- **Over other codepoints nothing gets lost** when an arc is cut. -/
theorem mem_targets_cutArc_of_ne (hs : s ∈ g.targets r d) (hd : d ≠ c) :
    s ∈ (cutArc c g arc).targets r d := by
  obtain ⟨i, ⟨b, hb, rfl, rfl, rfl⟩, hi⟩ := mem_targets.1 hs
  rw [mem_targets, cutArc_eq]
  simp only [arrow_connectAll, List.mem_map, Prod.mk.injEq]
  by_cases hcut : b = arc
  · subst hcut
    obtain ⟨j, hj, hjd⟩ := contains_remains.2 ⟨hi, hd⟩
    have harrow : g.Arrow b.source b.label b.target := ⟨b, hb, rfl, rfl, rfl⟩
    refine ⟨j, Or.inr ⟨⟨?_, ?_⟩, j, hj, rfl, rfl, rfl⟩, hjd⟩
    · exact (contains_removeArc g b _).trans harrow.contains_source
    · exact (contains_removeArc g b _).trans harrow.contains_target
  · refine ⟨b.label, Or.inl ⟨b, ?_, rfl, rfl, rfl⟩, hi⟩
    rw [arcs_removeArc]
    exact (List.mem_erase_of_ne hcut).2 hb

/-- What an arc that is cut leads to was there before or is where the arc leads. -/
theorem mem_targets_of_mem_targets_cutArc (hs : s ∈ (cutArc c g arc).targets r d) :
    s ∈ g.targets r d ∨ (r = arc.source ∧ arc.label.contains d = true ∧ s = arc.target) := by
  obtain ⟨i, arrow, hi⟩ := mem_targets.1 hs
  rw [cutArc_eq, arrow_connectAll] at arrow
  rcases arrow with ⟨b, hb, rfl, rfl, rfl⟩ | ⟨-, hmem⟩
  · rw [arcs_removeArc] at hb
    exact Or.inl (mem_targets.2 ⟨_, ⟨b, List.mem_of_mem_erase hb, rfl, rfl, rfl⟩, hi⟩)
  · obtain ⟨j, hj, heq⟩ := List.mem_map.1 hmem
    obtain ⟨rfl, rfl, rfl⟩ := by simpa only [Prod.mk.injEq] using heq
    exact Or.inr ⟨rfl, (contains_remains.1 ⟨j, hj, hi⟩).1, rfl⟩

/-- The arcs of a graph that hold a codepoint. -/
def holders (c : Codepoint) (g : Graph) : List Arc := g.arcs.filter (·.label.contains c)

theorem holders_connect {i : Interval} (hi : i.contains c = false) :
    holders c (g.connect p i q) = holders c g := by
  unfold holders connect addArc
  split
  · rfl
  · split
    · exact List.filter_cons_of_neg (by simp [hi])
    · rfl

theorem holders_cutArc : holders c (cutArc c g arc) = (holders c g).erase arc := by
  have hpieces : ∀ i ∈ remains c arc, i.contains c = false := by
    intro i hi
    rw [Bool.eq_false_iff]
    exact fun hc => (contains_remains.1 ⟨i, hi, hc⟩).2 rfl
  have hconnect : ∀ (pieces : List Interval) (h : Graph),
      (∀ i ∈ pieces, i.contains c = false) →
        holders c (pieces.foldl (fun h i => h.connect arc.source i arc.target) h) =
          holders c h := by
    intro pieces
    induction pieces with
    | nil => exact fun _ _ => rfl
    | cons i pieces ih =>
      intro h hall
      rw [List.forall_mem_cons] at hall
      exact (ih _ hall.2).trans (holders_connect hall.1)
  refine (hconnect _ _ hpieces).trans ?_
  rw [holders, arcs_removeArc]
  exact List.erase_filter.symm

/-! ### All arcs between two nodes -/

/-- Takes a codepoint out of all arcs from `p` to `q`. -/
def cutBetween (g : Graph) (p : NodeId) (c : Codepoint) (q : NodeId) : Graph :=
  ((g.outgoing p).filter fun arc => arc.target = q && arc.label.contains c).foldl (cutArc c) g

theorem holders_cutBetween : holders c (cutBetween g p c q) =
    (holders c g).filter fun arc => !(arc.source = p && arc.target = q) := by
  have hhit : ((g.outgoing p).filter fun arc => arc.target = q && arc.label.contains c) =
      (holders c g).filter fun arc => arc.source = p && arc.target = q := by
    unfold outgoing holders
    rw [List.filter_filter, List.filter_filter]
    congr 1
    funext arc
    rw [Bool.and_comm, Bool.and_assoc, Bool.and_left_comm]
  unfold cutBetween
  rw [hhit, ← foldl_erase_filter]
  exact (List.foldl_hom (holders c) fun _ _ => holders_cutArc.symm).symm

theorem initial_cutArc (c : Codepoint) (g : Graph) (arc : Arc) :
    (cutArc c g arc).initial = g.initial := by
  rw [cutArc_eq, initial_connectAll, initial_removeArc]

theorem deterministic_cutArc (c : Codepoint) (g : Graph) (arc : Arc) :
    (cutArc c g arc).deterministic = g.deterministic := by
  rw [cutArc_eq, deterministic_connectAll, deterministic_removeArc]

theorem contains_cutBetween (n : NodeId) : (cutBetween g p c q).contains n = g.contains n :=
  foldl_keeps (·.contains n) (fun h arc => contains_cutArc c h arc n) _ g

theorem initial_cutBetween : (cutBetween g p c q).initial = g.initial :=
  foldl_keeps (·.initial) (initial_cutArc c) _ g

theorem deterministic_cutBetween : (cutBetween g p c q).deterministic = g.deterministic :=
  foldl_keeps (·.deterministic) (deterministic_cutArc c) _ g

theorem mem_targets_iff_holders :
    s ∈ g.targets r c ↔ ∃ arc ∈ holders c g, arc.source = r ∧ arc.target = s := by
  rw [mem_targets]
  simp only [holders, List.mem_filter]
  constructor
  · intro hfound
    obtain ⟨_, ⟨arc, harc, hr, rfl, hs⟩, hi⟩ := hfound
    exact ⟨arc, ⟨harc, hi⟩, hr, hs⟩
  · intro hfound
    obtain ⟨arc, ⟨harc, hi⟩, hr, hs⟩ := hfound
    exact ⟨_, ⟨arc, harc, hr, rfl, hs⟩, hi⟩

/-- **Over the codepoint** only the moves between other nodes are left. -/
theorem mem_targets_cutBetween_self :
    s ∈ (cutBetween g p c q).targets r c ↔ s ∈ g.targets r c ∧ ¬ (r = p ∧ s = q) := by
  rw [mem_targets_iff_holders, mem_targets_iff_holders, holders_cutBetween]
  simp only [List.mem_filter, Bool.not_eq_true', Bool.and_eq_false_iff, decide_eq_false_iff_not]
  constructor
  · intro hfound
    obtain ⟨arc, ⟨harc, hother⟩, rfl, rfl⟩ := hfound
    refine ⟨⟨arc, harc, rfl, rfl⟩, fun hends => ?_⟩
    exact hother.elim (fun hp => hp hends.1) fun hq => hq hends.2
  · intro hfound
    obtain ⟨⟨arc, harc, rfl, rfl⟩, hother⟩ := hfound
    exact ⟨arc, ⟨harc, not_and_or.1 hother⟩, rfl, rfl⟩

/-- **Over other codepoints** the moves stay as they are. -/
theorem mem_targets_cutBetween_of_ne (hd : d ≠ c) :
    s ∈ (cutBetween g p c q).targets r d ↔ s ∈ g.targets r d := by
  -- the arcs that are cut come from `g`, so whatever one of them leads to is found there
  have hfold : ∀ (hit : List Arc) (h : Graph), (∀ arc ∈ hit, arc ∈ g.arcs) →
      (∀ s, s ∈ h.targets r d ↔ s ∈ g.targets r d) →
        (s ∈ (hit.foldl (cutArc c) h).targets r d ↔ s ∈ g.targets r d) := by
    intro hit
    induction hit with
    | nil => exact fun h _ hh => hh s
    | cons arc hit ih =>
      intro h hall hh
      rw [List.forall_mem_cons] at hall
      refine ih _ hall.2 fun t => ⟨fun ht => ?_, fun ht => ?_⟩
      · rcases mem_targets_of_mem_targets_cutArc ht with old | ⟨rfl, hi, rfl⟩
        · exact (hh t).1 old
        · exact mem_targets.2 ⟨_, ⟨arc, hall.1, rfl, rfl, rfl⟩, hi⟩
      · exact mem_targets_cutArc_of_ne ((hh t).2 ht) hd
  exact hfold _ g (fun arc harc => (mem_outgoing.1 (List.mem_filter.1 harc).1).1) fun _ => Iff.rfl

/-- **Cutting a codepoint out of the arcs between two nodes** removes this one move. -/
theorem mem_targets_cutBetween : s ∈ (cutBetween g p c q).targets r d ↔
    s ∈ g.targets r d ∧ ¬ (r = p ∧ d = c ∧ s = q) := by
  by_cases hd : d = c
  · subst hd
    rw [mem_targets_cutBetween_self]
    exact and_congr_right fun _ => not_congr (and_congr_right fun _ => (and_iff_right rfl).symm)
  · rw [mem_targets_cutBetween_of_ne hd]
    exact ⟨fun hs => ⟨hs, fun h => hd h.2.1⟩, And.left⟩

/-! ### Deleted transitions -/

section Deletion

variable {a : Automaton} {symbol : Symbol}

theorem deleteTransition_eq (hc : Codec.codepoint symbol = .ok c) {i j : StateIndex}
    (hp : a.states[i]? = some p) (hq : a.states[j]? = some q) :
    (a.deleteTransition i j symbol).automaton =
      { a with
        graph := cutBetween a.graph p c q
        alphabet := if (cutBetween a.graph p c q).arcs.any (·.label.contains c) then a.alphabet
          else a.alphabet.erase symbol } := by
  unfold deleteTransition resolveBoth resolve
  rw [hc, hp, hq]
  rfl

theorem deleteTransition_of_none (hc : Codec.codepoint symbol = .ok c) {i j : StateIndex}
    (hends : a.states[i]? = none ∨ a.states[j]? = none) :
    (a.deleteTransition i j symbol).automaton = a := by
  unfold deleteTransition resolveBoth resolve
  rw [hc]
  rcases hends with hi | hj
  · rw [hi]
    rfl
  · rw [hj]
    cases a.states[i]? <;> rfl

/-- **A deletion does nothing or cuts** the codepoint out of the arcs between two nodes. -/
theorem deleteTransition_cases (a : Automaton) (i j : StateIndex) (symbol : Symbol) :
    (a.deleteTransition i j symbol).automaton = a ∨
      ∃ c p q, Codec.codepoint symbol = .ok c ∧
        (a.deleteTransition i j symbol).automaton =
          { a with
            graph := cutBetween a.graph p c q
            alphabet := if (cutBetween a.graph p c q).arcs.any (·.label.contains c) then a.alphabet
              else a.alphabet.erase symbol } := by
  cases hc : Codec.codepoint symbol with
  | error f =>
    unfold deleteTransition
    rw [hc]
    exact Or.inl rfl
  | ok c =>
    by_cases hends : a.states[i]? = none ∨ a.states[j]? = none
    · exact Or.inl (deleteTransition_of_none hc hends)
    · obtain ⟨hi, hj⟩ := not_or.1 hends
      obtain ⟨p, hp⟩ := Option.ne_none_iff_exists'.1 hi
      obtain ⟨q, hq⟩ := Option.ne_none_iff_exists'.1 hj
      exact Or.inr ⟨c, p, q, rfl, deleteTransition_eq hc hp hq⟩

/-- **Deleting a transition** removes this one move. -/
theorem mem_targets_deleteTransition (hc : Codec.codepoint symbol = .ok c) {i j : StateIndex} :
    s ∈ (a.deleteTransition i j symbol).automaton.graph.targets r d ↔
      s ∈ a.graph.targets r d ∧
        ¬ (d = c ∧ a.states[i]? = some r ∧ a.states[j]? = some s) := by
  cases hp : a.states[i]? with
  | none => simp [deleteTransition_of_none hc (Or.inl hp)]
  | some p =>
    cases hq : a.states[j]? with
    | none => simp [deleteTransition_of_none hc (Or.inr hq)]
    | some q =>
      rw [deleteTransition_eq hc hp hq, mem_targets_cutBetween, Option.some.injEq,
        Option.some.injEq]
      constructor
      · exact fun h => ⟨h.1, fun hcut => h.2 ⟨hcut.2.1.symm, hcut.1, hcut.2.2.symm⟩⟩
      · exact fun h => ⟨h.1, fun hcut => h.2 ⟨hcut.2.1, hcut.1.symm, hcut.2.2.symm⟩⟩

theorem mem_targets_foldl_deleteTransition (hc : Codec.codepoint symbol = .ok c) {i : StateIndex}
    {js : List StateIndex} :
    s ∈ (js.foldl (fun a j => (a.deleteTransition i j symbol).automaton) a).graph.targets r d ↔
      s ∈ a.graph.targets r d ∧
        ¬ (d = c ∧ a.states[i]? = some r ∧ ∃ j ∈ js, a.states[j]? = some s) := by
  induction js generalizing a with
  | nil => simp
  | cons j js ih =>
    rw [List.foldl_cons, ih, mem_targets_deleteTransition hc,
      (retains_deleteTransition i j symbol).states, and_assoc, ← not_or, ← and_or_left,
      ← and_or_left]
    simp only [List.mem_cons, exists_eq_or_imp]

/-- **Clearing a state of a symbol** removes its moves over the symbol. -/
theorem InStep.mem_targets_clearSymbol (ha : a.InStep) (hc : Codec.codepoint symbol = .ok c)
    {i : StateIndex} :
    s ∈ (clearSymbol symbol c a i).graph.targets r d ↔
      s ∈ a.graph.targets r d ∧ ¬ (d = c ∧ a.states[i]? = some r) := by
  unfold clearSymbol
  rw [mem_targets_foldl_deleteTransition hc]
  refine and_congr_right fun hs => not_congr (and_congr_right fun hd => ?_)
  constructor
  · exact And.left
  · intro hr
    -- the destination has an index, and the index is among those that are cleared
    obtain ⟨label, arrow, -⟩ := mem_targets.1 hs
    obtain ⟨j, hj⟩ := ha.exists_index arrow.contains_target
    refine ⟨hr, j, ?_, hj⟩
    rw [mem_ascending, hr, Option.toList_some, List.flatMap_singleton, List.mem_filterMap]
    exact ⟨s, hd ▸ hs, (ha.index s j).2 hj⟩

theorem retains_clearSymbol (a : Automaton) (i : StateIndex) :
    Retains a (clearSymbol symbol c a i) :=
  retains_foldl (fun _ j => retains_deleteTransition i j symbol) _ a

theorem InStep.mem_targets_foldl_clearSymbol (ha : a.InStep) (hc : Codec.codepoint symbol = .ok c)
    {is : List StateIndex} :
    s ∈ (is.foldl (clearSymbol symbol c) a).graph.targets r d ↔
      s ∈ a.graph.targets r d ∧ ¬ (d = c ∧ ∃ i ∈ is, a.states[i]? = some r) := by
  induction is generalizing a with
  | nil => simp
  | cons i is ih =>
    have hretains : Retains a (clearSymbol symbol c a i) := retains_clearSymbol a i
    rw [List.foldl_cons, ih (hretains.continues.inStep ha), ha.mem_targets_clearSymbol hc,
      hretains.states, and_assoc, ← not_or, ← and_or_left]
    simp only [List.mem_cons, exists_eq_or_imp]

/-- **Removing a symbol** removes all moves over it. -/
theorem InStep.mem_targets_removeSymbol (ha : a.InStep) (hc : Codec.codepoint symbol = .ok c) :
    s ∈ (a.removeSymbol symbol).automaton.graph.targets r d ↔ s ∈ a.graph.targets r d ∧ d ≠ c := by
  have hremove : (a.removeSymbol symbol).automaton.graph =
      ((List.range a.stateCount).foldl (clearSymbol symbol c) a).graph := by
    unfold removeSymbol
    rw [hc]
    rfl
  rw [hremove, ha.mem_targets_foldl_clearSymbol hc]
  refine and_congr_right fun hs => not_congr (and_iff_left ?_)
  obtain ⟨label, arrow, -⟩ := mem_targets.1 hs
  obtain ⟨i, hi⟩ := ha.exists_index arrow.contains_source
  exact ⟨i, List.mem_range.2 (List.getElem?_eq_some_iff.1 hi).1, hi⟩

end Deletion

end Automaton

end SymbolAutomata
