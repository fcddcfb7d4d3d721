/-
  SymbolAutomata/Proofs/Automaton/Built.lean
  ==========================================
  **What holds of every automaton that can be built.**

  An automaton starts without states and is changed by edits (`Built`).  Its graph
  then has all labels inside the codec, its initial node, if there is one, is a node
  of the graph, and so are the nodes of its states (`Built.sound`); each edit keeps
  this (`Sound.perform`).
-/
import Mathlib.Data.List.ReduceOption
import SymbolAutomata.Automaton.Edit
import SymbolAutomata.Proofs.Automaton.Fill
import SymbolAutomata.Proofs.Graph.Minimal
import SymbolAutomata.Proofs.Graph.Silent

namespace SymbolAutomata

namespace Automaton

open SymbolAutomata.Graph

/-- **Automata that can be built**: from one without states by any number of edits, those that
    failed included. -/
inductive Built : Automaton → Prop where
  | withClamp (min max : Codepoint) : Built (withClamp min max)
  | edited {a : Automaton} (e : Edit) (h : Built a) : Built (e.perform a).automaton

/-- The invariant of all edits. -/
structure Sound (a : Automaton) : Prop where
  grounded : a.graph.Grounded
  encoded : a.graph.Encoded
  states : ∀ n ∈ a.states, a.graph.contains n = true

theorem sound_withClamp (min max : Codepoint) : (withClamp min max).Sound where
  grounded i hi := by cases hi
  encoded p i q arrow := absurd arrow not_arrow_empty
  states n hn := by cases hn

/-! ### Edits of the graph -/

/-- A change of the graph that keeps its nodes and the range of its labels. -/
structure Keeps (g h : Graph) : Prop where
  contains : ∀ n, g.contains n = true → h.contains n = true
  grounded : g.Grounded → h.Grounded
  encoded : g.Encoded → h.Encoded

theorem Keeps.refl (g : Graph) : Keeps g g := ⟨fun _ h => h, fun h => h, fun h => h⟩

theorem Keeps.trans {g h k : Graph} (hgh : Keeps g h) (hhk : Keeps h k) : Keeps g k :=
  ⟨fun n hn => hhk.contains n (hgh.contains n hn), fun h => hhk.grounded (hgh.grounded h),
    fun h => hhk.encoded (hgh.encoded h)⟩

theorem Keeps.of_views {g h : Graph} (hcontains : ∀ n, g.contains n = true → h.contains n = true)
    (hinitial : h.initial = g.initial)
    (harrow : ∀ p i q, h.Arrow p i q → i.max ≤ Codec.maxCodepoint ∨ ∃ p' j q', g.Arrow p' j q' ∧
      i.max ≤ j.max) : Keeps g h where
  contains := hcontains
  grounded hg i hi := hcontains i (hg i (hinitial ▸ hi))
  encoded hg p i q arrow := by
    rcases harrow p i q arrow with hle | ⟨p', j, q', arrow', hle⟩
    · exact hle
    · exact Nat.le_trans hle (hg p' j q' arrow')

theorem Sound.of_keeps {a b : Automaton} (ha : a.Sound) (hk : Keeps a.graph b.graph)
    (hstates : b.states = a.states) : b.Sound where
  grounded := hk.grounded ha.grounded
  encoded := hk.encoded ha.encoded
  states n hn := hk.contains n (ha.states n (hstates ▸ hn))

theorem keeps_connect {g : Graph} {p q : NodeId} {i : Interval}
    (hi : i.max ≤ Codec.maxCodepoint ∨ ∃ p' j q', g.Arrow p' j q' ∧ i.max ≤ j.max) :
    Keeps g (g.connect p i q) := by
  apply Keeps.of_views
  · exact fun n hn => (contains_connect g p i q n).trans hn
  · exact initial_connect g p i q
  · intro p' j q' arrow
    rcases arrow_connect.1 arrow with old | ⟨-, rfl, rfl, rfl⟩
    · exact Or.inr ⟨p', j, q', old, Nat.le_refl _⟩
    · exact hi

theorem keeps_setAccept (g : Graph) (n : NodeId) (b : Bool) : Keeps g (g.setAccept n b) := by
  apply Keeps.of_views
  · exact fun m hm => (contains_setAccept g n b m).trans hm
  · exact initial_setAccept g n b
  · exact fun p i q arrow => Or.inr ⟨p, i, q, arrow_setAccept.1 arrow, Nat.le_refl _⟩

theorem keeps_splice (g : Graph) (pairs : List (NodeId × NodeId)) :
    Keeps g (g.splice pairs) := by
  apply Keeps.of_views
  · exact fun n hn => (contains_splice g pairs n).trans hn
  · exact initial_splice g pairs
  · intro p i q arrow
    rcases arrow_splice.1 arrow with old | ⟨-, r, -, old⟩
    · exact Or.inr ⟨p, i, q, old, Nat.le_refl _⟩
    · exact Or.inr ⟨r, i, q, old, Nat.le_refl _⟩

theorem max_le_of_mem_splitAround {i j : Interval} {c : Codepoint}
    (hj : j ∈ [(i.splitAround c).1, (i.splitAround c).2].reduceOption) : j.max ≤ i.max := by
  rw [List.reduceOption_mem_iff] at hj
  unfold Interval.splitAround at hj
  split at hj
  · next h =>
    simp only [List.mem_cons, List.not_mem_nil, or_false] at hj
    rcases hj with hj | hj
    · split at hj
      · obtain rfl := Option.some.inj hj
        exact Nat.le_trans (Nat.sub_le c 1) h.2
      · cases hj
    · split at hj
      · obtain rfl := Option.some.inj hj
        exact Nat.le_refl _
      · cases hj
  · split at hj
    · simp only [List.mem_cons, Option.some.injEq, List.not_mem_nil, or_false] at hj
      rcases hj with rfl | hj
      · exact Nat.le_refl _
      · cases hj
    · simp only [List.mem_cons, Option.some.injEq, List.not_mem_nil, or_false] at hj
      rcases hj with hj | rfl
      · cases hj
      · exact Nat.le_refl _

theorem keeps_removeArc (g : Graph) (a : Arc) : Keeps g (g.removeArc a) := by
  apply Keeps.of_views
  · exact fun n hn => (contains_removeArc g a n).trans hn
  · exact initial_removeArc g a
  · rintro p i q ⟨b, hb, hs⟩
    rw [arcs_removeArc] at hb
    exact Or.inr ⟨p, i, q, ⟨b, List.mem_of_mem_erase hb, hs⟩, Nat.le_refl _⟩

theorem keeps_foldl {α : Type} {round : Graph → α → Graph} {items : List α}
    (hround : ∀ g, ∀ x ∈ items, Keeps g (round g x)) (g : Graph) :
    Keeps g (items.foldl round g) := by
  induction items generalizing g with
  | nil => exact Keeps.refl g
  | cons x items ih =>
    exact (hround g x (List.mem_cons_self ..)).trans
      (ih (fun h y hy => hround h y (List.mem_cons_of_mem _ hy)) _)

theorem keeps_cutArc (c : Codepoint) (g : Graph) {arc : Arc}
    (harc : arc.label.max ≤ Codec.maxCodepoint) : Keeps g (cutArc c g arc) := by
  refine (keeps_removeArc g arc).trans (keeps_foldl ?_ _)
  intro h i hi
  exact keeps_connect (Or.inl (Nat.le_trans (max_le_of_mem_splitAround hi) harc))

/-! ### Edits of the automaton -/

variable {a : Automaton}

theorem Sound.fill (ha : a.Sound) (source : Graph) (symbols : SymbolSet) :
    (a.fill source symbols).Sound := by
  obtain ⟨names, h⟩ := filled_fill a source symbols
  refine ⟨?_, ?_, ?_⟩
  · intro i hi
    rw [h.contains]
    by_cases hstart : ∃ n p, (n, p) ∈ names ∧ source.initial = some n
    · obtain ⟨n, p, hp, hn⟩ := hstart
      rw [h.started n p hp hn] at hi
      exact Or.inr ⟨n, Option.some.inj hi ▸ hp⟩
    · rw [h.unstarted fun n p hp hn => hstart ⟨n, p, hp, hn⟩] at hi
      exact Or.inl (ha.grounded i hi)
  · intro x i y arrow
    rcases (h.arrow x i y).1 arrow with old | ⟨n, label, m, -, -, -, hi⟩
    · exact ha.encoded x i y old
    · exact (contains_of_mem_carriedLabels hi i.contains_max).2.2.2
  · intro n hn
    rw [h.contains]
    rw [h.states, List.mem_append, List.mem_map] at hn
    rcases hn with hn | ⟨⟨m, p⟩, hp, rfl⟩
    · exact Or.inl (ha.states n hn)
    · exact Or.inr ⟨m, hp⟩

theorem Sound.addState (ha : a.Sound) : a.addState.Sound := by
  have hold : ∀ n, a.graph.contains n = true → a.addState.graph.contains n = true := by
    intro n hn
    show (a.graph.addNode false).contains n = true
    rw [contains_eq_isSome, flag?_addNode]
    split
    · rfl
    · exact hn
  refine ⟨?_, ?_, ?_⟩
  · intro i hi
    exact hold i (ha.grounded i ((initial_addNode a.graph false).symm.trans hi))
  · exact fun p i q arrow => ha.encoded p i q (arrow_addNode.1 arrow)
  · intro n hn
    rcases List.mem_append.1 hn with hn | hn
    · exact hold n (ha.states n hn)
    · rw [List.mem_singleton.1 hn]
      show (a.graph.addNode false).contains a.graph.nextNode = true
      rw [contains_eq_isSome, flag?_addNode, if_pos rfl]
      rfl

theorem Sound.editState (ha : a.Sound) {action : String} {i : StateIndex}
    {edit : Graph → NodeId → Graph}
    (hedit : ∀ n, a.graph.contains n = true → Keeps a.graph (edit a.graph n)) :
    (a.editState action i edit).value.Sound := by
  unfold Automaton.editState resolve
  cases hn : a.states[i]? with
  | none => exact ha
  | some n => exact ha.of_keeps (hedit n (ha.states n (List.mem_of_getElem? hn))) rfl

/-- What every single edit keeps is kept when one state is edited after the other. -/
theorem eachState_keeps {P : Automaton → Prop} {edit : Automaton → StateIndex → Noted Automaton}
    (hedit : ∀ b i, P b → P (edit b i).value) {a : Automaton} (ha : P a) (is : List StateIndex) :
    P (eachState edit a is).value :=
  List.foldlRecOn (motive := fun r : Noted Automaton => P r.value) is _ ha
    fun r hr i _ => hedit r.value i hr

theorem Sound.setInitial (ha : a.Sound) (i : StateIndex) : (a.setInitial i).value.Sound := by
  apply ha.editState
  intro n hn
  refine ⟨fun _ hm => hm, ?_, fun hg => hg⟩
  intro _ j hj
  obtain rfl := Option.some.inj hj
  exact hn

theorem Sound.addSymbols (ha : a.Sound) (p q : NodeId) (symbols : List Symbol) :
    (a.addSymbols p q symbols).1.Sound := by
  induction symbols generalizing a with
  | nil => exact ha
  | cons s rest ih =>
    unfold Automaton.addSymbols
    split
    · exact ha
    · next c hc =>
      apply ih
      obtain ⟨hs, hcode⟩ := Codec.codepoint_eq_ok_iff.1 hc
      have hmax : c ≤ Codec.maxCodepoint := hcode ▸ Codec.code_le_max hs
      refine ha.of_keeps ?_ rfl
      show Keeps a.graph (if _ then a.graph else _)
      split
      · exact Keeps.refl _
      · exact keeps_connect (Or.inl hmax)

theorem Sound.deleteTransition (ha : a.Sound) (i j : StateIndex) (s : Symbol) :
    (a.deleteTransition i j s).automaton.Sound := by
  unfold Automaton.deleteTransition
  split
  · exact ha
  · next c hc =>
    simp only
    split
    · exact ha
    · next p q hends =>
      refine ha.of_keeps (keeps_foldl ?_ _) rfl
      intro g arc harc
      exact keeps_cutArc c g (ha.encoded.label_max_le (mem_outgoing.1 (List.mem_filter.1 harc).1).1)

theorem Sound.removeSymbol (ha : a.Sound) (s : Symbol) : (a.removeSymbol s).automaton.Sound := by
  have hclear : ∀ (c : Codepoint) (b : Automaton) (i : StateIndex), b.Sound →
      (clearSymbol s c b i).Sound := by
    intro c b i hb
    have hfold : ∀ (js : List Nat) (b : Automaton), b.Sound →
        (js.foldl (fun a j => (a.deleteTransition i j s).automaton) b).Sound := by
      intro js
      induction js with
      | nil => exact fun _ hb => hb
      | cons j js ih => exact fun b hb => ih _ (hb.deleteTransition i j s)
    exact hfold _ b hb
  have hall : ∀ (c : Codepoint) (is : List Nat) (b : Automaton), b.Sound →
      (is.foldl (clearSymbol s c) b).Sound := by
    intro c is
    induction is with
    | nil => exact fun _ hb => hb
    | cons i is ih => exact fun b hb => ih _ (hclear c b i hb)
  unfold Automaton.removeSymbol
  split
  · exact ha
  · next c _ =>
    have hsound := hall c (List.range a.stateCount) a ha
    exact hsound.of_keeps (Keeps.refl _) rfl

theorem Sound.addSilent (ha : a.Sound) (i j : StateIndex) : (a.addSilent i j).value.Sound := by
  unfold Automaton.addSilent
  simp only
  split
  · exact ha.of_keeps (keeps_splice _ _) rfl
  · exact ha

/-- Numbering the states anew asks nothing of the old states. -/
theorem sound_renumber (hroot : a.graph.Grounded) (henc : a.graph.Encoded) : a.renumber.Sound := by
  refine ⟨?_, ?_, ?_⟩
  · intro i hi
    have hi' : a.graph.initial = some i := (initial_prune a.graph).symm.trans hi
    exact contains_prune.2 (mem_reachable_initial hi' (hroot i hi'))
  · exact fun p i q arrow => henc p i q (arrow_prune.1 arrow).1
  · exact fun n hn => mem_nodeIds_of_mem_reachable hn

theorem Sound.minimize (ha : a.Sound) : a.minimize.Sound := by
  have hmin := minimal_minimize ha.encoded ha.grounded
  exact sound_renumber hmin.rooted.grounded hmin.encoded

theorem Sound.reduce (ha : a.Sound) : a.reduce.Sound := by
  apply sound_renumber
  · intro i hi
    show a.graph.reduce.contains i = true
    rw [contains_reduce]
    exact ha.grounded i ((initial_reduce a.graph).symm.trans hi)
  · exact ha.encoded.of_targets fun p q c hq => ⟨p, q, mem_targets_reduce.1 hq⟩

theorem Sound.removeDead (ha : a.Sound) : a.removeDead.Sound := by
  apply sound_renumber
  · intro i hi
    show a.graph.removeDead.contains i = true
    rw [contains_removeDead]
    exact ha.grounded i ((initial_removeDead a.graph).symm.trans hi)
  · exact ha.encoded.of_targets fun p q c hq => ⟨p, q, (mem_targets_removeDead.1 hq).1⟩

/-- **Every edit keeps the invariant.** -/
theorem Sound.perform (ha : a.Sound) (e : Edit) : (e.perform a).automaton.Sound := by
  cases e with
  | fill source symbols => exact ha.fill source symbols
  | addState => exact ha.addState
  | setInitial i => exact ha.setInitial i
  | setFinal is =>
    exact eachState_keeps (fun _ _ hb => hb.editState fun n _ => keeps_setAccept _ n true) ha is
  | setNonFinal is =>
    exact eachState_keeps (fun _ _ hb => hb.editState fun n _ => keeps_setAccept _ n false) ha is
  | declare deterministic => exact ha.of_keeps ⟨fun _ h => h, fun h => h, fun h => h⟩ rfl
  | addToAlphabet s => exact ha.of_keeps (Keeps.refl _) rfl
  | removeFromAlphabet s => exact ha.of_keeps (Keeps.refl _) rfl
  | addTransition i j symbols =>
    show (a.addTransition i j symbols).automaton.Sound
    unfold Automaton.addTransition
    simp only
    split
    · exact ha
    · next p q _ => exact ha.addSymbols p q symbols
  | deleteTransition i j s => exact ha.deleteTransition i j s
  | removeSymbol s => exact ha.removeSymbol s
  | addSilent i j => exact ha.addSilent i j
  | minimize => exact ha.minimize
  | reduce => exact ha.reduce
  | removeDead => exact ha.removeDead

/-- **The invariant holds of every automaton that can be built.** -/
theorem Built.sound (ha : a.Built) : a.Sound := by
  induction ha with
  | withClamp min max => exact sound_withClamp min max
  | edited e _ ih => exact ih.perform e

end Automaton

end SymbolAutomata
