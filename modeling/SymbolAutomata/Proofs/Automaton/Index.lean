/-
  SymbolAutomata/Proofs/Automaton/Index.lean
  ==========================================
  **States and nodes stay in step.**

  An automaton keeps the nodes of its graph twice, in the list of its states and in
  the table that leads back.  `InStep` says that both are right: the list names every
  node once and the table is its inverse.  Most edits leave the nodes alone
  (`Retains`), some add states at the end, and the rest number the states anew, which
  puts the automaton in step whatever it was before (`inStep_renumber`).

  As long as the epoch stays the same no edit has numbered anew, so the states that
  there were are still there under the same indices (`continues_perform`,
  `epoch_after`).  `Made` collects the ways to come by an automaton; all of them start
  with one that has no states (`Made.built`).
-/
import SymbolAutomata.Automaton.Algebra
import SymbolAutomata.Pattern.Compile
import SymbolAutomata.Proofs.Automaton.Built

namespace SymbolAutomata

/-! ### The table of a list of nodes -/

theorem StateTable.getElem?_ofNodes {nodes : List NodeId} (h : nodes.Nodup) {n : NodeId}
    {i : StateIndex} : (StateTable.ofNodes nodes)[n]? = some i ↔ nodes[i]? = some n := by
  have hkeys : nodes.zipIdx.Pairwise fun a b => ¬ compare a.1 b.1 = .eq := by
    have hfirst : (nodes.zipIdx.map (·.1)).Nodup := by
      rwa [List.zipIdx_map_fst]
    refine (List.pairwise_map.1 hfirst).imp ?_
    intro a b hne heq
    exact hne (Nat.compare_eq_eq.1 heq)
  have hfound : ∀ {j}, nodes[j]? = some n → (StateTable.ofNodes nodes)[n]? = some j := by
    intro j hj
    apply Std.ExtTreeMap.getElem?_ofList_of_mem (Nat.compare_eq_eq.2 rfl) hkeys
    exact List.mem_zipIdx_iff_getElem?.2 hj
  constructor
  · intro hi
    by_cases hmem : n ∈ nodes
    · obtain ⟨j, hj⟩ := List.mem_iff_getElem?.1 hmem
      rw [hfound hj] at hi
      exact Option.some.inj hi ▸ hj
    · have hnone : (StateTable.ofNodes nodes)[n]? = none := by
        apply Std.ExtTreeMap.getElem?_ofList_of_contains_eq_false
        rw [List.zipIdx_map_fst, Bool.eq_false_iff]
        exact fun hc => hmem (List.contains_iff_mem.1 hc)
      rw [hnone] at hi
      cases hi
  · exact hfound

namespace Automaton

open SymbolAutomata.Graph

/-! ### In step -/

/-- **The states and the nodes correspond one to one**: the list of states names every node of the
    graph once, and the table is the inverse of the list. -/
structure InStep (a : Automaton) : Prop where
  nodup : a.states.Nodup
  mem_states : ∀ n, n ∈ a.states ↔ a.graph.contains n = true
  index : ∀ (n : NodeId) (i : StateIndex), a.index[n]? = some i ↔ a.states[i]? = some n

/-- A node has one index. -/
theorem InStep.eq_of_getElem? {a : Automaton} (ha : a.InStep) {n : NodeId} {i j : StateIndex}
    (hi : a.states[i]? = some n) (hj : a.states[j]? = some n) : i = j :=
  Option.some.inj (((ha.index n i).2 hi).symm.trans ((ha.index n j).2 hj))

theorem InStep.exists_index {a : Automaton} (ha : a.InStep) {n : NodeId}
    (hn : a.graph.contains n = true) : ∃ i : StateIndex, a.states[i]? = some n :=
  List.mem_iff_getElem?.1 ((ha.mem_states n).2 hn)

theorem InStep.exists_index_of_mem_targets {a : Automaton} (ha : a.InStep) {p q : NodeId}
    {c : Codepoint} (hq : q ∈ a.graph.targets p c) : ∃ j : StateIndex, a.states[j]? = some q := by
  obtain ⟨label, arrow, -⟩ := mem_targets.1 hq
  exact ha.exists_index arrow.contains_target

theorem InStep.contains_of_getElem? {a : Automaton} (ha : a.InStep) {n : NodeId} {i : StateIndex}
    (hi : a.states[i]? = some n) : a.graph.contains n = true :=
  (ha.mem_states n).1 (List.mem_of_getElem? hi)

/-- A change that leaves the states and the nodes as they are. -/
structure Retains (a b : Automaton) : Prop where
  states : b.states = a.states
  index : b.index = a.index
  epoch : b.epoch = a.epoch
  contains : ∀ n, b.graph.contains n = a.graph.contains n

/-- A change after which the old indices mean what they meant before. -/
structure Continues (a b : Automaton) : Prop where
  states : a.states <+: b.states
  epoch : b.epoch = a.epoch
  inStep : a.InStep → b.InStep

theorem Retains.refl (a : Automaton) : Retains a a := ⟨rfl, rfl, rfl, fun _ => rfl⟩

theorem Retains.trans {a b c : Automaton} (hab : Retains a b) (hbc : Retains b c) :
    Retains a c :=
  ⟨hbc.states.trans hab.states, hbc.index.trans hab.index, hbc.epoch.trans hab.epoch,
    fun n => (hbc.contains n).trans (hab.contains n)⟩

theorem Continues.refl (a : Automaton) : Continues a a := ⟨List.prefix_refl _, rfl, id⟩

theorem Continues.trans {a b c : Automaton} (hab : Continues a b) (hbc : Continues b c) :
    Continues a c :=
  ⟨hab.states.trans hbc.states, hbc.epoch.trans hab.epoch, hbc.inStep ∘ hab.inStep⟩

theorem Retains.continues {a b : Automaton} (h : Retains a b) : Continues a b := by
  refine ⟨h.states ▸ List.prefix_refl _, h.epoch, ?_⟩
  intro ha
  refine ⟨h.states ▸ ha.nodup, ?_, ?_⟩
  · intro n
    rw [h.states, h.contains]
    exact ha.mem_states n
  · intro n i
    rw [h.states, h.index]
    exact ha.index n i

theorem retains_foldl {α : Type} {round : Automaton → α → Automaton}
    (hround : ∀ a x, Retains a (round a x)) (items : List α) (a : Automaton) :
    Retains a (items.foldl round a) := by
  induction items generalizing a with
  | nil => exact Retains.refl a
  | cons x items ih => exact (hround a x).trans (ih (round a x))

theorem inStep_withClamp (min max : Codepoint) : (withClamp min max).InStep where
  nodup := List.nodup_nil
  mem_states n := iff_of_false List.not_mem_nil Bool.false_ne_true
  index n i := by simp [Automaton.withClamp]

/-! ### New states -/

/-- **A new state goes to the end**, and its node is new. -/
theorem InStep.addState {a : Automaton} (ha : a.InStep) : a.addState.InStep := by
  have hcontains : ∀ n, a.addState.graph.contains n = true ↔
      n = a.graph.nextNode ∨ a.graph.contains n = true := by
    intro n
    show (a.graph.addNode false).contains n = true ↔ _
    rw [contains_eq_isSome, flag?_addNode, contains_eq_isSome]
    by_cases hn : n = a.graph.nextNode <;> simp [hn]
  have hnew : a.graph.nextNode ∉ a.states := by
    rw [ha.mem_states]
    exact fun hc => nextNode_ne hc rfl
  have hstates : a.addState.states = a.states ++ [a.graph.nextNode] := rfl
  refine ⟨?_, ?_, ?_⟩
  · rw [hstates]
    exact List.nodup_append.2 ⟨ha.nodup, List.nodup_singleton _, by
      rintro n hn m hm rfl
      exact hnew (List.mem_singleton.1 hm ▸ hn)⟩
  · intro n
    rw [hstates, hcontains, List.mem_append, List.mem_singleton, ha.mem_states]
    exact or_comm
  · intro n i
    have hinsert : a.addState.index[n]? =
        if a.graph.nextNode = n then some a.states.length else a.index[n]? := by
      show (a.index.insert a.graph.nextNode a.states.length)[n]? = _
      rw [Std.ExtTreeMap.getElem?_insert]
      simp only [Nat.compare_eq_eq]
    rw [hinsert, hstates]
    split
    · next hn =>
      -- the new node is not among the old states, so only the last place is left
      subst hn
      rw [Option.some.injEq]
      constructor
      · rintro rfl
        rw [List.getElem?_concat_length]
      · intro hi
        obtain ⟨hlt, hat⟩ := List.getElem?_eq_some_iff.1 hi
        by_contra hne
        rw [List.length_append, List.length_singleton] at hlt
        rw [List.getElem_append_left (by omega)] at hat
        exact hnew (hat ▸ List.getElem_mem _)
    · next hn =>
      rw [ha.index]
      constructor
      · intro hi
        rw [List.getElem?_append_left (List.getElem?_eq_some_iff.1 hi).1]
        exact hi
      · intro hi
        rcases Nat.lt_or_ge i a.states.length with hlt | hge
        · rwa [List.getElem?_append_left hlt] at hi
        · rw [List.getElem?_append_right hge] at hi
          have hmem := List.mem_singleton.1 (List.mem_of_getElem? hi)
          exact absurd hmem.symm hn

theorem continues_addState (a : Automaton) : Continues a a.addState :=
  ⟨List.prefix_append _ _, rfl, InStep.addState⟩

theorem retains_fillNode (a : Automaton) (source : Graph) (symbols : SymbolSet)
    (names : List (NodeId × NodeId)) (e : NodeId × NodeId) :
    Retains a (a.fillNode source symbols names e) := by
  refine ⟨?_, ?_, ?_, contains_fillNode⟩
  all_goals rw [fillNode_eq, fillMoves_eq]

/-- **An import adds states at the end.** -/
theorem continues_fill (a : Automaton) (source : Graph) (symbols : SymbolSet) :
    Continues a (a.fill source symbols) := by
  have hgrow : ∀ (k : Nat) (b : Automaton), Continues b (Nat.repeat Automaton.addState k b) := by
    intro k b
    induction k with
    | zero => exact Continues.refl b
    | succ k ih => exact ih.trans (continues_addState _)
  have hdeclare : Retains a { a with graph := a.graph.declare source.deterministic } :=
    ⟨rfl, rfl, rfl, fun _ => rfl⟩
  rw [fill_eq]
  refine (hdeclare.continues.trans (hgrow source.reachable.length _)).trans ?_
  exact (retains_foldl (fun b e => retains_fillNode b source symbols _ e) _ _).continues

/-! ### Edits of flags and arcs -/

section Retaining

variable {a : Automaton}

theorem retains_editState {action : String} {i : StateIndex} {edit : Graph → NodeId → Graph}
    (hedit : ∀ g n m, (edit g n).contains m = g.contains m) :
    Retains a (a.editState action i edit).value := by
  unfold editState resolve
  cases a.states[i]? with
  | none => exact Retains.refl a
  | some n => exact ⟨rfl, rfl, rfl, hedit a.graph n⟩

theorem retains_eachState {edit : Automaton → StateIndex → Noted Automaton}
    (hedit : ∀ a i, Retains a (edit a i).value) (is : List StateIndex) :
    Retains a (eachState edit a is).value :=
  eachState_keeps (fun b i hb => hb.trans (hedit b i)) (Retains.refl a) is

theorem retains_addSymbols (p q : NodeId) (symbols : List Symbol) :
    Retains a (a.addSymbols p q symbols).1 := by
  induction symbols generalizing a with
  | nil => exact Retains.refl a
  | cons s rest ih =>
    simp only [addSymbols]
    split
    · exact Retains.refl a
    · refine Retains.trans ?_ ih
      refine ⟨rfl, rfl, rfl, fun n => ?_⟩
      show Graph.contains (if _ then a.graph else _) n = _
      split
      · rfl
      · exact contains_connect _ _ _ _ n

theorem contains_cutArc (c : Codepoint) (g : Graph) (arc : Arc) (n : NodeId) :
    (cutArc c g arc).contains n = g.contains n :=
  (foldl_keeps (·.contains n) (fun h i => contains_connect h _ i _ n) _ _).trans
    (contains_removeArc g arc n)

theorem retains_deleteTransition (i j : StateIndex) (s : Symbol) :
    Retains a (a.deleteTransition i j s).automaton := by
  unfold deleteTransition
  split
  · exact Retains.refl a
  · next c hc =>
    simp only
    split
    · exact Retains.refl a
    · refine ⟨rfl, rfl, rfl, fun n => ?_⟩
      exact foldl_keeps (·.contains n) (fun g arc => contains_cutArc c g arc n) _ _

theorem retains_removeSymbol (s : Symbol) : Retains a (a.removeSymbol s).automaton := by
  have hclear : ∀ c b i, Retains b (clearSymbol s c b i) := by
    intro c b i
    exact retains_foldl (fun b j => retains_deleteTransition i j s) _ b
  unfold removeSymbol
  split
  · exact Retains.refl a
  · next c _ =>
    have hall := retains_foldl (hclear c) (List.range a.stateCount) a
    exact hall.trans ⟨rfl, rfl, rfl, fun _ => rfl⟩

theorem retains_addSilent (i j : StateIndex) : Retains a (a.addSilent i j).value := by
  unfold addSilent
  simp only
  split
  · exact ⟨rfl, rfl, rfl, contains_splice _ _⟩
  · exact Retains.refl a

end Retaining

/-! ### Numbering anew -/

/-- **Numbering the states anew** puts list, table and graph in step, whatever they were before. -/
theorem inStep_renumber (a : Automaton) : a.renumber.InStep where
  nodup := reachable_nodup _
  mem_states _ := mem_reachable_prune
  index _ _ := StateTable.getElem?_ofNodes (reachable_nodup _)

end Automaton

/-- The edits that number the states anew. -/
def Edit.renumbers : Edit → Bool
  | .minimize | .reduce | .removeDead => true
  | _ => false

namespace Automaton

open SymbolAutomata.Graph

section Edits

variable {a : Automaton}

/-- **All other edits keep the indices** that have been handed out. -/
theorem continues_perform {e : Edit} (he : e.renumbers = false) :
    Continues a (e.perform a).automaton := by
  cases e with
  | fill source symbols => exact continues_fill a source symbols
  | addState => exact continues_addState a
  | setInitial i =>
    have hset : Retains a (a.setInitial i).value := retains_editState fun _ _ _ => rfl
    exact hset.continues
  | setFinal is =>
    exact (retains_eachState
      (fun _ _ => retains_editState fun g n => contains_setAccept g n true) is).continues
  | setNonFinal is =>
    exact (retains_eachState
      (fun _ _ => retains_editState fun g n => contains_setAccept g n false) is).continues
  | declare deterministic => exact Retains.continues ⟨rfl, rfl, rfl, fun _ => rfl⟩
  | addToAlphabet s => exact Retains.continues ⟨rfl, rfl, rfl, fun _ => rfl⟩
  | removeFromAlphabet s => exact Retains.continues ⟨rfl, rfl, rfl, fun _ => rfl⟩
  | addTransition i j symbols =>
    show Continues a (a.addTransition i j symbols).automaton
    unfold Automaton.addTransition
    simp only
    split
    · exact Continues.refl a
    · next p q _ => exact (retains_addSymbols p q symbols).continues
  | deleteTransition i j s => exact (retains_deleteTransition i j s).continues
  | removeSymbol s => exact (retains_removeSymbol s).continues
  | addSilent i j => exact (retains_addSilent i j).continues
  | minimize | reduce | removeDead => cases he

theorem epoch_perform (e : Edit) :
    (e.perform a).automaton.epoch = a.epoch + if e.renumbers then 1 else 0 := by
  cases he : e.renumbers with
  | false => exact (continues_perform he).epoch
  | true =>
    cases e with
    | minimize | reduce | removeDead => rfl
    | _ => cases he

theorem InStep.perform (ha : a.InStep) (e : Edit) : (e.perform a).automaton.InStep := by
  cases he : e.renumbers with
  | false => exact (continues_perform he).inStep ha
  | true =>
    cases e with
    | minimize | reduce | removeDead => exact inStep_renumber _
    | _ => cases he

/-! ### Runs -/

/-- The automaton after a run of edits, those that fail included. -/
def after (a : Automaton) (es : List Edit) : Automaton :=
  es.foldl (fun a e => (e.perform a).automaton) a

/-- The epoch counts the edits that numbered the states anew. -/
theorem epoch_after (es : List Edit) : (a.after es).epoch = a.epoch + es.countP Edit.renumbers := by
  induction es generalizing a with
  | nil => rfl
  | cons e es ih =>
    have hcons : a.after (e :: es) = (e.perform a).automaton.after es := rfl
    rw [hcons, ih, epoch_perform, List.countP_cons]
    omega

theorem epoch_after_eq_iff (es : List Edit) :
    (a.after es).epoch = a.epoch ↔ ∀ e ∈ es, e.renumbers = false := by
  rw [epoch_after, Nat.add_eq_left, List.countP_eq_zero]
  simp only [Bool.not_eq_true]

theorem continues_after {es : List Edit} (hes : ∀ e ∈ es, e.renumbers = false) :
    Continues a (a.after es) := by
  induction es generalizing a with
  | nil => exact Continues.refl a
  | cons e es ih =>
    rw [List.forall_mem_cons] at hes
    exact (continues_perform hes.1).trans (ih hes.2)

theorem Built.after (ha : a.Built) (es : List Edit) : (a.after es).Built := by
  induction es generalizing a with
  | nil => exact ha
  | cons e es ih => exact ih (ha.edited e)

theorem Built.inStep (ha : a.Built) : a.InStep := by
  induction ha with
  | withClamp min max => exact inStep_withClamp min max
  | edited e _ ih => exact ih.perform e

end Edits

/-! ### All ways to come by an automaton -/

/-- **Automata as they are made**: without states, by any compiler, from a graph, by an operation on
    other automata, and from any of these by an edit. -/
inductive Made : Automaton → Prop where
  | withClamp (min max : Codepoint) : Made (withClamp min max)
  | ofCompiler {compiler : Pattern.Compiler} {pattern : String} {min max : Codepoint}
      {a : Automaton} (h : ofCompiler compiler pattern min max = .ok a) : Made a
  | ofGraphWithin (min max : Codepoint) (g : Graph) (symbols : SymbolSet) :
      Made (ofGraphWithin min max g symbols)
  | union {a b : Automaton} (ha : Made a) (hb : Made b) : Made (a.union b)
  | intersection {a b : Automaton} (ha : Made a) (hb : Made b) : Made (a.intersection b)
  | concatenate {a b : Automaton} (ha : Made a) (hb : Made b) : Made (a.concatenate b)
  | complementOver {a : Automaton} (ha : Made a) (alphabet : SymbolSet) :
      Made (a.complementOver alphabet)
  | star {a : Automaton} (ha : Made a) : Made a.star
  | repeatMin {a : Automaton} (ha : Made a) (least : Nat) : Made (a.repeatMin least)
  | repeatRange {a : Automaton} (ha : Made a) (least most : Nat) : Made (a.repeatRange least most)
  | edited {a : Automaton} (e : Edit) (ha : Made a) : Made (e.perform a).automaton

theorem built_ofGraphWithin (min max : Codepoint) (g : Graph) (symbols : SymbolSet) :
    (ofGraphWithin min max g symbols).Built :=
  (Built.withClamp min max).edited (.fill g symbols)

/-- **Whatever makes an automaton fills one that has no states.** -/
theorem Made.built {a : Automaton} (ha : a.Made) : a.Built := by
  induction ha with
  | withClamp min max => exact .withClamp min max
  | ofCompiler h =>
    obtain ⟨g, -, hfill⟩ := exists_of_bind_eq_ok h
    obtain rfl := Except.ok.inj hfill
    exact built_ofGraphWithin _ _ g _
  | edited e _ ih => exact ih.edited e
  | _ => exact built_ofGraphWithin _ _ _ _

/-- **The index view stays in step with the graph over whole runs.** However an automaton was made,
    its states and the nodes of its graph correspond one to one, and the initial node is among them.
    A run of edits leaves the epoch as it was just when none of them numbers the states anew, and
    then every index still denotes the node that it denoted before. -/
theorem Made.states_in_step {a : Automaton} (ha : a.Made) :
    a.InStep ∧ (∀ n, a.graph.initial = some n → n ∈ a.states) ∧
      ∀ es : List Edit,
        ((a.after es).epoch = a.epoch ↔ ∀ e ∈ es, e.renumbers = false) ∧
          ((a.after es).epoch = a.epoch → ∀ (i : StateIndex) (n : NodeId),
            a.states[i]? = some n → (a.after es).states[i]? = some n) := by
  have hstep := ha.built.inStep
  refine ⟨hstep, ?_, ?_⟩
  · intro n hn
    exact (hstep.mem_states n).2 (ha.built.sound.grounded n hn)
  · intro es
    refine ⟨epoch_after_eq_iff es, ?_⟩
    intro hepoch i n hi
    obtain ⟨rest, hrest⟩ := (continues_after ((epoch_after_eq_iff es).1 hepoch)).states
    rw [← hrest, List.getElem?_append_left (List.getElem?_eq_some_iff.1 hi).1]
    exact hi

/-- Four states, of which dropping dead arcs leaves the first and the third. -/
def thinned : Automaton :=
  (Automaton.withClamp 0 255).after
    [.addState, .addState, .addState, .addState, .setInitial 0, .setFinal [2],
      .addTransition 0 2 [1], .addTransition 0 1 [7], .addTransition 0 9 [1], .removeDead]

theorem Made.after {a : Automaton} (ha : a.Made) (es : List Edit) : (a.after es).Made := by
  induction es generalizing a with
  | nil => exact ha
  | cons e es ih => exact ih (ha.edited e)

/-- The number of a node that has been dropped is given to a new one, and the old indices keep
    their nodes. -/
theorem states_in_step_thinned :
    thinned.Made ∧ thinned.states = [0, 2] ∧ thinned.index[2]? = some 1 ∧
      (thinned.after [.addState, .deleteTransition 0 1 1]).states = [0, 2, 3] ∧
      (thinned.after [.addState, .deleteTransition 0 1 1]).states[1]? = some 2 := by
  have hmade : thinned.Made := Made.after (.withClamp 0 255) _
  obtain ⟨hstep, -, hrun⟩ := hmade.states_in_step
  have hstates : thinned.states = [0, 2] := by decide_cbv
  obtain ⟨hepoch, hkeep⟩ := hrun [.addState, .deleteTransition 0 1 1]
  refine ⟨hmade, hstates, (hstep.index 2 1).2 (by rw [hstates]; rfl), by decide_cbv, ?_⟩
  exact hkeep (hepoch.2 (by decide)) 1 2 (by rw [hstates]; rfl)

end Automaton

end SymbolAutomata
