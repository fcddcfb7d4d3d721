/-
  SymbolAutomata/Proofs/Automaton/Least.lean
  ==========================================
  **When minimization leaves the fewest states.**

  Minimization looks at words of codepoints, but an automaton is run on words of
  symbols, and the reserved codepoints belong to none.  Labels may stretch over them
  all the same, so the minimal graph may have nodes for words that can never be run
  (`not_least_hollow`).  It leaves the fewest states of all deterministic automata that
  give the same answers just when its nodes are discerned by words of symbols, and they
  are if the graph accepts no other words (`Made.minimize_least_iff`).

  The yardstick is an automaton whose graph is minimal for the words of symbols alone:
  the graph is cut down to them by a product and minimized then (`spokenPart`).
-/
import SymbolAutomata.Proofs.Automaton.Declared
import SymbolAutomata.Proofs.Automaton.Visits
import SymbolAutomata.Proofs.Graph.Discerned

namespace SymbolAutomata

namespace Codec

/-- The codepoint is that of a symbol. -/
def IsCode (c : Codepoint) : Prop := ∃ s, IsSymbol s ∧ code s = c

theorem isCode_iff {c : Codepoint} : IsCode c ↔ c ≤ maxCodepoint ∧ c ∉ reserved := by
  constructor
  · rintro ⟨s, hs, rfl⟩
    exact ⟨code_le_max hs, code_not_mem s⟩
  · rintro ⟨hc, hfree⟩
    exact exists_code hc hfree

/-- **Words of codepoints of symbols** are those that words of symbols are read as. -/
theorem over_isCode_iff {w : List Codepoint} :
    Graph.Over IsCode w ↔ ∃ v, Spells v ∧ v.map code = w := by
  constructor
  · intro hw
    induction w with
    | nil => exact ⟨[], List.forall_mem_nil _, rfl⟩
    | cons c w ih =>
      rw [Graph.Over, List.forall_mem_cons] at hw
      obtain ⟨⟨s, hs, rfl⟩, hw⟩ := hw
      obtain ⟨v, hv, rfl⟩ := ih hw
      exact ⟨s :: v, List.forall_mem_cons.2 ⟨hs, hv⟩, rfl⟩
  · rintro ⟨v, hv, rfl⟩
    exact List.forall_mem_map.2 fun s hs => ⟨s, hv s hs, rfl⟩

end Codec

namespace Graph

/-! ### Words of symbols -/

/-- The graph that accepts every word of codepoints of symbols. -/
def symbolWords : Graph :=
  build [true] ((gapsFrom Codec.minCodepoint (Codec.reserved.map Interval.single)).map
    fun i => (0, i, 0)) 0

theorem exists_gap_iff {c : Codepoint} :
    (∃ i ∈ gapsFrom Codec.minCodepoint (Codec.reserved.map Interval.single),
      i.contains c = true) ↔ Codec.IsCode c := by
  rw [mem_gapsFrom (by decide) (by decide), Codec.isCode_iff]
  refine (and_iff_right (Nat.zero_le c)).trans (and_congr_right fun _ => ?_)
  simp only [List.forall_mem_map, ← Bool.not_eq_true, Interval.contains_single]
  constructor
  · exact fun h hc => h c hc rfl
  · rintro h r hr rfl
    exact h hr

theorem mem_targets_symbolWords {p q : NodeId} {c : Codepoint} :
    q ∈ symbolWords.targets p c ↔ p = 0 ∧ q = 0 ∧ Codec.IsCode c := by
  rw [← exists_gap_iff, mem_targets]
  simp only [symbolWords, arrow_build, List.mem_map, Prod.mk.injEq]
  constructor
  · rintro ⟨i, ⟨⟨j, hj, rfl, rfl, rfl⟩, -⟩, hc⟩
    exact ⟨rfl, rfl, j, hj, hc⟩
  · rintro ⟨rfl, rfl, j, hj, hc⟩
    exact ⟨j, ⟨⟨j, hj, rfl, rfl, rfl⟩, by decide, by decide⟩, hc⟩

theorem accepts_symbolWords {w : List Codepoint} :
    symbolWords.Accepts w ↔ Over Codec.IsCode w := by
  rw [accepts_iff_of_initial (i := 0) rfl]
  induction w with
  | nil =>
    rw [acceptsFrom_nil_iff]
    exact iff_of_true rfl (List.forall_mem_nil _)
  | cons c w ih =>
    rw [acceptsFrom_cons_iff, Over, List.forall_mem_cons]
    constructor
    · rintro ⟨q, hq, hacc⟩
      obtain ⟨-, rfl, hc⟩ := mem_targets_symbolWords.1 hq
      exact ⟨hc, ih.1 hacc⟩
    · rintro ⟨hc, hw⟩
      exact ⟨0, mem_targets_symbolWords.2 ⟨rfl, rfl, hc⟩, ih.2 hw⟩

theorem reliable_symbolWords : symbolWords.Reliable where
  honest _ p c q r hq hr := by
    rw [(mem_targets_symbolWords.1 hq).2.1, (mem_targets_symbolWords.1 hr).2.1]
  encoded := endsBy_iff.2 fun p q c hq =>
    (Codec.isCode_iff.1 (mem_targets_symbolWords.1 hq).2.2).1
  grounded i hi := by
    obtain rfl := Option.some.inj hi
    exact contains_build.2 (by decide)

/-- The minimal graph of the words of symbols that a graph accepts. -/
def spokenPart (g : Graph) : Graph := (g.intersection symbolWords).minimize

section SpokenPart

variable {g : Graph} (hg : g.Reliable)

include hg

theorem minimal_spokenPart : g.spokenPart.Minimal := by
  have h := hg.intersection reliable_symbolWords
  exact minimal_minimize h.encoded h.grounded

theorem accepts_spokenPart {w : List Codepoint} :
    g.spokenPart.Accepts w ↔ g.Accepts w ∧ Over Codec.IsCode w := by
  have h := hg.intersection reliable_symbolWords
  rw [← accepts_symbolWords, spokenPart, accepts_minimize h.encoded h.grounded, ← mem_language,
    language_intersection]
  rfl

/-- The spoken part is discerned, so a minimal graph with no more nodes is discerned too. -/
theorem Minimal.discerned_of_nodeCount_le {m : Graph} (hm : m.Minimal)
    (hsame : ∀ w, m.Accepts w ↔ g.Accepts w) (hle : m.nodeCount ≤ g.spokenPart.nodeCount) :
    m.Discerned Codec.IsCode := by
  have hpart := minimal_spokenPart hg
  have hdiscerned : g.spokenPart.Discerned Codec.IsCode :=
    hpart.discerned fun w hw => ((accepts_spokenPart hg).1 hw).2
  refine hdiscerned.of_nodeCount_le ?_ hpart.singleValued hm.singleValued hpart.rooted hm.rooted
    hle
  intro w hw
  rw [accepts_spokenPart hg, hsame]
  exact and_iff_left hw

end SpokenPart

end Graph

namespace Automaton

open SymbolAutomata.Graph

variable {a b : Automaton}

/-! ### Answers -/

/-- **Two automata give the same answers** if their graphs accept the same words of symbols. -/
theorem run_eq_iff (ha : a.graph.Honest) (hb : b.graph.Honest) :
    (∀ w, Codec.Spells w → b.run w = a.run w) ↔
      ∀ w, Over Codec.IsCode w → (b.graph.Accepts w ↔ a.graph.Accepts w) := by
  have hone : ∀ w, Codec.Spells w → (b.run w = a.run w ↔
      (b.graph.Accepts (w.map Codec.code) ↔ a.graph.Accepts (w.map Codec.code))) := by
    intro w hw
    obtain ⟨x, hx, hacc⟩ := run_of_spells ha hw
    obtain ⟨y, hy, hacc'⟩ := run_of_spells hb hw
    rw [hx, hy, ← hacc, ← hacc', Except.ok.injEq, Bool.eq_iff_iff]
  constructor
  · intro h w hw
    obtain ⟨v, hv, rfl⟩ := Codec.over_isCode_iff.1 hw
    exact (hone v hv).1 (h v hv)
  · intro h w hw
    exact (hone w hw).2 (h _ (Codec.over_isCode_iff.2 ⟨w, hw, rfl⟩))

theorem InStep.stateCount_eq (ha : a.InStep) : a.stateCount = a.graph.nodeCount := by
  have hnodup : a.graph.nodeIds.Nodup := a.graph.nodeIds_sorted.imp Nat.ne_of_lt
  refine ((List.perm_ext_iff_of_nodup ha.nodup hnodup).2 fun n => ?_).length_eq
  rw [ha.mem_states, mem_nodeIds]

theorem honest_of_isDeterministic (h : a.graph.isDeterministic = true) : a.graph.Honest :=
  fun _ => isDeterministic_iff.1 h

/-! ### The yardstick -/

/-- An automaton for the spoken part of a graph. -/
def ofSpokenPart (g : Graph) : Automaton :=
  ofGraphWithin Codec.minCodepoint Codec.maxCodepoint g.spokenPart
    (.ofList (SymbolSet.span 0 Codec.maxSymbol))

theorem filled_ofSpokenPart (g : Graph) :
    ∃ names, Filled (withClamp Codec.minCodepoint Codec.maxCodepoint) g.spokenPart
      (.ofList (SymbolSet.span 0 Codec.maxSymbol)) names (ofSpokenPart g) :=
  filled_fill _ _ _

section Yardstick

variable {g : Graph} (hg : g.Reliable)

include hg

theorem reliable_ofSpokenPart : (ofSpokenPart g).graph.Reliable :=
  reliable_ofGraphWithin (fun _ => (minimal_spokenPart hg).singleValued) _ _ _

theorem singleValued_ofSpokenPart : (ofSpokenPart g).graph.SingleValued := by
  obtain ⟨names, h⟩ := filled_ofSpokenPart g
  exact (reliable_ofSpokenPart hg).honest (h.deterministic.trans (minimal_spokenPart hg).declared)

theorem isSome_initialState_ofSpokenPart : (ofSpokenPart g).initialState.isSome = true := by
  obtain ⟨names, h⟩ := filled_ofSpokenPart g
  obtain ⟨i, hi, hc⟩ := (minimal_spokenPart hg).rooted
  obtain ⟨p, hp⟩ := h.exists_name (mem_reachable_initial hi hc)
  have hinitial := h.started i p hp hi
  have hstep : (ofSpokenPart g).InStep := (built_ofGraphWithin _ _ _ _).inStep
  obtain ⟨k, hk⟩ := hstep.exists_index ((reliable_ofSpokenPart hg).grounded p hinitial)
  exact Option.isSome_iff_exists.2
    ⟨k, Option.bind_eq_some_iff.2 ⟨p, hinitial, (hstep.index p k).2 hk⟩⟩

omit hg in
theorem stateCount_ofSpokenPart_le : (ofSpokenPart g).stateCount ≤ g.spokenPart.nodeCount := by
  obtain ⟨names, h⟩ := filled_ofSpokenPart g
  have hcount : (ofSpokenPart g).stateCount = g.spokenPart.reachable.length := by
    rw [← h.keys, List.length_map]
    refine (congrArg List.length h.states).trans ?_
    rw [List.length_append, List.length_map]
    exact Nat.zero_add _
  rw [hcount]
  exact (reachable_nodup _).length_le_of_subset fun n hn =>
    mem_nodeIds.2 (mem_nodeIds_of_mem_reachable hn)

/-- **The yardstick accepts the same words of symbols.** -/
theorem accepts_ofSpokenPart {w : List Codepoint} (hw : Over Codec.IsCode w) :
    (ofSpokenPart g).graph.Accepts w ↔ g.Accepts w := by
  obtain ⟨names, h⟩ := filled_ofSpokenPart g
  obtain ⟨v, hv, rfl⟩ := Codec.over_isCode_iff.1 hw
  refine (h.accepts rfl hv).trans ?_
  rw [accepts_spokenPart hg, and_assoc]
  refine and_iff_left ⟨hw, fun s hs => ⟨hv s hs, ?_, Nat.zero_le _, Codec.code_le_max (hv s hs)⟩⟩
  rw [SymbolSet.ofList, Std.ExtTreeSet.mem_ofList, List.contains_iff_mem]
  exact SymbolSet.mem_span.2 (hv s hs)

end Yardstick

/-! ### The fewest states -/

/-- **Minimization leaves the fewest states** of all deterministic automata that give the same
    answers just when words of symbols discern its nodes.  They do if the graph accepts words of
    symbols only. -/
theorem Made.minimize_least_iff (ha : a.Made) (hflag : a.graph.Honest) :
    ((∀ b : Automaton, b.Made → b.initialState.isSome = true → b.graph.isDeterministic = true →
        (∀ w, Codec.Spells w → b.run w = a.run w) → a.minimize.stateCount ≤ b.stateCount) ↔
      a.minimize.graph.Discerned Codec.IsCode) ∧
    ((∀ w, a.graph.run w = true → Over Codec.IsCode w) →
      a.minimize.graph.Discerned Codec.IsCode) := by
  have hsound := ha.built.sound
  have hreliable : a.graph.Reliable := ⟨hflag, hsound.encoded, hsound.grounded⟩
  have hmin : a.minimize.graph.Minimal := minimal_graph_minimize hsound
  have haccepts : ∀ w, a.minimize.graph.Accepts w ↔ a.graph.Accepts w :=
    fun w => accepts_graph_minimize hsound
  have hcount : a.minimize.stateCount = a.minimize.graph.nodeCount :=
    (inStep_renumber _).stateCount_eq
  refine ⟨⟨fun hleast => ?_, fun hdiscerned b hb hstart hdet hrun => ?_⟩, fun hspoken => ?_⟩
  · -- no more states are left than the yardstick has
    have hrun : ∀ w, Codec.Spells w → (ofSpokenPart a.graph).run w = a.run w := by
      rw [run_eq_iff hflag (reliable_ofSpokenPart hreliable).honest]
      exact fun w hw => accepts_ofSpokenPart hreliable hw
    have hle : a.minimize.stateCount ≤ (ofSpokenPart a.graph).stateCount :=
      hleast (ofSpokenPart a.graph) (.ofGraphWithin _ _ _ _)
        (isSome_initialState_ofSpokenPart hreliable)
        (isDeterministic_iff.2 (singleValued_ofSpokenPart hreliable)) hrun
    rw [hcount] at hle
    exact hmin.discerned_of_nodeCount_le hreliable haccepts
      (Nat.le_trans hle stateCount_ofSpokenPart_le)
  · have hone := isDeterministic_iff.1 hdet
    obtain ⟨i, hi⟩ := Option.isSome_iff_exists.1 hstart
    rw [run_eq_iff hflag (honest_of_isDeterministic hdet)] at hrun
    rw [hcount, hb.built.inStep.stateCount_eq]
    refine hdiscerned.nodeCount_le ?_ hmin.singleValued hone hmin.rooted
      (hb.built.inStep.rooted_of_initialState hi)
    exact fun w hw => (haccepts w).trans (hrun w hw).symm
  · refine hmin.discerned fun w hw => hspoken w (run_eq_true_iff.2 ((haccepts w).1 hw))

/-- Either of two symbols that follow each other. -/
def eitherOf : Automaton := ofGraphWithin 0 65535 (oneOf [Interval.between 0 1]) (.ofList [0, 1])

theorem minimize_least_eitherOf :
    eitherOf.Made ∧ eitherOf.graph.Honest ∧ eitherOf.minimize.stateCount = 2 ∧
      ∀ b : Automaton, b.Made → b.initialState.isSome = true → b.graph.isDeterministic = true →
        (∀ w, Codec.Spells w → b.run w = eitherOf.run w) → 2 ≤ b.stateCount := by
  have hmade : eitherOf.Made := .ofGraphWithin 0 65535 _ _
  have hflag : eitherOf.graph.Honest := honest_of_isDeterministic (by decide +kernel)
  have hcount : eitherOf.minimize.stateCount = 2 := by decide_cbv
  have hlabels : ∀ arc ∈ eitherOf.graph.arcs, arc.label = Interval.between 0 1 := by
    decide +kernel
  have hspoken : ∀ w, eitherOf.graph.run w = true → Over Codec.IsCode w := by
    intro w hw
    obtain ⟨i, -, hacc⟩ := run_eq_true_iff.1 hw
    refine forall_mem_of_acceptsFrom (fun p q c hq => ?_) hacc
    obtain ⟨label, ⟨arc, harc, -, rfl, -⟩, hc⟩ := mem_targets.1 hq
    rw [hlabels arc harc, Interval.contains_iff] at hc
    have hall : ∀ c ≤ 1, c ≤ Codec.maxCodepoint ∧ c ∉ Codec.reserved := by decide
    exact Codec.isCode_iff.2 (hall c hc.2)
  obtain ⟨hleast, hdiscerned⟩ := hmade.minimize_least_iff hflag
  refine ⟨hmade, hflag, hcount, ?_⟩
  rw [← hcount]
  exact hleast.2 (hdiscerned hspoken)

/-- One state that rejects. -/
def lone : Automaton := (withClamp 0 65535).after [.addState, .setInitial 0]

/-- Nothing that can be run is accepted, but minimization leaves a second state for the word of the
    reserved codepoint. -/
theorem not_least_hollow :
    (hollow.Made ∧ hollow.FullyClamped ∧ hollow.graph.Honest) ∧
      (lone.Made ∧ lone.initialState.isSome = true ∧ lone.graph.isDeterministic = true) ∧
        (∀ w, Codec.Spells w → lone.run w = hollow.run w) ∧
          ¬ hollow.minimize.stateCount ≤ lone.stateCount := by
  have hflag : hollow.graph.Honest := honest_of_isDeterministic (by decide_cbv)
  have hdet : lone.graph.isDeterministic = true := by decide_cbv
  have hlabels : ∀ arc ∈ hollow.graph.arcs, arc.label = Interval.single 34 := by decide +kernel
  have hhollow : ∀ w, Over Codec.IsCode w → ¬ hollow.graph.Accepts w := by
    have hstart : hollow.graph.initial = some 0 := by decide +kernel
    intro w hw
    refine not_accepts_of_stuck hstart (by decide +kernel) (fun c hcode q hq => ?_) hw
    obtain ⟨label, ⟨arc, harc, -, rfl, -⟩, hc⟩ := mem_targets.1 hq
    rw [hlabels arc harc, Interval.contains_single] at hc
    -- the only label holds a reserved codepoint and nothing else
    exact (Codec.isCode_iff.1 hcode).2 (hc ▸ by decide)
  have hlone : ∀ w, Over Codec.IsCode w → ¬ lone.graph.Accepts w := by
    have hstart : lone.graph.initial = some 0 := by decide
    have harcs : lone.graph.arcs = [] := by decide
    intro w hw
    refine not_accepts_of_stuck hstart (by decide) (fun c _ q hq => ?_) hw
    obtain ⟨label, ⟨arc, harc, -⟩, -⟩ := mem_targets.1 hq
    rw [harcs] at harc
    cases harc
  have hrun : ∀ w, Codec.Spells w → lone.run w = hollow.run w := by
    rw [run_eq_iff hflag (honest_of_isDeterministic hdet)]
    exact fun w hw => iff_of_false (hlone w hw) (hhollow w hw)
  exact ⟨⟨made_hollow, by decide +kernel, hflag⟩,
    ⟨Made.after (.withClamp 0 65535) _, by decide, hdet⟩, hrun, by decide_cbv⟩

end Automaton

end SymbolAutomata
