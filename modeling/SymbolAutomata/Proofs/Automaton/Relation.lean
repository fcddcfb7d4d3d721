/-
  SymbolAutomata/Proofs/Automaton/Relation.lean
  =============================================
  **Transition edits act on the symbol relation.**

  The destinations of states over symbols are a relation between states, symbols and
  states (`Relates`).  Adding symbols between two states adds triples to it, deleting a
  symbol between two states takes one triple out, and removing a symbol takes out all
  triples over it, however the labels are laid out: labels may overlap, be stored twice
  between the same states, or hold many symbols.

  Nothing else changes.  States, flags, declaration, clamp and epoch stay as they were
  (`Framed`), and so do the stored labels that do not hold the codepoint in question
  (`Spares`): a deletion may leave a piece of one label that is like another label, and
  the piece is then not stored again.
-/
import SymbolAutomata.Proofs.Automaton.Alphabet
import SymbolAutomata.Proofs.Automaton.Stepping
import SymbolAutomata.Proofs.Graph.Stored

namespace SymbolAutomata

namespace Graph

theorem Reads.exists_target {g : Graph} {p q : NodeId} {w : List Codepoint} (h : g.Reads p w q)
    {c : Codepoint} (hc : c ∈ w) : ∃ x y, y ∈ g.targets x c := by
  induction h with
  | nil p => exact absurd hc List.not_mem_nil
  | @cons p m q i d w arrow carries rest ih =>
    rcases List.mem_cons.1 hc with rfl | hc
    · exact ⟨p, m, mem_targets.2 ⟨i, arrow, carries⟩⟩
    · exact ih hc

/-- Words that lead through the arrows of one graph lead through those of another one that has the
    same arrows over their codepoints. -/
theorem Reads.of_targets {g h : Graph} {p q : NodeId} {w : List Codepoint}
    (hsub : ∀ c ∈ w, ∀ x y, y ∈ g.targets x c → y ∈ h.targets x c) (hw : g.Reads p w q) :
    h.Reads p w q := by
  induction hw with
  | nil p => exact .nil p
  | @cons p m q i d w arrow carries rest ih =>
    rw [List.forall_mem_cons] at hsub
    exact reads_cons_iff.2 ⟨m, hsub.1 p m (mem_targets.2 ⟨i, arrow, carries⟩), ih hsub.2⟩

/-- **The walk never accepts too much**, be the declaration true or not. -/
theorem acceptsFrom_of_walk {g : Graph} {p : NodeId} {w : List Codepoint}
    (h : g.walk p w = true) : g.AcceptsFrom p w := by
  induction w generalizing p with
  | nil => exact acceptsFrom_nil_iff.2 h
  | cons c w ih =>
    rw [walk] at h
    cases hstep : g.step p c with
    | none =>
      rw [hstep] at h
      cases h
    | some m =>
      rw [hstep] at h
      rw [step_eq_head?] at hstep
      exact acceptsFrom_cons_iff.2 ⟨m, List.mem_of_head? hstep, ih h⟩

end Graph

namespace Automaton

open SymbolAutomata.Graph

/-- How often a label is stored from state `i` to state `j`. -/
def stored (a : Automaton) (i : StateIndex) (label : Interval) (j : StateIndex) : Nat :=
  (a.intervals i).value.count (label, j)

variable {a b c : Automaton} {i j : StateIndex} {s t : Symbol} {p q : NodeId} {d : Codepoint}

theorem accepts_of_run {w : List Symbol} (hw : Codec.Spells w) (h : a.run w = .ok true) :
    a.graph.Accepts (w.map Codec.code) := by
  cases hdet : a.isDeterministic with
  | false =>
    rw [run_eq_graph_run hdet hw] at h
    exact run_eq_true_iff.1 (Except.ok.inj h)
  | true =>
    rw [run_eq_any_walk hdet hw, Except.ok.injEq, Option.any_eq_true] at h
    obtain ⟨p, hp, hwalk⟩ := h
    exact ⟨p, hp, acceptsFrom_of_walk hwalk⟩

/-! ### Stored labels -/

theorem intervals_value (a : Automaton) (i : StateIndex) :
    (a.intervals i).value = (a.states[i]?).toList.flatMap fun p =>
      (a.graph.moves p).filterMap fun m => (a.indexOf? m.2).map fun j => (m.1, j) := by
  simp [intervals]

/-- How often a label is stored between two states is how often it is between their nodes. -/
theorem InStep.stored_eq (ha : a.InStep) (label : Interval) :
    a.stored i label j = match a.states[i]?, a.states[j]? with
      | some p, some q => (a.graph.exits p).count (label, q)
      | _, _ => 0 := by
  rw [stored, intervals_value]
  cases hi : a.states[i]? with
  | none => rfl
  | some p =>
    rw [Option.toList_some, List.flatMap_singleton]
    cases hj : a.states[j]? with
    | none =>
      refine List.count_eq_zero.2 fun hmem => ?_
      obtain ⟨m, -, hq⟩ := List.mem_filterMap.1 hmem
      obtain ⟨j', hindex, heq⟩ := Option.map_eq_some_iff.1 hq
      obtain ⟨-, rfl⟩ := Prod.mk.inj heq
      rw [ha.indexOf?_eq_some_iff.1 hindex] at hj
      cases hj
    | some q =>
      show _ = (a.graph.exits p).count (label, q)
      rw [List.count_filterMap, ← (moves_perm a.graph p).count_eq, List.count_eq_countP]
      refine List.countP_congr fun m _ => ?_
      -- only the node of state `j` has the index `j`
      rw [beq_iff_eq, beq_iff_eq, Option.map_eq_some_iff]
      constructor
      · rintro ⟨j', hindex, heq⟩
        obtain ⟨hlabel, rfl⟩ := Prod.mk.inj heq
        exact Prod.ext hlabel
          (Option.some.inj ((ha.indexOf?_eq_some_iff.1 hindex).symm.trans hj))
      · rintro rfl
        exact ⟨j, ha.indexOf?_eq_some_iff.2 hj, rfl⟩

/-! ### What stays as it is -/

/-- **A change of arcs only**: states, flags, declaration, clamp and epoch stay. -/
structure Framed (a b : Automaton) : Prop where
  states : b.states = a.states
  index : b.index = a.index
  flag? : ∀ n, b.graph.flag? n = a.graph.flag? n
  initial : b.graph.initial = a.graph.initial
  deterministic : b.graph.deterministic = a.graph.deterministic
  min : b.min = a.min
  max : b.max = a.max
  epoch : b.epoch = a.epoch

theorem Framed.refl (a : Automaton) : Framed a a :=
  ⟨rfl, rfl, fun _ => rfl, rfl, rfl, rfl, rfl, rfl⟩

theorem Framed.trans (hab : Framed a b) (hbc : Framed b c) : Framed a c where
  states := hbc.states.trans hab.states
  index := hbc.index.trans hab.index
  flag? n := (hbc.flag? n).trans (hab.flag? n)
  initial := hbc.initial.trans hab.initial
  deterministic := hbc.deterministic.trans hab.deterministic
  min := hbc.min.trans hab.min
  max := hbc.max.trans hab.max
  epoch := hbc.epoch.trans hab.epoch

theorem Framed.symm (h : Framed a b) : Framed b a where
  states := h.states.symm
  index := h.index.symm
  flag? n := (h.flag? n).symm
  initial := h.initial.symm
  deterministic := h.deterministic.symm
  min := h.min.symm
  max := h.max.symm
  epoch := h.epoch.symm

theorem Framed.foldl {α : Type} {round : Automaton → α → Automaton}
    (hround : ∀ a x, Framed a (round a x)) (items : List α) (a : Automaton) :
    Framed a (items.foldl round a) :=
  List.foldlRecOn (motive := Framed a) items _ (Framed.refl a) fun b hb x _ => hb.trans (hround b x)

theorem Framed.retains (h : Framed a b) : Retains a b where
  states := h.states
  index := h.index
  epoch := h.epoch
  contains n := by rw [contains_eq_isSome, h.flag?, contains_eq_isSome]

theorem Framed.inStep (h : Framed a b) (ha : a.InStep) : b.InStep := h.retains.continues.inStep ha

theorem Framed.isAccept (h : Framed a b) (n : NodeId) :
    b.graph.isAccept n = a.graph.isAccept n := by
  rw [Graph.isAccept, h.flag?, Graph.isAccept]

theorem Framed.stored_eq (h : Framed a b) (ha : a.InStep) {label : Interval}
    (hcount : ∀ p q, a.states[i]? = some p → a.states[j]? = some q →
      (b.graph.exits p).count (label, q) = (a.graph.exits p).count (label, q)) :
    b.stored i label j = a.stored i label j := by
  rw [ha.stored_eq, (h.inStep ha).stored_eq, h.states]
  split
  · next p q hp hq => exact hcount p q hp hq
  · rfl

/-- Labels that are spared are stored as often as before. -/
theorem Framed.stored_eq_of_spares (h : Framed a b) (ha : a.InStep) {keep : Interval → Prop}
    (hspares : Spares keep a.graph b.graph) {label : Interval} (hkeep : keep label)
    (hpos : 0 < a.stored i label j) : b.stored i label j = a.stored i label j := by
  refine h.stored_eq ha fun p q hp hq => hspares p (label, q) hkeep (List.count_pos_iff.1 ?_)
  rw [ha.stored_eq, hp, hq] at hpos
  exact hpos

/-! ### Added symbols -/

/-- Adds one codepoint to the arcs from `p` to `q`, unless one of them carries it. -/
def carry (g : Graph) (p : NodeId) (d : Codepoint) (q : NodeId) : Graph :=
  if (g.outgoing p).any fun arc => arc.target = q && arc.label.contains d then g
  else g.connect p (Interval.single d) q

theorem addSymbols_cons (hs : Codec.IsSymbol s) (rest : List Symbol) :
    a.addSymbols p q (s :: rest) = ({ a with
      alphabet := a.alphabet.insert s
      graph := carry a.graph p (Codec.code s) q } : Automaton).addSymbols p q rest := by
  rw [addSymbols, Codec.codepoint_of_isSymbol hs]
  rfl

section Carry

variable {g : Graph} {x y : NodeId} {e : Codepoint}

theorem mem_targets_carry (hp : g.contains p = true) (hq : g.contains q = true) :
    y ∈ (carry g p d q).targets x e ↔ y ∈ g.targets x e ∨ (x = p ∧ e = d ∧ y = q) := by
  unfold carry
  split
  · next hcovered =>
    obtain ⟨arc, hout, hcov⟩ := List.any_eq_true.1 hcovered
    rw [Bool.and_eq_true, decide_eq_true_eq] at hcov
    obtain ⟨harc, hsource⟩ := mem_outgoing.1 hout
    refine ⟨Or.inl, fun hfound => hfound.elim id ?_⟩
    rintro ⟨rfl, rfl, rfl⟩
    exact mem_targets.2 ⟨arc.label, ⟨arc, harc, hsource, rfl, hcov.1⟩, hcov.2⟩
  · simp only [mem_targets, arrow_connect]
    constructor
    · rintro ⟨i, old | ⟨-, rfl, rfl, rfl⟩, hi⟩
      · exact Or.inl ⟨i, old, hi⟩
      · exact Or.inr ⟨rfl, Interval.contains_single.1 hi, rfl⟩
    · rintro (⟨i, old, hi⟩ | ⟨rfl, rfl, rfl⟩)
      · exact ⟨i, Or.inl old, hi⟩
      · exact ⟨_, Or.inr ⟨⟨hp, hq⟩, rfl, rfl, rfl⟩, Interval.contains_single.2 rfl⟩

theorem spares_carry (keep : Interval → Prop) : Spares keep g (carry g p d q) := by
  unfold carry
  split
  · exact Spares.refl keep g
  · exact spares_connect keep g p _ q

theorem count_exits_carry_of_ne {i : Interval}
    (h : x = p → y = q → i.contains d = false) :
    ((carry g p d q).exits x).count (i, y) = (g.exits x).count (i, y) := by
  unfold carry
  split
  · rfl
  · refine count_exits_connect_of_ne fun heq => ?_
    obtain ⟨rfl, rfl, rfl⟩ := by simpa only [Prod.mk.injEq] using heq
    rw [Interval.contains_single.2 rfl] at h
    exact absurd (h rfl rfl) (by decide)

theorem framed_carry (symbols : SymbolSet) : Framed a
    { a with alphabet := symbols, graph := carry a.graph p d q } := by
  have hkeeps : ∀ {γ : Type} (view : Graph → γ),
      (∀ g i, view (g.connect p i q) = view g) →
        view (carry a.graph p d q) = view a.graph := by
    intro γ view hview
    unfold carry
    split
    · rfl
    · exact hview a.graph _
  exact ⟨rfl, rfl, fun n => hkeeps (·.flag? n) fun g i => flag?_connect g p i q n,
    hkeeps (·.initial) fun g i => initial_connect g p i q,
    hkeeps (·.deterministic) fun g i => deterministic_connect g p i q, rfl, rfl, rfl⟩

end Carry

/-- What adding symbols to the arcs between two nodes does. -/
structure Added (p : NodeId) (symbols : List Symbol) (q : NodeId) (a b : Automaton) : Prop where
  framed : Framed a b
  targets : ∀ x e y, y ∈ b.graph.targets x e ↔
    y ∈ a.graph.targets x e ∨ (x = p ∧ (∃ s ∈ symbols, e = Codec.code s) ∧ y = q)
  spares : Spares (fun _ => True) a.graph b.graph
  others : ∀ x i y, (x = p → y = q → ∀ s ∈ symbols, i.contains (Codec.code s) = false) →
    (b.graph.exits x).count (i, y) = (a.graph.exits x).count (i, y)

/-- **Adding symbols** ends without failure and adds what they say. -/
theorem added_addSymbols {symbols : List Symbol} (hall : Codec.Spells symbols)
    (hp : a.graph.contains p = true) (hq : a.graph.contains q = true) :
    (a.addSymbols p q symbols).2 = none ∧ Added p symbols q a (a.addSymbols p q symbols).1 := by
  induction symbols generalizing a with
  | nil =>
    refine ⟨rfl, Framed.refl a, fun x e y => ?_, Spares.refl _ _, fun _ _ _ _ => rfl⟩
    simp only [addSymbols, List.not_mem_nil, false_and, exists_false, and_false, or_false]
  | cons s rest ih =>
    rw [Codec.Spells, List.forall_mem_cons] at hall
    rw [addSymbols_cons hall.1]
    have hframed := framed_carry (a := a) (p := p) (d := Codec.code s) (q := q)
      (a.alphabet.insert s)
    have hcontains := hframed.retains.contains
    obtain ⟨hnone, h⟩ := ih hall.2 ((hcontains p).trans hp) ((hcontains q).trans hq)
    refine ⟨hnone, hframed.trans h.framed, fun x e y => ?_, (spares_carry _).trans h.spares,
      fun x i y hne => ?_⟩
    · rw [h.targets, mem_targets_carry hp hq, or_assoc]
      refine or_congr_right ?_
      simp only [List.mem_cons, exists_eq_or_imp]
      constructor
      · rintro (⟨hx, he, hy⟩ | ⟨hx, he, hy⟩)
        · exact ⟨hx, Or.inl he, hy⟩
        · exact ⟨hx, Or.inr he, hy⟩
      · rintro ⟨hx, he | he, hy⟩
        · exact Or.inl ⟨hx, he, hy⟩
        · exact Or.inr ⟨hx, he, hy⟩
    · rw [h.others x i y fun hx hy t ht => hne hx hy t (List.mem_cons_of_mem _ ht)]
      exact count_exits_carry_of_ne fun hx hy => hne hx hy s (List.mem_cons_self ..)

/-! ### Deleted symbols -/

section Cutting

variable {g : Graph} {arc : Arc} {x y : NodeId} {label : Interval}

theorem count_exits_connectAll_of_ne {arrows : List (NodeId × Interval × NodeId)} {m : Move}
    (h : (x, m) ∉ arrows) : ((g.connectAll arrows).exits x).count m = (g.exits x).count m := by
  refine List.foldlRecOn (motive := fun k : Graph => (k.exits x).count m = (g.exits x).count m)
    arrows _ rfl ?_
  intro k hk arrow harrow
  refine (count_exits_connect_of_ne fun heq => h ?_).trans hk
  rw [heq]
  exact harrow

/-- An arc that is cut leaves what leads elsewhere alone. -/
theorem count_exits_cutArc_of_ne (h : ¬ (x = arc.source ∧ y = arc.target)) :
    ((cutArc d g arc).exits x).count (label, y) = (g.exits x).count (label, y) := by
  rw [cutArc_eq, count_exits_connectAll_of_ne, count_exits_removeArc_of_ne]
  · intro heq
    obtain ⟨hx, -, hy⟩ := by simpa only [Prod.mk.injEq] using heq
    exact h ⟨hx, hy⟩
  · intro hmem
    obtain ⟨i, -, heq⟩ := List.mem_map.1 hmem
    obtain ⟨hx, -, hy⟩ := by simpa only [Prod.mk.injEq] using heq
    exact h ⟨hx.symm, hy.symm⟩

/-- Cutting spares the labels without the codepoint. -/
theorem spares_cutArc (hd : arc.label.contains d = true) :
    Spares (·.contains d = false) g (cutArc d g arc) := by
  rw [cutArc_eq]
  exact (spares_removeArc (by simp [hd])).trans (spares_connectAll _ _ _)

theorem count_exits_cutBetween_of_ne (h : ¬ (x = p ∧ y = q)) :
    ((cutBetween g p d q).exits x).count (label, y) = (g.exits x).count (label, y) := by
  refine List.foldlRecOn
    (motive := fun k : Graph => (k.exits x).count (label, y) = (g.exits x).count (label, y))
    _ _ rfl ?_
  intro k hk arc harc
  obtain ⟨hout, hends⟩ := List.mem_filter.1 harc
  rw [Bool.and_eq_true, decide_eq_true_eq] at hends
  refine (count_exits_cutArc_of_ne fun heq => h ?_).trans hk
  exact ⟨heq.1.trans (mem_outgoing.1 hout).2, heq.2.trans hends.1⟩

theorem spares_cutBetween : Spares (·.contains d = false) g (cutBetween g p d q) := by
  refine Spares.foldl (fun g => g) _ (fun k arc harc => ?_) g
  have hends := (List.mem_filter.1 harc).2
  rw [Bool.and_eq_true] at hends
  exact spares_cutArc hends.2

theorem flag?_cutBetween (n : NodeId) : (cutBetween g p d q).flag? n = g.flag? n := by
  refine foldl_keeps (·.flag? n) (fun k arc => ?_) _ g
  rw [cutArc_eq, flag?_connectAll, flag?_removeArc]

end Cutting

theorem framed_deleteTransition (a : Automaton) (i j : StateIndex) (s : Symbol) :
    Framed a (a.deleteTransition i j s).automaton := by
  rcases deleteTransition_cases a i j s with hsame | ⟨d, p, q, -, hcut⟩
  · rw [hsame]
    exact Framed.refl a
  · rw [hcut]
    exact ⟨rfl, rfl, flag?_cutBetween, initial_cutBetween, deterministic_cutBetween, rfl, rfl, rfl⟩

theorem spares_deleteTransition (a : Automaton) (i j : StateIndex) (s : Symbol) :
    Spares (·.contains (Codec.code s) = false) a.graph
      (a.deleteTransition i j s).automaton.graph := by
  rcases deleteTransition_cases a i j s with hsame | ⟨d, p, q, hd, hcut⟩
  · rw [hsame]
    exact Spares.refl _ _
  · rw [hcut, (Codec.codepoint_eq_ok_iff.1 hd).2]
    exact spares_cutBetween

/-! ### Removed symbols -/

theorem removeSymbol_eq (hs : Codec.IsSymbol s) (a : Automaton) : a.removeSymbol s =
    ⟨((List.range a.stateCount).foldl (clearSymbol s (Codec.code s)) a).removeFromAlphabet s,
      none, []⟩ := by
  rw [removeSymbol, Codec.codepoint_of_isSymbol hs]

theorem framed_removeSymbol (hs : Codec.IsSymbol s) (a : Automaton) :
    Framed a (a.removeSymbol s).automaton := by
  have hclear : ∀ b i, Framed b (clearSymbol s (Codec.code s) b i) := fun b i =>
    Framed.foldl (fun b j => framed_deleteTransition b i j s) _ b
  rw [removeSymbol_eq hs]
  refine (Framed.foldl hclear (List.range a.stateCount) a).trans ?_
  exact ⟨rfl, rfl, fun _ => rfl, rfl, rfl, rfl, rfl, rfl⟩

theorem spares_removeSymbol (hs : Codec.IsSymbol s) (a : Automaton) :
    Spares (·.contains (Codec.code s) = false) a.graph (a.removeSymbol s).automaton.graph := by
  have hclear : ∀ b i, Spares (·.contains (Codec.code s) = false) b.graph
      (clearSymbol s (Codec.code s) b i).graph := fun b i =>
    Spares.foldl Automaton.graph _ (fun b j _ => spares_deleteTransition b i j s) b
  rw [removeSymbol_eq hs]
  exact Spares.foldl Automaton.graph (List.range a.stateCount) (fun b i _ => hclear b i) a

section Words

variable {w : List Symbol}

/-- Numbers that are no symbols are answered by a failure, whatever the automaton. -/
theorem run_of_not_spells (hw : ¬ Codec.Spells w) (a b : Automaton) : a.run w = b.run w := by
  unfold run
  cases hcodes : w.mapM Codec.codepoint with
  | error f => rfl
  | ok cs => exact absurd (Codec.spells_of_mapM_codepoint hcodes) hw

/-- Over words whose codepoints are carried by the same arcs two graphs accept alike. -/
theorem Framed.accepts (h : Framed a b) {w : List Codepoint}
    (hsub : ∀ c ∈ w, ∀ x y, y ∈ a.graph.targets x c → y ∈ b.graph.targets x c)
    (hw : a.graph.Accepts w) : b.graph.Accepts w := by
  obtain ⟨p, hp, q, hreads, hacc⟩ := hw
  exact ⟨p, h.initial.trans hp, q, hreads.of_targets hsub, (h.isAccept q).trans hacc⟩

/-- **Words with the symbol are rejected**, be the declaration true or not. -/
theorem InStep.run_removeSymbol_of_mem (ha : a.InStep) (hw : Codec.Spells w) (hs : s ∈ w) :
    (a.removeSymbol s).automaton.run w = .ok false := by
  have hsym := hw s hs
  have hc := Codec.codepoint_eq_ok_iff.2 ⟨hsym, rfl⟩
  have hnone : ¬ (a.removeSymbol s).automaton.graph.Accepts (w.map Codec.code) := by
    rintro ⟨p, -, q, hreads, -⟩
    obtain ⟨x, y, hy⟩ := hreads.exists_target (List.mem_map.2 ⟨s, hs, rfl⟩)
    exact ((ha.mem_targets_removeSymbol hc).1 hy).2 rfl
  obtain ⟨r, hr⟩ : ∃ r, (a.removeSymbol s).automaton.run w = .ok r := by
    cases hdet : (a.removeSymbol s).automaton.isDeterministic with
    | false => exact ⟨_, run_eq_graph_run hdet hw⟩
    | true => exact ⟨_, run_eq_any_walk hdet hw⟩
  cases r with
  | false => exact hr
  | true => exact absurd (accepts_of_run hw hr) hnone

/-- **All other words are answered as before**, if the declaration is true. -/
theorem InStep.run_removeSymbol_of_not_mem (ha : a.InStep) (hflag : a.graph.Honest)
    (hsym : Codec.IsSymbol s) (hs : s ∉ w) :
    (a.removeSymbol s).automaton.run w = a.run w := by
  by_cases hw : Codec.Spells w
  · have hc := Codec.codepoint_eq_ok_iff.2 ⟨hsym, rfl⟩
    have hframed := framed_removeSymbol hsym a
    have htargets : ∀ d x y, y ∈ (a.removeSymbol s).automaton.graph.targets x d ↔
        y ∈ a.graph.targets x d ∧ d ≠ Codec.code s :=
      fun _ _ _ => ha.mem_targets_removeSymbol hc
    have hother : ∀ d ∈ w.map Codec.code, d ≠ Codec.code s := by
      intro d hd heq
      obtain ⟨t, ht, rfl⟩ := List.mem_map.1 hd
      exact hs (Codec.code_inj (hw t ht) hsym heq ▸ ht)
    generalize (a.removeSymbol s).automaton = b at hframed htargets
    have hflag' : b.graph.Honest := by
      intro hdet
      refine (hflag (hframed.deterministic.symm.trans hdet)).of_targets fun x y d hy => ?_
      exact ((htargets d x y).1 hy).1
    obtain ⟨u, hu, hacc⟩ := run_of_spells hflag hw
    obtain ⟨v, hv, hacc'⟩ := run_of_spells hflag' hw
    rw [hu, hv, Except.ok.injEq, Bool.eq_iff_iff, hacc, hacc']
    constructor
    · exact hframed.symm.accepts fun d _ x y hy => ((htargets d x y).1 hy).1
    · exact hframed.accepts fun d hd x y hy => (htargets d x y).2 ⟨hy, hother d hd⟩
  · exact run_of_not_spells hw _ _

end Words

/-! ### The three edits -/

/-- **An edit that changes the symbol relation and nothing else**: it goes through without a note,
    and afterwards the relation is as said. -/
structure Rewires (a : Automaton) (e : Edited)
    (relation : StateIndex → Symbol → StateIndex → Prop) : Prop where
  success : e.failure? = none
  silent : e.notes = []
  framed : Framed a e.automaton
  relates : ∀ i s j, e.automaton.Relates i s j ↔ relation i s j

theorem exists_node (hi : i < a.stateCount) : ∃ p, a.states[i]? = some p :=
  ⟨_, List.getElem?_eq_getElem hi⟩

section Edits

variable (ha : a.InStep)

include ha

theorem InStep.relates_addTransition {symbols : List Symbol} (hall : Codec.Spells symbols)
    (hp : a.states[i]? = some p) (hq : a.states[j]? = some q) (h : Added p symbols q a b)
    {k l : StateIndex} :
    b.Relates k t l ↔ a.Relates k t l ∨ (k = i ∧ t ∈ symbols ∧ l = j) := by
  rw [(h.framed.inStep ha).relates_iff, ha.relates_iff, h.framed.states]
  constructor
  · rintro ⟨ht, x, y, hx, hy, hmem⟩
    rcases (h.targets x _ y).1 hmem with old | ⟨rfl, ⟨s, hs, hcode⟩, rfl⟩
    · exact Or.inl ⟨ht, x, y, hx, hy, old⟩
    · obtain rfl := Codec.code_inj ht (hall s hs) hcode
      exact Or.inr ⟨ha.eq_of_getElem? hx hp, hs, ha.eq_of_getElem? hy hq⟩
  · rintro (⟨ht, x, y, hx, hy, old⟩ | ⟨rfl, ht, rfl⟩)
    · exact ⟨ht, x, y, hx, hy, (h.targets x _ y).2 (Or.inl old)⟩
    · exact ⟨hall t ht, p, q, hp, hq, (h.targets p _ q).2 (Or.inr ⟨rfl, ⟨t, ht, rfl⟩, rfl⟩)⟩

theorem InStep.rewires_addTransition {symbols : List Symbol} (hall : Codec.Spells symbols)
    (hi : i < a.stateCount) (hj : j < a.stateCount) :
    Rewires a (a.addTransition i j symbols)
        (fun k t l => a.Relates k t l ∨ (k = i ∧ t ∈ symbols ∧ l = j)) ∧
      ∀ k label l,
        (0 < a.stored k label l →
          (a.addTransition i j symbols).automaton.stored k label l = a.stored k label l) ∧
        ((k = i → l = j → ∀ t ∈ symbols, label.contains (Codec.code t) = false) →
          (a.addTransition i j symbols).automaton.stored k label l = a.stored k label l) := by
  obtain ⟨p, hp⟩ := exists_node hi
  obtain ⟨q, hq⟩ := exists_node hj
  have hedit : a.addTransition i j symbols =
      ⟨(a.addSymbols p q symbols).1, (a.addSymbols p q symbols).2, []⟩ := by
    unfold addTransition resolveBoth resolve
    rw [hp, hq]
    rfl
  obtain ⟨hnone, h⟩ := added_addSymbols hall (ha.contains_of_getElem? hp)
    (ha.contains_of_getElem? hq)
  rw [hedit]
  refine ⟨⟨hnone, rfl, h.framed, fun k t l => ha.relates_addTransition hall hp hq h⟩, ?_⟩
  intro k label l
  refine ⟨h.framed.stored_eq_of_spares ha h.spares trivial,
    fun hne => h.framed.stored_eq ha ?_⟩
  intro x y hx hy
  refine h.others x label y fun hxp hyq => hne ?_ ?_
  · exact ha.eq_of_getElem? hx (hxp ▸ hp)
  · exact ha.eq_of_getElem? hy (hyq ▸ hq)

theorem InStep.relates_deleteTransition (hs : Codec.IsSymbol s) (hp : a.states[i]? = some p)
    (hq : a.states[j]? = some q) {k l : StateIndex} :
    (a.deleteTransition i j s).automaton.Relates k t l ↔
      a.Relates k t l ∧ ¬ (k = i ∧ t = s ∧ l = j) := by
  have hc := Codec.codepoint_eq_ok_iff.2 ⟨hs, rfl⟩
  have hframed := framed_deleteTransition a i j s
  rw [(hframed.inStep ha).relates_iff, ha.relates_iff, hframed.states]
  simp only [mem_targets_deleteTransition hc]
  constructor
  · rintro ⟨ht, x, y, hx, hy, hmem, hother⟩
    refine ⟨⟨ht, x, y, hx, hy, hmem⟩, ?_⟩
    rintro ⟨rfl, rfl, rfl⟩
    exact hother ⟨rfl, hx, hy⟩
  · rintro ⟨⟨ht, x, y, hx, hy, hmem⟩, hother⟩
    refine ⟨ht, x, y, hx, hy, hmem, fun hcut => hother ⟨?_, ?_, ?_⟩⟩
    · exact ha.eq_of_getElem? hx hcut.2.1
    · exact Codec.code_inj ht hs hcut.1
    · exact ha.eq_of_getElem? hy hcut.2.2

theorem InStep.rewires_deleteTransition (hs : Codec.IsSymbol s) (hi : i < a.stateCount)
    (hj : j < a.stateCount) :
    Rewires a (a.deleteTransition i j s)
        (fun k t l => a.Relates k t l ∧ ¬ (k = i ∧ t = s ∧ l = j)) ∧
      ∀ k label l,
        (label.contains (Codec.code s) = false → 0 < a.stored k label l →
          (a.deleteTransition i j s).automaton.stored k label l = a.stored k label l) ∧
        (¬ (k = i ∧ l = j) →
          (a.deleteTransition i j s).automaton.stored k label l = a.stored k label l) := by
  obtain ⟨p, hp⟩ := exists_node hi
  obtain ⟨q, hq⟩ := exists_node hj
  have hc := Codec.codepoint_eq_ok_iff.2 ⟨hs, rfl⟩
  have hframed := framed_deleteTransition a i j s
  have hquiet : (a.deleteTransition i j s).failure? = none ∧
      (a.deleteTransition i j s).notes = [] := by
    unfold deleteTransition resolveBoth resolve
    rw [hc, hp, hq]
    exact ⟨rfl, rfl⟩
  constructor
  · exact ⟨hquiet.1, hquiet.2, hframed, fun k t l => ha.relates_deleteTransition hs hp hq⟩
  · intro k label l
    refine ⟨hframed.stored_eq_of_spares ha (spares_deleteTransition a i j s), fun hne => ?_⟩
    refine hframed.stored_eq ha fun x y hx hy => ?_
    rw [deleteTransition_eq hc hp hq]
    refine count_exits_cutBetween_of_ne fun hends => hne ⟨?_, ?_⟩
    · exact ha.eq_of_getElem? hx (hends.1 ▸ hp)
    · exact ha.eq_of_getElem? hy (hends.2 ▸ hq)

theorem InStep.relates_removeSymbol (hs : Codec.IsSymbol s) {k l : StateIndex} :
    (a.removeSymbol s).automaton.Relates k t l ↔ a.Relates k t l ∧ t ≠ s := by
  have hc := Codec.codepoint_eq_ok_iff.2 ⟨hs, rfl⟩
  have hframed := framed_removeSymbol hs a
  rw [(hframed.inStep ha).relates_iff, ha.relates_iff, hframed.states]
  simp only [ha.mem_targets_removeSymbol hc]
  constructor
  · rintro ⟨ht, x, y, hx, hy, hmem, hother⟩
    refine ⟨⟨ht, x, y, hx, hy, hmem⟩, ?_⟩
    rintro rfl
    exact hother rfl
  · rintro ⟨⟨ht, x, y, hx, hy, hmem⟩, hother⟩
    exact ⟨ht, x, y, hx, hy, hmem, fun hcode => hother (Codec.code_inj ht hs hcode)⟩

theorem InStep.rewires_removeSymbol (hs : Codec.IsSymbol s) :
    Rewires a (a.removeSymbol s) (fun k t l => a.Relates k t l ∧ t ≠ s) := by
  refine ⟨?_, ?_, framed_removeSymbol hs a, fun k t l => ha.relates_removeSymbol hs⟩
  · rw [removeSymbol_eq hs]
  · rw [removeSymbol_eq hs]

end Edits

/-- **Transition edits act on the symbol relation exactly**, however the automaton was made. Adding
    symbols from one state to another adds these triples; deleting a symbol takes one triple out;
    removing a symbol takes out all triples over it, so that words with the symbol are rejected and,
    if the declaration is true, all others are answered as before. Labels that are stored and do not
    hold the codepoint in question stay stored as often as they were, and so does what leads
    elsewhere. -/
theorem Made.transition_edits_exact {a : Automaton} (ha : a.Made) :
    (∀ i j symbols, i < a.stateCount → j < a.stateCount → Codec.Spells symbols →
      Rewires a (a.addTransition i j symbols)
          (fun k t l => a.Relates k t l ∨ (k = i ∧ t ∈ symbols ∧ l = j)) ∧
        ∀ k label l,
          (0 < a.stored k label l →
            (a.addTransition i j symbols).automaton.stored k label l = a.stored k label l) ∧
          ((k = i → l = j → ∀ t ∈ symbols, label.contains (Codec.code t) = false) →
            (a.addTransition i j symbols).automaton.stored k label l = a.stored k label l)) ∧
    (∀ i j s, i < a.stateCount → j < a.stateCount → Codec.IsSymbol s →
      Rewires a (a.deleteTransition i j s)
          (fun k t l => a.Relates k t l ∧ ¬ (k = i ∧ t = s ∧ l = j)) ∧
        ∀ k label l,
          (label.contains (Codec.code s) = false → 0 < a.stored k label l →
            (a.deleteTransition i j s).automaton.stored k label l = a.stored k label l) ∧
          (¬ (k = i ∧ l = j) →
            (a.deleteTransition i j s).automaton.stored k label l = a.stored k label l)) ∧
    ∀ s, Codec.IsSymbol s →
      Rewires a (a.removeSymbol s) (fun k t l => a.Relates k t l ∧ t ≠ s) ∧
        (∀ k label l, label.contains (Codec.code s) = false → 0 < a.stored k label l →
          (a.removeSymbol s).automaton.stored k label l = a.stored k label l) ∧
        (∀ w, Codec.Spells w → s ∈ w → (a.removeSymbol s).automaton.run w = .ok false) ∧
        (a.graph.Honest → ∀ w, s ∉ w → (a.removeSymbol s).automaton.run w = a.run w) := by
  have hstep := ha.built.inStep
  refine ⟨?_, ?_, ?_⟩
  · exact fun i j symbols hi hj hall => hstep.rewires_addTransition hall hi hj
  · exact fun i j s hi hj hs => hstep.rewires_deleteTransition hs hi hj
  · intro s hs
    refine ⟨hstep.rewires_removeSymbol hs, fun k label l hlabel => ?_, ?_, ?_⟩
    · exact (framed_removeSymbol hs a).stored_eq_of_spares hstep (spares_removeSymbol hs a) hlabel
    · exact fun w hw hmem => hstep.run_removeSymbol_of_mem hw hmem
    · exact fun hflag w hmem => hstep.run_removeSymbol_of_not_mem hflag hs hmem

/-- A wide label and, taken over from another state, a narrow one that lies inside it. -/
def braided : Automaton :=
  (withClamp 0 9).after
    [.addState, .addState, .setInitial 0, .setFinal [1], .addTransition 0 1 [1, 2, 3, 4, 5],
      .reduce, .addState, .addTransition 2 1 [3], .addSilent 0 2]

/-- Both labels are cut by one deletion. -/
theorem transition_edits_braided :
    braided.Made ∧
      (braided.intervals 0).value = [(Interval.between 1 5, 1), (Interval.single 3, 1)] ∧
      (braided.addTransition 0 1 [7]).automaton.Relates 0 7 1 ∧
      ¬ (braided.deleteTransition 0 1 3).automaton.Relates 0 3 1 ∧
      (braided.deleteTransition 0 1 3).automaton.Relates 0 4 1 ∧
      (braided.deleteTransition 0 1 3).automaton.stored 2 (Interval.single 3) 1 = 1 ∧
      (braided.removeSymbol 3).automaton.run [3] = .ok false ∧
      (braided.removeSymbol 3).automaton.run [4] = .ok true := by
  have hmade : braided.Made := Made.after (.withClamp 0 9) _
  obtain ⟨hadd, hdelete, hremove⟩ := hmade.transition_edits_exact
  obtain ⟨hadded, -⟩ := hadd 0 1 [7] (by decide_cbv) (by decide_cbv) (by decide)
  obtain ⟨hdeleted, hstored⟩ := hdelete 0 1 3 (by decide_cbv) (by decide_cbv) (by decide)
  obtain ⟨-, -, hrejects, hsame⟩ := hremove 3 (by decide)
  have hfour : braided.Relates 0 4 1 := ⟨[1], by decide_cbv, by decide⟩
  have hhonest : braided.graph.Honest := honest_of_not_deterministic (by decide_cbv)
  refine ⟨hmade, by decide_cbv, ?_, ?_, ?_, ?_, ?_, ?_⟩
  · exact (hadded.relates 0 7 1).2 (Or.inr ⟨rfl, by decide, rfl⟩)
  · exact fun h => ((hdeleted.relates 0 3 1).1 h).2 ⟨rfl, rfl, rfl⟩
  · exact (hdeleted.relates 0 4 1).2 ⟨hfour, by decide⟩
  · rw [(hstored 2 (Interval.single 3) 1).2 (by decide)]
    decide_cbv
  · exact hrejects [3] (by decide) (by decide)
  · rw [hsame hhonest [4] (by decide)]
    decide_cbv

end Automaton

end SymbolAutomata
