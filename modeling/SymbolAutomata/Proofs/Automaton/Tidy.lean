/-
  SymbolAutomata/Proofs/Automaton/Tidy.lean
  =========================================
  **Labels that do not overlap.**

  Between the same two nodes several labels may be stored, and nothing keeps them from
  overlapping.  A graph in which they never do is `Tidy`: no node leads to another one
  twice over one codepoint (`Tidy.nodup_targets`).

  Numbering anew joins labels first and so makes a graph tidy (`Sound.tidy_perform`).
  Adding symbols looks whether a label holds them already, and deleting one leaves the
  two sides of a label, so transition edits keep a graph tidy, and so does an import from
  a tidy graph (`tidy_fill`).  Only `addSilent` and imports from other graphs do not:
  both store labels next to labels without looking what those hold.
-/
import SymbolAutomata.Proofs.Automaton.Import

namespace SymbolAutomata

namespace Graph

variable {g h : Graph} {p q : NodeId} {i : Interval}

/-! ### Tidy graphs -/

/-- Two moves that do not lead to one place over one codepoint. -/
def Clear (x y : Move) : Prop :=
  x.2 = y.2 → ∀ c, x.1.contains c = true → ¬ y.1.contains c = true

theorem Clear.symm {x y : Move} (h : Clear x y) : Clear y x :=
  fun heq c hy hx => h heq.symm c hx hy

theorem Apart.clear {x y : Move} (h : Apart x y) : Clear x y := by
  intro heq c hx hy
  rw [Interval.contains_iff] at hx hy
  have hgap := h heq
  omega

/-- **Labels between the same two nodes never overlap.** -/
def Tidy (g : Graph) : Prop := ∀ p, (g.exits p).Pairwise Clear

theorem Tidy.of_exits_eq (hg : g.Tidy) (hexits : ∀ p, h.exits p = g.exits p) : h.Tidy :=
  fun p => hexits p ▸ hg p

theorem Tidy.of_exits_sublist (hg : g.Tidy) (hexits : ∀ p, (h.exits p).Sublist (g.exits p)) :
    h.Tidy := fun p => (hg p).sublist (hexits p)

theorem tidy_of_apart (happart : ∀ p, (g.exits p).Pairwise Apart) : g.Tidy :=
  fun p => (happart p).imp Apart.clear

theorem tidy_empty : empty.Tidy := fun _ => List.Pairwise.nil

/-- **No place is met twice** over a codepoint. -/
theorem Tidy.nodup_targets (hg : g.Tidy) (p : NodeId) (c : Codepoint) : (g.targets p c).Nodup := by
  rw [targets_eq_exits, List.nodup_iff_pairwise_ne, List.pairwise_map, List.pairwise_filter]
  exact (hg p).imp fun hclear hx hy heq => hclear heq c hx hy

theorem Tidy.connect (hg : g.Tidy) (hclear : ∀ m ∈ g.exits p, Clear (i, q) m) :
    (g.connect p i q).Tidy := by
  intro r
  rcases exits_connect_cases g p i q r with heq | ⟨rfl, heq⟩
  · exact heq ▸ hg r
  · exact heq ▸ List.pairwise_cons.2 ⟨hclear, hg r⟩

/-- Labels that are clear of each other and of all that is there may be added one by one. -/
theorem Tidy.connectAll (hg : g.Tidy) {labels : List Interval}
    (hclear : ∀ i ∈ labels, ∀ m ∈ g.exits p, Clear (i, q) m)
    (hlabels : labels.Pairwise fun i j => Clear (j, q) (i, q)) :
    (g.connectAll (labels.map fun i => (p, i, q))).Tidy := by
  induction labels generalizing g with
  | nil => exact hg
  | cons i labels ih =>
    rw [List.forall_mem_cons] at hclear
    rw [List.pairwise_cons] at hlabels
    refine ih (hg.connect hclear.1) (fun j hj m hm => ?_) hlabels.2
    rcases exits_connect_cases g p i q p with heq | ⟨-, heq⟩
    · exact hclear.2 j hj m (heq ▸ hm)
    · rw [heq] at hm
      rcases List.mem_cons.1 hm with rfl | hm
      · exact hlabels.1 j hj
      · exact hclear.2 j hj m hm

theorem exits_addNode (g : Graph) (accept : Bool) (p : NodeId) :
    (g.addNode accept).exits p = g.exits p :=
  exits_congr (arcs_addNode g accept) p

theorem exits_setAccept (g : Graph) (n : NodeId) (accept : Bool) (p : NodeId) :
    (g.setAccept n accept).exits p = g.exits p :=
  exits_congr (arcs_setAccept g n accept) p

/-! ### Repeated arcs -/

theorem nodup_exits_connect (hg : (g.exits p).Nodup) {r : NodeId} :
    ((g.connect r i q).exits p).Nodup := by
  unfold Graph.connect
  split
  · exact hg
  · next hnew =>
    rcases exits_connect_cases g r i q p with heq | ⟨rfl, heq⟩
    · rw [Graph.connect, if_neg hnew] at heq
      rwa [heq]
    · rw [Graph.connect, if_neg hnew] at heq
      rw [heq, List.nodup_cons]
      exact ⟨fun hmem => hnew (hasArc_iff.2 (mem_exits.1 hmem)), hg⟩

theorem nodup_exits_connectAll (hg : (g.exits p).Nodup)
    (arrows : List (NodeId × Interval × NodeId)) : ((g.connectAll arrows).exits p).Nodup :=
  List.foldlRecOn (motive := fun h : Graph => (h.exits p).Nodup) arrows _ hg
    fun _ hh _ _ => nodup_exits_connect hh

end Graph

namespace Automaton

open SymbolAutomata.Graph

variable {a b : Automaton} {p q : NodeId} {c d : Codepoint}

/-! ### Transition edits -/

theorem tidy_carry {g : Graph} (hg : g.Tidy) : (carry g p d q).Tidy := by
  unfold carry
  split
  · exact hg
  · next hnew =>
    refine hg.connect fun m hm heq e he hme => hnew ?_
    obtain rfl := Interval.contains_single.1 he
    obtain ⟨arc, harc, rfl⟩ := List.mem_map.1 hm
    refine List.any_eq_true.2 ⟨arc, harc, ?_⟩
    rw [Bool.and_eq_true, decide_eq_true_eq]
    exact ⟨heq.symm, hme⟩

theorem tidy_addSymbols (ha : a.graph.Tidy) (symbols : List Symbol) :
    (a.addSymbols p q symbols).1.graph.Tidy := by
  induction symbols generalizing a with
  | nil => exact ha
  | cons s rest ih =>
    rw [addSymbols]
    split
    · exact ha
    · exact ih (tidy_carry ha)

/-- **The two sides of a label** have no codepoint in common. -/
theorem remains_pairwise (d : Codepoint) (arc : Arc) (q : NodeId) :
    (remains d arc).Pairwise fun i j => Clear (j, q) (i, q) := by
  have hsides : ∀ left right, (arc.label.splitAround d).1 = some left →
      (arc.label.splitAround d).2 = some right → Clear (right, q) (left, q) := by
    intro left right hleft hright _ c hr hl
    rw [Interval.contains_iff] at hr hl
    unfold Interval.splitAround at hleft hright
    split at hleft
    · next hd =>
      rw [dif_pos hd] at hright
      simp only [Option.dite_none_right_eq_some, Option.some.injEq] at hleft hright
      obtain ⟨hmin, rfl⟩ := hleft
      obtain ⟨hmax, rfl⟩ := hright
      simp only at hr hl
      omega
    · next hd =>
      rw [dif_neg hd] at hright
      split at hleft
      · next hlt =>
        rw [if_pos hlt] at hright
        cases hright
      · cases hleft
  unfold remains
  cases hleft : (arc.label.splitAround d).1 with
  | none =>
    rw [List.reduceOption_cons_of_none]
    cases (arc.label.splitAround d).2 with
    | none => exact List.Pairwise.nil
    | some right => exact List.pairwise_singleton _ _
  | some left =>
    rw [List.reduceOption_cons_of_some]
    cases hright : (arc.label.splitAround d).2 with
    | none => exact List.pairwise_singleton _ _
    | some right => exact List.pairwise_pair.2 (hsides left right hleft hright)

/-- **Cutting an arc keeps a graph tidy.** -/
theorem tidy_cutArc {g : Graph} {arc : Arc} (hg : g.Tidy) (harc : arc ∈ g.arcs) :
    (cutArc d g arc).Tidy := by
  have hless : ∀ r, ((g.removeArc arc).exits r).Sublist (g.exits r) := by
    intro r
    unfold exits outgoing
    rw [arcs_removeArc]
    exact (List.erase_sublist.filter _).map _
  have hperm : (g.exits arc.source).Perm
      ((arc.label, arc.target) :: (g.removeArc arc).exits arc.source) := by
    have hfilter := (List.perm_cons_erase harc).filter (·.source = arc.source)
    rw [List.filter_cons_of_pos (by simp), ← arcs_removeArc] at hfilter
    exact hfilter.map fun a => (a.label, a.target)
  -- what stays at the source of the arc is clear of its label, hence of the pieces
  have hclear := (List.pairwise_cons.1 ((hg arc.source).perm hperm Clear.symm)).1
  rw [cutArc_eq]
  refine (hg.of_exits_sublist hless).connectAll (fun i hi m hm heq c hc => ?_)
    (remains_pairwise d arc arc.target)
  exact hclear m hm heq c (contains_remains.1 ⟨i, hi, hc⟩).1

/-- In a tidy graph there is at most one arc to cut. -/
theorem tidy_cutBetween {g : Graph} (hg : g.Tidy) : (cutBetween g p d q).Tidy := by
  unfold cutBetween
  have harcs : ∀ arc ∈ (g.outgoing p).filter fun arc => arc.target = q && arc.label.contains d,
      arc ∈ g.arcs ∧ arc.target = q := by
    intro arc harc
    obtain ⟨hout, hends⟩ := List.mem_filter.1 harc
    rw [Bool.and_eq_true, decide_eq_true_eq] at hends
    exact ⟨(mem_outgoing.1 hout).1, hends.1⟩
  have hnodup : (((g.outgoing p).filter fun arc =>
      arc.target = q && arc.label.contains d).map (·.target)).Nodup := by
    refine (hg.nodup_targets p d).sublist (List.Sublist.map _ ?_)
    rw [← List.filter_filter]
    exact List.filter_sublist
  generalize (g.outgoing p).filter _ = hit at harcs hnodup
  match hit, harcs, hnodup with
  | [], _, _ => exact hg
  | [arc], harcs, _ => exact tidy_cutArc hg (harcs arc (List.mem_cons_self ..)).1
  | arc :: arc' :: rest, harcs, hnodup =>
    have hfirst := (harcs arc (List.mem_cons_self ..)).2
    have hsecond := (harcs arc' (List.mem_cons_of_mem _ (List.mem_cons_self ..))).2
    rw [List.map_cons, List.map_cons, hfirst, hsecond] at hnodup
    exact absurd (List.mem_cons_self ..) (List.nodup_cons.1 hnodup).1

theorem tidy_deleteTransition (ha : a.graph.Tidy) (i j : StateIndex) (s : Symbol) :
    (a.deleteTransition i j s).automaton.graph.Tidy := by
  rcases deleteTransition_cases a i j s with hsame | ⟨c, p, q, -, hcut⟩
  · rwa [hsame]
  · rw [hcut]
    exact tidy_cutBetween ha

theorem tidy_removeSymbol (ha : a.graph.Tidy) (s : Symbol) :
    (a.removeSymbol s).automaton.graph.Tidy := by
  have hclear : ∀ c (b : Automaton), b.graph.Tidy → ∀ i, (clearSymbol s c b i).graph.Tidy :=
    fun c b hb i => List.foldlRecOn (motive := fun b : Automaton => b.graph.Tidy) _ _ hb
      fun b hb j _ => tidy_deleteTransition hb i j s
  unfold removeSymbol
  split
  · exact ha
  · next c _ =>
    exact List.foldlRecOn (motive := fun b : Automaton => b.graph.Tidy) (List.range a.stateCount)
      _ ha fun b hb i _ => hclear c b hb i

/-! ### Imports -/

theorem nodup_exits_fill {source : Graph} {symbols : SymbolSet}
    (ha : (a.graph.exits p).Nodup) : ((a.fill source symbols).graph.exits p).Nodup := by
  obtain ⟨new, grown, -, hgrown, hfill⟩ := exists_grown_fill a source symbols
  rw [hfill]
  refine List.foldlRecOn (motive := fun b : Automaton => (b.graph.exits p).Nodup) _ _ ?_ ?_
  · have hexits : grown.graph.exits p = a.graph.exits p := exits_congr hgrown.arcs p
    rwa [hexits]
  · intro b hb e _
    rw [fillNode_eq, fillMoves_eq]
    exact nodup_exits_connectAll (by rwa [exits_placed]) _

/-- **An import from a tidy graph** keeps an automaton tidy: the labels that one label becomes do
    not overlap, and what different labels become lies inside them. -/
theorem tidy_fill {source : Graph} (hsource : source.Tidy) (ha : a.graph.Tidy)
    (symbols : SymbolSet) : (a.fill source symbols).graph.Tidy := by
  intro p
  obtain ⟨names, h⟩ := filled_fill a source symbols
  by_cases hold : a.graph.contains p = true
  · rw [(old_fill hold).2]
    exact ha p
  · have hnodup : ((a.fill source symbols).graph.exits p).Nodup := by
      refine nodup_exits_fill ?_
      rw [exits_eq_nil_of_not_contains hold]
      exact List.nodup_nil
    refine hnodup.pairwise_of_forall_ne ?_
    have hfilled : ∀ i q, (i, q) ∈ (a.fill source symbols).graph.exits p →
        ∃ n label m, (n, p) ∈ names ∧ (label, m) ∈ source.exits n ∧ (m, q) ∈ names ∧
          i ∈ carriedLabels a.min a.max symbols label := by
      intro i q hmem
      rcases (h.arrow p i q).1 (mem_exits.1 hmem) with old | ⟨n, label, m, hn, arrow, hm, hi⟩
      · exact absurd old.contains_source hold
      · exact ⟨n, label, m, hn, mem_exits.2 arrow, hm, hi⟩
    rintro ⟨i, q⟩ hx ⟨j, r⟩ hy hne heq c hi hj
    obtain rfl : q = r := heq
    obtain ⟨n, label, m, hn, hexit, hm, hi'⟩ := hfilled i q hx
    obtain ⟨n', label', m', hn', hexit', hm', hj'⟩ := hfilled j q hy
    obtain rfl := h.name_inj hn hn'
    obtain rfl := h.name_inj hm hm'
    by_cases hsame : label = label'
    · subst hsame
      exact carriedLabels_disjoint hi' hj' (fun hij => hne (hij ▸ rfl)) hi hj
    · have hsymm : Std.Symm Clear := ⟨fun _ _ => Clear.symm⟩
      have hclear := (hsource n).forall hexit hexit' fun hmove => hsame (Prod.mk.inj hmove).1
      exact hclear rfl c (contains_of_mem_carriedLabels hi' hi).1
        (contains_of_mem_carriedLabels hj' hj).1

/-! ### All edits -/

theorem tidy_renumber (ha : a.graph.Tidy) : a.renumber.graph.Tidy :=
  ha.of_exits_sublist fun p => exits_prune_sublist a.graph p

/-- **Numbering anew** makes any automaton tidy. -/
theorem Sound.tidy_perform (ha : a.Sound) {e : Edit} (he : e.renumbers = true) :
    (e.perform a).automaton.graph.Tidy := by
  cases e with
  | minimize => exact tidy_renumber (tidy_of_apart (minimal_minimize ha.encoded ha.grounded).apart)
  | reduce => exact tidy_renumber (tidy_of_apart (exits_reduce_apart a.graph))
  | removeDead => exact tidy_renumber (tidy_of_apart (exits_reduce_apart _))
  | _ => cases he

end Automaton

/-- The edits that look before they store a label: all but silent moves and imports from graphs that
    are not tidy themselves. -/
def Edit.Looks : Edit → Prop
  | .fill source _ => source.Tidy
  | .addSilent _ _ => False
  | _ => True

namespace Automaton

open SymbolAutomata.Graph

variable {a : Automaton}

theorem tidy_editState {edit : Graph → NodeId → Graph} {action : String} {i : StateIndex}
    (ha : a.graph.Tidy) (hedit : ∀ g n p, (edit g n).exits p = g.exits p) :
    (a.editState action i edit).value.graph.Tidy := by
  unfold editState resolve
  cases a.states[i]? with
  | none => exact ha
  | some n => exact ha.of_exits_eq fun p => hedit a.graph n p

/-- **All other edits keep an automaton tidy.** -/
theorem tidy_perform (hsound : a.Sound) (ha : a.graph.Tidy) {e : Edit} (he : e.Looks) :
    (e.perform a).automaton.graph.Tidy := by
  cases e with
  | fill source symbols => exact tidy_fill he ha symbols
  | addState => exact ha.of_exits_eq fun p => exits_addNode a.graph false p
  | setInitial i => exact tidy_editState ha fun _ _ _ => rfl
  | setFinal is =>
    exact eachState_keeps (P := fun b => b.graph.Tidy)
      (fun _ _ hb => tidy_editState hb fun g n p => exits_setAccept g n true p) ha is
  | setNonFinal is =>
    exact eachState_keeps (P := fun b => b.graph.Tidy)
      (fun _ _ hb => tidy_editState hb fun g n p => exits_setAccept g n false p) ha is
  | declare deterministic => exact ha
  | addToAlphabet s => exact ha
  | removeFromAlphabet s => exact ha
  | addTransition i j symbols =>
    show (a.addTransition i j symbols).automaton.graph.Tidy
    unfold addTransition
    simp only
    split
    · exact ha
    · exact tidy_addSymbols ha symbols
  | deleteTransition i j s => exact tidy_deleteTransition ha i j s
  | removeSymbol s => exact tidy_removeSymbol ha s
  | addSilent i j => exact absurd he id
  | minimize | reduce | removeDead => exact hsound.tidy_perform rfl

theorem tidy_after (hbuilt : a.Built) (ha : a.graph.Tidy) {es : List Edit}
    (hes : ∀ e ∈ es, e.Looks) : (a.after es).graph.Tidy := by
  induction es generalizing a with
  | nil => exact ha
  | cons e es ih =>
    rw [List.forall_mem_cons] at hes
    exact ih (hbuilt.edited e) (tidy_perform hbuilt.sound ha hes.1) hes.2

end Automaton

end SymbolAutomata
