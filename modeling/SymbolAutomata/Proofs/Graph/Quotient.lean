/-
  SymbolAutomata/Proofs/Graph/Quotient.lean
  =========================================
  **The graph of the classes of a total graph.**

  A single-valued total graph is read as a table: its states are the positions in
  the list of reachable nodes and its letters the codepoint classes
  (`next_table_iff`).  Equivalent states of the table fall into one node of the
  quotient, which moves as the first of them does.

  A node and the class that it falls into simulate each other
  (`acceptsFrom_quotient`), because the first state of a class is equivalent to the
  node.  Two classes that accept the same words are the same
  (`quotient_distinct`), because a word of letters that told two states apart
  would be a word of codepoints that does.
-/
import SymbolAutomata.Graph.Minimal
import SymbolAutomata.Proofs.Graph.Total
import SymbolAutomata.Proofs.Refinement.Coarsest

namespace SymbolAutomata

namespace Graph

/-! ### The order of the reachable nodes -/

theorem reachable_nodup (g : Graph) : g.reachable.Nodup := by
  unfold reachable
  split
  · exact g.nodeIds_sorted.imp Nat.ne_of_lt
  · exact explore_nodup (List.nodup_singleton _)

theorem reachable_eq_explore {g : Graph} {i : NodeId} (hi : g.initial = some i)
    (hc : g.contains i = true) :
    g.reachable = explore (fun n => (g.moves n).map (·.2)) g.nodeCount [] [i] := by
  have hfilter : g.initial.filter g.contains = some i := by simp [hi, hc]
  unfold reachable
  rw [hfilter]

theorem reachable_head? {g : Graph} {i : NodeId} (hi : g.initial = some i)
    (hc : g.contains i = true) : g.reachable[0]? = some i := by
  rw [reachable_eq_explore hi hc]
  exact explore_head?

theorem getElem?_reachable_iff {g : Graph} {n : NodeId} {k : Nat} :
    g.reachable[k]? = some n ↔ n ∈ g.reachable ∧ g.reachable.idxOf n = k :=
  getElem?_eq_some_iff_idxOf g.reachable_nodup

/-! ### The graph as a table -/

/-- The table over the reachable nodes and the codepoint classes. -/
def table (g : Graph) : Table := g.tableOf g.reachable (g.classes.map (·.1))

/-- **The graph of the classes of equivalent nodes.** -/
def quotient (g : Graph) : Graph := ofClasses g.table g.table.classes (g.classes.map (·.2))

variable {g : Graph}

/-- The table without the arrays in which it is kept. -/
theorem table_eq (g : Graph) : g.table =
    { size := g.reachable.length
      letters := g.startPoints.length
      next := fun i j => (g.reachable[i]?).bind fun n => (g.startPoints[j]?).bind fun p =>
        ((g.step n p).map g.reachable.idxOf).filter (· < g.reachable.length)
      accepting := fun i => ((g.reachable[i]?).map g.isAccept).getD false } := by
  unfold table
  rw [map_fst_classes, tableOf, Table.mk.injEq]
  refine ⟨rfl, rfl, ?_, rfl⟩
  funext i j
  simp only [Array.getElem?_map, List.getElem?_toArray]
  cases g.reachable[i]? with
  | none => rfl
  | some n =>
    simp only [Option.map_some, Option.bind_some, Array.getElem?_map, List.getElem?_toArray]
    cases g.startPoints[j]? <;> rfl

theorem next_table_iff {i j k : Nat} :
    g.table.next i j = some k ↔ ∃ n p q, g.reachable[i]? = some n ∧
      g.startPoints[j]? = some p ∧ g.step n p = some q ∧ g.reachable[k]? = some q := by
  rw [table_eq]
  simp only [Option.bind_eq_some_iff, Option.filter_eq_some_iff, Option.map_eq_some_iff,
    decide_eq_true_eq, @getElem?_reachable_iff g _ k]
  constructor
  · intro h
    rcases h with ⟨n, hn, p, hp, ⟨q, hq, rfl⟩, hlt⟩
    exact ⟨n, p, q, hn, hp, hq, List.idxOf_lt_length_iff.1 hlt, rfl⟩
  · intro h
    rcases h with ⟨n, p, q, hn, hp, hq, hmem, rfl⟩
    exact ⟨n, hn, p, hp, ⟨q, hq, rfl⟩, List.idxOf_lt_length_iff.2 hmem⟩

theorem accepting_table {i : Nat} {n : NodeId} (hn : g.reachable[i]? = some n) :
    g.table.accepting i = g.isAccept n := by
  show ((g.reachable[i]?).map g.isAccept).getD false = g.isAccept n
  rw [hn]
  rfl

theorem lt_size_of_reachable {i : Nat} {n : NodeId} (hn : g.reachable[i]? = some n) :
    i < g.table.size := (List.getElem?_eq_some_iff.1 hn).1

theorem exists_reachable_of_lt {i : Nat} (hi : i < g.table.size) : ∃ n, g.reachable[i]? = some n :=
  ⟨_, List.getElem?_eq_getElem hi⟩

theorem letters_table : g.table.letters = g.startPoints.length := by
  show (g.classes.map (·.1)).length = _
  rw [map_fst_classes]

theorem closed_table (g : Graph) : g.table.Closed := by
  intro i j k _ hk
  obtain ⟨n, p, q, -, -, -, hq⟩ := next_table_iff.1 hk
  exact lt_size_of_reachable hq

/-- **The nodes of the quotient** are the classes of equivalent states. -/
theorem classes_table_eq_iff {i j : Nat} (hi : i < g.table.size) (hj : j < g.table.size) :
    g.table.classes.getD i 0 = g.table.classes.getD j 0 ↔ g.table.Equivalent i j :=
  Table.classesBy_eq_iff (closed_table g) (fun _ _ bs => List.Perm.refl bs) hi hj

/-! ### The nodes and arrows of the quotient -/

/-- The first state of each class. -/
def firsts (g : Graph) : List Nat :=
  (fresh [] g.table.classes).map g.table.classes.idxOf

theorem firsts_spec {i b : Nat} (hb : g.firsts[b]? = some i) :
    i < g.table.size ∧ g.table.classes.getD i 0 = b := by
  obtain ⟨k, hrange⟩ : ∃ k, fresh [] g.table.classes = List.range k :=
    Table.fresh_classesBy g.table _
  rw [firsts, List.getElem?_map, Option.map_eq_some_iff] at hb
  obtain ⟨b', hb', rfl⟩ := hb
  have hmem : b' ∈ g.table.classes := (mem_fresh.1 (List.mem_of_getElem? hb')).1
  obtain rfl : b = b' := by
    rw [hrange] at hb'
    obtain ⟨hlt, rfl⟩ := List.getElem?_eq_some_iff.1 hb'
    exact (List.getElem_range hlt).symm
  have hlt := List.idxOf_lt_length_iff.2 hmem
  have hlength : g.table.classes.length = g.table.size := Table.length_classesBy g.table _
  refine ⟨hlength ▸ hlt, ?_⟩
  rw [List.getD_eq_getElem _ _ hlt]
  exact List.getElem_idxOf hlt

theorem exists_firsts {i : Nat} (hi : i < g.table.size) :
    ∃ j, g.firsts[g.table.classes.getD i 0]? = some j := by
  obtain ⟨k, hrange⟩ : ∃ k, fresh [] g.table.classes = List.range k :=
    Table.fresh_classesBy g.table _
  have hlength : g.table.classes.length = g.table.size := Table.length_classesBy g.table _
  rw [← hlength] at hi
  have hmem : g.table.classes.getD i 0 ∈ fresh [] g.table.classes := by
    rw [List.getD_eq_getElem _ _ hi]
    exact mem_fresh.2 ⟨List.getElem_mem hi, List.not_mem_nil⟩
  rw [hrange, List.mem_range] at hmem
  refine ⟨_, List.getElem?_eq_getElem ?_⟩
  rwa [firsts, List.length_map, hrange, List.length_range]

theorem quotient_eq (g : Graph) : g.quotient = build (g.firsts.map g.table.accepting)
    (g.firsts.zipIdx.flatMap fun (i, b) => (g.classes.map (·.2)).zipIdx.filterMap fun (label, j) =>
      (g.table.next i j).map fun dest => (b, label, g.table.classes.getD dest 0)) 0 := rfl

theorem contains_quotient {b : Nat} :
    g.quotient.contains b = true ↔ ∃ i, g.firsts[b]? = some i := by
  rw [quotient_eq, contains_build, List.length_map]
  constructor
  · exact fun hb => ⟨_, List.getElem?_eq_getElem hb⟩
  · intro h
    rcases h with ⟨i, hi⟩
    exact (List.getElem?_eq_some_iff.1 hi).1

theorem arrow_quotient {b b' : Nat} {label : Interval} :
    g.quotient.Arrow b label b' ↔ ∃ i j d, g.firsts[b]? = some i ∧
      (g.classes.map (·.2))[j]? = some label ∧ g.table.next i j = some d ∧
        b' = g.table.classes.getD d 0 := by
  rw [quotient_eq, arrow_build]
  simp only [List.mem_flatMap, List.mem_filterMap, Option.map_eq_some_iff, Prod.mk.injEq,
    Prod.exists, List.length_map]
  constructor
  · intro h
    rcases h with ⟨⟨i, b, hb, label, j, hj, d, hd, rfl, rfl, rfl⟩, -, -⟩
    exact ⟨i, j, d, List.mem_zipIdx_iff_getElem?.1 hb, List.mem_zipIdx_iff_getElem?.1 hj, hd, rfl⟩
  · intro h
    rcases h with ⟨i, j, d, hb, hj, hd, rfl⟩
    obtain ⟨k, hk⟩ := exists_firsts (closed_table g i j d (firsts_spec hb).1 hd)
    exact ⟨⟨i, b, List.mem_zipIdx_iff_getElem?.2 hb, label, j, List.mem_zipIdx_iff_getElem?.2 hj,
      d, hd, rfl, rfl, rfl⟩, (List.getElem?_eq_some_iff.1 hb).1, (List.getElem?_eq_some_iff.1 hk).1⟩

theorem isAccept_quotient {b i : Nat} (hb : g.firsts[b]? = some i) :
    g.quotient.isAccept b = g.table.accepting i := by
  rw [quotient_eq, isAccept_build, List.getElem?_map, hb]
  rfl

/-! ### Nodes and their classes -/

/-- Node `n` of the graph falls into node `b` of the quotient. -/
def InClass (g : Graph) (b : Nat) (n : NodeId) : Prop :=
  ∃ i, g.reachable[i]? = some n ∧ g.table.classes.getD i 0 = b

theorem exists_inClass {b : Nat} (hb : g.quotient.contains b = true) : ∃ n, g.InClass b n := by
  obtain ⟨i, hi⟩ := contains_quotient.1 hb
  obtain ⟨hlt, hclass⟩ := firsts_spec hi
  obtain ⟨n, hn⟩ := exists_reachable_of_lt hlt
  exact ⟨n, i, hn, hclass⟩

theorem exists_first_equivalent {i b : Nat} (hi : i < g.table.size)
    (hb : g.table.classes.getD i 0 = b) :
    ∃ j, g.firsts[b]? = some j ∧ g.table.Equivalent i j := by
  obtain ⟨j, hj⟩ := exists_firsts hi
  obtain ⟨hlt, hclass⟩ := firsts_spec hj
  refine ⟨j, hb ▸ hj, ?_⟩
  rw [← classes_table_eq_iff hi hlt, hclass]

theorem inClass_initial {i : NodeId} (hi : g.initial = some i) (hc : g.contains i = true) :
    g.InClass 0 i := by
  refine ⟨0, reachable_head? hi hc, ?_⟩
  exact Table.classesBy_zero g.table _

theorem exists_class_of_label {j : Nat} {label : Interval}
    (hj : (g.classes.map (·.2))[j]? = some label) :
    ∃ p, g.startPoints[j]? = some p ∧ (p, label) ∈ g.classes := by
  rw [List.getElem?_map, Option.map_eq_some_iff] at hj
  obtain ⟨⟨p, label⟩, hj, rfl⟩ := hj
  refine ⟨p, ?_, List.mem_of_getElem? hj⟩
  rw [← map_fst_classes, List.getElem?_map, hj]
  rfl

theorem exists_letter_of_class {p : Codepoint} {label : Interval} (h : (p, label) ∈ g.classes) :
    ∃ j : Nat, g.startPoints[j]? = some p ∧ (g.classes.map (·.2))[j]? = some label := by
  obtain ⟨j, hj⟩ := List.getElem?_of_mem h
  refine ⟨j, ?_, ?_⟩
  · rw [← map_fst_classes, List.getElem?_map, hj]
    rfl
  · rw [List.getElem?_map, hj]
    rfl

theorem lt_letters_of_point {j : Nat} {p : Codepoint} (hj : g.startPoints[j]? = some p) :
    j < g.table.letters := by
  rw [letters_table]
  exact (List.getElem?_eq_some_iff.1 hj).1

theorem isAccept_inClass {b : Nat} {n : NodeId} (h : g.InClass b n) :
    g.quotient.isAccept b = g.isAccept n := by
  obtain ⟨i, hn, hb⟩ := h
  obtain ⟨j, hj, hequiv⟩ := exists_first_equivalent (lt_size_of_reachable hn) hb
  rw [isAccept_quotient hj, ← hequiv.accepting, accepting_table hn]

section Language

variable (hg : g.Encoded) (hone : g.SingleValued)

include hg

theorem Encoded.quotient : g.quotient.Encoded := by
  intro b label b' arrow
  obtain ⟨i, j, d, -, hj, -, -⟩ := arrow_quotient.1 arrow
  obtain ⟨p, -, hclass⟩ := exists_class_of_label hj
  exact (hg.mem_classes hclass).2.2.1

theorem Encoded.singleValued_quotient : g.quotient.SingleValued := by
  intro b c q r hq hr
  obtain ⟨label, arrow, hc⟩ := mem_targets.1 hq
  obtain ⟨label', arrow', hc'⟩ := mem_targets.1 hr
  obtain ⟨i, j, d, hi, hj, hd, rfl⟩ := arrow_quotient.1 arrow
  obtain ⟨i', j', d', hi', hj', hd', rfl⟩ := arrow_quotient.1 arrow'
  obtain ⟨p, hp, hclass⟩ := exists_class_of_label hj
  obtain ⟨p', hp', hclass'⟩ := exists_class_of_label hj'
  obtain rfl := hg.class_unique hclass hclass' hc hc'
  have hnodup : g.startPoints.Nodup := g.startPoints_sorted.imp Nat.ne_of_lt
  rw [getElem?_eq_some_iff_idxOf hnodup] at hp hp'
  obtain rfl : j = j' := hp.2.symm.trans hp'.2
  obtain rfl : i = i' := Option.some.inj (hi.symm.trans hi')
  rw [hd] at hd'
  rw [Option.some.inj hd']

include hone

theorem quotient_simulated :
    Simulates g g.quotient (fun _ => True) fun b n => g.InClass b n where
  accept h hb := by rwa [← isAccept_inClass h]
  step {b n b' c} h _ hb' := by
    obtain ⟨i, hn, hb⟩ := h
    obtain ⟨label, arrow, hc⟩ := mem_targets.1 hb'
    obtain ⟨j, letter, d, hj, hletter, hd, rfl⟩ := arrow_quotient.1 arrow
    have hilt := lt_size_of_reachable hn
    obtain ⟨hjlt, hclass⟩ := firsts_spec hj
    -- the first state of the class moves, hence so does the state of `n`
    have hequiv := (classes_table_eq_iff hjlt hilt).1 (hclass.trans hb.symm)
    obtain ⟨p, hp, hlabel⟩ := exists_class_of_label hletter
    obtain ⟨d', hd', hequiv'⟩ := hequiv.next (lt_letters_of_point hp) hd
    obtain ⟨n', p', q, hn', hp', hstep, hq⟩ := next_table_iff.1 hd'
    obtain rfl := Option.some.inj (hn.symm.trans hn')
    obtain rfl := Option.some.inj (hp.symm.trans hp')
    refine ⟨q, ?_, d', hq, ?_⟩
    · rw [hg.targets_eq_start hlabel hc]
      exact hone.step_eq_some_iff.1 hstep
    · have hdlt := closed_table g j letter d hjlt hd
      exact ((classes_table_eq_iff hdlt (lt_size_of_reachable hq)).2 hequiv').symm

theorem quotient_simulates :
    Simulates g.quotient g (fun _ => True) fun n b => g.InClass b n where
  accept h hn := by rwa [isAccept_inClass h]
  step {n b n' c} h _ hn' := by
    obtain ⟨i, hn, hb⟩ := h
    obtain ⟨p, label, hlabel, hc⟩ := g.exists_class (endsBy_iff.1 hg n n' c hn')
    obtain ⟨letter, hp, hletter⟩ := exists_letter_of_class hlabel
    have hilt := lt_size_of_reachable hn
    obtain ⟨j, hj, hequiv⟩ := exists_first_equivalent hilt hb
    have hstep : g.step n p = some n' := by
      rw [hone.step_eq_some_iff, ← hg.targets_eq_start hlabel hc]
      exact hn'
    have hreach := mem_reachable_of_mem_targets (List.mem_of_getElem? hn) hn'
    have hd' : g.reachable[g.reachable.idxOf n']? = some n' := List.getElem?_idxOf hreach
    have hnext := next_table_iff.2 ⟨n, p, n', hn, hp, hstep, hd'⟩
    obtain ⟨d, hd, hequiv'⟩ := hequiv.next (lt_letters_of_point hp) hnext
    refine ⟨g.table.classes.getD d 0, ?_, _, hd', ?_⟩
    · exact mem_targets.2 ⟨label, arrow_quotient.2 ⟨j, letter, d, hj, hletter, hd, rfl⟩, hc⟩
    · have hdlt := closed_table g j letter d (firsts_spec hj).1 hd
      exact (classes_table_eq_iff (lt_size_of_reachable hd') hdlt).2 hequiv'

/-- **A class accepts what its nodes accept.** -/
theorem acceptsFrom_quotient {b : Nat} {n : NodeId} (h : g.InClass b n) {w : List Codepoint} :
    g.quotient.AcceptsFrom b w ↔ g.AcceptsFrom n w :=
  acceptsFrom_iff_of_simulates (quotient_simulated hg hone) (quotient_simulates hg hone) h
    fun _ _ => trivial

variable (hfull : g.Complete)

include hfull

/-- On a total graph a word of letters has the outcome of the word of their start points. -/
theorem outcome_table {i : Nat} {n : NodeId} (hn : g.reachable[i]? = some n) {w : List Nat}
    (hw : ∀ j ∈ w, j < g.table.letters) :
    ∃ b, g.table.outcome i w = some b ∧
      (b = true ↔ g.AcceptsFrom n (w.map fun j => g.startPoints.getD j 0)) := by
  induction w generalizing i n with
  | nil =>
    refine ⟨_, rfl, ?_⟩
    rw [accepting_table hn, List.map_nil, acceptsFrom_nil_iff]
  | cons j w ih =>
    have hj := hw j (List.mem_cons_self ..)
    rw [letters_table] at hj
    have hp : g.startPoints[j]? = some (g.startPoints.getD j 0) := by
      rw [List.getD_eq_getElem _ _ hj, List.getElem?_eq_getElem hj]
    have hreach := List.mem_of_getElem? hn
    obtain ⟨q, hq⟩ := hfull n (g.startPoints.getD j 0) (mem_nodeIds_of_mem_reachable hreach)
      (hg.startPoints_le (List.mem_of_getElem? hp))
    have hd := List.getElem?_idxOf (mem_reachable_of_mem_targets hreach hq)
    have hnext := next_table_iff.2 ⟨n, _, q, hn, hp, hone.step_eq_some_iff.2 hq, hd⟩
    obtain ⟨b, hb, hacc⟩ := ih hd fun k hk => hw k (List.mem_cons_of_mem _ hk)
    refine ⟨b, ?_, ?_⟩
    · rw [Table.outcome_cons, hnext]
      exact hb
    · rw [hacc, List.map_cons, acceptsFrom_cons_iff]
      constructor
      · exact fun h => ⟨q, hq, h⟩
      · intro hfound
        rcases hfound with ⟨r, hr, h⟩
        rwa [hone n _ q r hq hr]

/-- **Different classes accept different words.** -/
theorem quotient_distinct {b b' : Nat} (hb : g.quotient.contains b = true)
    (hb' : g.quotient.contains b' = true)
    (hsame : ∀ w, g.quotient.AcceptsFrom b w ↔ g.quotient.AcceptsFrom b' w) : b = b' := by
  obtain ⟨n, hn⟩ := exists_inClass hb
  obtain ⟨n', hn'⟩ := exists_inClass hb'
  have hsame' : ∀ w, g.AcceptsFrom n w ↔ g.AcceptsFrom n' w := by
    intro w
    rw [← acceptsFrom_quotient hg hone hn, ← acceptsFrom_quotient hg hone hn']
    exact hsame w
  obtain ⟨i, hi, rfl⟩ := hn
  obtain ⟨i', hi', rfl⟩ := hn'
  refine (classes_table_eq_iff (lt_size_of_reachable hi) (lt_size_of_reachable hi')).2 ?_
  intro w hw
  obtain ⟨v, hv, hacc⟩ := outcome_table hg hone hfull hi hw
  obtain ⟨v', hv', hacc'⟩ := outcome_table hg hone hfull hi' hw
  rw [hv, hv', Option.some_inj, Bool.eq_iff_iff, hacc, hacc']
  exact hsame' _

end Language

end Graph

end SymbolAutomata
