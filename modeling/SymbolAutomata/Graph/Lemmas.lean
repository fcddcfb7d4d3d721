/-
  SymbolAutomata/Graph/Lemmas.lean
  ================================
  **What the primitives do to a graph**, seen through its flags and its arrows.

  A graph is known by three things: `flag?` says which numbers have a node and
  whether it accepts, `Arrow` says which labels join which nodes, and `initial`
  names the start. Each primitive of `Graph.Basic` changes one of them; there is
  one equation here for each primitive and each view, so that no later argument
  has to look at how nodes and arcs are stored.
-/
import SymbolAutomata.Graph.Basic

namespace SymbolAutomata

namespace Graph

/-! ### Nodes -/

theorem contains_eq_isSome (g : Graph) (n : NodeId) : g.contains n = (g.flag? n).isSome := rfl

theorem contains_of_isAccept {g : Graph} {n : NodeId} (h : g.isAccept n = true) :
    g.contains n = true := by
  unfold isAccept at h
  unfold contains
  cases hf : g.flag? n with
  | none => simp [hf] at h
  | some b => rfl

theorem flag?_congr {g h : Graph} {n : NodeId} (same : g.contains n = h.contains n)
    (accept : g.isAccept n = h.isAccept n) : g.flag? n = h.flag? n := by
  unfold contains at same
  unfold isAccept at accept
  cases hg : g.flag? n <;> cases hh : h.flag? n <;> simp_all

theorem lt_length_of_contains {g : Graph} {n : NodeId} (h : g.contains n = true) :
    n < g.nodes.length := by
  obtain ⟨b, hb⟩ := contains_iff.1 h
  exact (List.getElem?_eq_some_iff.1 hb).1

@[simp] theorem mem_nodeIds {g : Graph} {n : NodeId} : n ∈ g.nodeIds ↔ g.contains n = true := by
  simp only [nodeIds, List.mem_filter, List.mem_range]
  exact ⟨fun h => h.2, fun h => ⟨lt_length_of_contains h, h⟩⟩

@[simp] theorem mem_acceptIds {g : Graph} {n : NodeId} : n ∈ g.acceptIds ↔ g.isAccept n = true := by
  simp only [acceptIds, List.mem_filter, mem_nodeIds]
  exact ⟨fun h => h.2, fun h => ⟨contains_of_isAccept h, h⟩⟩

/-- **Nodes are listed in increasing order**, each once. -/
theorem nodeIds_sorted (g : Graph) : g.nodeIds.Pairwise (· < ·) :=
  List.Pairwise.filter _ List.pairwise_lt_range

/-! ### Arrows -/

theorem Arrow.contains_source {g : Graph} {p q : NodeId} {i : Interval} (h : g.Arrow p i q) :
    g.contains p = true := by
  obtain ⟨a, ha, rfl, -, -⟩ := h
  exact contains_iff.2 (g.arcs_joined a ha).1

theorem Arrow.contains_target {g : Graph} {p q : NodeId} {i : Interval} (h : g.Arrow p i q) :
    g.contains q = true := by
  obtain ⟨a, ha, -, -, rfl⟩ := h
  exact contains_iff.2 (g.arcs_joined a ha).2

theorem arrow_congr {g h : Graph} (e : g.arcs = h.arcs) {p q : NodeId} {i : Interval} :
    g.Arrow p i q ↔ h.Arrow p i q := by
  unfold Arrow
  rw [e]

@[simp] theorem mem_outgoing {g : Graph} {n : NodeId} {a : Arc} :
    a ∈ g.outgoing n ↔ a ∈ g.arcs ∧ a.source = n := by
  simp [outgoing]

@[simp] theorem mem_incoming {g : Graph} {n : NodeId} {a : Arc} :
    a ∈ g.incoming n ↔ a ∈ g.arcs ∧ a.target = n := by
  simp [incoming]

/-! ### The empty graph -/

@[simp] theorem flag?_empty (n : NodeId) : empty.flag? n = none := by
  simp [empty, flag?]

@[simp] theorem not_arrow_empty {p q : NodeId} {i : Interval} : ¬ empty.Arrow p i q := by
  simp [empty, Arrow]

/-! ### New nodes -/

/-- **The number handed out next belongs to no node.** -/
@[simp] theorem flag?_nextNode (g : Graph) : g.flag? g.nextNode = none := by
  unfold nextNode
  cases h : g.vacated with
  | nil => simp [flag?]
  | cons v vs =>
    have hv : g.nodes[v]? = some none := g.vacated_empty v (h ▸ List.mem_cons_self ..)
    simp [flag?, hv]

@[simp] theorem flag?_addNode (g : Graph) (b : Bool) (n : NodeId) :
    (g.addNode b).flag? n = if n = g.nextNode then some b else g.flag? n := by
  unfold addNode nextNode flag?
  split
  next h =>
    simp only [h, List.headD_nil]
    by_cases hn : n = g.nodes.length
    · subst hn
      simp
    · rcases Nat.lt_or_gt_of_ne hn with hlt | hgt
      · simp [hn, List.getElem?_append_left hlt]
      · have beyond : (g.nodes ++ [some b])[n]? = none :=
          List.getElem?_eq_none (by rw [List.length_append, List.length_singleton]; exact hgt)
        simp [hn, beyond, List.getElem?_eq_none (Nat.le_of_lt hgt)]
  next v vs h =>
    have hv : g.nodes[v]? = some none := g.vacated_empty v (h ▸ List.mem_cons_self ..)
    have hlt : v < g.nodes.length := (List.getElem?_eq_some_iff.1 hv).1
    simp only [h, List.headD_cons]
    by_cases hn : n = v
    · subst hn
      simp [hlt]
    · simp [hn, List.getElem?_set_ne (Ne.symm hn)]

@[simp] theorem arcs_addNode (g : Graph) (b : Bool) : (g.addNode b).arcs = g.arcs := by
  unfold addNode
  split <;> rfl

@[simp] theorem initial_addNode (g : Graph) (b : Bool) : (g.addNode b).initial = g.initial := by
  unfold addNode
  split <;> rfl

@[simp] theorem deterministic_addNode (g : Graph) (b : Bool) :
    (g.addNode b).deterministic = g.deterministic := by
  unfold addNode
  split <;> rfl

@[simp] theorem arrow_addNode {g : Graph} {b : Bool} {p q : NodeId} {i : Interval} :
    (g.addNode b).Arrow p i q ↔ g.Arrow p i q := arrow_congr (arcs_addNode g b)

/-! ### Accept flags -/

@[simp] theorem flag?_setAccept (g : Graph) (m : NodeId) (b : Bool) (n : NodeId) :
    (g.setAccept m b).flag? n = if n = m ∧ g.contains m = true then some b else g.flag? n := by
  unfold setAccept
  split
  next h =>
    by_cases hn : n = m
    · subst hn
      simp [flag?, h, lt_length_of_contains h]
    · simp [flag?, hn, List.getElem?_set_ne (Ne.symm hn)]
  next h => simp [h]

@[simp] theorem arcs_setAccept (g : Graph) (m : NodeId) (b : Bool) :
    (g.setAccept m b).arcs = g.arcs := by
  unfold setAccept
  split <;> rfl

@[simp] theorem initial_setAccept (g : Graph) (m : NodeId) (b : Bool) :
    (g.setAccept m b).initial = g.initial := by
  unfold setAccept
  split <;> rfl

@[simp] theorem deterministic_setAccept (g : Graph) (m : NodeId) (b : Bool) :
    (g.setAccept m b).deterministic = g.deterministic := by
  unfold setAccept
  split <;> rfl

@[simp] theorem arrow_setAccept {g : Graph} {m : NodeId} {b : Bool} {p q : NodeId} {i : Interval} :
    (g.setAccept m b).Arrow p i q ↔ g.Arrow p i q := arrow_congr (arcs_setAccept g m b)

@[simp] theorem contains_setAccept (g : Graph) (m : NodeId) (b : Bool) (n : NodeId) :
    (g.setAccept m b).contains n = g.contains n := by
  rw [contains_eq_isSome, flag?_setAccept]
  split
  next h =>
    obtain ⟨rfl, hm⟩ := h
    simp [hm]
  next h => rfl

/-! ### The initial node and the declaration -/

@[simp] theorem flag?_setInitial (g : Graph) (m n : NodeId) :
    (g.setInitial m).flag? n = g.flag? n := rfl

@[simp] theorem arrow_setInitial {g : Graph} {m p q : NodeId} {i : Interval} :
    (g.setInitial m).Arrow p i q ↔ g.Arrow p i q := Iff.rfl

@[simp] theorem initial_setInitial (g : Graph) (m : NodeId) :
    (g.setInitial m).initial = some m := rfl

@[simp] theorem deterministic_setInitial (g : Graph) (m : NodeId) :
    (g.setInitial m).deterministic = g.deterministic := rfl

@[simp] theorem flag?_declare (g : Graph) (d : Bool) (n : NodeId) :
    (g.declare d).flag? n = g.flag? n := rfl

@[simp] theorem arrow_declare {g : Graph} {d : Bool} {p q : NodeId} {i : Interval} :
    (g.declare d).Arrow p i q ↔ g.Arrow p i q := Iff.rfl

@[simp] theorem initial_declare (g : Graph) (d : Bool) : (g.declare d).initial = g.initial := rfl

@[simp] theorem deterministic_declare (g : Graph) (d : Bool) :
    (g.declare d).deterministic = d := rfl

/-! ### New arcs -/

@[simp] theorem flag?_addArc (g : Graph) (p : NodeId) (i : Interval) (q n : NodeId) :
    (g.addArc p i q).flag? n = g.flag? n := by
  unfold addArc
  split <;> rfl

@[simp] theorem contains_addArc (g : Graph) (p : NodeId) (i : Interval) (q n : NodeId) :
    (g.addArc p i q).contains n = g.contains n := by
  simp [contains_eq_isSome]

@[simp] theorem initial_addArc (g : Graph) (p : NodeId) (i : Interval) (q : NodeId) :
    (g.addArc p i q).initial = g.initial := by
  unfold addArc
  split <;> rfl

@[simp] theorem deterministic_addArc (g : Graph) (p : NodeId) (i : Interval) (q : NodeId) :
    (g.addArc p i q).deterministic = g.deterministic := by
  unfold addArc
  split <;> rfl

/-- **A new arc adds one arrow**, if both its ends are nodes. -/
theorem arrow_addArc {g : Graph} {p q p' q' : NodeId} {i i' : Interval} :
    (g.addArc p i q).Arrow p' i' q' ↔
      g.Arrow p' i' q' ∨
        ((g.contains p = true ∧ g.contains q = true) ∧ p' = p ∧ i' = i ∧ q' = q) := by
  unfold addArc
  split
  next h =>
    constructor
    · rintro ⟨a, ha, rfl, rfl, rfl⟩
      rcases List.mem_cons.1 ha with rfl | ha
      · exact Or.inr ⟨h, rfl, rfl, rfl⟩
      · exact Or.inl ⟨a, ha, rfl, rfl, rfl⟩
    · rintro (⟨a, ha, rfl, rfl, rfl⟩ | ⟨-, rfl, rfl, rfl⟩)
      · exact ⟨a, List.mem_cons_of_mem _ ha, rfl, rfl, rfl⟩
      · exact ⟨_, List.mem_cons_self .., rfl, rfl, rfl⟩
  next h => simp [h]

@[simp] theorem flag?_connect (g : Graph) (p : NodeId) (i : Interval) (q n : NodeId) :
    (g.connect p i q).flag? n = g.flag? n := by
  unfold connect
  split <;> simp

@[simp] theorem contains_connect (g : Graph) (p : NodeId) (i : Interval) (q n : NodeId) :
    (g.connect p i q).contains n = g.contains n := by
  simp [contains_eq_isSome]

@[simp] theorem initial_connect (g : Graph) (p : NodeId) (i : Interval) (q : NodeId) :
    (g.connect p i q).initial = g.initial := by
  unfold connect
  split <;> simp

@[simp] theorem deterministic_connect (g : Graph) (p : NodeId) (i : Interval) (q : NodeId) :
    (g.connect p i q).deterministic = g.deterministic := by
  unfold connect
  split <;> simp

/-- **Connecting two nodes** adds one arrow, which may have been there before. -/
theorem arrow_connect {g : Graph} {p q p' q' : NodeId} {i i' : Interval} :
    (g.connect p i q).Arrow p' i' q' ↔
      g.Arrow p' i' q' ∨
        ((g.contains p = true ∧ g.contains q = true) ∧ p' = p ∧ i' = i ∧ q' = q) := by
  unfold connect
  split
  next h =>
    constructor
    · exact Or.inl
    · rintro (h' | ⟨-, rfl, rfl, rfl⟩)
      · exact h'
      · exact hasArc_iff.1 h
  next h => exact arrow_addArc

/-! ### Removed arcs -/

@[simp] theorem flag?_removeArc (g : Graph) (a : Arc) (n : NodeId) :
    (g.removeArc a).flag? n = g.flag? n := by
  unfold removeArc
  split <;> rfl

@[simp] theorem contains_removeArc (g : Graph) (a : Arc) (n : NodeId) :
    (g.removeArc a).contains n = g.contains n := by
  simp [contains_eq_isSome]

@[simp] theorem initial_removeArc (g : Graph) (a : Arc) : (g.removeArc a).initial = g.initial := by
  unfold removeArc
  split <;> rfl

@[simp] theorem deterministic_removeArc (g : Graph) (a : Arc) :
    (g.removeArc a).deterministic = g.deterministic := by
  unfold removeArc
  split <;> rfl

/-- **Removing an arc** takes out its first occurrence and keeps the order of the others. -/
@[simp] theorem arcs_removeArc (g : Graph) (a : Arc) : (g.removeArc a).arcs = g.arcs.erase a := by
  unfold removeArc
  split
  next h => rfl
  next h => exact (List.erase_of_not_mem h).symm

/-! ### Removed nodes -/

@[simp] theorem flag?_removeNode (g : Graph) (m n : NodeId) :
    (g.removeNode m).flag? n = if n = m then none else g.flag? n := by
  unfold removeNode
  split
  next h =>
    by_cases hn : n = m
    · subst hn
      simp [flag?, lt_length_of_contains h]
    · simp [flag?, hn, List.getElem?_set_ne (Ne.symm hn)]
  next h =>
    by_cases hn : n = m
    · subst hn
      simpa [contains] using h
    · simp [hn]

@[simp] theorem initial_removeNode (g : Graph) (m : NodeId) :
    (g.removeNode m).initial = g.initial := by
  unfold removeNode
  split <;> rfl

@[simp] theorem deterministic_removeNode (g : Graph) (m : NodeId) :
    (g.removeNode m).deterministic = g.deterministic := by
  unfold removeNode
  split <;> rfl

/-- **A node takes its arrows with it.** -/
theorem arrow_removeNode {g : Graph} {n p q : NodeId} {i : Interval} :
    (g.removeNode n).Arrow p i q ↔ g.Arrow p i q ∧ p ≠ n ∧ q ≠ n := by
  unfold removeNode
  split
  next h =>
    constructor
    · rintro ⟨a, ha, rfl, rfl, rfl⟩
      simp only [List.mem_filter, Bool.and_eq_true, decide_eq_true_eq] at ha
      exact ⟨⟨a, ha.1, rfl, rfl, rfl⟩, ha.2⟩
    · rintro ⟨⟨a, ha, rfl, rfl, rfl⟩, hp, hq⟩
      refine ⟨a, ?_, rfl, rfl, rfl⟩
      simp only [List.mem_filter, Bool.and_eq_true, decide_eq_true_eq]
      exact ⟨ha, hp, hq⟩
  next h =>
    constructor
    · intro ha
      refine ⟨ha, ?_, ?_⟩
      · rintro rfl
        exact h ha.contains_source
      · rintro rfl
        exact h ha.contains_target
    · exact fun ha => ha.1

end Graph

end SymbolAutomata
