/-
  SymbolAutomata/Proofs/Graph/Trim.lean
  =====================================
  **What trimming keeps.**

  Reduction leaves every node with the same moves over each codepoint
  (`mem_targets_reduce`) and with labels that cannot be joined any further
  (`exits_reduce_apart`).  Dropping dead arcs keeps just the arrows into live
  nodes (`mem_targets_removeDead`), and pruning just the nodes that can be reached
  (`flag?_prune`, `arrow_prune`), with their arcs as they are stored (`arcs_prune`).
  None of the three changes what is accepted.
-/
import SymbolAutomata.Proofs.Graph.Build
import SymbolAutomata.Proofs.Graph.Merging

namespace SymbolAutomata

theorem foldl_erase_filter {α : Type} [DecidableEq α] (test : α → Bool) (xs : List α) :
    (xs.filter test).foldl List.erase xs = xs.filter (!test ·) := by
  induction xs with
  | nil => rfl
  | cons x xs ih =>
    by_cases hx : test x = true
    · simp only [hx, List.filter_cons_of_pos, List.foldl_cons, List.erase_cons_head,
        Bool.not_true, Bool.false_eq_true, not_false_eq_true, List.filter_cons_of_neg]
      exact ih
    · -- an element that fails the test is never erased and stays in front
      have hfront : ∀ ys zs : List α, (∀ y ∈ ys, y ≠ x) →
          ys.foldl List.erase (x :: zs) = x :: ys.foldl List.erase zs := by
        intro ys
        induction ys with
        | nil => intro zs _; rfl
        | cons y ys ihy =>
          intro zs hne
          have hy : x ≠ y := (hne y (List.mem_cons_self ..)).symm
          rw [List.foldl_cons, List.foldl_cons, List.erase_cons_tail (by simpa using hy)]
          exact ihy _ fun z hz => hne z (List.mem_cons_of_mem _ hz)
      have hfalse : test x = false := by simpa using hx
      rw [List.filter_cons_of_neg hx, hfront, ih, List.filter_cons_of_pos (by simp [hfalse])]
      rintro y hy rfl
      exact hx (List.mem_filter.1 hy).2

namespace Graph

/-! ### Exits -/

theorem mem_exits {g : Graph} {p q : NodeId} {i : Interval} :
    (i, q) ∈ g.exits p ↔ g.Arrow p i q := by
  rw [← (moves_perm g p).mem_iff, mem_moves]

theorem mem_targets_iff_exits {g : Graph} {p q : NodeId} {c : Codepoint} :
    q ∈ g.targets p c ↔ ∃ i, (i, q) ∈ g.exits p ∧ i.contains c = true := by
  simp only [mem_targets, mem_exits]

theorem exits_congr {g h : Graph} (e : g.arcs = h.arcs) (p : NodeId) : g.exits p = h.exits p := by
  unfold exits outgoing
  rw [e]

theorem exits_eq_nil_of_not_contains {g : Graph} {p : NodeId} (hp : ¬ g.contains p = true) :
    g.exits p = [] := by
  rw [List.eq_nil_iff_forall_not_mem]
  rintro ⟨i, q⟩ hm
  exact hp (mem_exits.1 hm).contains_source

theorem arcs_addArc {g : Graph} {p q : NodeId} {i : Interval}
    (h : g.contains p = true ∧ g.contains q = true) :
    (g.addArc p i q).arcs = ⟨p, i, q, g.nextCell⟩ :: g.arcs := by
  unfold addArc
  rw [dif_pos h]

theorem exits_connect_ne {g : Graph} {p q n : NodeId} {i : Interval} (hn : n ≠ p) :
    (g.connect p i q).exits n = g.exits n := by
  unfold connect
  split
  · rfl
  · by_cases h : g.contains p = true ∧ g.contains q = true
    · unfold exits outgoing
      rw [arcs_addArc h, List.filter_cons_of_neg]
      simpa using hn.symm
    · unfold addArc
      rw [dif_neg h]

theorem exits_connect_self {g : Graph} {p q : NodeId} {i : Interval}
    (h : g.contains p = true ∧ g.contains q = true) (hnew : (i, q) ∉ g.exits p) :
    (g.connect p i q).exits p = (i, q) :: g.exits p := by
  have harc : ¬ g.hasArc p q i = true := fun hc => hnew (mem_exits.2 (hasArc_iff.1 hc))
  unfold connect
  rw [if_neg harc]
  unfold exits outgoing
  rw [arcs_addArc h, List.filter_cons_of_pos (by simp), List.map_cons]

theorem exits_connectAll_ne {g : Graph} {arrows : List (NodeId × Interval × NodeId)} {n : NodeId}
    (hn : ∀ a ∈ arrows, n ≠ a.1) : (g.connectAll arrows).exits n = g.exits n := by
  induction arrows generalizing g with
  | nil => rfl
  | cons a arrows ih =>
    have hrest : g.connectAll (a :: arrows) = (g.connect a.1 a.2.1 a.2.2).connectAll arrows := rfl
    rw [hrest, ih fun b hb => hn b (List.mem_cons_of_mem _ hb)]
    exact exits_connect_ne (hn a (List.mem_cons_self ..))

theorem exits_connectAll_self {g : Graph} {n : NodeId} {xs : List Move}
    (hn : g.contains n = true) (hdest : ∀ m ∈ xs, g.contains m.2 = true) (hxs : xs.Nodup)
    (hnew : ∀ m ∈ xs, m ∉ g.exits n) :
    ((g.connectAll (xs.map fun m => (n, m))).exits n).Perm (xs ++ g.exits n) := by
  induction xs generalizing g with
  | nil => exact List.Perm.refl _
  | cons m xs ih =>
    obtain ⟨hm, hxs⟩ := List.nodup_cons.1 hxs
    have hends : g.contains n = true ∧ g.contains m.2 = true :=
      ⟨hn, hdest m (List.mem_cons_self ..)⟩
    have hself := exits_connect_self (i := m.1) hends (hnew m (List.mem_cons_self ..))
    have hrest : g.connectAll ((m :: xs).map fun m => (n, m)) =
        (g.connect n m.1 m.2).connectAll (xs.map fun m => (n, m)) := rfl
    rw [hrest]
    refine (ih ?_ ?_ hxs ?_).trans ?_
    · rw [contains_connect]
      exact hn
    · intro k hk
      rw [contains_connect]
      exact hdest k (List.mem_cons_of_mem _ hk)
    · intro k hk hmem
      rw [hself] at hmem
      rcases List.mem_cons.1 hmem with rfl | hmem
      · exact hm hk
      · exact hnew k (List.mem_cons_of_mem _ hk) hmem
    · rw [hself]
      exact List.perm_middle

/-! ### Removing arcs -/

theorem arcs_foldl_removeArc (g : Graph) (test : Arc → Bool) :
    ((g.arcs.filter test).foldl removeArc g).arcs = g.arcs.filter (!test ·) := by
  have hfold : ∀ (out : List Arc) (h : Graph),
      (out.foldl removeArc h).arcs = out.foldl List.erase h.arcs := by
    intro out
    induction out with
    | nil => intro h; rfl
    | cons a out ih =>
      intro h
      rw [List.foldl_cons, ih, arcs_removeArc, List.foldl_cons]
  rw [hfold, foldl_erase_filter]

@[simp] theorem flag?_foldl_removeArc (g : Graph) (out : List Arc) (n : NodeId) :
    (out.foldl removeArc g).flag? n = g.flag? n :=
  foldl_keeps (·.flag? n) (fun h a => flag?_removeArc h a n) out g

@[simp] theorem initial_foldl_removeArc (g : Graph) (out : List Arc) :
    (out.foldl removeArc g).initial = g.initial :=
  foldl_keeps (·.initial) initial_removeArc out g

@[simp] theorem deterministic_foldl_removeArc (g : Graph) (out : List Arc) :
    (out.foldl removeArc g).deterministic = g.deterministic :=
  foldl_keeps (·.deterministic) deterministic_removeArc out g

@[simp] theorem contains_foldl_removeArc (g : Graph) (out : List Arc) (n : NodeId) :
    (out.foldl removeArc g).contains n = g.contains n := by
  simp [contains_eq_isSome]

/-! ### Reduction -/

/-- A node without its outgoing arcs. -/
def cleared (g : Graph) (n : NodeId) : Graph := (g.outgoing n).foldl removeArc g

theorem exits_cleared_self (g : Graph) (n : NodeId) : (g.cleared n).exits n = [] := by
  unfold exits outgoing cleared
  rw [outgoing, arcs_foldl_removeArc, List.filter_filter, List.map_eq_nil_iff,
    List.filter_eq_nil_iff]
  intro a _
  simp

theorem exits_cleared_ne {g : Graph} {n p : NodeId} (hp : p ≠ n) :
    (g.cleared n).exits p = g.exits p := by
  unfold exits outgoing cleared
  rw [outgoing, arcs_foldl_removeArc, List.filter_filter]
  congr 1
  apply List.filter_congr
  intro a _
  by_cases ha : a.source = p
  · have hne : a.source ≠ n := ha ▸ hp
    simp [ha, hp]
  · simp [ha]

theorem reduceAt_eq (g : Graph) (n : NodeId) :
    g.reduceAt n =
      if (mergeExits (g.exits n)).length = (g.exits n).length then g
      else (g.cleared n).connectAll ((mergeExits (g.exits n)).map fun m => (n, m)) := by
  have hlen : (g.exits n).length = (g.outgoing n).length := List.length_map _
  rw [reduceAt, ← mergedMoves_eq, hlen, connectAll, List.foldl_map]
  rfl

@[simp] theorem flag?_reduceAt (g : Graph) (n m : NodeId) :
    (g.reduceAt n).flag? m = g.flag? m := by
  rw [reduceAt_eq]
  split
  · rfl
  · rw [flag?_connectAll, cleared, flag?_foldl_removeArc]

@[simp] theorem initial_reduceAt (g : Graph) (n : NodeId) :
    (g.reduceAt n).initial = g.initial := by
  rw [reduceAt_eq]
  split
  · rfl
  · rw [initial_connectAll, cleared, initial_foldl_removeArc]

@[simp] theorem deterministic_reduceAt (g : Graph) (n : NodeId) :
    (g.reduceAt n).deterministic = g.deterministic := by
  rw [reduceAt_eq]
  split
  · rfl
  · rw [deterministic_connectAll, cleared, deterministic_foldl_removeArc]

theorem exits_reduceAt_ne {g : Graph} {n p : NodeId} (hp : p ≠ n) :
    (g.reduceAt n).exits p = g.exits p := by
  rw [reduceAt_eq]
  split
  · rfl
  · rw [exits_connectAll_ne, exits_cleared_ne hp]
    intro a ha
    obtain ⟨m, -, rfl⟩ := List.mem_map.1 ha
    exact hp

theorem mergeExits_nodup (xs : List Move) : (mergeExits xs).Nodup := by
  refine (mergeExits_apart xs).imp ?_
  rintro a b hab rfl
  have hle := a.1.min_le_max
  rcases hab rfl with h | h <;> omega

theorem exits_reduceAt_self (g : Graph) (n : NodeId) :
    ((g.reduceAt n).exits n).Perm (mergeExits (g.exits n)) := by
  rw [reduceAt_eq]
  split
  · next hlen => exact (mergeExits_perm_of_length_eq hlen).symm
  · next hlen =>
    have hdest : ∀ m ∈ mergeExits (g.exits n), g.contains n = true ∧ g.contains m.2 = true := by
      rintro ⟨i, q⟩ hm
      obtain ⟨j, hj, -⟩ := leads_mergeExits.1 ⟨i, hm, i.contains_min⟩
      exact ⟨(mem_exits.1 hj).contains_source, (mem_exits.1 hj).contains_target⟩
    have hsome : mergeExits (g.exits n) ≠ [] := by
      intro hnil
      apply hlen
      cases hexits : g.exits n with
      | nil => rfl
      | cons m rest =>
        have hm : (m.1, m.2) ∈ g.exits n := by
          rw [hexits]
          exact List.mem_cons_self ..
        obtain ⟨j, hj, -⟩ := leads_mergeExits.2 ⟨m.1, hm, m.1.contains_min⟩
        rw [hnil] at hj
        cases hj
    obtain ⟨m, hm⟩ := List.exists_mem_of_ne_nil _ hsome
    have hcontains : ∀ k, (g.cleared n).contains k = g.contains k := by
      intro k
      rw [cleared, contains_foldl_removeArc]
    have hnew : ∀ k ∈ mergeExits (g.exits n), k ∉ (g.cleared n).exits n := by
      intro k _
      rw [exits_cleared_self]
      exact List.not_mem_nil
    have hperm := exits_connectAll_self (by rw [hcontains]; exact (hdest m hm).1)
      (fun k hk => by rw [hcontains]; exact (hdest k hk).2) (mergeExits_nodup _) hnew
    rwa [exits_cleared_self, List.append_nil] at hperm

theorem exits_foldl_reduceAt {ns : List NodeId} (hns : ns.Nodup) (g : Graph) (p : NodeId) :
    (p ∈ ns → ((ns.foldl reduceAt g).exits p).Perm (mergeExits (g.exits p))) ∧
      (p ∉ ns → (ns.foldl reduceAt g).exits p = g.exits p) := by
  induction ns generalizing g with
  | nil => simp
  | cons n ns ih =>
    obtain ⟨hn, hns⟩ := List.nodup_cons.1 hns
    obtain ⟨hin, hout⟩ := ih hns (g.reduceAt n)
    rw [List.foldl_cons]
    constructor
    · intro hp
      rcases List.mem_cons.1 hp with rfl | hp
      · rw [hout hn]
        exact exits_reduceAt_self g p
      · have hne : p ≠ n := fun heq => hn (heq ▸ hp)
        have hperm := hin hp
        rwa [exits_reduceAt_ne hne] at hperm
    · intro hp
      rw [List.mem_cons, not_or] at hp
      rw [hout hp.2, exits_reduceAt_ne hp.1]

/-- **Every node has its moves merged** by reduction. -/
theorem exits_reduce (g : Graph) (p : NodeId) :
    (g.reduce.exits p).Perm (mergeExits (g.exits p)) := by
  have hnodup : g.nodeIds.Nodup := g.nodeIds_sorted.imp Nat.ne_of_lt
  obtain ⟨hin, hout⟩ := exits_foldl_reduceAt hnodup g p
  by_cases hp : g.contains p = true
  · exact hin (mem_nodeIds.2 hp)
  · have hnil := exits_eq_nil_of_not_contains hp
    have heq : g.reduce.exits p = g.exits p := hout fun hmem => hp (mem_nodeIds.1 hmem)
    rw [heq, hnil]
    exact List.Perm.refl _

@[simp] theorem flag?_reduce (g : Graph) (n : NodeId) : g.reduce.flag? n = g.flag? n :=
  foldl_keeps (·.flag? n) (fun h m => flag?_reduceAt h m n) g.nodeIds g

@[simp] theorem initial_reduce (g : Graph) : g.reduce.initial = g.initial :=
  foldl_keeps (·.initial) initial_reduceAt g.nodeIds g

@[simp] theorem deterministic_reduce (g : Graph) :
    g.reduce.deterministic = g.deterministic :=
  foldl_keeps (·.deterministic) deterministic_reduceAt g.nodeIds g

@[simp] theorem contains_reduce (g : Graph) (n : NodeId) :
    g.reduce.contains n = g.contains n := by
  simp [contains_eq_isSome]

@[simp] theorem isAccept_reduce (g : Graph) (n : NodeId) :
    g.reduce.isAccept n = g.isAccept n := by
  rw [isAccept, flag?_reduce, isAccept]

/-- **Reduction keeps every destination** over every codepoint. -/
@[simp] theorem mem_targets_reduce {g : Graph} {p q : NodeId} {c : Codepoint} :
    q ∈ g.reduce.targets p c ↔ q ∈ g.targets p c := by
  simp only [mem_targets_iff_exits, (exits_reduce g p).mem_iff]
  exact leads_mergeExits

theorem exits_reduce_apart (g : Graph) (p : NodeId) : (g.reduce.exits p).Pairwise Apart :=
  (mergeExits_apart _).perm (exits_reduce g p).symm Apart.symm

/-! ### Dead arcs -/

theorem arcs_foldl_clearDead (alive ns : List NodeId) (g : Graph) :
    (ns.foldl (fun h n => ((h.outgoing n).filter (·.target ∉ alive)).foldl removeArc h) g).arcs =
      g.arcs.filter fun a => a.source ∉ ns || a.target ∈ alive := by
  induction ns generalizing g with
  | nil =>
    rw [List.foldl_nil]
    exact (List.filter_eq_self.2 fun a _ => by simp).symm
  | cons n ns ih =>
    have hstep : (((g.outgoing n).filter (·.target ∉ alive)).foldl removeArc g).arcs =
        g.arcs.filter fun a => a.source ≠ n || a.target ∈ alive := by
      rw [outgoing, List.filter_filter, arcs_foldl_removeArc]
      apply List.filter_congr
      intro a _
      by_cases hs : a.source = n <;> by_cases ht : a.target ∈ alive <;> simp [hs, ht]
    rw [List.foldl_cons, ih, hstep, List.filter_filter]
    apply List.filter_congr
    intro a _
    by_cases hs : a.source = n <;> by_cases ht : a.target ∈ alive <;> simp [hs, ht]

/-- The graph without the arcs into nodes from which nothing is accepted. -/
def withoutDead (g : Graph) : Graph :=
  g.nodeIds.foldl (fun h n => ((h.outgoing n).filter (·.target ∉ g.live)).foldl removeArc h) g

theorem removeDead_eq (g : Graph) : g.removeDead = g.withoutDead.reduce := rfl

theorem arrow_withoutDead {g : Graph} {p q : NodeId} {i : Interval} :
    g.withoutDead.Arrow p i q ↔ g.Arrow p i q ∧ q ∈ g.live := by
  unfold withoutDead Arrow
  rw [arcs_foldl_clearDead]
  simp only [List.mem_filter, Bool.or_eq_true, decide_eq_true_eq]
  constructor
  · intro h
    rcases h with ⟨a, ⟨ha, hlive⟩, rfl, rfl, rfl⟩
    refine ⟨⟨a, ha, rfl, rfl, rfl⟩, hlive.resolve_left ?_⟩
    rw [not_not, mem_nodeIds, contains_iff]
    exact (g.arcs_joined a ha).1
  · intro h
    rcases h with ⟨⟨a, ha, rfl, rfl, rfl⟩, hlive⟩
    exact ⟨a, ⟨ha, Or.inr hlive⟩, rfl, rfl, rfl⟩

@[simp] theorem flag?_withoutDead (g : Graph) (n : NodeId) :
    g.withoutDead.flag? n = g.flag? n :=
  foldl_keeps (·.flag? n) (fun h _ => flag?_foldl_removeArc h _ n) g.nodeIds g

@[simp] theorem initial_withoutDead (g : Graph) : g.withoutDead.initial = g.initial :=
  foldl_keeps (·.initial) (fun h _ => initial_foldl_removeArc h _) g.nodeIds g

@[simp] theorem flag?_removeDead (g : Graph) (n : NodeId) : g.removeDead.flag? n = g.flag? n := by
  rw [removeDead_eq, flag?_reduce, flag?_withoutDead]

@[simp] theorem initial_removeDead (g : Graph) : g.removeDead.initial = g.initial := by
  rw [removeDead_eq, initial_reduce, initial_withoutDead]

@[simp] theorem deterministic_removeDead (g : Graph) :
    g.removeDead.deterministic = g.deterministic := by
  rw [removeDead_eq, deterministic_reduce]
  exact foldl_keeps (·.deterministic) (fun h _ => deterministic_foldl_removeArc h _) g.nodeIds g

@[simp] theorem contains_removeDead (g : Graph) (n : NodeId) :
    g.removeDead.contains n = g.contains n := by
  simp [contains_eq_isSome]

@[simp] theorem isAccept_removeDead (g : Graph) (n : NodeId) :
    g.removeDead.isAccept n = g.isAccept n := by
  rw [isAccept, flag?_removeDead, isAccept]

/-- **Just the steps into live nodes stay.** -/
theorem mem_targets_removeDead {g : Graph} {p q : NodeId} {c : Codepoint} :
    q ∈ g.removeDead.targets p c ↔ q ∈ g.targets p c ∧ q ∈ g.live := by
  rw [removeDead_eq, mem_targets_reduce]
  simp only [mem_targets, arrow_withoutDead]
  constructor
  · intro h
    rcases h with ⟨i, ⟨arrow, hlive⟩, hc⟩
    exact ⟨⟨i, arrow, hc⟩, hlive⟩
  · intro h
    rcases h with ⟨⟨i, arrow, hc⟩, hlive⟩
    exact ⟨i, ⟨arrow, hlive⟩, hc⟩

/-- **Dead arcs accept nothing**: without them each node accepts the same words. -/
theorem acceptsFrom_removeDead {g : Graph} {p : NodeId} {w : List Codepoint} :
    g.removeDead.AcceptsFrom p w ↔ g.AcceptsFrom p w := by
  induction w generalizing p with
  | nil => rw [acceptsFrom_nil_iff, acceptsFrom_nil_iff, isAccept_removeDead]
  | cons c w ih =>
    simp only [acceptsFrom_cons_iff, mem_targets_removeDead, ih]
    constructor
    · intro h
      rcases h with ⟨q, ⟨hq, -⟩, hacc⟩
      exact ⟨q, hq, hacc⟩
    · intro h
      rcases h with ⟨q, hq, hacc⟩
      exact ⟨q, ⟨hq, mem_live.2 ⟨w, hacc⟩⟩, hacc⟩

/-! ### Pruning -/

theorem flag?_foldl_removeNode (g : Graph) (ns : List NodeId) (n : NodeId) :
    (ns.foldl removeNode g).flag? n = if n ∈ ns then none else g.flag? n := by
  induction ns generalizing g with
  | nil => simp
  | cons m ns ih =>
    rw [List.foldl_cons, ih, flag?_removeNode]
    by_cases hm : n = m <;> by_cases hn : n ∈ ns <;> simp [hm, hn]

theorem arrow_foldl_removeNode {g : Graph} {ns : List NodeId} {p q : NodeId} {i : Interval} :
    (ns.foldl removeNode g).Arrow p i q ↔ g.Arrow p i q ∧ p ∉ ns ∧ q ∉ ns := by
  induction ns generalizing g with
  | nil => simp
  | cons m ns ih =>
    rw [List.foldl_cons, ih, arrow_removeNode]
    simp only [List.mem_cons, not_or]
    constructor
    · intro h
      rcases h with ⟨⟨arrow, hp, hq⟩, hps, hqs⟩
      exact ⟨arrow, ⟨hp, hps⟩, hq, hqs⟩
    · intro h
      rcases h with ⟨arrow, ⟨hp, hps⟩, hq, hqs⟩
      exact ⟨⟨arrow, hp, hq⟩, hps, hqs⟩

@[simp] theorem initial_prune (g : Graph) : g.prune.initial = g.initial := by
  unfold prune
  split
  · rfl
  · exact foldl_keeps (·.initial) initial_removeNode _ g

@[simp] theorem deterministic_prune (g : Graph) : g.prune.deterministic = g.deterministic := by
  unfold prune
  split
  · rfl
  · exact foldl_keeps (·.deterministic) deterministic_removeNode _ g

/-- A graph whose initial node is missing reaches all its nodes. -/
theorem reachable_of_missing {g : Graph} (h : ∀ i, g.initial = some i → ¬ g.contains i = true) :
    g.reachable = g.nodeIds := by
  have hnone : g.initial.filter g.contains = none := by
    cases hi : g.initial with
    | none => rfl
    | some i => simp [h i hi]
  unfold reachable
  rw [hnone]

theorem mem_nodeIds_of_mem_reachable {g : Graph} {n : NodeId} (hn : n ∈ g.reachable) :
    g.contains n = true := by
  by_cases hmiss : ∀ i, g.initial = some i → ¬ g.contains i = true
  · rw [reachable_of_missing hmiss, mem_nodeIds] at hn
    exact hn
  · rw [not_forall] at hmiss
    obtain ⟨i, hi⟩ := hmiss
    rw [Classical.not_imp, not_not] at hi
    obtain ⟨w, path⟩ := (mem_reachable hi.1 hi.2).1 hn
    exact path.contains hi.2

/-- Nodes that are not reachable go, unless there has never been an initial node. -/
theorem prune_eq (g : Graph) :
    g.prune = (g.nodeIds.filter (· ∉ g.reachable)).foldl removeNode g := by
  unfold prune
  split
  · next hnone =>
    have hall : g.reachable = g.nodeIds := by
      apply reachable_of_missing
      intro i hi
      rw [hi] at hnone
      cases hnone
    rw [hall, List.filter_eq_nil_iff.2]
    · rfl
    · intro n hn
      simpa using hn
  · rfl

theorem flag?_prune (g : Graph) (n : NodeId) :
    g.prune.flag? n = if n ∈ g.reachable then g.flag? n else none := by
  rw [prune_eq, flag?_foldl_removeNode]
  by_cases hn : n ∈ g.reachable
  · simp [hn]
  · by_cases hc : g.contains n = true
    · simp [hn, hc]
    · have hnone : g.flag? n = none := by simpa [contains] using hc
      simp [hn, hnone]

theorem contains_prune {g : Graph} {n : NodeId} :
    g.prune.contains n = true ↔ n ∈ g.reachable := by
  rw [contains_eq_isSome, flag?_prune]
  split
  · next hn =>
    rw [← contains_eq_isSome]
    exact iff_of_true (mem_nodeIds_of_mem_reachable hn) hn
  · next hn => simp [hn]

theorem arrow_prune {g : Graph} {p q : NodeId} {i : Interval} :
    g.prune.Arrow p i q ↔ g.Arrow p i q ∧ p ∈ g.reachable := by
  rw [prune_eq, arrow_foldl_removeNode]
  simp only [List.mem_filter, mem_nodeIds, decide_eq_true_eq, not_and, not_not]
  constructor
  · intro h
    rcases h with ⟨arrow, hp, -⟩
    exact ⟨arrow, hp arrow.contains_source⟩
  · intro h
    rcases h with ⟨arrow, hp⟩
    refine ⟨arrow, fun _ => hp, fun hq => ?_⟩
    by_cases hmiss : ∀ i, g.initial = some i → ¬ g.contains i = true
    · rw [reachable_of_missing hmiss, mem_nodeIds]
      exact hq
    · rw [not_forall] at hmiss
      obtain ⟨i, hi⟩ := hmiss
      rw [Classical.not_imp, not_not] at hi
      obtain ⟨w, path⟩ := (mem_reachable hi.1 hi.2).1 hp
      exact (mem_reachable hi.1 hi.2).2 ⟨_, reads_append_iff.2 ⟨p, path, Reads.of_arrow arrow⟩⟩

theorem mem_targets_prune {g : Graph} {p q : NodeId} {c : Codepoint} :
    q ∈ g.prune.targets p c ↔ q ∈ g.targets p c ∧ p ∈ g.reachable := by
  simp only [mem_targets, arrow_prune]
  constructor
  · intro h
    rcases h with ⟨i, ⟨arrow, hp⟩, hc⟩
    exact ⟨⟨i, arrow, hc⟩, hp⟩
  · intro h
    rcases h with ⟨⟨i, arrow, hc⟩, hp⟩
    exact ⟨i, ⟨arrow, hp⟩, hc⟩

theorem isAccept_prune {g : Graph} {n : NodeId} (hn : n ∈ g.reachable) :
    g.prune.isAccept n = g.isAccept n := by
  rw [isAccept, flag?_prune, if_pos hn, isAccept]

theorem mem_reachable_of_mem_targets {g : Graph} {p q : NodeId} {c : Codepoint}
    (hp : p ∈ g.reachable) (hq : q ∈ g.targets p c) : q ∈ g.reachable := by
  obtain ⟨i, arrow, -⟩ := mem_targets.1 hq
  exact contains_prune.1 (arrow_prune.2 ⟨arrow, hp⟩).contains_target

theorem reads_prune {g : Graph} {p q : NodeId} (hp : p ∈ g.reachable) {w : List Codepoint} :
    g.prune.Reads p w q ↔ g.Reads p w q := by
  induction w generalizing p with
  | nil => rw [reads_nil_iff, reads_nil_iff]
  | cons c w ih =>
    simp only [reads_cons_iff, mem_targets_prune]
    constructor
    · intro h
      rcases h with ⟨r, ⟨hr, -⟩, path⟩
      exact ⟨r, hr, (ih (mem_reachable_of_mem_targets hp hr)).1 path⟩
    · intro h
      rcases h with ⟨r, hr, path⟩
      exact ⟨r, ⟨hr, hp⟩, (ih (mem_reachable_of_mem_targets hp hr)).2 path⟩

theorem arcs_foldl_removeNode (ns : List NodeId) (g : Graph) :
    (ns.foldl removeNode g).arcs = g.arcs.filter fun a => a.source ∉ ns ∧ a.target ∉ ns := by
  induction ns generalizing g with
  | nil =>
    rw [List.foldl_nil]
    exact (List.filter_eq_self.2 fun a _ => by simp).symm
  | cons n ns ih =>
    have hstep : (g.removeNode n).arcs = g.arcs.filter fun a => a.source ≠ n && a.target ≠ n := by
      unfold removeNode
      split
      · rfl
      · next hn =>
        -- a number without a node has no arcs
        refine (List.filter_eq_self.2 fun a ha => ?_).symm
        obtain ⟨hs, ht⟩ := g.arcs_joined a ha
        rw [contains_iff] at hn
        simp only [Bool.and_eq_true, decide_eq_true_eq]
        exact ⟨fun heq => hn (heq ▸ hs), fun heq => hn (heq ▸ ht)⟩
    rw [List.foldl_cons, ih, hstep, List.filter_filter]
    apply List.filter_congr
    intro a _
    by_cases hs : a.source = n <;> by_cases ht : a.target = n <;> simp [hs, ht]

/-- **Pruning keeps the arcs of reachable nodes**, in the order in which they are stored. -/
theorem arcs_prune (g : Graph) : g.prune.arcs = g.arcs.filter (·.source ∈ g.reachable) := by
  have hkept : ∀ n, g.contains n = true →
      (n ∉ g.nodeIds.filter (· ∉ g.reachable) ↔ n ∈ g.reachable) := by
    intro n hn
    simp [hn]
  rw [prune_eq, arcs_foldl_removeNode]
  apply List.filter_congr
  intro a ha
  have arrow : g.Arrow a.source a.label a.target := ⟨a, ha, rfl, rfl, rfl⟩
  rw [decide_eq_decide, hkept _ arrow.contains_source, hkept _ arrow.contains_target]
  refine and_iff_left_of_imp fun hsource => ?_
  exact mem_reachable_of_mem_targets hsource
    (mem_targets.2 ⟨a.label, arrow, a.label.contains_min⟩)

/-- Pruning keeps the order in which the moves of a node are stored. -/
theorem exits_prune_sublist (g : Graph) (p : NodeId) : (g.prune.exits p).Sublist (g.exits p) := by
  unfold exits outgoing
  rw [arcs_prune]
  exact (List.filter_sublist.filter _).map _

theorem acceptsFrom_prune {g : Graph} {p : NodeId} (hp : p ∈ g.reachable)
    {w : List Codepoint} : g.prune.AcceptsFrom p w ↔ g.AcceptsFrom p w := by
  induction w generalizing p with
  | nil => rw [acceptsFrom_nil_iff, acceptsFrom_nil_iff, isAccept_prune hp]
  | cons c w ih =>
    simp only [acceptsFrom_cons_iff, mem_targets_prune]
    constructor
    · intro h
      rcases h with ⟨q, ⟨hq, -⟩, hacc⟩
      exact ⟨q, hq, (ih (mem_reachable_of_mem_targets hp hq)).1 hacc⟩
    · intro h
      rcases h with ⟨q, hq, hacc⟩
      exact ⟨q, ⟨hq, hp⟩, (ih (mem_reachable_of_mem_targets hp hq)).2 hacc⟩

theorem mem_reachable_initial {g : Graph} {i : NodeId} (hi : g.initial = some i)
    (hc : g.contains i = true) : i ∈ g.reachable := (mem_reachable hi hc).2 ⟨[], .nil i⟩

/-- **Pruning keeps the language**, whether or not the initial node exists. -/
theorem accepts_prune {g : Graph} {w : List Codepoint} : g.prune.Accepts w ↔ g.Accepts w := by
  cases hi : g.initial with
  | none =>
    refine iff_of_false (not_accepts_of_initial ?_) (not_accepts_of_initial hi)
    rw [initial_prune, hi]
  | some i =>
    have hi' : g.prune.initial = some i := by rw [initial_prune, hi]
    rw [accepts_iff_of_initial hi', accepts_iff_of_initial hi]
    by_cases hc : g.contains i = true
    · exact acceptsFrom_prune (mem_reachable_initial hi hc)
    · have hc' : g.contains i = false := by simpa using hc
      refine iff_of_false (not_acceptsFrom_of_not_contains ?_) (not_acceptsFrom_of_not_contains hc')
      rw [← Bool.not_eq_true, contains_prune]
      exact fun hmem => hc (mem_nodeIds_of_mem_reachable hmem)

/-- What pruning leaves is reachable. -/
theorem mem_reachable_prune {g : Graph} {n : NodeId} :
    n ∈ g.prune.reachable ↔ g.prune.contains n = true := by
  refine ⟨mem_nodeIds_of_mem_reachable, ?_⟩
  intro hn
  by_cases hmiss : ∀ i, g.initial = some i → ¬ g.contains i = true
  · -- without a node to start from all nodes count as reachable, before and after
    have hmiss' : ∀ i, g.prune.initial = some i → ¬ g.prune.contains i = true := by
      intro i hi hc
      rw [initial_prune] at hi
      exact hmiss i hi (mem_nodeIds_of_mem_reachable (contains_prune.1 hc))
    rw [reachable_of_missing hmiss', mem_nodeIds]
    exact hn
  · rw [not_forall] at hmiss
    obtain ⟨i, hi⟩ := hmiss
    rw [Classical.not_imp, not_not] at hi
    have hroot := mem_reachable_initial hi.1 hi.2
    obtain ⟨w, path⟩ := (mem_reachable hi.1 hi.2).1 (contains_prune.1 hn)
    have hi' : g.prune.initial = some i := by rw [initial_prune, hi.1]
    exact (mem_reachable hi' (contains_prune.2 hroot)).2 ⟨w, (reads_prune hroot).2 path⟩

/-- A graph all of whose nodes are reachable is not pruned. -/
theorem prune_eq_self {g : Graph} (h : ∀ n, g.contains n = true → n ∈ g.reachable) :
    g.prune = g := by
  rw [prune_eq]
  have hnone : g.nodeIds.filter (· ∉ g.reachable) = [] := by
    rw [List.filter_eq_nil_iff]
    intro n hn
    have hreach := h n (mem_nodeIds.1 hn)
    simpa using hreach
  rw [hnone]
  rfl

end Graph

end SymbolAutomata
