/-
  SymbolAutomata/Proofs/Graph/Copy.lean
  =====================================
  **A graph copied into another one.**

  `Adopted` says what copying does: every node of the part gets a new node with the
  same flag, the arrows of the part join the new nodes, and everything that was there
  before stays (`adopted_adopt`).  Seen through destinations, the copy moves among
  the new nodes as the part does (`Adopted.follows`), and the old nodes lead where
  they led (`Adopted.mem_targets_old`).

  `Follows` is all that paths need: they can be carried into the copy and back.
-/
import Mathlib.Data.List.Induction
import Mathlib.Data.List.Nodup
import SymbolAutomata.Graph.Algebra
import SymbolAutomata.Proofs.Graph.Silent

namespace SymbolAutomata

namespace Graph

/-! ### Copying -/

/-- **What copying does.** -/
structure Adopted (g part : Graph) (c : Copy) : Prop where
  keys : c.names.map (·.1) = part.nodeIds
  values : (c.names.map (·.2)).Nodup
  fresh : ∀ n p, (n, p) ∈ c.names → g.contains p = false
  contains : ∀ p, c.whole.contains p = true ↔ g.contains p = true ∨ ∃ n, (n, p) ∈ c.names
  flagged : ∀ n p, (n, p) ∈ c.names → c.whole.isAccept p = part.isAccept n
  unflagged : ∀ p, g.contains p = true → c.whole.isAccept p = g.isAccept p
  arrow : ∀ x i y, c.whole.Arrow x i y ↔ g.Arrow x i y ∨
    ∃ m n, (m, x) ∈ c.names ∧ (n, y) ∈ c.names ∧ part.Arrow m i n
  initial : c.whole.initial = g.initial
  deterministic : c.whole.deterministic = g.deterministic

/-- The nodes of a list, each with a copy. -/
structure AdoptedNodes (g part : Graph) (ns : List NodeId) (c : Copy) : Prop where
  keys : c.names.map (·.1) = ns
  values : (c.names.map (·.2)).Nodup
  fresh : ∀ n p, (n, p) ∈ c.names → g.flag? p = none
  flagged : ∀ n p, (n, p) ∈ c.names → c.whole.flag? p = some (part.isAccept n)
  unflagged : ∀ p, (∀ n, (n, p) ∉ c.names) → c.whole.flag? p = g.flag? p
  arcs : c.whole.arcs = g.arcs
  initial : c.whole.initial = g.initial
  deterministic : c.whole.deterministic = g.deterministic

theorem adoptedNodes_foldl (g part : Graph) (ns : List NodeId) :
    AdoptedNodes g part ns (ns.foldl (fun c n =>
      ⟨c.whole.addNode (part.isAccept n), c.names ++ [(n, c.whole.nextNode)]⟩) ⟨g, []⟩) := by
  -- the last node is copied last
  induction ns using List.reverseRecOn with
  | nil => constructor <;> simp
  | append_singleton ns n ih =>
    rw [List.foldl_append]
    simp only [List.foldl_cons, List.foldl_nil]
    generalize ns.foldl _ _ = c at ih
    have hnext := flag?_nextNode c.whole
    have hnew : ∀ m, (m, c.whole.nextNode) ∉ c.names := by
      intro m hm
      rw [ih.flagged m _ hm] at hnext
      cases hnext
    have hne : ∀ {m p}, (m, p) ∈ c.names → p ≠ c.whole.nextNode := by
      rintro m p hm rfl
      exact hnew m hm
    refine ⟨by simp [ih.keys], ?_, ?_, ?_, ?_, ?_, ?_, ?_⟩
    · rw [List.map_append, List.nodup_append]
      refine ⟨ih.values, List.nodup_singleton _, ?_⟩
      rintro p hp q hq rfl
      obtain ⟨m, hm⟩ := mem_map_snd_iff.1 hp
      exact hne hm (List.mem_singleton.1 hq)
    · intro m p hm
      rcases List.mem_append.1 hm with hm | hm
      · exact ih.fresh m p hm
      · obtain ⟨rfl, rfl⟩ := Prod.mk.inj (List.mem_singleton.1 hm)
        rwa [ih.unflagged _ hnew] at hnext
    · intro m p hm
      rw [flag?_addNode]
      rcases List.mem_append.1 hm with hm | hm
      · rw [if_neg (hne hm), ih.flagged m p hm]
      · obtain ⟨rfl, rfl⟩ := Prod.mk.inj (List.mem_singleton.1 hm)
        rw [if_pos rfl]
    · intro p hp
      have hlast : p ≠ c.whole.nextNode := by
        rintro rfl
        exact hp n (List.mem_append_right _ (List.mem_singleton_self _))
      rw [flag?_addNode, if_neg hlast]
      exact ih.unflagged p fun m hm => hp m (List.mem_append_left _ hm)
    · exact (arcs_addNode _ _).trans ih.arcs
    · exact (initial_addNode _ _).trans ih.initial
    · exact (deterministic_addNode _ _).trans ih.deterministic

/-- Adds the arcs of a list as they lead between copies. -/
def adoptArcs (h : Graph) (names : List (NodeId × NodeId)) (arcs : List Arc) : Graph :=
  arcs.foldl (fun h a =>
    match names.lookup a.source, names.lookup a.target with
    | some p, some q => h.addArc p a.label q
    | _, _ => h) h

theorem adopt_eq (g part : Graph) :
    g.adopt part = ⟨(g.adoptNodes part).whole.adoptArcs (g.adoptNodes part).names part.storedArcs,
      (g.adoptNodes part).names⟩ := rfl

section Arcs

variable {names : List (NodeId × NodeId)}

theorem adoptArcs_keeps {γ : Type} (view : Graph → γ)
    (keep : ∀ h p i q, view (addArc h p i q) = view h) (h : Graph) (arcs : List Arc) :
    view (h.adoptArcs names arcs) = view h := by
  refine foldl_keeps view ?_ arcs h
  intro k a
  split
  · exact keep _ _ _ _
  · rfl

theorem arrow_adoptArcs (hkeys : (names.map (·.1)).Nodup) {h : Graph}
    (hnames : ∀ n p, (n, p) ∈ names → h.contains p = true) {arcs : List Arc} {x y : NodeId}
    {i : Interval} : (h.adoptArcs names arcs).Arrow x i y ↔ h.Arrow x i y ∨
      ∃ a ∈ arcs, (a.source, x) ∈ names ∧ (a.target, y) ∈ names ∧ a.label = i := by
  induction arcs generalizing h with
  | nil => simp [adoptArcs]
  | cons a arcs ih =>
    have hrest : h.adoptArcs names (a :: arcs) = (match names.lookup a.source,
        names.lookup a.target with
      | some p, some q => h.addArc p a.label q
      | _, _ => h).adoptArcs names arcs := rfl
    rw [hrest]
    simp only [List.mem_cons, exists_eq_or_imp]
    split
    · next p q hp hq =>
      rw [lookup_eq_some_iff hkeys] at hp hq
      rw [ih fun n r hr => (contains_addArc h p a.label q r).trans (hnames n r hr), arrow_addArc,
        or_assoc]
      refine or_congr_right (or_congr_left ?_)
      -- names are unique, so the new arc is the only one that `a` gives
      constructor
      · intro hfound
        rcases hfound with ⟨-, rfl, rfl, rfl⟩
        exact ⟨hp, hq, rfl⟩
      · intro hfound
        rcases hfound with ⟨hx, hy, rfl⟩
        rw [← lookup_eq_some_iff hkeys] at hp hq hx hy
        rw [hp] at hx
        rw [hq] at hy
        refine ⟨⟨?_, ?_⟩, (Option.some.inj hx).symm, rfl, (Option.some.inj hy).symm⟩
        · exact hnames _ p ((lookup_eq_some_iff hkeys).1 hp)
        · exact hnames _ q ((lookup_eq_some_iff hkeys).1 hq)
    · next hnone =>
      rw [ih hnames]
      refine or_congr_right ?_
      constructor
      · exact Or.inr
      · intro hcase
        rcases hcase with ⟨hx, hy, -⟩ | hlater
        · rw [← lookup_eq_some_iff hkeys] at hx hy
          exact absurd hy (hnone x y hx)
        · exact hlater

end Arcs

theorem adopted_adopt (g part : Graph) : Adopted g part (g.adopt part) := by
  have h : AdoptedNodes g part part.nodeIds (g.adoptNodes part) :=
    adoptedNodes_foldl g part part.nodeIds
  have hkeys : ((g.adoptNodes part).names.map (·.1)).Nodup := by
    rw [h.keys]
    exact part.nodeIds_sorted.imp Nat.ne_of_lt
  rw [adopt_eq]
  generalize g.adoptNodes part = c at h hkeys
  have hflag : ∀ p, (c.whole.adoptArcs c.names part.storedArcs).flag? p = c.whole.flag? p :=
    fun p => adoptArcs_keeps (·.flag? p) (fun h q i r => flag?_addArc h q i r p) _ _
  have hcontains : ∀ p, c.whole.contains p = true ↔
      g.contains p = true ∨ ∃ n, (n, p) ∈ c.names := by
    intro p
    rw [contains_eq_isSome, contains_eq_isSome]
    by_cases hp : ∃ n, (n, p) ∈ c.names
    · obtain ⟨n, hn⟩ := hp
      rw [h.flagged n p hn]
      exact iff_of_true rfl (Or.inr ⟨n, hn⟩)
    · rw [h.unflagged p fun n hn => hp ⟨n, hn⟩]
      exact ⟨Or.inl, fun hc => hc.resolve_right hp⟩
  refine ⟨h.keys, h.values, ?_, ?_, ?_, ?_, ?_, ?_, ?_⟩
  · intro n p hp
    rw [contains_eq_isSome, h.fresh n p hp]
    rfl
  · intro p
    rw [contains_eq_isSome, hflag, ← contains_eq_isSome]
    exact hcontains p
  · intro n p hp
    rw [isAccept, hflag, h.flagged n p hp]
    rfl
  · intro p hp
    rw [isAccept, hflag, h.unflagged p, isAccept]
    intro n hn
    rw [contains_eq_isSome, h.fresh n p hn] at hp
    cases hp
  · intro x i y
    have hnames : ∀ n p, (n, p) ∈ c.names → c.whole.contains p = true :=
      fun n p hp => (hcontains p).2 (Or.inr ⟨n, hp⟩)
    rw [arrow_adoptArcs hkeys hnames, arrow_congr h.arcs]
    refine or_congr_right ?_
    constructor
    · intro hfound
      rcases hfound with ⟨a, ha, hx, hy, rfl⟩
      exact ⟨a.source, a.target, hx, hy, a, List.mem_mergeSort.1 ha, rfl, rfl, rfl⟩
    · intro hfound
      rcases hfound with ⟨m, n, hx, hy, a, ha, rfl, rfl, rfl⟩
      exact ⟨a, List.mem_mergeSort.2 ha, hx, hy, rfl⟩
  · exact (adoptArcs_keeps (·.initial) initial_addArc _ _).trans h.initial
  · exact (adoptArcs_keeps (·.deterministic) deterministic_addArc _ _).trans h.deterministic

/-! ### Paths in the copy -/

/-- **Named nodes move among themselves** as the nodes of the part do, all of which have names. -/
structure Follows (part g : Graph) (names : List (NodeId × NodeId)) : Prop where
  covers : ∀ n, part.contains n = true → ∃ p, (n, p) ∈ names
  targets : ∀ {m x}, (m, x) ∈ names → ∀ {y c}, y ∈ g.targets x c ↔
    ∃ n, (n, y) ∈ names ∧ n ∈ part.targets m c

section Copy

variable {g part : Graph} {c : Copy} (h : Adopted g part c)

include h

theorem Adopted.name?_eq_some_iff {n p : NodeId} : c.name? n = some p ↔ (n, p) ∈ c.names := by
  apply lookup_eq_some_iff
  rw [h.keys]
  exact part.nodeIds_sorted.imp Nat.ne_of_lt

theorem Adopted.exists_name_iff {n : NodeId} :
    (∃ p, (n, p) ∈ c.names) ↔ part.contains n = true := by
  rw [← mem_nodeIds, ← h.keys, mem_map_fst_iff]

theorem Adopted.name_inj {m n p : NodeId} (hm : (m, p) ∈ c.names) (hn : (n, p) ∈ c.names) :
    m = n := by
  have hpair := List.inj_on_of_nodup_map h.values hm hn rfl
  exact (Prod.mk.inj hpair).1

theorem Adopted.contains_old {p : NodeId} (hp : g.contains p = true) :
    c.whole.contains p = true := (h.contains p).2 (Or.inl hp)

theorem Adopted.contains_name {n p : NodeId} (hp : (n, p) ∈ c.names) :
    c.whole.contains p = true := (h.contains p).2 (Or.inr ⟨n, hp⟩)

theorem Adopted.not_name_of_contains {n p : NodeId} (hp : g.contains p = true) :
    (n, p) ∉ c.names := by
  intro hn
  rw [h.fresh n p hn] at hp
  cases hp

theorem Adopted.not_arrow_fresh {n x y : NodeId} {i : Interval} (hx : (n, x) ∈ c.names) :
    ¬ g.Arrow x i y :=
  fun arrow => h.not_name_of_contains arrow.contains_source hx

theorem Adopted.follows : Follows part c.whole c.names := by
  refine ⟨fun n hn => h.exists_name_iff.2 hn, ?_⟩
  intro m x hx y d
  simp only [mem_targets, h.arrow]
  constructor
  · intro hcase
    rcases hcase with ⟨i, old | ⟨m', n, hm', hn, harrow⟩, hd⟩
    · exact absurd old (h.not_arrow_fresh hx)
    · rw [h.name_inj hm' hx] at harrow
      exact ⟨n, hn, i, harrow, hd⟩
  · intro hfound
    rcases hfound with ⟨n, hn, i, harrow, hd⟩
    exact ⟨i, Or.inr ⟨m, n, hx, hn, harrow⟩, hd⟩

theorem Adopted.mem_targets_old {x y : NodeId} {d : Codepoint} (hx : g.contains x = true) :
    y ∈ c.whole.targets x d ↔ y ∈ g.targets x d := by
  simp only [mem_targets, h.arrow]
  constructor
  · intro hcase
    rcases hcase with ⟨i, old | ⟨m, n, hm, -, -⟩, hd⟩
    · exact ⟨i, old, hd⟩
    · exact absurd hm (h.not_name_of_contains hx)
  · intro hfound
    rcases hfound with ⟨i, old, hd⟩
    exact ⟨i, Or.inl old, hd⟩

end Copy

section Follows

variable {g part : Graph} {names : List (NodeId × NodeId)} (h : Follows part g names)

include h

theorem Follows.exists_target {m n x : NodeId} {c : Codepoint} (hx : (m, x) ∈ names)
    (hn : n ∈ part.targets m c) : ∃ y ∈ g.targets x c, (n, y) ∈ names := by
  obtain ⟨i, arrow, -⟩ := mem_targets.1 hn
  obtain ⟨y, hy⟩ := h.covers n arrow.contains_target
  exact ⟨y, (h.targets hx).2 ⟨n, hy, hn⟩, hy⟩

theorem Follows.of_targets {g' : Graph}
    (htargets : ∀ x y c, y ∈ g'.targets x c ↔ y ∈ g.targets x c) : Follows part g' names :=
  ⟨h.covers, fun hx _ _ => (htargets _ _ _).trans (h.targets hx)⟩

theorem Follows.adopt {other : Graph} {c : Copy} (hc : Adopted g other c)
    (hnames : ∀ n p, (n, p) ∈ names → g.contains p = true) : Follows part c.whole names := by
  refine ⟨h.covers, ?_⟩
  intro m x hx y d
  rw [hc.mem_targets_old (hnames m x hx), h.targets hx]

end Follows

end Graph

end SymbolAutomata
