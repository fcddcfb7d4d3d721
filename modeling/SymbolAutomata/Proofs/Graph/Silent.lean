/-
  SymbolAutomata/Proofs/Graph/Silent.lean
  =======================================
  **Splicing silent moves into a graph.**

  `Wanders` are the paths of a graph with silent moves: each step follows an arrow
  or, reading nothing, a pair.  Splicing gives a node what the nodes that it reaches
  silently have (`mem_targets_splice`, `isAccept_splice`), and therefore accepts
  just the words that can be wandered to an accepting node (`acceptsFrom_splice`).

  The pairs have to start at nodes of the graph.
-/
import Mathlib.Data.List.Nodup
import SymbolAutomata.Graph.Silent
import SymbolAutomata.Proofs.Graph.Build
import SymbolAutomata.Proofs.Graph.Simulation
import SymbolAutomata.Proofs.Search

namespace SymbolAutomata

namespace Graph

/-! ### Silent steps -/

@[simp] theorem mem_silentNext {pairs : List (NodeId × NodeId)} {p q : NodeId} :
    q ∈ silentNext pairs p ↔ (p, q) ∈ pairs := by
  simp only [silentNext, List.mem_map, List.mem_filter, decide_eq_true_eq]
  constructor
  · intro h
    rcases h with ⟨⟨r, s⟩, ⟨hmem, rfl⟩, rfl⟩
    exact hmem
  · exact fun hmem => ⟨(p, q), ⟨hmem, rfl⟩, rfl⟩

theorem silentReach_nodup (pairs : List (NodeId × NodeId)) (p : NodeId) :
    (silentReach pairs p).Nodup :=
  (explore_nodup (List.nodup_singleton p)).sublist (List.tail_sublist _)

theorem mem_silentReach {pairs : List (NodeId × NodeId)} {p q : NodeId} :
    q ∈ silentReach pairs p ↔ q ≠ p ∧ Leads (silentNext pairs) p q := by
  have hfound : q ∈ explore (silentNext pairs) (pairs.length + 1) [] [p] ↔
      Leads (silentNext pairs) p q := by
    have hclosed : ∀ x ∈ p :: pairs.map (·.2), ∀ y ∈ silentNext pairs x,
        y ∈ p :: pairs.map (·.2) := by
      intro x _ y hy
      exact List.mem_cons_of_mem _ (List.mem_map.2 ⟨_, mem_silentNext.1 hy, rfl⟩)
    have hstart : ∀ x ∈ [p], x ∈ p :: pairs.map (·.2) := by
      intro x hx
      rw [List.mem_singleton.1 hx]
      exact List.mem_cons_self ..
    rw [mem_explore_iff hclosed hstart (List.nodup_singleton p) (by simp)]
    simp
  have hnodup : (explore (silentNext pairs) (pairs.length + 1) [] [p]).Nodup :=
    explore_nodup (List.nodup_singleton p)
  have hhead := @explore_head? _ _ (silentNext pairs) (pairs.length + 1) p
  unfold silentReach
  rw [← hfound]
  -- the search lists its start first and only there
  cases hlist : explore (silentNext pairs) (pairs.length + 1) [] [p] with
  | nil =>
    rw [hlist] at hhead
    cases hhead
  | cons x rest =>
    rw [hlist] at hhead hnodup
    obtain rfl := Option.some.inj hhead
    rw [List.tail_cons, List.mem_cons]
    constructor
    · intro hq
      refine ⟨?_, Or.inr hq⟩
      rintro rfl
      exact (List.nodup_cons.1 hnodup).1 hq
    · intro h
      rcases h with ⟨hne, heq | hq⟩
      · exact absurd heq hne
      · exact hq

theorem mem_silentPairs {pairs : List (NodeId × NodeId)} {p q : NodeId} :
    (p, q) ∈ silentPairs pairs ↔ q ≠ p ∧ Leads (silentNext pairs) p q := by
  simp only [silentPairs, List.mem_flatMap, mem_fresh, List.mem_map, Prod.mk.injEq,
    List.not_mem_nil, not_false_eq_true, and_true]
  constructor
  · intro h
    rcases h with ⟨r, -, s, hs, rfl, rfl⟩
    exact mem_silentReach.1 hs
  · intro h
    rcases h with ⟨hne, hlead⟩
    refine ⟨p, ?_, q, mem_silentReach.2 ⟨hne, hlead⟩, rfl, rfl⟩
    -- a way to another node has a first step
    cases hlead with
    | refl _ => exact absurd rfl hne
    | step first _ => exact ⟨_, mem_silentNext.1 first, rfl⟩

/-! ### The spliced graph -/

/-- The graph that inherits along the pairs of a list, in the order of the list. -/
def splicedBy (g : Graph) (reached : List (NodeId × NodeId)) : Graph :=
  (g.inherit reached).declare false

theorem splice_eq (g : Graph) (pairs : List (NodeId × NodeId)) :
    g.splice pairs = g.splicedBy (silentPairs pairs) := rfl

section SplicedBy

variable (g : Graph) (reached : List (NodeId × NodeId))

theorem splicedBy_eq :
    g.splicedBy reached =
      ((g.setAcceptAll ((reached.filter fun e => g.isAccept e.2).map (·.1)) true).connectAll
        (reached.flatMap fun e => (g.moves e.2).map fun m => (e.1, m))).declare false := by
  rw [splicedBy, inherit, setAcceptAll, List.foldl_map]
  rfl

@[simp] theorem contains_splicedBy (n : NodeId) :
    (g.splicedBy reached).contains n = g.contains n := by
  have hdeclare : ∀ h : Graph, (h.declare false).contains n = h.contains n := fun _ => rfl
  rw [splicedBy_eq, hdeclare, contains_connectAll, contains_setAcceptAll]

@[simp] theorem initial_splicedBy : (g.splicedBy reached).initial = g.initial := by
  rw [splicedBy_eq, initial_declare, initial_connectAll, initial_setAcceptAll]

variable {g reached}

theorem arrow_splicedBy {p d : NodeId} {i : Interval} :
    (g.splicedBy reached).Arrow p i d ↔ g.Arrow p i d ∨
      (g.contains p = true ∧ ∃ q, (p, q) ∈ reached ∧ g.Arrow q i d) := by
  rw [splicedBy_eq, arrow_declare, arrow_connectAll, arrow_setAcceptAll, contains_setAcceptAll,
    contains_setAcceptAll]
  simp only [List.mem_flatMap, List.mem_map, Prod.mk.injEq, Prod.exists, mem_moves]
  constructor
  · intro h
    rcases h with old | ⟨⟨hp, -⟩, r, q, hpair, j, e, harrow, rfl, rfl, rfl⟩
    · exact Or.inl old
    · exact Or.inr ⟨hp, q, hpair, harrow⟩
  · intro h
    rcases h with old | ⟨hp, q, hpair, harrow⟩
    · exact Or.inl old
    · exact Or.inr ⟨⟨hp, harrow.contains_target⟩, p, q, hpair, i, d, harrow, rfl, rfl, rfl⟩

theorem isAccept_splicedBy {p : NodeId} :
    (g.splicedBy reached).isAccept p = true ↔ g.isAccept p = true ∨
      (g.contains p = true ∧ ∃ q, (p, q) ∈ reached ∧ g.isAccept q = true) := by
  have hflagged : p ∈ (reached.filter fun e => g.isAccept e.2).map (·.1) ↔
      ∃ q, (p, q) ∈ reached ∧ g.isAccept q = true := by
    simp only [List.mem_map, List.mem_filter, Prod.exists, exists_and_right, exists_eq_right]
  have hview : (g.splicedBy reached).isAccept p =
      (g.setAcceptAll ((reached.filter fun e => g.isAccept e.2).map (·.1)) true).isAccept p := by
    rw [splicedBy_eq, isAccept_declare, isAccept, flag?_connectAll]
    rfl
  rw [hview, isAccept_setAcceptAll, ← hflagged]
  split
  · next h => exact iff_of_true rfl (Or.inr ⟨h.2, h.1⟩)
  · next h => exact (or_iff_left fun hfound => h ⟨hfound.2, hfound.1⟩).symm

end SplicedBy

@[simp] theorem contains_splice (g : Graph) (pairs : List (NodeId × NodeId)) (n : NodeId) :
    (g.splice pairs).contains n = g.contains n := contains_splicedBy g _ n

@[simp] theorem initial_splice (g : Graph) (pairs : List (NodeId × NodeId)) :
    (g.splice pairs).initial = g.initial := initial_splicedBy g _

@[simp] theorem deterministic_splice (g : Graph) (pairs : List (NodeId × NodeId)) :
    (g.splice pairs).deterministic = false := rfl

theorem arrow_splice {g : Graph} {pairs : List (NodeId × NodeId)} {p d : NodeId} {i : Interval} :
    (g.splice pairs).Arrow p i d ↔ g.Arrow p i d ∨
      (g.contains p = true ∧ ∃ q, (p, q) ∈ silentPairs pairs ∧ g.Arrow q i d) :=
  arrow_splicedBy

/-- The paths of a graph with silent moves. -/
inductive Wanders (g : Graph) (pairs : List (NodeId × NodeId)) :
    NodeId → List Codepoint → NodeId → Prop where
  | stay (p : NodeId) : Wanders g pairs p [] p
  | silent {p q r : NodeId} {w : List Codepoint} (pair : (p, q) ∈ pairs)
      (rest : Wanders g pairs q w r) : Wanders g pairs p w r
  | read {p q r : NodeId} {c : Codepoint} {w : List Codepoint} (dest : q ∈ g.targets p c)
      (rest : Wanders g pairs q w r) : Wanders g pairs p (c :: w) r

section Splice

variable {g : Graph} {pairs : List (NodeId × NodeId)}

theorem Wanders.of_leads {p q r : NodeId} {w : List Codepoint}
    (h : Leads (silentNext pairs) p q) (path : Wanders g pairs q w r) : Wanders g pairs p w r := by
  induction h with
  | refl _ => exact path
  | step first _ ih => exact .silent (mem_silentNext.1 first) (ih path)

variable (hpairs : ∀ e ∈ pairs, g.contains e.1 = true)

include hpairs

theorem contains_of_leads_ne {p q : NodeId} (h : Leads (silentNext pairs) p q) (hne : q ≠ p) :
    g.contains p = true := by
  cases h with
  | refl _ => exact absurd rfl hne
  | step first _ => exact hpairs _ (mem_silentNext.1 first)

/-- **A node leads where the nodes lead that it reaches silently.** -/
theorem mem_targets_splice {p d : NodeId} {c : Codepoint} :
    d ∈ (g.splice pairs).targets p c ↔
      ∃ q, Leads (silentNext pairs) p q ∧ d ∈ g.targets q c := by
  simp only [mem_targets, arrow_splice, mem_silentPairs]
  constructor
  · intro h
    rcases h with ⟨i, old | ⟨-, q, ⟨-, hlead⟩, harrow⟩, hc⟩
    · exact ⟨p, .refl p, i, old, hc⟩
    · exact ⟨q, hlead, i, harrow, hc⟩
  · intro h
    rcases h with ⟨q, hlead, i, harrow, hc⟩
    by_cases hq : q = p
    · subst hq
      exact ⟨i, Or.inl harrow, hc⟩
    · exact ⟨i, Or.inr ⟨contains_of_leads_ne hpairs hlead hq, q, ⟨hq, hlead⟩, harrow⟩, hc⟩

/-- **A node accepts if one that it reaches silently does.** -/
theorem isAccept_splice {p : NodeId} :
    (g.splice pairs).isAccept p = true ↔
      ∃ q, Leads (silentNext pairs) p q ∧ g.isAccept q = true := by
  rw [splice_eq, isAccept_splicedBy]
  simp only [mem_silentPairs]
  constructor
  · intro h
    rcases h with hp | ⟨-, q, ⟨-, hlead⟩, hq⟩
    · exact ⟨p, .refl p, hp⟩
    · exact ⟨q, hlead, hq⟩
  · intro h
    rcases h with ⟨q, hlead, hq⟩
    by_cases hqp : q = p
    · subst hqp
      exact Or.inl hq
    · exact Or.inr ⟨contains_of_leads_ne hpairs hlead hqp, q, ⟨hqp, hlead⟩, hq⟩

theorem acceptsFrom_splice_of_leads {p q : NodeId} {w : List Codepoint}
    (hlead : Leads (silentNext pairs) p q) (hacc : (g.splice pairs).AcceptsFrom q w) :
    (g.splice pairs).AcceptsFrom p w := by
  cases w with
  | nil =>
    rw [acceptsFrom_nil_iff, isAccept_splice hpairs] at hacc ⊢
    obtain ⟨r, hr, hacc⟩ := hacc
    exact ⟨r, hlead.trans hr, hacc⟩
  | cons c w =>
    rw [acceptsFrom_cons_iff] at hacc ⊢
    obtain ⟨d, hd, hacc⟩ := hacc
    obtain ⟨r, hr, hd⟩ := (mem_targets_splice hpairs).1 hd
    exact ⟨d, (mem_targets_splice hpairs).2 ⟨r, hlead.trans hr, hd⟩, hacc⟩

/-- **Splicing accepts what can be wandered** to an accepting node. -/
theorem acceptsFrom_splice {p : NodeId} {w : List Codepoint} :
    (g.splice pairs).AcceptsFrom p w ↔ ∃ q, Wanders g pairs p w q ∧ g.isAccept q = true := by
  constructor
  · intro hacc
    induction w generalizing p with
    | nil =>
      obtain ⟨q, hlead, hq⟩ := (isAccept_splice hpairs).1 (acceptsFrom_nil_iff.1 hacc)
      exact ⟨q, .of_leads hlead (.stay q), hq⟩
    | cons c w ih =>
      obtain ⟨d, hd, hacc⟩ := acceptsFrom_cons_iff.1 hacc
      obtain ⟨r, hlead, hd⟩ := (mem_targets_splice hpairs).1 hd
      obtain ⟨q, path, hq⟩ := ih hacc
      exact ⟨q, .of_leads hlead (.read hd path), hq⟩
  · intro h
    rcases h with ⟨q, path, hq⟩
    induction path with
    | stay p =>
      rw [acceptsFrom_nil_iff, isAccept_splice hpairs]
      exact ⟨p, .refl p, hq⟩
    | silent pair _ ih =>
      exact acceptsFrom_splice_of_leads hpairs (.step (mem_silentNext.2 pair) (.refl _)) (ih hq)
    | read dest _ ih =>
      refine acceptsFrom_cons_iff.2 ⟨_, ?_, ih hq⟩
      exact (mem_targets_splice hpairs).2 ⟨_, .refl _, dest⟩

end Splice

end Graph

end SymbolAutomata
