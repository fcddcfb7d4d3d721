/-
  SymbolAutomata/Proofs/Graph/Determinism.lean
  ============================================
  **Graphs that lead to one place at most** over each codepoint.

  `SingleValued` says so of the arrows; the declaration of a graph may say so
  without being right.  `isDeterministic_iff` shows that the sweep over sorted
  moves decides the property: of all labels seen so far only the one that
  reaches furthest has to be remembered, since an earlier label that overlaps
  the next one overlaps the furthest one too, and the two agree already.
  Where the property fails, two arcs clash at the start of one of their labels
  (`not_singleValued_iff`).

  On such graphs the walk along single arcs decides acceptance (`walk_iff`).
-/
import SymbolAutomata.Graph.Reach
import SymbolAutomata.Proofs.Graph.Simulation

namespace SymbolAutomata

/-! ### The order of moves -/

namespace Move

theorem precedes_iff {a b : Move} :
    a.precedes b = true ↔
      a.1.min < b.1.min ∨
        a.1.min = b.1.min ∧ (a.1.max < b.1.max ∨ a.1.max = b.1.max ∧ a.2 ≤ b.2) := by
  unfold precedes Interval.compare
  rcases Nat.lt_trichotomy a.1.min b.1.min with hmin | hmin | hmin
  · have hcmp : Ord.compare a.1.min b.1.min = .lt := Nat.compare_eq_lt.2 hmin
    simp [hcmp, hmin]
  · rcases Nat.lt_trichotomy a.1.max b.1.max with hmax | hmax | hmax
    · have hcmp : Ord.compare a.1.max b.1.max = .lt := Nat.compare_eq_lt.2 hmax
      simp [hcmp, hmin, hmax]
    · simp [hmin, hmax]
    · have hcmp : Ord.compare a.1.max b.1.max = .gt := Nat.compare_eq_gt.2 hmax
      have hle : ¬ a.1.max < b.1.max := by omega
      have hne : ¬ a.1.max = b.1.max := by omega
      simp [hcmp, hmin, hle, hne]
  · have hcmp : Ord.compare a.1.min b.1.min = .gt := Nat.compare_eq_gt.2 hmin
    have hle : ¬ a.1.min < b.1.min := by omega
    have hne : ¬ a.1.min = b.1.min := by omega
    simp [hcmp, hle, hne]

theorem precedes_trans (a b c : Move) (hab : a.precedes b = true) (hbc : b.precedes c = true) :
    a.precedes c = true := by
  simp only [precedes_iff, NodeId] at *
  omega

theorem precedes_total (a b : Move) : (a.precedes b || b.precedes a) = true := by
  simp only [Bool.or_eq_true, precedes_iff, NodeId]
  omega

end Move

namespace Graph

/-- The moves of a node as they are stored. -/
def exits (g : Graph) (n : NodeId) : List Move := (g.outgoing n).map fun a => (a.label, a.target)

theorem moves_perm (g : Graph) (n : NodeId) : (g.moves n).Perm (g.exits n) :=
  List.mergeSort_perm _ _

theorem moves_sorted (g : Graph) (n : NodeId) :
    (g.moves n).Pairwise fun a b => a.precedes b = true :=
  List.pairwise_mergeSort Move.precedes_trans Move.precedes_total _

theorem moves_pairwise_min (g : Graph) (n : NodeId) :
    (g.moves n).Pairwise fun a b => a.1.min ≤ b.1.min := by
  refine (g.moves_sorted n).imp fun {a b} h => ?_
  rw [Move.precedes_iff] at h
  omega

theorem mem_targets_iff_moves {g : Graph} {p q : NodeId} {c : Codepoint} :
    q ∈ g.targets p c ↔ ∃ i, (i, q) ∈ g.moves p ∧ i.contains c = true := by
  simp only [mem_targets, mem_moves]

/-! ### Single-valued graphs -/

/-- **No node leads to two places** over one codepoint. -/
def SingleValued (g : Graph) : Prop :=
  ∀ p c q r, q ∈ g.targets p c → r ∈ g.targets p c → q = r

theorem SingleValued.of_targets {g h : Graph} (hg : g.SingleValued)
    (hsub : ∀ p q c, q ∈ h.targets p c → q ∈ g.targets p c) : h.SingleValued :=
  fun p c q r hq hr => hg p c q r (hsub p q c hq) (hsub p r c hr)

/-- Moves with a codepoint in common lead to the same place. -/
def Consistent (moves : List Move) : Prop :=
  ∀ a ∈ moves, ∀ b ∈ moves, ∀ c, a.1.contains c = true → b.1.contains c = true → a.2 = b.2

theorem Consistent.of_subset {moves more : List Move} (h : Consistent more)
    (hsub : ∀ a ∈ moves, a ∈ more) : Consistent moves :=
  fun a ha b hb => h a (hsub a ha) b (hsub b hb)

theorem singleValued_iff_consistent {g : Graph} :
    g.SingleValued ↔ ∀ p, Consistent (g.moves p) := by
  constructor
  · rintro h p ⟨i, q⟩ hq ⟨j, r⟩ hr c hi hj
    exact h p c q r (mem_targets_iff_moves.2 ⟨i, hq, hi⟩) (mem_targets_iff_moves.2 ⟨j, hr, hj⟩)
  · intro h p c q r hq hr
    obtain ⟨i, hq, hi⟩ := mem_targets_iff_moves.1 hq
    obtain ⟨j, hr, hj⟩ := mem_targets_iff_moves.1 hr
    exact h p (i, q) hq (j, r) hr c hi hj

/-! ### The sweep -/

/-- Where the sweep stands: the moves seen agree among themselves, `max` is the furthest upper bound
    among them, reached by a move to `last`, and no later label starts before an earlier one. -/
structure Swept (seen rest : List Move) (max : Nat) (last : NodeId) : Prop where
  consistent : Consistent seen
  bound : ∀ a ∈ seen, a.1.max ≤ max
  reached : ∃ i, (i, last) ∈ seen ∧ i.max = max
  ahead : ∀ a ∈ seen, ∀ b ∈ rest, a.1.min ≤ b.1.min
  sorted : rest.Pairwise fun a b => a.1.min ≤ b.1.min

/-- A move that starts within reach of the furthest label and leads elsewhere is a conflict. -/
theorem Swept.conflict {seen rest : List Move} {max : Nat} {last : NodeId} {i : Interval}
    {dest : NodeId} (h : Swept seen ((i, dest) :: rest) max last) (hmin : i.min ≤ max)
    (hdest : last ≠ dest) : ¬ Consistent ((i, dest) :: seen) := by
  intro hcons
  obtain ⟨j, hj, hmax⟩ := h.reached
  have hstart := h.ahead _ hj _ (List.mem_cons_self ..)
  apply hdest
  apply hcons (j, last) (List.mem_cons_of_mem _ hj) (i, dest) (List.mem_cons_self ..) i.min
  · exact Interval.contains_iff.2 ⟨hstart, by rw [hmax]; exact hmin⟩
  · exact i.contains_min

/-- Any other move agrees with everything seen: a label that it overlaps overlaps the furthest label
    at the same codepoint. -/
theorem Swept.agree {seen rest : List Move} {max : Nat} {last : NodeId} {i : Interval}
    {dest : NodeId} (h : Swept seen ((i, dest) :: rest) max last)
    (hfree : ¬ (i.min ≤ max ∧ last ≠ dest)) : Consistent ((i, dest) :: seen) := by
  have hnew : ∀ b ∈ seen, ∀ c, i.contains c = true → b.1.contains c = true → dest = b.2 := by
    rintro ⟨j, e⟩ hb c hi hj
    obtain ⟨k, hk, hmax⟩ := h.reached
    have hstart := h.ahead _ hb _ (List.mem_cons_self ..)
    have hstart' := h.ahead _ hk _ (List.mem_cons_self ..)
    have hle : j.max ≤ max := h.bound _ hb
    have hoverlap : i.min ≤ j.max := by
      rw [Interval.contains_iff] at hi hj
      exact Nat.le_trans hi.1 hj.2
    have hreach : i.min ≤ max := Nat.le_trans hoverlap hle
    have hlast : last = dest := Classical.byContradiction fun hne => hfree ⟨hreach, hne⟩
    rw [← hlast]
    apply h.consistent (k, last) hk (j, e) hb i.min
    · exact Interval.contains_iff.2 ⟨hstart', by rw [hmax]; exact hreach⟩
    · exact Interval.contains_iff.2 ⟨hstart, hoverlap⟩
  intro a ha b hb c hac hbc
  rcases List.mem_cons.1 ha with rfl | ha
  · rcases List.mem_cons.1 hb with rfl | hb
    · rfl
    · exact hnew b hb c hac hbc
  · rcases List.mem_cons.1 hb with rfl | hb
    · exact (hnew a ha c hbc hac).symm
    · exact h.consistent a ha b hb c hac hbc

theorem Swept.next {seen rest : List Move} {max : Nat} {last : NodeId} {i : Interval}
    {dest : NodeId} (h : Swept seen ((i, dest) :: rest) max last)
    (hcons : Consistent ((i, dest) :: seen)) :
    Swept ((i, dest) :: seen) rest (if max < i.max then i.max else max)
      (if max < i.max then dest else last) := by
  obtain ⟨hhead, htail⟩ := List.pairwise_cons.1 h.sorted
  refine ⟨hcons, ?_, ?_, ?_, htail⟩
  · intro a ha
    rcases List.mem_cons.1 ha with rfl | ha
    · show i.max ≤ _
      split <;> omega
    · have hle := h.bound a ha
      split <;> omega
  · split
    · exact ⟨i, List.mem_cons_self .., rfl⟩
    · obtain ⟨j, hj, hmax⟩ := h.reached
      exact ⟨j, List.mem_cons_of_mem _ hj, hmax⟩
  · intro a ha b hb
    rcases List.mem_cons.1 ha with rfl | ha
    · exact hhead b hb
    · exact h.ahead a ha b (List.mem_cons_of_mem _ hb)

theorem Swept.sweep_iff {seen rest : List Move} {max : Nat} {last : NodeId}
    (h : Swept seen rest max last) :
    sweep (some (max, last)) rest = true ↔ Consistent (rest ++ seen) := by
  induction rest generalizing seen max last with
  | nil => simpa [sweep] using h.consistent
  | cons m rest ih =>
    obtain ⟨i, dest⟩ := m
    have hperm : ∀ a, a ∈ rest ++ (i, dest) :: seen ↔ a ∈ (i, dest) :: rest ++ seen := by
      intro a
      simp only [List.mem_append, List.mem_cons]
      exact or_left_comm.trans (or_assoc.symm)
    unfold sweep
    split
    · next hclash =>
      refine iff_of_false Bool.false_ne_true fun hcons => h.conflict hclash.1 hclash.2 ?_
      exact hcons.of_subset fun a ha => by
        rcases List.mem_cons.1 ha with rfl | ha
        · exact List.mem_cons_self ..
        · exact List.mem_append_right _ ha
    · next hfree =>
      have hnext := h.next (h.agree hfree)
      have harg : (if max < i.max then some (i.max, dest) else some (max, last)) =
          some (if max < i.max then i.max else max, if max < i.max then dest else last) := by
        split <;> rfl
      rw [harg, ih hnext]
      exact ⟨fun hc => hc.of_subset fun a ha => (hperm a).2 ha,
        fun hc => hc.of_subset fun a ha => (hperm a).1 ha⟩

theorem sweep_none_iff {moves : List Move}
    (hsorted : moves.Pairwise fun a b => a.1.min ≤ b.1.min) :
    sweep none moves = true ↔ Consistent moves := by
  cases moves with
  | nil => simp [sweep, Consistent]
  | cons m rest =>
    obtain ⟨i, dest⟩ := m
    obtain ⟨hhead, htail⟩ := List.pairwise_cons.1 hsorted
    have hstart : Swept [(i, dest)] rest i.max dest := by
      refine ⟨?_, ?_, ⟨i, List.mem_singleton_self _, rfl⟩, ?_, htail⟩
      · intro a ha b hb c _ _
        rw [List.mem_singleton.1 ha, List.mem_singleton.1 hb]
      · intro a ha
        exact Nat.le_of_eq (congrArg (·.1.max) (List.mem_singleton.1 ha))
      · intro a ha b hb
        rw [List.mem_singleton.1 ha]
        exact hhead b hb
    unfold sweep
    rw [hstart.sweep_iff]
    have hperm : ∀ a, a ∈ rest ++ [(i, dest)] ↔ a ∈ (i, dest) :: rest := by
      intro a
      simp [or_comm]
    exact ⟨fun hc => hc.of_subset fun a ha => (hperm a).2 ha,
      fun hc => hc.of_subset fun a ha => (hperm a).1 ha⟩

/-- **The sweep is exact**: it finds out whether the graph is single-valued. -/
theorem isDeterministic_iff {g : Graph} : g.isDeterministic = true ↔ g.SingleValued := by
  rw [singleValued_iff_consistent, isDeterministic, List.all_eq_true]
  constructor
  · intro h p
    by_cases hp : g.contains p = true
    · exact (sweep_none_iff (g.moves_pairwise_min p)).1 (h p (mem_nodeIds.2 hp))
    · -- a number without a node has no moves
      intro a ha
      exact absurd (mem_moves.1 ha).contains_source hp
  · intro h p _
    exact (sweep_none_iff (g.moves_pairwise_min p)).2 (h p)

theorem singleValued_iff_outgoing {g : Graph} :
    g.SingleValued ↔ ∀ n c, ∀ a ∈ g.outgoing n, ∀ b ∈ g.outgoing n,
      a.label.contains c = true → b.label.contains c = true → a.target = b.target := by
  have hmem : ∀ {n q c}, q ∈ g.targets n c ↔
      ∃ a ∈ g.outgoing n, a.label.contains c = true ∧ a.target = q := by
    intro n q c
    simp only [targets, List.mem_map, List.mem_filter, and_assoc]
  constructor
  · intro h n c a ha b hb hac hbc
    exact h n c _ _ (hmem.2 ⟨a, ha, hac, rfl⟩) (hmem.2 ⟨b, hb, hbc, rfl⟩)
  · intro h n c q r hq hr
    obtain ⟨a, ha, hac, rfl⟩ := hmem.1 hq
    obtain ⟨b, hb, hbc, rfl⟩ := hmem.1 hr
    exact h n c a ha b hb hac hbc

/-- Of two labels with a codepoint in common, one holds the start of the other. -/
theorem contains_start_of_overlap {i j : Interval} {c : Codepoint} (hi : i.contains c = true)
    (hj : j.contains c = true) : i.contains j.min = true ∨ j.contains i.min = true := by
  simp only [Interval.contains_iff] at *
  omega

/-- **A clash shows at the start of a label**: one of the two labels holds the start of the
    other. -/
theorem not_singleValued_iff {g : Graph} : ¬ g.SingleValued ↔ ∃ n, ∃ a ∈ g.outgoing n,
    ∃ b ∈ g.outgoing n, a.label.contains b.label.min = true ∧ a.target ≠ b.target := by
  rw [singleValued_iff_outgoing]
  constructor
  · intro h
    refine Classical.byContradiction fun hnone => h ?_
    intro n c a ha b hb hac hbc
    refine Classical.byContradiction fun hne => hnone ?_
    rcases contains_start_of_overlap hac hbc with hab | hba
    · exact ⟨n, a, ha, b, hb, hab, hne⟩
    · exact ⟨n, b, hb, a, ha, hba, Ne.symm hne⟩
  · rintro ⟨n, a, ha, b, hb, hab, hne⟩ h
    exact hne (h n b.label.min a ha b hb hab b.label.contains_min)

/-- **The check for determinism is exact**, however the labels of a node overlap.  It succeeds just
    when, for each node and each codepoint, all arcs that carry the codepoint lead to the same
    place.  Where it fails, there are two arcs of one node that lead to different places, and one
    of them carries the codepoint at which the label of the other starts. -/
theorem isDeterministic_exact (g : Graph) :
    (g.isDeterministic = true ↔ ∀ n, g.contains n = true → ∀ c, ∀ a ∈ g.outgoing n,
      ∀ b ∈ g.outgoing n, a.label.contains c = true → b.label.contains c = true →
        a.target = b.target) ∧
    (g.isDeterministic = false ↔ ∃ n, ∃ a ∈ g.outgoing n, ∃ b ∈ g.outgoing n,
      a.label.contains b.label.min = true ∧ a.target ≠ b.target) := by
  have hsource : ∀ {n a}, a ∈ g.outgoing n → g.contains n = true := by
    intro n a ha
    obtain ⟨harc, rfl⟩ := mem_outgoing.1 ha
    exact contains_iff.2 (g.arcs_joined a harc).1
  constructor
  · rw [isDeterministic_iff, singleValued_iff_outgoing]
    constructor
    · exact fun h n _ => h n
    · exact fun h n c a ha => h n (hsource ha) c a ha
  · rw [← Bool.not_eq_true, isDeterministic_iff]
    exact not_singleValued_iff

/-- Arcs whose last label overlaps the first one only, which reaches furthest. -/
def nested : Graph :=
  build [false, true, true] [(0, .between 0 9, 1), (0, .between 2 3, 1), (0, .between 5 6, 2)] 0

example : nested.isDeterministic = false := by decide_cbv

/-! ### Walking along single arcs -/

theorem step_eq_head? (g : Graph) (n : NodeId) (c : Codepoint) :
    g.step n c = (g.targets n c).head? := by
  rw [step, targets, List.head?_map, List.head?_filter]

theorem SingleValued.step_eq_some_iff {g : Graph} (hg : g.SingleValued) {n m : NodeId}
    {c : Codepoint} : g.step n c = some m ↔ m ∈ g.targets n c := by
  rw [step_eq_head?]
  constructor
  · exact List.mem_of_head?
  · intro hm
    cases htargets : g.targets n c with
    | nil =>
      rw [htargets] at hm
      cases hm
    | cons k rest =>
      have hk : k ∈ g.targets n c := by
        rw [htargets]
        exact List.mem_cons_self ..
      rw [List.head?_cons, hg n c k m hk hm]

theorem step_eq_none_iff {g : Graph} {n : NodeId} {c : Codepoint} :
    g.step n c = none ↔ ∀ m, m ∉ g.targets n c := by
  rw [step_eq_head?, List.head?_eq_none_iff, List.eq_nil_iff_forall_not_mem]

/-- **The walk decides acceptance** where it has no choice. -/
theorem SingleValued.walk_iff {g : Graph} (hg : g.SingleValued) {n : NodeId}
    {w : List Codepoint} : g.walk n w = true ↔ g.AcceptsFrom n w := by
  induction w generalizing n with
  | nil => rw [walk, acceptsFrom_nil_iff]
  | cons c w ih =>
    rw [walk, acceptsFrom_cons_iff]
    cases hstep : g.step n c with
    | none =>
      simp only [Bool.false_eq_true, false_iff]
      intro hfound
      rcases hfound with ⟨m, hm, -⟩
      exact step_eq_none_iff.1 hstep m hm
    | some m =>
      have hm := hg.step_eq_some_iff.1 hstep
      simp only [ih]
      constructor
      · exact fun h => ⟨m, hm, h⟩
      · intro hfound
        rcases hfound with ⟨k, hk, h⟩
        rwa [hg n c m k hm hk]

theorem SingleValued.any_walk_iff {g : Graph} (hg : g.SingleValued) {w : List Codepoint} :
    g.initial.any (g.walk · w) = true ↔ g.Accepts w := by
  rw [Option.any_eq_true]
  exact exists_congr fun p => and_congr_right fun _ => hg.walk_iff

theorem SingleValued.reads_unique {g : Graph} (hg : g.SingleValued) {n p q : NodeId}
    {w : List Codepoint} (hp : g.Reads n w p) (hq : g.Reads n w q) : p = q := by
  induction w generalizing n with
  | nil => rw [← reads_nil_iff.1 hp, ← reads_nil_iff.1 hq]
  | cons c w ih =>
    obtain ⟨r, hr, hp⟩ := reads_cons_iff.1 hp
    obtain ⟨s, hs, hq⟩ := reads_cons_iff.1 hq
    rw [hg n c r s hr hs] at hp
    exact ih hp hq

end Graph

end SymbolAutomata
