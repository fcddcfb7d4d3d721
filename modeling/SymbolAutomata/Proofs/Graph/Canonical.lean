/-
  SymbolAutomata/Proofs/Graph/Canonical.lean
  ==========================================
  **Minimal graphs of one language are the same** up to the numbers of their nodes.

  Two nodes match if one word leads to both.  Matching nodes accept the same words, so
  between minimal graphs a node has just one match (`Matches.eq_iff`), and no
  single-valued graph of the language has fewer nodes (`Minimal.nodeCount_le`).

  The labels between two nodes are the longest intervals over which the one leads to
  the other (`Minimal.mem_moves_iff`); hence the sorted moves of matching nodes
  carry the same labels in the same order (`moves_forall₂`), and the two searches
  find matching nodes at the same positions (`reachable_forall₂`).
-/
import Mathlib.Data.List.Pairwise
import SymbolAutomata.Proofs.Graph.Minimal

namespace SymbolAutomata

/-- Lists that are sorted by a key and correspond to each other correspond position by position. -/
theorem forall₂_of_sorted_keys {α β : Type} {S : α → β → Prop} {key : α → Nat} {key' : β → Nat}
    {xs : List α} {ys : List β} (hxs : xs.Pairwise fun a b => key a < key b)
    (hys : ys.Pairwise fun a b => key' a < key' b) (hkey : ∀ {a b}, S a b → key a = key' b)
    (forth : ∀ a ∈ xs, ∃ b ∈ ys, S a b) (back : ∀ b ∈ ys, ∃ a ∈ xs, S a b) :
    List.Forall₂ S xs ys := by
  induction xs generalizing ys with
  | nil =>
    cases ys with
    | nil => exact .nil
    | cons b ys =>
      obtain ⟨a, ha, -⟩ := back b (List.mem_cons_self ..)
      cases ha
  | cons a xs ih =>
    obtain ⟨hahead, hxs⟩ := List.pairwise_cons.1 hxs
    cases ys with
    | nil =>
      obtain ⟨b, hb, -⟩ := forth a (List.mem_cons_self ..)
      cases hb
    | cons b ys =>
      obtain ⟨hbhead, hys⟩ := List.pairwise_cons.1 hys
      -- the least key is the same on both sides
      obtain ⟨b', hb', hab'⟩ := forth a (List.mem_cons_self ..)
      obtain ⟨a', ha', ha'b⟩ := back b (List.mem_cons_self ..)
      have h₁ := hkey hab'
      have h₂ := hkey ha'b
      have hab : S a b := by
        rcases List.mem_cons.1 hb' with rfl | hb'
        · exact hab'
        · rcases List.mem_cons.1 ha' with rfl | ha'
          · exact ha'b
          · have h₃ := hbhead b' hb'
            have h₄ := hahead a' ha'
            omega
      have h₀ := hkey hab
      refine .cons hab (ih hxs hys ?_ ?_)
      · intro x hx
        obtain ⟨y, hy, hxy⟩ := forth x (List.mem_cons_of_mem _ hx)
        rcases List.mem_cons.1 hy with rfl | hy
        · have h₃ := hahead x hx
          have h₄ := hkey hxy
          omega
        · exact ⟨y, hy, hxy⟩
      · intro y hy
        obtain ⟨x, hx, hxy⟩ := back y (List.mem_cons_of_mem _ hy)
        rcases List.mem_cons.1 hx with rfl | hx
        · have h₃ := hbhead y hy
          have h₄ := hkey hxy
          omega
        · exact ⟨x, hx, hxy⟩

namespace Graph

/-! ### Matching nodes -/

/-- **One word leads to both nodes.** -/
def Matches (g h : Graph) (p q : NodeId) : Prop :=
  ∃ i j w, (g.initial = some i ∧ g.contains i = true ∧ g.Reads i w p) ∧
    h.initial = some j ∧ h.contains j = true ∧ h.Reads j w q

variable {g h : Graph} {p q p' q' : NodeId}

theorem Matches.symm (m : Matches g h p q) : Matches h g q p := by
  obtain ⟨i, j, w, hp, hq⟩ := m
  exact ⟨j, i, w, hq, hp⟩

theorem Matches.contains_left (m : Matches g h p q) : g.contains p = true := by
  obtain ⟨i, j, w, ⟨-, hc, path⟩, -⟩ := m
  exact path.contains hc

theorem Matches.contains_right (m : Matches g h p q) : h.contains q = true :=
  m.symm.contains_left

theorem Matches.step (m : Matches g h p q) {c : Codepoint} (hp : p' ∈ g.targets p c)
    (hq : q' ∈ h.targets q c) : Matches g h p' q' := by
  obtain ⟨i, j, w, ⟨hi, hic, hpath⟩, hj, hjc, hpath'⟩ := m
  refine ⟨i, j, w ++ [c], ⟨hi, hic, ?_⟩, hj, hjc, ?_⟩
  · exact reads_append_iff.2 ⟨p, hpath, reads_cons_iff.2 ⟨p', hp, .nil p'⟩⟩
  · exact reads_append_iff.2 ⟨q, hpath', reads_cons_iff.2 ⟨q', hq, .nil q'⟩⟩

theorem SingleValued.accepts_append_iff (hg : g.SingleValued) {i : NodeId}
    (hi : g.initial = some i) {v w : List Codepoint} (path : g.Reads i v p) :
    g.Accepts (v ++ w) ↔ g.AcceptsFrom p w := by
  rw [accepts_iff_of_initial hi, acceptsFrom_append_iff]
  constructor
  · intro h
    rcases h with ⟨r, hr, hacc⟩
    rwa [hg.reads_unique path hr]
  · exact fun hacc => ⟨p, path, hacc⟩

section SameLanguage

variable (hsame : ∀ w, g.Accepts w ↔ h.Accepts w)

include hsame

theorem Matches.acceptsFrom_iff (hg : g.SingleValued) (hh : h.SingleValued)
    (m : Matches g h p q) (w : List Codepoint) : g.AcceptsFrom p w ↔ h.AcceptsFrom q w := by
  obtain ⟨i, j, v, ⟨hi, -, hpath⟩, hj, -, hpath'⟩ := m
  rw [← hg.accepts_append_iff hi hpath, ← hh.accepts_append_iff hj hpath']
  exact hsame _

theorem Matches.isAccept_eq (hg : g.SingleValued) (hh : h.SingleValued) (m : Matches g h p q) :
    g.isAccept p = h.isAccept q := by
  rw [Bool.eq_iff_iff, ← acceptsFrom_nil_iff, ← acceptsFrom_nil_iff]
  exact m.acceptsFrom_iff hsame hg hh []

theorem Matches.eq_left (hg : g.Minimal) (hh : h.SingleValued) (m : Matches g h p q)
    (m' : Matches g h p' q) : p = p' := by
  apply hg.distinct p p' m.contains_left m'.contains_left
  intro w
  rw [m.acceptsFrom_iff hsame hg.singleValued hh, m'.acceptsFrom_iff hsame hg.singleValued hh]

theorem Matches.exists_target (hg : g.Minimal) (hh : h.SingleValued) (m : Matches g h p q)
    {c : Codepoint} (hp : p' ∈ g.targets p c) : ∃ q' ∈ h.targets q c, Matches g h p' q' := by
  obtain ⟨w, hacc⟩ := hg.live p p' c hp
  have haccp : g.AcceptsFrom p (c :: w) := acceptsFrom_cons_iff.2 ⟨p', hp, hacc⟩
  rw [m.acceptsFrom_iff hsame hg.singleValued hh, acceptsFrom_cons_iff] at haccp
  obtain ⟨q', hq', -⟩ := haccp
  exact ⟨q', hq', m.step hp hq'⟩

theorem Minimal.exists_match (hg : g.Minimal) (hh : h.SingleValued) (hroot : h.Rooted)
    {n : NodeId} (hn : g.contains n = true) : ∃ m, h.contains m = true ∧ Matches g h n m := by
  obtain ⟨i, hi, hic⟩ := hg.rooted
  obtain ⟨j, hj, hjc⟩ := hroot
  obtain ⟨w, path⟩ := hg.reached i n hi hn
  have hfollow : ∀ (w : List Codepoint) (p q : NodeId), Matches g h p q → g.Reads p w n →
      ∃ m, Matches g h n m := by
    intro w
    induction w with
    | nil =>
      intro p q m path
      exact ⟨q, reads_nil_iff.1 path ▸ m⟩
    | cons c w ih =>
      intro p q m path
      obtain ⟨p', hp', rest⟩ := reads_cons_iff.1 path
      obtain ⟨q', -, m'⟩ := m.exists_target hsame hg hh hp'
      exact ih p' q' m' rest
  obtain ⟨m, hm⟩ := hfollow w i j ⟨i, j, [], ⟨hi, hic, .nil i⟩, hj, hjc, .nil j⟩ path
  exact ⟨m, hm.contains_right, hm⟩

/-- **No deterministic graph of the language is smaller.** -/
theorem Minimal.nodeCount_le (hg : g.Minimal) (hh : h.SingleValued) (hroot : h.Rooted) :
    g.nodeCount ≤ h.nodeCount := by
  apply length_le_of_partners (g.nodeIds_sorted.imp Nat.ne_of_lt)
  · intro n hn
    obtain ⟨m, hm, hmatch⟩ := hg.exists_match hsame hh hroot (mem_nodeIds.1 hn)
    exact ⟨m, mem_nodeIds.2 hm, hmatch⟩
  · exact fun m m' => m.eq_left hsame hg hh m'

end SameLanguage

/-! ### The moves of a minimal graph -/

theorem Minimal.apart_moves (hg : g.Minimal) {a b : Move} (ha : a ∈ g.moves p)
    (hb : b ∈ g.moves p) (hab : a ≠ b) : Apart a b := by
  rw [(moves_perm g p).mem_iff] at ha hb
  have hsymm : Std.Symm Apart := ⟨fun _ _ => Apart.symm⟩
  exact (hg.apart p).forall ha hb hab

/-- **Labels are as long as they can be.** -/
theorem Minimal.mem_moves_iff (hg : g.Minimal) {i : Interval} :
    (i, q) ∈ g.moves p ↔ (∀ c, i.contains c = true → q ∈ g.targets p c) ∧
      q ∉ g.targets p (i.max + 1) ∧ ∀ c, c + 1 = i.min → q ∉ g.targets p c := by
  have hlong : ∀ {j : Interval}, (j, q) ∈ g.moves p → q ∉ g.targets p (j.max + 1) ∧
      ∀ c, c + 1 = j.min → q ∉ g.targets p c := by
    intro j hj
    -- a label that follows or precedes `j` would have been joined with it
    have hclash : ∀ c, (c = j.max + 1 ∨ c + 1 = j.min) → q ∉ g.targets p c := by
      intro c hc hq
      have hle := j.min_le_max
      obtain ⟨k, hk, hkc⟩ := mem_targets_iff_moves.1 hq
      rw [Interval.contains_iff] at hkc
      have hne : (j, q) ≠ (k, q) := by
        rintro heq
        obtain rfl := (Prod.mk.inj heq).1
        rcases hc with rfl | hc
        · exact absurd hkc.2 (Nat.not_succ_le_self _)
        · exact absurd hkc.1 (by omega)
      rcases hg.apart_moves hj hk hne rfl with hlt | hlt
      · simp only at hlt
        rcases hc with rfl | hc
        · exact absurd hkc.1 (Nat.not_le.2 hlt)
        · have h₁ := hkc.1
          have h₂ : j.max + 1 < k.min := hlt
          omega
      · simp only at hlt
        rcases hc with rfl | hc
        · have h₁ := hkc.2
          have h₂ : k.max + 1 < j.min := hlt
          omega
        · have h₁ := hkc.2
          have h₂ : k.max + 1 < j.min := hlt
          omega
    exact ⟨hclash _ (Or.inl rfl), fun c hc => hclash c (Or.inr hc)⟩
  constructor
  · intro hi
    exact ⟨fun c hc => mem_targets_iff_moves.2 ⟨i, hi, hc⟩, hlong hi⟩
  · intro h
    rcases h with ⟨hall, hafter, hbefore⟩
    have hle := i.min_le_max
    have hfirst := hall i.min i.contains_min
    obtain ⟨j, hj, hjc⟩ := mem_targets_iff_moves.1 hfirst
    obtain ⟨hjafter, -⟩ := hlong hj
    rw [Interval.contains_iff] at hjc
    have hdest : ∀ c, j.min ≤ c → c ≤ j.max → q ∈ g.targets p c := fun c h₁ h₂ =>
      mem_targets_iff_moves.2 ⟨j, hj, Interval.contains_iff.2 ⟨h₁, h₂⟩⟩
    have hmax : j.max = i.max := by
      rcases Nat.lt_trichotomy j.max i.max with hlt | heq | hgt
      · have hin : i.contains (j.max + 1) = true := Interval.contains_iff.2 ⟨by omega, hlt⟩
        exact absurd (hall _ hin) hjafter
      · exact heq
      · exact absurd (hdest (i.max + 1) (by omega) hgt) hafter
    have hmin : j.min = i.min := by
      rcases Nat.lt_or_ge j.min i.min with hlt | hge
      · exact absurd (hdest (i.min - 1) (by omega) (by omega)) (hbefore (i.min - 1) (by omega))
      · exact Nat.le_antisymm hjc.1 hge
    rwa [← Interval.ext hmin hmax]

theorem Minimal.moves_pairwise_lt (hg : g.Minimal) (p : NodeId) :
    (g.moves p).Pairwise fun a b => a.1.min < b.1.min := by
  have hapart : (g.moves p).Pairwise Apart :=
    (hg.apart p).perm (moves_perm g p).symm Apart.symm
  have hconsistent := singleValued_iff_consistent.1 hg.singleValued p
  refine ((g.moves_pairwise_min p).and hapart).imp_of_mem ?_
  rintro a b ha hb ⟨hle, hab⟩
  refine Nat.lt_of_le_of_ne hle fun heq => ?_
  have hamax := a.1.min_le_max
  have hbmax := b.1.min_le_max
  have hdest := hconsistent a ha b hb a.1.min a.1.contains_min
    (Interval.contains_iff.2 ⟨by omega, by omega⟩)
  rcases hab hdest with hlt | hlt <;> omega

/-! ### Two minimal graphs of one language -/

section Canonical

variable (hg : g.Minimal) (hh : h.Minimal) (hsame : ∀ w, g.Accepts w ↔ h.Accepts w)

include hg hh hsame

theorem Matches.eq_iff (m : Matches g h p q) (m' : Matches g h p' q') : p = p' ↔ q = q' := by
  constructor
  · rintro rfl
    exact m.symm.eq_left (fun w => (hsame w).symm) hh hg.singleValued m'.symm
  · rintro rfl
    exact m.eq_left hsame hg hh.singleValued m'

theorem Matches.mem_targets_iff (m : Matches g h p q) (m' : Matches g h p' q') {c : Codepoint} :
    p' ∈ g.targets p c ↔ q' ∈ h.targets q c := by
  constructor
  · intro hp
    obtain ⟨r, hr, hmatch⟩ := m.exists_target hsame hg hh.singleValued hp
    rwa [← (hmatch.eq_iff hg hh hsame m').1 rfl]
  · intro hq
    obtain ⟨r, hr, hmatch⟩ :=
      m.symm.exists_target (fun w => (hsame w).symm) hh hg.singleValued hq
    rwa [← (hmatch.symm.eq_iff hg hh hsame m').2 rfl]

theorem Matches.mem_moves_iff (m : Matches g h p q) (m' : Matches g h p' q') {i : Interval} :
    (i, p') ∈ g.moves p ↔ (i, q') ∈ h.moves q := by
  rw [hg.mem_moves_iff, hh.mem_moves_iff]
  simp only [m.mem_targets_iff hg hh hsame m']

/-- **Matching nodes have the same labels**, to matching nodes. -/
theorem Matches.moves_forall₂ (m : Matches g h p q) :
    List.Forall₂ (fun a b => a.1 = b.1 ∧ Matches g h a.2 b.2) (g.moves p) (h.moves q) := by
  apply forall₂_of_sorted_keys (hg.moves_pairwise_lt p) (hh.moves_pairwise_lt q)
  · rintro a b ⟨hlabel, -⟩
    rw [hlabel]
  · rintro ⟨i, r⟩ hr
    have harrow := mem_moves.1 hr
    obtain ⟨s, -, hrs⟩ := hg.exists_match hsame hh.singleValued hh.rooted harrow.contains_target
    exact ⟨(i, s), (m.mem_moves_iff hg hh hsame hrs).1 hr, rfl, hrs⟩
  · rintro ⟨i, s⟩ hs
    have harrow := mem_moves.1 hs
    obtain ⟨r, -, hsr⟩ := hh.exists_match (fun w => (hsame w).symm) hg.singleValued hg.rooted
      harrow.contains_target
    exact ⟨(i, r), (m.mem_moves_iff hg hh hsame hsr.symm).2 hs, rfl, hsr.symm⟩

theorem nodeCount_eq_of_minimal : g.nodeCount = h.nodeCount :=
  Nat.le_antisymm (hg.nodeCount_le hsame hh.singleValued hh.rooted)
    (hh.nodeCount_le (fun w => (hsame w).symm) hg.singleValued hg.rooted)

/-- **The searches find matching nodes at the same positions.** -/
theorem reachable_forall₂ : List.Forall₂ (Matches g h) g.reachable h.reachable := by
  obtain ⟨i, hi, hic⟩ := hg.rooted
  obtain ⟨j, hj, hjc⟩ := hh.rooted
  have hstart : Matches g h i j := ⟨i, j, [], ⟨hi, hic, .nil i⟩, hj, hjc, .nil j⟩
  rw [reachable_eq_explore hi hic, reachable_eq_explore hj hjc,
    nodeCount_eq_of_minimal hg hh hsame]
  apply explore_forall₂ (fun m m' => m.eq_iff hg hh hsame m') ?_ .nil (.cons hstart .nil)
  intro p q m
  rw [List.forall₂_map_left_iff, List.forall₂_map_right_iff]
  exact (m.moves_forall₂ hg hh hsame).imp fun _ _ hab => hab.2

end Canonical

end Graph

end SymbolAutomata
