/-
  SymbolAutomata/Proofs/Graph/Merging.lean
  ========================================
  **Joining the labels of moves with the same destination.**

  `mergeExits` is what reduction makes of the moves of one node.  It leads to the
  same places over the same codepoints (`leads_mergeExits`), and afterwards two
  labels to one place have a codepoint between them that leads elsewhere
  (`mergeExits_apart`).  Joining never makes a list longer, and if it does not
  make it shorter the labels are the old ones (`mergeExits_perm_of_length_eq`):
  this is why comparing counts is enough to leave a node alone.  A node whose labels
  are apart is left alone (`mergeExits_perm_of_apart`).
-/
import Mathlib.Data.List.Perm.Basic
import SymbolAutomata.Graph.Trim
import SymbolAutomata.Proofs.Graph.Determinism

namespace SymbolAutomata

namespace Interval

/-! ### Counting joined labels -/

theorem length_coalesceFrom_le (i : Interval) (set : List Interval) :
    (i.coalesceFrom set).length ≤ set.length + 1 := by
  induction set generalizing i with
  | nil => simp [coalesceFrom]
  | cons j set ih =>
    unfold coalesceFrom
    split
    · have hle := ih (i.extend j)
      rw [List.length_cons]
      omega
    · have hle := ih j
      rw [List.length_cons, List.length_cons]
      omega

theorem coalesceFrom_eq_of_length {i : Interval} {set : List Interval}
    (h : (i.coalesceFrom set).length = set.length + 1) : i.coalesceFrom set = i :: set := by
  induction set generalizing i with
  | nil => rfl
  | cons j set ih =>
    unfold coalesceFrom at h ⊢
    split at h
    · -- a join loses one interval for good
      have hle := length_coalesceFrom_le (i.extend j) set
      rw [List.length_cons] at h
      omega
    · next hgap =>
      rw [if_neg hgap, ih]
      rw [List.length_cons, List.length_cons] at h
      omega

theorem length_merged_le (set : List Interval) : (merged set).length ≤ set.length := by
  have hperm : (arrange precedes set).Perm set := List.mergeSort_perm _ _
  rw [← hperm.length_eq, merged]
  cases arrange precedes set with
  | nil => exact Nat.le_refl _
  | cons i rest => exact length_coalesceFrom_le i rest

theorem merged_perm_of_length_eq {set : List Interval}
    (h : (merged set).length = set.length) : (merged set).Perm set := by
  have hperm : (arrange precedes set).Perm set := List.mergeSort_perm _ _
  rw [← hperm.length_eq] at h
  refine List.Perm.trans ?_ hperm
  unfold merged at h ⊢
  generalize arrange precedes set = sorted at h
  cases sorted with
  | nil => exact List.Perm.refl _
  | cons i rest =>
    have heq : coalesce (i :: rest) = i :: rest := coalesceFrom_eq_of_length h
    rw [heq]

/-! ### Labels with nothing to join -/

theorem coalesceFrom_eq_of_separated {i : Interval} {set : List Interval}
    (h : (i :: set).Pairwise fun j k => j.max + 1 < k.min) : i.coalesceFrom set = i :: set := by
  induction set generalizing i with
  | nil => rfl
  | cons j set ih =>
    obtain ⟨hi, hset⟩ := List.pairwise_cons.1 h
    have hgap := hi j (List.mem_cons_self ..)
    have hapart : ¬ i.touches j = true := by
      simp only [touches, decide_eq_true_eq]
      omega
    rw [coalesceFrom, if_neg hapart, ih hset]

theorem merged_perm_of_separated {set : List Interval}
    (h : set.Pairwise fun i j => i.max + 1 < j.min ∨ j.max + 1 < i.min) :
    (merged set).Perm set := by
  have hperm : (arrange precedes set).Perm set := List.mergeSort_perm _ _
  have hsep := h.perm hperm.symm Or.symm
  -- in a sorted list the gap can only be above the first of two intervals
  have hsorted : (arrange precedes set).Pairwise fun i j => i.max + 1 < j.min := by
    refine ((arrange_precedes_pairwise set).and hsep).imp ?_
    rintro i j ⟨hle, hgap | hgap⟩
    · exact hgap
    · have hj := j.min_le_max
      omega
  refine List.Perm.trans ?_ hperm
  unfold merged
  generalize arrange precedes set = sorted at hsorted
  cases sorted with
  | nil => exact List.Perm.refl _
  | cons i rest => rw [coalesce, coalesceFrom_eq_of_separated hsorted]

end Interval

/-! ### Grouping a list by a key -/

/-- **The groups of a list** by a key, one after the other, are the same list. -/
theorem perm_groups {α : Type} (key : α → Nat) {keys : List Nat} (hnodup : keys.Nodup) {xs : List α}
    (hxs : ∀ x ∈ xs, key x ∈ keys) : (keys.flatMap fun k => xs.filter (key · = k)).Perm xs := by
  induction keys generalizing xs with
  | nil =>
    rw [List.eq_nil_iff_forall_not_mem.2 fun x hx => List.not_mem_nil (hxs x hx)]
    exact .nil
  | cons k keys ih =>
    obtain ⟨hk, hkeys⟩ := List.nodup_cons.1 hnodup
    have hothers : ∀ x ∈ xs.filter fun x => !decide (key x = k), key x ∈ keys := by
      intro x hx
      obtain ⟨hmem, hne⟩ := List.mem_filter.1 hx
      exact (List.mem_cons.1 (hxs x hmem)).resolve_left (by simpa using hne)
    -- the groups of the other keys do not see what has the first one
    have hgroups : (keys.flatMap fun l => xs.filter (key · = l)) =
        keys.flatMap fun l => (xs.filter fun x => !decide (key x = k)).filter (key · = l) := by
      refine List.flatMap_congr fun l hl => ?_
      rw [List.filter_filter]
      refine List.filter_congr fun x _ => ?_
      by_cases hx : key x = l
      · have hlk : l ≠ k := fun heq => hk (heq ▸ hl)
        simp [hx, hlk]
      · simp [hx]
    rw [List.flatMap_cons, hgroups]
    exact ((ih hkeys hothers).append_left _).trans (List.filter_append_perm _ _)

/-- Pieces that are no longer than the originals and not shorter in total are none of them
    shorter. -/
theorem flatMap_perm_of_length_eq {α β : Type} {f g : α → List β} {keys : List α}
    (hle : ∀ k ∈ keys, (f k).length ≤ (g k).length)
    (hperm : ∀ k ∈ keys, (f k).length = (g k).length → (f k).Perm (g k))
    (htotal : (keys.flatMap f).length = (keys.flatMap g).length) :
    (keys.flatMap f).Perm (keys.flatMap g) := by
  induction keys with
  | nil => exact List.Perm.refl _
  | cons k keys ih =>
    have hrest : (keys.flatMap f).length ≤ (keys.flatMap g).length := by
      rw [List.length_flatMap, List.length_flatMap]
      clear ih hperm htotal
      induction keys with
      | nil => exact Nat.le_refl _
      | cons j keys ih =>
        have hj := hle j (by simp)
        have hkeys := ih fun x hx => hle x (by
          rcases List.mem_cons.1 hx with rfl | hx
          · exact List.mem_cons_self ..
          · exact List.mem_cons_of_mem _ (List.mem_cons_of_mem _ hx))
        simp only [List.map_cons, List.sum_cons]
        omega
    have hk := hle k (List.mem_cons_self ..)
    simp only [List.flatMap_cons, List.length_append] at htotal ⊢
    refine List.Perm.append (hperm k (List.mem_cons_self ..) (by omega)) (ih ?_ ?_ (by omega))
    · exact fun x hx => hle x (List.mem_cons_of_mem _ hx)
    · exact fun x hx => hperm x (List.mem_cons_of_mem _ hx)

namespace Graph

/-! ### The moves of one node, merged -/

/-- The labels of the moves to one destination. -/
def labelsTo (xs : List Move) (dest : NodeId) : List Interval := (xs.filter (·.2 = dest)).map (·.1)

/-- Moves with the labels to each destination joined. -/
def mergeExits (xs : List Move) : List Move :=
  (ascending (xs.map (·.2))).flatMap fun dest =>
    (Interval.merged (labelsTo xs dest)).map fun i => (i, dest)

theorem mergedMoves_eq (g : Graph) (n : NodeId) : g.mergedMoves n = mergeExits (g.exits n) := by
  have hlabels : ∀ dest, ((g.outgoing n).filter (·.target = dest)).map (·.label) =
      labelsTo (g.exits n) dest := by
    intro dest
    rw [labelsTo, exits, List.filter_map, List.map_map]
    rfl
  unfold mergedMoves mergeExits
  simp only [hlabels]
  rw [exits, List.map_map]
  rfl

@[simp] theorem mem_labelsTo {xs : List Move} {dest : NodeId} {i : Interval} :
    i ∈ labelsTo xs dest ↔ (i, dest) ∈ xs := by
  simp only [labelsTo, List.mem_map, List.mem_filter, decide_eq_true_eq]
  constructor
  · intro h
    rcases h with ⟨⟨j, e⟩, ⟨hm, rfl⟩, rfl⟩
    exact hm
  · intro hm
    exact ⟨(i, dest), ⟨hm, rfl⟩, rfl⟩

theorem mem_mergeExits {xs : List Move} {dest : NodeId} {i : Interval} :
    (i, dest) ∈ mergeExits xs ↔ i ∈ Interval.merged (labelsTo xs dest) := by
  simp only [mergeExits, List.mem_flatMap, mem_ascending, List.mem_map, Prod.mk.injEq]
  constructor
  · intro h
    rcases h with ⟨e, -, j, hj, rfl, rfl⟩
    exact hj
  · intro hi
    -- a destination with a merged label has some label
    have hcov : Interval.Covers (labelsTo xs dest) i.min :=
      Interval.covers_merged.1 ⟨i, hi, i.contains_min⟩
    obtain ⟨j, hj, -⟩ := hcov
    exact ⟨dest, ⟨(j, dest), mem_labelsTo.1 hj, rfl⟩, i, hi, rfl, rfl⟩

/-- **Merged moves lead to the same places.** -/
theorem leads_mergeExits {xs : List Move} {dest : NodeId} {c : Codepoint} :
    (∃ i, (i, dest) ∈ mergeExits xs ∧ i.contains c = true) ↔
      ∃ i, (i, dest) ∈ xs ∧ i.contains c = true := by
  have hcov : Interval.Covers (Interval.merged (labelsTo xs dest)) c ↔
      Interval.Covers (labelsTo xs dest) c := Interval.covers_merged
  unfold Interval.Covers at hcov
  simpa only [mem_mergeExits, mem_labelsTo] using hcov

/-- Two moves whose labels, if they lead to one place, do not even touch. -/
def Apart (a b : Move) : Prop :=
  a.2 = b.2 → a.1.max + 1 < b.1.min ∨ b.1.max + 1 < a.1.min

theorem Apart.symm {a b : Move} (h : Apart a b) : Apart b a := fun heq => (h heq.symm).symm

/-- **Merged moves are apart.** -/
theorem mergeExits_apart (xs : List Move) : (mergeExits xs).Pairwise Apart := by
  unfold mergeExits
  rw [List.pairwise_flatMap]
  constructor
  · intro dest _
    rw [List.pairwise_map]
    exact (Interval.merged_separated (labelsTo xs dest)).imp fun h _ => Or.inl h
  · refine (ascending_sorted (xs.map (·.2))).imp ?_
    intro d e hde a ha b hb heq
    obtain ⟨i, -, rfl⟩ := List.mem_map.1 ha
    obtain ⟨j, -, rfl⟩ := List.mem_map.1 hb
    exact absurd heq (Nat.ne_of_lt hde)

/-- Moves grouped by their destinations are the same moves. -/
theorem flatMap_labelsTo_perm (xs : List Move) :
    ((ascending (xs.map (·.2))).flatMap fun dest =>
      (labelsTo xs dest).map fun i => (i, dest)).Perm xs := by
  have hgroup : ∀ dest, (labelsTo xs dest).map (fun i => (i, dest)) = xs.filter (·.2 = dest) := by
    intro dest
    rw [labelsTo, List.map_map]
    refine (List.map_congr_left ?_).trans (List.map_id _)
    rintro ⟨i, e⟩ ha
    rw [List.mem_filter, decide_eq_true_eq] at ha
    exact Prod.ext rfl ha.2.symm
  simp only [hgroup]
  refine perm_groups Prod.snd ((ascending_sorted _).imp Nat.ne_of_lt) fun m hm => ?_
  exact mem_ascending.2 (List.mem_map_of_mem hm)

/-- **Merging that saves nothing changes nothing** but the order. -/
theorem mergeExits_perm_of_length_eq {xs : List Move} (h : (mergeExits xs).length = xs.length) :
    (mergeExits xs).Perm xs := by
  have hgroups := flatMap_labelsTo_perm xs
  refine List.Perm.trans (flatMap_perm_of_length_eq ?_ ?_ ?_) hgroups
  · intro dest _
    rw [List.length_map, List.length_map]
    exact Interval.length_merged_le _
  · intro dest _ hlen
    rw [List.length_map, List.length_map] at hlen
    exact (Interval.merged_perm_of_length_eq hlen).map _
  · rw [hgroups.length_eq]
    exact h

/-- **Moves that are apart are merged already.** -/
theorem mergeExits_perm_of_apart {xs : List Move} (h : xs.Pairwise Apart) :
    (mergeExits xs).Perm xs := by
  refine List.Perm.trans ?_ (flatMap_labelsTo_perm xs)
  refine List.Perm.flatMap_left _ fun dest _ => ?_
  refine (Interval.merged_perm_of_separated ?_).map _
  rw [labelsTo, List.pairwise_map, List.pairwise_filter]
  refine h.imp fun hapart ha hb => hapart ?_
  rw [decide_eq_true_eq] at ha hb
  rw [ha, hb]

end Graph

end SymbolAutomata
