/-
  SymbolAutomata/Interval/Merged.lean
  ===================================
  **Lists of intervals as sets of numbers.**

  `merged` is the normal form of such a list: it covers the same numbers
  (`covers_merged`), its intervals are in order, and between any two of them some
  number is missing (`merged_separated`).
-/
import SymbolAutomata.Ascending
import SymbolAutomata.Interval

namespace SymbolAutomata.Interval

/-- Joins neighbours in a sorted list. `current` is the interval grown so far. -/
def coalesceFrom (current : Interval) : List Interval → List Interval
  | [] => [current]
  | i :: rest =>
    if current.touches i then (current.extend i).coalesceFrom rest
    else current :: i.coalesceFrom rest

def coalesce : List Interval → List Interval
  | [] => []
  | i :: rest => i.coalesceFrom rest

/-- The maximal intervals that hold the same numbers as a list of intervals. -/
def merged (set : List Interval) : List Interval := coalesce (arrange precedes set)

/-! ### The set that a list stands for -/

def Covers (set : List Interval) (c : Nat) : Prop := ∃ i ∈ set, i.contains c = true

@[simp] theorem not_covers_nil {c : Nat} : ¬ Covers [] c := by
  simp [Covers]

@[simp] theorem covers_cons {i : Interval} {set : List Interval} {c : Nat} :
    Covers (i :: set) c ↔ i.contains c = true ∨ Covers set c := by
  simp [Covers]

theorem precedes_trans (i j k : Interval) (hij : i.precedes j = true) (hjk : j.precedes k = true) :
    i.precedes k = true := by
  simp only [precedes, Bool.or_eq_true, Bool.and_eq_true, decide_eq_true_eq, beq_iff_eq] at *
  omega

theorem precedes_total (i j : Interval) : (i.precedes j || j.precedes i) = true := by
  simp only [precedes, Bool.or_eq_true, Bool.and_eq_true, decide_eq_true_eq, beq_iff_eq]
  omega

theorem min_le_of_precedes {i j : Interval} (h : i.precedes j = true) : i.min ≤ j.min := by
  simp only [precedes, Bool.or_eq_true, Bool.and_eq_true, decide_eq_true_eq, beq_iff_eq] at h
  omega

theorem contains_extend {i j : Interval} {c : Nat} (hm : i.min ≤ j.min) (ht : i.touches j = true) :
    (i.extend j).contains c = true ↔ i.contains c = true ∨ j.contains c = true := by
  simp only [touches, decide_eq_true_eq] at ht
  have hi := i.min_le_max
  have hj := j.min_le_max
  simp only [contains_iff, extend, Nat.max_def]
  split <;> omega

theorem covers_coalesceFrom {i : Interval} {set : List Interval} {c : Nat}
    (h : (i :: set).Pairwise fun j k => j.min ≤ k.min) :
    Covers (i.coalesceFrom set) c ↔ i.contains c = true ∨ Covers set c := by
  induction set generalizing i with
  | nil => simp [coalesceFrom]
  | cons j set ih =>
    obtain ⟨hi, hset⟩ := List.pairwise_cons.1 h
    unfold coalesceFrom
    split
    · next ht =>
      have hext : (i.extend j :: set).Pairwise fun j k => j.min ≤ k.min :=
        List.pairwise_cons.2
          ⟨fun k hk => hi k (List.mem_cons_of_mem _ hk), (List.pairwise_cons.1 hset).2⟩
      rw [ih hext, contains_extend (hi j (List.mem_cons_self ..)) ht, covers_cons, or_assoc]
    · rw [covers_cons, ih hset, covers_cons]

theorem min_le_of_mem_coalesceFrom {i j : Interval} {set : List Interval}
    (h : (i :: set).Pairwise fun j k => j.min ≤ k.min) (hj : j ∈ i.coalesceFrom set) :
    i.min ≤ j.min := by
  induction set generalizing i with
  | nil =>
    obtain rfl := List.mem_singleton.1 hj
    exact Nat.le_refl _
  | cons k set ih =>
    obtain ⟨hi, hset⟩ := List.pairwise_cons.1 h
    unfold coalesceFrom at hj
    split at hj
    · have hext : (i.extend k :: set).Pairwise fun j k => j.min ≤ k.min :=
        List.pairwise_cons.2
          ⟨fun l hl => hi l (List.mem_cons_of_mem _ hl), (List.pairwise_cons.1 hset).2⟩
      have hle := ih hext hj
      exact hle
    · rcases List.mem_cons.1 hj with rfl | hj
      · exact Nat.le_refl _
      · exact Nat.le_trans (hi k (List.mem_cons_self ..)) (ih hset hj)

theorem coalesceFrom_separated {i : Interval} {set : List Interval}
    (h : (i :: set).Pairwise fun j k => j.min ≤ k.min) :
    (i.coalesceFrom set).Pairwise fun j k => j.max + 1 < k.min := by
  induction set generalizing i with
  | nil => simp [coalesceFrom]
  | cons j set ih =>
    obtain ⟨hi, hset⟩ := List.pairwise_cons.1 h
    unfold coalesceFrom
    split
    · have hext : (i.extend j :: set).Pairwise fun j k => j.min ≤ k.min :=
        List.pairwise_cons.2
          ⟨fun k hk => hi k (List.mem_cons_of_mem _ hk), (List.pairwise_cons.1 hset).2⟩
      exact ih hext
    · next ht =>
      refine List.pairwise_cons.2 ⟨fun k hk => ?_, ih hset⟩
      have hjk := min_le_of_mem_coalesceFrom hset hk
      have hij := hi j (List.mem_cons_self ..)
      have hj := j.min_le_max
      simp only [touches, decide_eq_true_eq] at ht
      omega

theorem arrange_precedes_pairwise (set : List Interval) :
    (arrange precedes set).Pairwise fun i j => i.min ≤ j.min :=
  (List.pairwise_mergeSort precedes_trans precedes_total set).imp min_le_of_precedes

/-- **Merging keeps the set.** -/
theorem covers_merged {set : List Interval} {c : Nat} : Covers (merged set) c ↔ Covers set c := by
  have hperm : Covers (arrange precedes set) c ↔ Covers set c := by
    simp only [Covers, List.mem_mergeSort]
  rw [← hperm, merged]
  have hsorted := arrange_precedes_pairwise set
  generalize arrange precedes set = sorted at hsorted
  cases sorted with
  | nil => exact Iff.rfl
  | cons i rest => rw [coalesce, covers_coalesceFrom hsorted, covers_cons]

/-- **Merged intervals are in order and apart**: some number lies between any two of them. -/
theorem merged_separated (set : List Interval) :
    (merged set).Pairwise fun i j => i.max + 1 < j.min := by
  have hsorted := arrange_precedes_pairwise set
  unfold merged
  generalize arrange precedes set = sorted at hsorted
  cases sorted with
  | nil => exact List.Pairwise.nil
  | cons i rest => exact coalesceFrom_separated hsorted

end SymbolAutomata.Interval
