/-
  SymbolAutomata/Proofs/Codec.lean
  ================================
  **Symbols and codepoints correspond** one to one and in the same order.

  `climb` steps over the members of an increasing list; the codec climbs over the
  reserved codepoints.  What is reached is no member, and as many members lie
  below it as there were steps (`climb_eq`), so `rank` undoes `place`.  Since `rank`
  grows by one behind each codepoint that is not reserved, there is no other
  codepoint of the same rank (`place_rank`), and the symbols of a range of codepoints
  are those between two ranks (`mem_symbolSpan_iff`).
-/
import Mathlib.Data.List.Nodup
import SymbolAutomata.Failure

namespace SymbolAutomata

namespace Codec

/-! ### Climbing over a list -/

/-- The number reached from `n` by stepping over the members of a list. -/
def climb (rs : List Nat) (n : Nat) : Nat := rs.foldl (fun c r => if r ≤ c then c + 1 else c) n

theorem climb_cons (r : Nat) (rs : List Nat) (n : Nat) :
    climb (r :: rs) n = climb rs (if r ≤ n then n + 1 else n) := rfl

theorem le_climb (rs : List Nat) (n : Nat) : n ≤ climb rs n := by
  induction rs generalizing n with
  | nil => exact Nat.le_refl n
  | cons r rs ih =>
    rw [climb_cons]
    refine Nat.le_trans ?_ (ih _)
    split <;> omega

theorem climb_le (rs : List Nat) (n : Nat) : climb rs n ≤ n + rs.length := by
  induction rs generalizing n with
  | nil => exact Nat.le_refl n
  | cons r rs ih =>
    rw [climb_cons, List.length_cons]
    refine Nat.le_trans (ih _) ?_
    split <;> omega

theorem climb_of_lt {rs : List Nat} {n : Nat} (h : ∀ r ∈ rs, n < r) : climb rs n = n := by
  induction rs with
  | nil => rfl
  | cons r rs ih =>
    have hr := h r (List.mem_cons_self ..)
    rw [climb_cons, if_neg (Nat.not_le.2 hr)]
    exact ih fun q hq => h q (List.mem_cons_of_mem _ hq)

theorem climb_not_mem {rs : List Nat} (hrs : rs.Pairwise (· < ·)) (n : Nat) : climb rs n ∉ rs := by
  induction rs generalizing n with
  | nil => exact List.not_mem_nil
  | cons r rs ih =>
    obtain ⟨hr, hrs⟩ := List.pairwise_cons.1 hrs
    rw [climb_cons, List.mem_cons, not_or]
    refine ⟨?_, ih hrs _⟩
    by_cases hle : r ≤ n
    · rw [if_pos hle]
      have hclimb := le_climb rs (n + 1)
      omega
    · -- below `r` nothing is stepped over any more
      rw [if_neg hle, climb_of_lt fun q hq => Nat.lt_trans (Nat.lt_of_not_le hle) (hr q hq)]
      omega

/-- **As many steps as there are members below.** -/
theorem climb_eq {rs : List Nat} (hrs : rs.Pairwise (· < ·)) (n : Nat) :
    climb rs n = n + (rs.filter (· < climb rs n)).length := by
  induction rs generalizing n with
  | nil => rfl
  | cons r rs ih =>
    obtain ⟨hr, hrs⟩ := List.pairwise_cons.1 hrs
    by_cases hle : r ≤ n
    · have hclimb := le_climb rs (n + 1)
      have hlt : r < climb rs (n + 1) := by omega
      have hstep := ih hrs (n + 1)
      rw [climb_cons, if_pos hle, List.filter_cons_of_pos (by simpa using hlt), List.length_cons]
      omega
    · have hnone : ∀ q ∈ r :: rs, n < q := by
        intro q hq
        rcases List.mem_cons.1 hq with rfl | hq
        · omega
        · exact Nat.lt_trans (Nat.lt_of_not_le hle) (hr q hq)
      rw [climb_of_lt hnone]
      have hempty : (r :: rs).filter (· < n) = [] := by
        rw [List.filter_eq_nil_iff]
        intro q hq
        have hlt := hnone q hq
        simp only [decide_eq_true_eq]
        omega
      rw [hempty, List.length_nil, Nat.add_zero]

/-- Of the numbers below `c + 1` a list without repeats holds one more than of those below `c`,
    if it holds `c`. -/
theorem length_filter_lt_succ {rs : List Nat} (hrs : rs.Nodup) (c : Nat) :
    (rs.filter (· < c + 1)).length = (rs.filter (· < c)).length + if c ∈ rs then 1 else 0 := by
  induction rs with
  | nil => rfl
  | cons r rs ih =>
    obtain ⟨hr, hrs⟩ := List.nodup_cons.1 hrs
    have hstep := ih hrs
    simp only [List.filter_cons, decide_eq_true_eq, List.mem_cons]
    by_cases hrc : r = c
    · subst hrc
      rw [if_neg hr] at hstep
      simp only [Nat.lt_succ_self, if_true, Nat.lt_irrefl, if_false, true_or, List.length_cons,
        hstep]
    · have hcr : ¬ c = r := fun h => hrc h.symm
      simp only [hcr, false_or]
      by_cases hlt : r < c
      · rw [if_pos hlt, if_pos (by omega), List.length_cons, List.length_cons, hstep]
        omega
      · rw [if_neg hlt, if_neg (by omega), hstep]

theorem length_filter_lt_le {rs : List Nat} (hrs : rs.Nodup) (c : Nat) :
    (rs.filter (· < c)).length ≤ c := by
  have hsub : ∀ r ∈ rs.filter (· < c), r ∈ List.range c := by
    intro r hr
    rw [List.mem_filter, decide_eq_true_eq] at hr
    exact List.mem_range.2 hr.2
  have hle := (hrs.filter (· < c)).length_le_of_subset hsub
  rwa [List.length_range] at hle

/-! ### Ranks -/

theorem reserved_sorted : reserved.Pairwise (· < ·) := by decide

theorem reserved_nodup : reserved.Nodup := reserved_sorted.imp Nat.ne_of_lt

/-- **The rank grows by one** behind each codepoint that is not reserved. -/
theorem rank_succ (c : Codepoint) : rank (c + 1) = if c ∈ reserved then rank c else rank c + 1 := by
  have hcount := length_filter_lt_succ reserved_nodup c
  have hle := length_filter_lt_le reserved_nodup c
  unfold rank
  simp only [Codepoint] at *
  rw [hcount]
  split <;> omega

theorem rank_mono {c d : Codepoint} (h : c ≤ d) : rank c ≤ rank d := by
  induction h with
  | refl => exact Nat.le_refl _
  | step _ ih =>
    refine Nat.le_trans ih ?_
    rw [rank_succ]
    split
    · exact Nat.le_refl _
    · exact Nat.le_succ _

theorem rank_lt {c d : Codepoint} (hc : c ∉ reserved) (h : c < d) : rank c < rank d := by
  have hle := rank_mono (Nat.succ_le_of_lt h)
  rw [Nat.succ_eq_add_one, rank_succ, if_neg hc] at hle
  exact hle

theorem place_eq_climb (n : Nat) : place n = climb reserved n := rfl

theorem place_not_mem (n : Nat) : place n ∉ reserved := climb_not_mem reserved_sorted n

theorem rank_place (n : Nat) : rank (place n) = n := by
  have heq := climb_eq reserved_sorted n
  unfold rank
  rw [place_eq_climb]
  exact Nat.sub_eq_of_eq_add heq

/-- **Every codepoint that is not reserved has a symbol.** -/
theorem place_rank {c : Codepoint} (hc : c ∉ reserved) : place (rank c) = c := by
  have hrank := rank_place (rank c)
  rcases Nat.lt_trichotomy (place (rank c)) c with hlt | heq | hgt
  · exact absurd hrank (Nat.ne_of_lt (rank_lt (place_not_mem _) hlt))
  · exact heq
  · exact absurd hrank (Nat.ne_of_gt (rank_lt hc hgt))

theorem le_place_iff {c : Codepoint} {n : Nat} : c ≤ place n ↔ rank c ≤ n := by
  constructor
  · intro h
    have hle := rank_mono h
    rwa [rank_place] at hle
  · intro h
    by_contra hlt
    have hgt := rank_lt (place_not_mem n) (Nat.lt_of_not_le hlt)
    rw [rank_place] at hgt
    omega

/-! ### Symbols -/

/-- The symbols are `0 … maxSymbol`. -/
def IsSymbol (s : Symbol) : Prop := 0 ≤ s ∧ s ≤ maxSymbol

instance : DecidablePred IsSymbol := fun s => inferInstanceAs (Decidable (0 ≤ s ∧ s ≤ maxSymbol))

theorem codepoint?_eq_some_iff {s : Symbol} {c : Codepoint} :
    codepoint? s = some c ↔ IsSymbol s ∧ code s = c := by
  unfold codepoint? IsSymbol
  split
  · next h => simp [h]
  · next h => simp [h]

theorem codepoint_eq_ok_iff {s : Symbol} {c : Codepoint} :
    codepoint s = .ok c ↔ IsSymbol s ∧ code s = c := by
  rw [← codepoint?_eq_some_iff]
  unfold codepoint
  cases codepoint? s <;> simp

theorem codepoint_of_isSymbol {s : Symbol} (hs : IsSymbol s) : codepoint s = .ok (code s) :=
  codepoint_eq_ok_iff.2 ⟨hs, rfl⟩

theorem maxSymbol_eq : maxSymbol = 65526 := by decide

theorem rank_top : rank (maxCodepoint + 1) = 65527 := by decide

theorem code_le_max {s : Symbol} (hs : IsSymbol s) : code s ≤ maxCodepoint := by
  have hle : code s ≤ s.toNat + 9 := climb_le reserved s.toNat
  have hmax : s ≤ 65526 := maxSymbol_eq ▸ hs.2
  have hnat : s.toNat ≤ 65526 := Int.toNat_le.2 hmax
  exact Nat.le_trans hle (Nat.add_le_add_right hnat 9)

theorem code_not_mem (s : Symbol) : code s ∉ reserved := place_not_mem s.toNat

theorem code_rank {c : Codepoint} (hc : c ∉ reserved) : code (rank c : Int) = c := place_rank hc

theorem isSymbol_rank {c : Codepoint} (hc : c ≤ maxCodepoint) (hfree : c ∉ reserved) :
    IsSymbol (rank c : Int) := by
  refine ⟨Int.natCast_nonneg _, ?_⟩
  have hlt : rank c < rank (maxCodepoint + 1) := rank_lt hfree (Nat.lt_succ_of_le hc)
  rw [rank_top] at hlt
  rw [maxSymbol_eq]
  show (rank c : Int) ≤ 65526
  omega

/-- **Symbols are in the order of their codepoints.** -/
theorem code_lt_iff {s t : Symbol} (hs : IsSymbol s) (ht : IsSymbol t) :
    code s < code t ↔ s < t := by
  have hs₀ : (0 : Int) ≤ s := hs.1
  have ht₀ : (0 : Int) ≤ t := ht.1
  unfold code
  rw [← Nat.not_le, le_place_iff, rank_place, Nat.not_le, ← Int.ofNat_lt,
    Int.toNat_of_nonneg hs₀, Int.toNat_of_nonneg ht₀]

theorem code_le_iff {s t : Symbol} (hs : IsSymbol s) (ht : IsSymbol t) :
    code s ≤ code t ↔ s ≤ t := by
  rw [← Nat.not_lt, code_lt_iff ht hs]
  exact Int.not_lt

theorem code_inj {s t : Symbol} (hs : IsSymbol s) (ht : IsSymbol t) (h : code s = code t) :
    s = t :=
  Int.le_antisymm ((code_le_iff hs ht).1 (Nat.le_of_eq h))
    ((code_le_iff ht hs).1 (Nat.le_of_eq h.symm))

/-- **The symbols of a range of codepoints** are those of a span. -/
theorem mem_symbolSpan_iff {lo hi : Codepoint} {s : Symbol} :
    (∃ first last, symbolSpan lo hi = some (first, last) ∧ first ≤ s ∧ s ≤ last) ↔
      IsSymbol s ∧ lo ≤ code s ∧ code s ≤ hi := by
  have hpast : rank (Nat.min hi maxCodepoint + 1) ≤ 65527 := by
    rw [← rank_top]
    exact rank_mono (Nat.succ_le_succ (Nat.min_le_right _ _))
  -- a codepoint within both bounds has a rank below that of the next one
  have hlast : ∀ n, n < rank (Nat.min hi maxCodepoint + 1) ↔
      place n ≤ hi ∧ place n ≤ maxCodepoint := by
    intro n
    rw [← Nat.not_le, ← le_place_iff, Nat.not_le, Nat.lt_succ_iff]
    exact Nat.le_min
  have hmax := maxSymbol_eq
  unfold symbolSpan
  simp only [Symbol] at *
  constructor
  · intro h
    rcases h with ⟨first, last, hspan, hfirst, hle⟩
    split at hspan
    · obtain ⟨rfl, rfl⟩ := Prod.mk.inj (Option.some.inj hspan)
      have hnonneg : 0 ≤ s := Int.le_trans (Int.natCast_nonneg _) hfirst
      have hlt : s.toNat < rank (Nat.min hi maxCodepoint + 1) := by omega
      refine ⟨⟨hnonneg, ?_⟩, le_place_iff.2 (by omega), ((hlast _).1 hlt).1⟩
      rw [hmax]
      exact Int.toNat_le.1 (Nat.le_of_lt_succ (Nat.lt_of_lt_of_le hlt hpast))
    · cases hspan
  · intro h
    rcases h with ⟨hs, hlo, hhi⟩
    have hnonneg : (0 : Int) ≤ s := hs.1
    have hfirst := le_place_iff.1 hlo
    have hlt := (hlast _).2 ⟨hhi, code_le_max hs⟩
    refine ⟨_, _, if_pos (Nat.lt_of_le_of_lt hfirst hlt), ?_, ?_⟩ <;> omega

end Codec

end SymbolAutomata
