/-
  SymbolAutomata/Proofs/Refinement/Numbering.lean
  ===============================================
  **Numbers in the order of first appearance.**

  A list of numbers is in this order if its first occurrences are `0, 1, 2, …`.  Then each
  number comes after all smaller ones (`exists_lt_of_lt`), and the list is determined by
  which of its places hold the same number (`eq_of_same_places`).

  `numberFrom` gives such numbers in one pass over a list, with a table of the numbers
  given so far and the next number to be given; it gives each item the place of its first
  occurrence (`numberFrom_eq`).
-/
import Mathlib.Data.List.GetD
import SymbolAutomata.Proofs.Search

namespace SymbolAutomata

/-! ### First occurrences -/

theorem fresh_append {α : Type} [DecidableEq α] (seen xs ys : List α) :
    fresh seen (xs ++ ys) = fresh seen xs ++ fresh (seen ++ fresh seen xs) ys := by
  induction xs generalizing seen with
  | nil => simp [fresh]
  | cons x xs ih =>
    rw [List.cons_append, fresh_cons seen x (xs ++ ys), fresh_cons seen x xs, ih]
    simp only [List.append_assoc]

theorem fresh_take_isPrefix {α : Type} [DecidableEq α] (xs : List α) (n : Nat) :
    fresh [] (xs.take n) <+: fresh [] xs := by
  have hsplit := fresh_append [] (xs.take n) (xs.drop n)
  rw [List.take_append_drop] at hsplit
  rw [hsplit]
  exact List.prefix_append _ _

/-- The two numbers stand at one place, each in its list. -/
def Faces (numbers others : List Nat) (a b : Nat) : Prop :=
  ∃ i, i < numbers.length ∧ numbers.getD i 0 = a ∧ others.getD i 0 = b

section InOrder

variable {numbers : List Nat} {k : Nat} (hnumbers : fresh [] numbers = List.range k)

include hnumbers

/-- **A number comes after all smaller ones.** -/
theorem exists_lt_of_lt {i n b : Nat} (hi : numbers[i]? = some n) (hb : b < n) :
    ∃ j, j < i ∧ numbers[j]? = some b := by
  obtain ⟨hlt, hget⟩ := List.getElem?_eq_some_iff.1 hi
  -- up to place `i` the numbers are those below some bound, and `n` is one of them
  obtain ⟨m, hm⟩ : ∃ m, fresh [] (numbers.take (i + 1)) = List.range m := by
    have hprefix := fresh_take_isPrefix numbers (i + 1)
    rw [hnumbers, List.prefix_iff_eq_take, List.take_range] at hprefix
    exact ⟨_, hprefix⟩
  have hmem : ∀ x, x ∈ numbers.take (i + 1) ↔ x < m := by
    intro x
    rw [← List.mem_range, ← hm, mem_fresh, and_iff_left List.not_mem_nil]
  have htaken : n ∈ numbers.take (i + 1) := by
    rw [List.mem_take_iff_getElem]
    exact ⟨i, by omega, hget⟩
  have hbm : b < m := Nat.lt_trans hb ((hmem n).1 htaken)
  obtain ⟨j, hj, hjb⟩ := List.mem_take_iff_getElem.1 ((hmem b).2 hbm)
  have hne : j ≠ i := by
    rintro rfl
    omega
  exact ⟨j, by omega, List.getElem?_eq_some_iff.2 ⟨by omega, hjb⟩⟩

theorem head_eq_zero (hne : numbers ≠ []) : numbers[0]? = some 0 := by
  obtain ⟨n, hn⟩ : ∃ n, numbers[0]? = some n :=
    ⟨_, List.getElem?_eq_getElem (List.length_pos_of_ne_nil hne)⟩
  rcases Nat.eq_zero_or_pos n with rfl | hpos
  · exact hn
  · obtain ⟨j, hj, -⟩ := exists_lt_of_lt hnumbers hn hpos
    exact absurd hj (Nat.not_lt_zero j)

/-- **There is one numbering only** for given places with the same number. -/
theorem eq_of_same_places {others : List Nat} {l : Nat} (hothers : fresh [] others = List.range l)
    (hlength : numbers.length = others.length)
    (hsame : ∀ i j, i < numbers.length → j < numbers.length →
      (numbers.getD i 0 = numbers.getD j 0 ↔ others.getD i 0 = others.getD j 0)) :
    numbers = others := by
  have hone : ∀ {a a' b b'}, Faces numbers others a b → Faces numbers others a' b' →
      (a = a' ↔ b = b') := by
    rintro a a' b b' ⟨i, hi, rfl, rfl⟩ ⟨j, hj, rfl, rfl⟩
    exact hsame i j hi hj
  have hfaces : ∀ i (h : i < numbers.length) (h' : i < others.length),
      Faces numbers others numbers[i] others[i] := by
    intro i h h'
    exact ⟨i, h, List.getD_eq_getElem _ _ h, List.getD_eq_getElem _ _ h'⟩
  -- first occurrences face each other, and both are `0, 1, 2, …`
  have hfirst : List.Forall₂ (Faces numbers others) (List.range k) (List.range l) := by
    rw [← hnumbers, ← hothers]
    apply fresh_forall₂ hone .nil
    exact List.forall₂_iff_get.2 ⟨hlength, hfaces⟩
  have hself : ∀ n, n < k → Faces numbers others n n := by
    intro n hn
    obtain ⟨hkl, hget⟩ := List.forall₂_iff_get.1 hfirst
    simp only [List.length_range, List.get_eq_getElem, List.getElem_range] at hkl hget
    exact hget n hn (hkl ▸ hn)
  apply List.ext_getElem hlength
  intro i h h'
  have hlt : numbers[i] < k := by
    rw [← List.mem_range, ← hnumbers, mem_fresh]
    exact ⟨List.getElem_mem h, List.not_mem_nil⟩
  exact (hone (hself _ hlt) (hfaces i h h')).1 rfl

end InOrder

/-! ### Numbering in one pass -/

/-- Replaces each item by its number. `names` holds the numbers given so far and `next` is the one
    for the next item that has none. -/
def numberFrom : List (Option Nat) → Nat → List Nat → List Nat
  | _, _, [] => []
  | names, next, b :: bs =>
    match (names[b]?).join with
    | some n => n :: numberFrom names next bs
    | none => next :: numberFrom (names.set b (some next)) (next + 1) bs

/-- What the table holds: the items seen are numbered by their places. -/
def NumbersOf (seen : List Nat) (names : List (Option Nat)) : Prop :=
  ∀ b, b < names.length → names[b]? = some (if b ∈ seen then some (seen.idxOf b) else none)

theorem NumbersOf.set {seen : List Nat} {names : List (Option Nat)} (h : NumbersOf seen names)
    {b : Nat} (hb : b ∉ seen) : NumbersOf (seen ++ [b]) (names.set b (some seen.length)) := by
  intro a ha
  rw [List.length_set] at ha
  by_cases hab : a = b
  · subst hab
    simp [ha, List.idxOf_append_of_notMem hb]
  · rw [List.getElem?_set_ne (Ne.symm hab), h a ha]
    by_cases hseen : a ∈ seen
    · simp [hseen, List.idxOf_append_of_mem hseen]
    · simp [hseen, hab]

theorem numberFrom_eq_of_numbersOf {seen : List Nat} {names : List (Option Nat)} {bs : List Nat}
    (h : NumbersOf seen names) (hbs : ∀ b ∈ bs, b < names.length) :
    numberFrom names seen.length bs = bs.map (seen ++ fresh seen bs).idxOf := by
  induction bs generalizing seen names with
  | nil => rfl
  | cons b bs ih =>
    have hb := h b (hbs b (List.mem_cons_self ..))
    have htail : ∀ a ∈ bs, a < names.length := fun a ha => hbs a (List.mem_cons_of_mem b ha)
    unfold numberFrom
    rw [hb, append_fresh_cons, List.map_cons]
    by_cases hseen : b ∈ seen
    · have hfresh : fresh seen [b] = [] := by simp [fresh, hseen]
      simp only [if_pos hseen, Option.join_some, hfresh, List.append_nil, ih h htail,
        List.idxOf_append_of_mem hseen]
    · have hfresh : fresh seen [b] = [b] := by simp [fresh, hseen]
      have hnext := ih (h.set hseen) fun a ha => by
        rw [List.length_set]
        exact htail a ha
      have hlast : (seen ++ [b]).idxOf b = seen.length := by
        simp [List.idxOf_append_of_notMem hseen]
      have hplace : (seen ++ [b] ++ fresh (seen ++ [b]) bs).idxOf b = seen.length := by
        rw [List.idxOf_append_of_mem (by simp), hlast]
      rw [List.length_append, List.length_singleton] at hnext
      simp only [if_neg hseen, Option.join_some, hfresh, hplace, hnext]

/-- **One pass numbers by first occurrence.** -/
theorem numberFrom_eq {bs : List Nat} {n : Nat} (hbs : ∀ b ∈ bs, b < n) :
    numberFrom (List.replicate n none) 0 bs = bs.map (fresh [] bs).idxOf := by
  have hnone : NumbersOf [] (List.replicate n none) := by
    intro b hb
    rw [List.length_replicate] at hb
    simp [hb]
  apply numberFrom_eq_of_numbersOf hnone
  simpa using hbs

end SymbolAutomata
