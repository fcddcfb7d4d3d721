/-
  SymbolAutomata/Ascending.lean
  =============================
  **Lists in order.**

  `arrange` sorts a list; elements that neither precedes the other keep their
  order. `ascending` writes a finite set of numbers as the one list that is
  strictly increasing (`eq_of_sorted`). `fresh` keeps the first occurrence of
  every element.
-/

namespace SymbolAutomata

/-- The list in the order of `le`. -/
abbrev arrange {α : Type} (le : α → α → Bool) (xs : List α) : List α := xs.mergeSort le

/-! ### Sets of numbers -/

/-- Puts a number in its place, unless it is there already. -/
def insertAscending (n : Nat) : List Nat → List Nat
  | [] => [n]
  | m :: ms =>
    if n < m then n :: m :: ms else if n = m then m :: ms else m :: insertAscending n ms

/-- The numbers of a list in strictly increasing order. -/
def ascending : List Nat → List Nat
  | [] => []
  | n :: ns => insertAscending n (ascending ns)

@[simp] theorem mem_insertAscending {k n : Nat} {ms : List Nat} :
    k ∈ insertAscending n ms ↔ k = n ∨ k ∈ ms := by
  induction ms with
  | nil => simp [insertAscending]
  | cons m ms ih =>
    unfold insertAscending
    split
    · simp
    · split
      · next h => simp [h]
      · simp only [List.mem_cons, ih]
        exact or_left_comm

@[simp] theorem mem_ascending {k : Nat} {ns : List Nat} : k ∈ ascending ns ↔ k ∈ ns := by
  induction ns with
  | nil => simp [ascending]
  | cons n ns ih => simp [ascending, ih]

theorem insertAscending_sorted (n : Nat) {ms : List Nat} (h : ms.Pairwise (· < ·)) :
    (insertAscending n ms).Pairwise (· < ·) := by
  induction ms with
  | nil => simp [insertAscending]
  | cons m ms ih =>
    obtain ⟨hm, hms⟩ := List.pairwise_cons.1 h
    unfold insertAscending
    split
    · next hlt =>
      refine List.pairwise_cons.2 ⟨fun k hk => ?_, h⟩
      rcases List.mem_cons.1 hk with rfl | hk
      · exact hlt
      · exact Nat.lt_trans hlt (hm k hk)
    · split
      · exact h
      · refine List.pairwise_cons.2 ⟨fun k hk => ?_, ih hms⟩
        rcases mem_insertAscending.1 hk with rfl | hk
        · omega
        · exact hm k hk

theorem ascending_sorted (ns : List Nat) : (ascending ns).Pairwise (· < ·) := by
  induction ns with
  | nil => exact List.Pairwise.nil
  | cons n ns ih => exact insertAscending_sorted n ih

theorem eq_of_sorted {ms ns : List Nat} (hm : ms.Pairwise (· < ·)) (hn : ns.Pairwise (· < ·))
    (same : ∀ k, k ∈ ms ↔ k ∈ ns) : ms = ns :=
  ((List.perm_ext_iff_of_nodup (hm.imp Nat.ne_of_lt) (hn.imp Nat.ne_of_lt)).2 same).eq_of_pairwise
    (fun _ _ _ _ => Nat.le_antisymm) (hm.imp Nat.le_of_lt) (hn.imp Nat.le_of_lt)

/-! ### First occurrences -/

def fresh {α : Type} [DecidableEq α] (seen : List α) : List α → List α
  | [] => []
  | x :: xs => if x ∈ seen then fresh seen xs else x :: fresh (x :: seen) xs

theorem mem_fresh {α : Type} [DecidableEq α] {seen xs : List α} {x : α} :
    x ∈ fresh seen xs ↔ x ∈ xs ∧ x ∉ seen := by
  induction xs generalizing seen with
  | nil => simp [fresh]
  | cons y ys ih =>
    unfold fresh
    split
    · next hy =>
      rw [ih, List.mem_cons]
      constructor
      · exact fun h => ⟨Or.inr h.1, h.2⟩
      · rintro ⟨rfl | h, hn⟩
        · exact absurd hy hn
        · exact ⟨h, hn⟩
    · next hy =>
      simp only [List.mem_cons, ih, not_or]
      constructor
      · rintro (rfl | ⟨h, _, hn⟩)
        · exact ⟨Or.inl rfl, hy⟩
        · exact ⟨Or.inr h, hn⟩
      · rintro ⟨rfl | h, hn⟩
        · exact Or.inl rfl
        · by_cases hxy : x = y
          · exact Or.inl hxy
          · exact Or.inr ⟨h, hxy, hn⟩

theorem fresh_nodup {α : Type} [DecidableEq α] (seen xs : List α) : (fresh seen xs).Nodup := by
  induction xs generalizing seen with
  | nil => exact List.nodup_nil
  | cons y ys ih =>
    unfold fresh
    split
    · exact ih seen
    · exact List.nodup_cons.2 ⟨fun h => (mem_fresh.1 h).2 (List.mem_cons_self ..), ih _⟩

/-- What is new goes behind what has been seen without repeating any of it. -/
theorem nodup_append_fresh {α : Type} [DecidableEq α] {seen : List α} (h : seen.Nodup)
    (xs : List α) : (seen ++ fresh seen xs).Nodup := by
  refine List.nodup_append.2 ⟨h, fresh_nodup _ _, ?_⟩
  rintro a ha b hb rfl
  exact (mem_fresh.1 hb).2 ha

end SymbolAutomata
