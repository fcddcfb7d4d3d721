/-
  SymbolAutomata/Proofs/Search.lean
  =================================
  **The order in which a search finds things.**

  A search lists its start first and keeps the order of discovery
  (`explore_prefix`), so the position of an item is a number for it
  (`getElem?_eq_some_iff_idxOf`).  Two searches whose successors correspond one to
  one find corresponding items in the same order (`explore_forall₂`): the numbers
  depend on the shape of what is searched and not on the items themselves.
-/
import Mathlib.Data.List.Forall2
import SymbolAutomata.Graph.Search

namespace SymbolAutomata

/-! ### Positions -/

theorem explore_prefix {α : Type} [DecidableEq α] {next : α → List α} {fuel : Nat}
    {done queue : List α} : done ++ queue <+: explore next fuel done queue := by
  induction fuel generalizing done queue with
  | zero => exact List.prefix_refl _
  | succ fuel ih =>
    cases queue with
    | nil => simp [explore]
    | cons x queue =>
      refine List.IsPrefix.trans ?_ ih
      refine ⟨fresh (done ++ x :: queue) (next x), ?_⟩
      simp

theorem explore_head? {α : Type} [DecidableEq α] {next : α → List α} {fuel : Nat} {x : α} :
    (explore next fuel [] [x])[0]? = some x := by
  have hprefix : [] ++ [x] <+: explore next fuel [] [x] := explore_prefix
  obtain ⟨rest, hrest⟩ := hprefix
  rw [← hrest]
  rfl

theorem Drains.isPrefix {α : Type} [DecidableEq α] {next : α → List α} {done queue found : List α}
    (h : Drains next done queue found) : done ++ queue <+: found := by
  induction h with
  | idle done => simp
  | visit _ ih =>
    rw [visit_append] at ih
    exact (List.prefix_append _ _).trans ih

theorem idxOf_eq_of_isPrefix {α : Type} [BEq α] [LawfulBEq α] {xs ys : List α} (h : xs <+: ys)
    {x : α} (hx : x ∈ xs) : ys.idxOf x = xs.idxOf x := by
  obtain ⟨rest, rfl⟩ := h
  exact List.idxOf_append_of_mem hx

theorem getElem?_eq_some_iff_idxOf {α : Type} [BEq α] [LawfulBEq α] {xs : List α} (hxs : xs.Nodup)
    {n : Nat} {x : α} : xs[n]? = some x ↔ x ∈ xs ∧ xs.idxOf x = n := by
  constructor
  · intro h
    obtain ⟨hn, rfl⟩ := List.getElem?_eq_some_iff.1 h
    exact ⟨List.getElem_mem hn, hxs.idxOf_getElem n hn⟩
  · intro hfound
    rcases hfound with ⟨hx, rfl⟩
    exact List.getElem?_idxOf hx

theorem map_idxOf_self {α : Type} [BEq α] [LawfulBEq α] {xs : List α} (hxs : xs.Nodup) :
    xs.map xs.idxOf = List.range xs.length := by
  apply List.ext_getElem
  · rw [List.length_map, List.length_range]
  · intro n h₁ h₂
    rw [List.getElem_map, List.getElem_range]
    exact hxs.idxOf_getElem n _

theorem mem_append_fresh {α : Type} [DecidableEq α] {seen xs : List α} {x : α} :
    x ∈ seen ++ fresh seen xs ↔ x ∈ seen ∨ x ∈ xs := by
  rw [List.mem_append, mem_fresh, or_and_left, and_iff_left (Decidable.em _)]

/-- What has been seen is a set. -/
theorem fresh_congr {α : Type} [DecidableEq α] {seen seen' : List α}
    (h : ∀ x, x ∈ seen ↔ x ∈ seen') (xs : List α) : fresh seen xs = fresh seen' xs := by
  induction xs generalizing seen seen' with
  | nil => rfl
  | cons x xs ih =>
    have hnext : ∀ y, y ∈ x :: seen ↔ y ∈ x :: seen' := by
      intro y
      rw [List.mem_cons, List.mem_cons, h]
    rw [fresh, fresh, ih h, ih hnext]
    simp only [h]

/-- **New items one by one**: the first of the list is seen when the others are looked at. -/
theorem fresh_cons {α : Type} [DecidableEq α] (seen : List α) (x : α) (xs : List α) :
    fresh seen (x :: xs) = fresh seen [x] ++ fresh (seen ++ fresh seen [x]) xs := by
  by_cases hx : x ∈ seen
  · simp only [fresh, if_pos hx, List.nil_append, List.append_nil]
  · have hsame : ∀ y, y ∈ x :: seen ↔ y ∈ seen ++ [x] := by
      intro y
      rw [List.mem_cons, List.mem_append, List.mem_singleton, or_comm]
    simp only [fresh, if_neg hx, List.cons_append, List.nil_append, fresh_congr hsame]

theorem append_fresh_cons {α : Type} [DecidableEq α] (seen : List α) (x : α) (xs : List α) :
    seen ++ fresh seen (x :: xs) =
      seen ++ fresh seen [x] ++ fresh (seen ++ fresh seen [x]) xs := by
  rw [fresh_cons, List.append_assoc]

/-- Items renamed one to one are renamed where they occur first. -/
theorem fresh_map {α β : Type} [DecidableEq α] [DecidableEq β] {f : α → β} (seen : List α)
    {xs : List α} (hf : ∀ a ∈ xs, ∀ b ∈ xs ++ seen, f a = f b → a = b) :
    fresh (seen.map f) (xs.map f) = (fresh seen xs).map f := by
  induction xs generalizing seen with
  | nil => rfl
  | cons x xs ih =>
    have hmem : f x ∈ seen.map f ↔ x ∈ seen := by
      rw [List.mem_map]
      constructor
      · intro hfound
        rcases hfound with ⟨a, ha, hfa⟩
        rwa [hf x (List.mem_cons_self ..) a (List.mem_append_right _ ha) hfa.symm]
      · exact fun hx => ⟨x, hx, rfl⟩
    rw [List.map_cons, fresh, fresh]
    by_cases hx : x ∈ seen
    · rw [if_pos hx, if_pos (hmem.2 hx)]
      apply ih
      intro a ha b hb
      exact hf a (List.mem_cons_of_mem _ ha) b (List.mem_cons_of_mem _ hb)
    · rw [if_neg hx, if_neg fun h => hx (hmem.1 h), List.map_cons]
      congr 1
      apply ih (x :: seen)
      intro a ha b hb
      refine hf a (List.mem_cons_of_mem _ ha) b ?_
      simp only [List.cons_append, List.mem_append, List.mem_cons] at hb ⊢
      rcases hb with hb | rfl | hb
      · exact Or.inr (Or.inl hb)
      · exact Or.inl rfl
      · exact Or.inr (Or.inr hb)

theorem mem_map_fst_iff {α β : Type} {names : List (α × β)} {a : α} :
    a ∈ names.map (·.1) ↔ ∃ b, (a, b) ∈ names := by simp

theorem mem_map_snd_iff {α β : Type} {names : List (α × β)} {b : β} :
    b ∈ names.map (·.2) ↔ ∃ a, (a, b) ∈ names := by simp

/-- In a list of names each item is named once, so looking a name up is finding it. -/
theorem lookup_eq_some_iff {α β : Type} [BEq α] [LawfulBEq α] {names : List (α × β)}
    (hkeys : (names.map (·.1)).Nodup) {a : α} {b : β} :
    names.lookup a = some b ↔ (a, b) ∈ names := by
  induction names with
  | nil => simp
  | cons e names ih =>
    obtain ⟨k, v⟩ := e
    rw [List.map_cons, List.nodup_cons] at hkeys
    rw [List.lookup_cons, List.mem_cons, Prod.mk.injEq]
    by_cases hk : a = k
    · subst hk
      have habsent : (a, b) ∉ names := fun h => hkeys.1 (mem_map_fst_iff.2 ⟨b, h⟩)
      simp only [BEq.rfl, Option.some.injEq, true_and, habsent, or_false]
      exact eq_comm
    · have hne : (a == k) = false := by simpa using hk
      simp only [hne, hk, false_and, false_or]
      exact ih hkeys.2

/-- **A table that numbers a list** knows the position of each item. -/
theorem lookup_zipIdx {α : Type} [BEq α] [LawfulBEq α] {xs : List α} (hxs : xs.Nodup) {n : Nat}
    {x : α} : xs.zipIdx.lookup x = some n ↔ xs[n]? = some x := by
  have hkeys : (xs.zipIdx.map (·.1)).Nodup := by rwa [List.zipIdx_map_fst]
  rw [lookup_eq_some_iff hkeys, List.mem_zipIdx_iff_getElem?]

/-! ### Corresponding searches -/

section Correspondence

variable {α β : Type} {R : α → β → Prop} (one : ∀ {a a' b b'}, R a b → R a' b' → (a = a' ↔ b = b'))

include one

theorem mem_iff_of_forall₂ {xs : List α} {ys : List β} (h : List.Forall₂ R xs ys) {a : α} {b : β}
    (hab : R a b) : a ∈ xs ↔ b ∈ ys := by
  induction h with
  | nil => simp
  | cons hxy _ ih => rw [List.mem_cons, List.mem_cons, one hab hxy, ih]

variable [DecidableEq α] [DecidableEq β]

theorem fresh_forall₂ {seen xs : List α} {seen' ys : List β} (hseen : List.Forall₂ R seen seen')
    (h : List.Forall₂ R xs ys) : List.Forall₂ R (fresh seen xs) (fresh seen' ys) := by
  induction h generalizing seen seen' with
  | nil => exact .nil
  | @cons x y xs ys hxy _ ih =>
    unfold fresh
    by_cases hx : x ∈ seen
    · rw [if_pos hx, if_pos ((mem_iff_of_forall₂ one hseen hxy).1 hx)]
      exact ih hseen
    · rw [if_neg hx, if_neg fun hy => hx ((mem_iff_of_forall₂ one hseen hxy).2 hy)]
      exact .cons hxy (ih (.cons hxy hseen))

/-- **Corresponding searches find corresponding items in the same order.** -/
theorem explore_forall₂ {next : α → List α} {next' : β → List β}
    (hnext : ∀ {a b}, R a b → List.Forall₂ R (next a) (next' b)) {fuel : Nat} {done queue : List α}
    {done' queue' : List β} (hdone : List.Forall₂ R done done')
    (hqueue : List.Forall₂ R queue queue') :
    List.Forall₂ R (explore next fuel done queue) (explore next' fuel done' queue') := by
  induction fuel generalizing done queue done' queue' with
  | zero => exact List.rel_append hdone hqueue
  | succ fuel ih =>
    cases hqueue with
    | nil => exact hdone
    | cons hxy hqueue =>
      apply ih (List.rel_append hdone (.cons hxy .nil))
      apply List.rel_append hqueue
      exact fresh_forall₂ one (List.rel_append hdone (.cons hxy hqueue)) (hnext hxy)

end Correspondence

theorem length_le_of_partners {α β : Type} {R : α → β → Prop} {xs : List α} {ys : List β}
    (hxs : xs.Nodup) (partner : ∀ x ∈ xs, ∃ y ∈ ys, R x y)
    (one : ∀ {x x' y}, R x y → R x' y → x = x') : xs.length ≤ ys.length := by
  induction xs generalizing ys with
  | nil => exact Nat.zero_le _
  | cons x xs ih =>
    obtain ⟨hx, hxs⟩ := List.nodup_cons.1 hxs
    obtain ⟨y, hy, hxy⟩ := partner x (List.mem_cons_self ..)
    obtain ⟨front, back, rfl⟩ := List.append_of_mem hy
    -- without `y` there is still a partner for each of the others
    have hothers : ∀ z ∈ xs, ∃ u ∈ front ++ back, R z u := by
      intro z hz
      obtain ⟨u, hu, hzu⟩ := partner z (List.mem_cons_of_mem _ hz)
      refine ⟨u, ?_, hzu⟩
      rw [List.mem_append, List.mem_cons] at hu
      rw [List.mem_append]
      rcases hu with hu | rfl | hu
      · exact Or.inl hu
      · exact absurd (one hzu hxy ▸ hz) hx
      · exact Or.inr hu
    have hle := ih hxs hothers
    simp only [List.length_append, List.length_cons] at *
    omega

section Partners

variable {α β : Type} {R : α → β → Prop} {xs : List α} {ys : List β} (hxs : xs.Nodup)
  (partner : ∀ x ∈ xs, ∃ y ∈ ys, R x y) (one : ∀ {x x' y}, R x y → R x' y → x = x')
  (hle : ys.length ≤ xs.length)

include hxs partner one hle

/-- If there are no more partners than needed, each of them is somebody's. -/
theorem exists_of_partners {y : β} (hy : y ∈ ys) : ∃ x ∈ xs, R x y := by
  by_contra hnone
  obtain ⟨front, back, rfl⟩ := List.append_of_mem hy
  have hothers : ∀ x ∈ xs, ∃ z ∈ front ++ back, R x z := by
    intro x hx
    obtain ⟨z, hz, hxz⟩ := partner x hx
    have hne : z ≠ y := by
      rintro rfl
      exact hnone ⟨x, hx, hxz⟩
    refine ⟨z, ?_, hxz⟩
    simpa [hne] using hz
  have hshort := length_le_of_partners hxs hothers one
  simp only [List.length_append, List.length_cons] at *
  omega

/-- If there are no more partners than needed, nobody has two. -/
theorem eq_of_partners {x : α} {y y' : β} (hy : y ∈ ys) (hy' : y' ∈ ys) (h : R x y)
    (h' : R x y') : y = y' := by
  by_contra hne
  obtain ⟨front, back, rfl⟩ := List.append_of_mem hy
  have hkeep : ∀ {z}, z ∈ front ++ y :: back → z ≠ y → z ∈ front ++ back := by
    intro z hz hzy
    simpa [hzy] using hz
  have hothers : ∀ z ∈ xs, ∃ u ∈ front ++ back, R z u := by
    intro z hz
    obtain ⟨u, hu, hzu⟩ := partner z hz
    by_cases huy : u = y
    · -- then `z` is `x`, and takes the other partner
      subst huy
      obtain rfl := one hzu h
      exact ⟨y', hkeep hy' (Ne.symm hne), h'⟩
    · exact ⟨u, hkeep hu huy, hzu⟩
  have hshort := length_le_of_partners hxs hothers one
  simp only [List.length_append, List.length_cons] at *
  omega

end Partners

end SymbolAutomata
