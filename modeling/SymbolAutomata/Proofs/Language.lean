/-
  SymbolAutomata/Proofs/Language.lean
  ===================================
  **Languages**: repetition with a choice of counts, restriction to some letters,
  and renaming of letters.

  `repeated L permitted` holds the words made of a permitted number of factors from
  `L`; every kind of repetition is an instance.  `clip` keeps the words whose
  letters are all allowed and `comap` reads words through a renaming.  Both commute
  with union, concatenation and repetition.
-/
import Mathlib.Computability.Language

namespace SymbolAutomata

open Computability

variable {α β : Type} {L M : Language α} {w : List α}

/-! ### Repetition -/

/-- **Words made of a permitted number of factors.** -/
def repeated (L : Language α) (permitted : Nat → Prop) : Language α :=
  {w | ∃ ws : List (List α), permitted ws.length ∧ (∀ v ∈ ws, v ∈ L) ∧ w = ws.flatten}

theorem mem_repeated {permitted : Nat → Prop} :
    w ∈ repeated L permitted ↔ ∃ k, permitted k ∧ w ∈ L ^ k := by
  constructor
  · intro h
    rcases h with ⟨ws, hlength, hmem, rfl⟩
    exact ⟨ws.length, hlength, Language.mem_pow.2 ⟨ws, rfl, rfl, hmem⟩⟩
  · intro h
    rcases h with ⟨k, hk, hw⟩
    obtain ⟨ws, rfl, rfl, hmem⟩ := Language.mem_pow.1 hw
    exact ⟨ws, hk, hmem, rfl⟩

theorem kstar_eq_repeated (L : Language α) : L∗ = repeated L fun _ => True := by
  ext w
  rw [Language.kstar_eq_iSup_pow, Language.mem_iSup, mem_repeated]
  simp only [true_and]

theorem pow_mul_kstar (L : Language α) (least : Nat) :
    L ^ least * L∗ = repeated L (least ≤ ·) := by
  ext w
  rw [Language.kstar_eq_iSup_pow, Language.mul_iSup, Language.mem_iSup, mem_repeated]
  simp only [← pow_add]
  constructor
  · intro h
    rcases h with ⟨k, hw⟩
    exact ⟨least + k, Nat.le_add_right _ _, hw⟩
  · intro h
    rcases h with ⟨k, hk, hw⟩
    refine ⟨k - least, ?_⟩
    rwa [Nat.add_sub_of_le hk]

theorem mem_optional_pow {k : Nat} : w ∈ (L + 1) ^ k ↔ ∃ j, j ≤ k ∧ w ∈ L ^ j := by
  induction k generalizing w with
  | zero =>
    rw [pow_zero]
    constructor
    · intro hw
      exact ⟨0, Nat.le_refl 0, hw⟩
    · intro h
      rcases h with ⟨j, hj, hw⟩
      rwa [Nat.le_zero.1 hj, pow_zero] at hw
  | succ k ih =>
    rw [pow_succ, mul_add, mul_one, Language.mem_add, ih]
    constructor
    · intro h
      rcases h with hw | ⟨j, hj, hw⟩
      · obtain ⟨u, hu, v, hv, rfl⟩ := Language.mem_mul.1 hw
        obtain ⟨j, hj, hu⟩ := ih.1 hu
        refine ⟨j + 1, Nat.succ_le_succ hj, ?_⟩
        rw [pow_succ]
        exact Language.append_mem_mul hu hv
      · exact ⟨j, Nat.le_succ_of_le hj, hw⟩
    · intro h
      rcases h with ⟨j, hj, hw⟩
      rcases Nat.lt_or_ge k j with hlt | hle
      · -- all factors are there
        obtain rfl : j = k + 1 := Nat.le_antisymm hj hlt
        rw [pow_succ] at hw
        obtain ⟨u, hu, v, hv, rfl⟩ := Language.mem_mul.1 hw
        exact Or.inl (Language.append_mem_mul (ih.2 ⟨k, Nat.le_refl k, hu⟩) hv)
      · exact Or.inr ⟨j, hle, hw⟩

/-- A number of factors and then some that may be left out. -/
theorem pow_mul_optional_pow (L : Language α) {least most : Nat} (h : least ≤ most) :
    L ^ least * (L + 1) ^ (most - least) = repeated L fun k => least ≤ k ∧ k ≤ most := by
  ext w
  rw [Language.mem_mul, mem_repeated]
  constructor
  · intro hfound
    rcases hfound with ⟨u, hu, v, hv, rfl⟩
    obtain ⟨j, hj, hv⟩ := mem_optional_pow.1 hv
    refine ⟨least + j, ⟨Nat.le_add_right _ _, by omega⟩, ?_⟩
    rw [pow_add]
    exact Language.append_mem_mul hu hv
  · intro hfound
    rcases hfound with ⟨k, ⟨hleast, hmost⟩, hw⟩
    rw [← Nat.add_sub_of_le hleast, pow_add] at hw
    obtain ⟨u, hu, v, hv, rfl⟩ := Language.mem_mul.1 hw
    exact ⟨u, hu, v, mem_optional_pow.2 ⟨k - least, by omega, hv⟩, rfl⟩

theorem repeated_eq_zero (L : Language α) {permitted : Nat → Prop} (h : ∀ k, ¬ permitted k) :
    repeated L permitted = 0 := by
  ext w
  rw [mem_repeated]
  constructor
  · intro hfound
    rcases hfound with ⟨k, hk, -⟩
    exact absurd hk (h k)
  · intro hw
    exact absurd hw (Language.notMem_zero w)

/-- Factors out of nothing spell the empty word, if none is a permitted number of them. -/
theorem mem_repeated_zero {permitted : Nat → Prop} :
    w ∈ repeated (0 : Language α) permitted ↔ w = [] ∧ permitted 0 := by
  rw [mem_repeated]
  constructor
  · rintro ⟨k, hk, hw⟩
    cases k with
    | zero =>
      rw [pow_zero, Language.mem_one] at hw
      exact ⟨hw, hk⟩
    | succ k =>
      rw [pow_succ, mul_zero] at hw
      exact absurd hw (Language.notMem_zero w)
  · rintro ⟨rfl, hzero⟩
    exact ⟨0, hzero, by rw [pow_zero]; exact Language.nil_mem_one⟩

/-! ### Small languages, common words -/

/-- **The words of one letter**, which is allowed. -/
def letters (allowed : α → Prop) : Language α := {w | ∃ c, allowed c ∧ w = [c]}

theorem mem_letters {allowed : α → Prop} : w ∈ letters allowed ↔ ∃ c, allowed c ∧ w = [c] :=
  Iff.rfl

/-- The language of one word. -/
def only (v : List α) : Language α := {w | w = v}

theorem mem_only {v : List α} : w ∈ only v ↔ w = v := Iff.rfl

theorem only_cons (c : α) (v : List α) : only (c :: v) = letters (· = c) * only v := by
  ext w
  rw [mem_only, Language.mem_mul]
  constructor
  · rintro rfl
    exact ⟨[c], ⟨c, rfl, rfl⟩, v, rfl, rfl⟩
  · intro h
    rcases h with ⟨u, ⟨d, rfl, rfl⟩, v', rfl, rfl⟩
    rfl

/-- The words of both languages. -/
def both (L M : Language α) : Language α := {w | w ∈ L ∧ w ∈ M}

theorem mem_both : w ∈ both L M ↔ w ∈ L ∧ w ∈ M := Iff.rfl

theorem both_comm (L M : Language α) : both L M = both M L := by
  ext w
  exact and_comm

theorem both_zero (L : Language α) : both 0 L = 0 := by
  ext w
  exact ⟨And.left, fun h => absurd h (Language.notMem_zero w)⟩

/-! ### Restriction to some letters -/

/-- **The words whose letters are all allowed.** -/
def clip (allowed : α → Prop) (L : Language α) : Language α := {w | w ∈ L ∧ ∀ c ∈ w, allowed c}

theorem mem_clip {allowed : α → Prop} : w ∈ clip allowed L ↔ w ∈ L ∧ ∀ c ∈ w, allowed c := Iff.rfl

section Clip

variable (allowed : α → Prop)

theorem clip_zero : clip allowed (0 : Language α) = 0 := by
  ext w
  rw [mem_clip]
  exact ⟨fun h => h.1, fun h => absurd h (Language.notMem_zero w)⟩

theorem clip_one : clip allowed (1 : Language α) = 1 := by
  ext w
  rw [mem_clip, Language.mem_one]
  constructor
  · exact And.left
  · rintro rfl
    exact ⟨rfl, fun c hc => absurd hc List.not_mem_nil⟩

theorem clip_add (L M : Language α) : clip allowed (L + M) = clip allowed L + clip allowed M := by
  ext w
  simp only [mem_clip, Language.mem_add, or_and_right]

theorem clip_mul (L M : Language α) : clip allowed (L * M) = clip allowed L * clip allowed M := by
  ext w
  simp only [mem_clip, Language.mem_mul]
  constructor
  · intro h
    rcases h with ⟨⟨u, hu, v, hv, rfl⟩, hall⟩
    rw [List.forall_mem_append] at hall
    exact ⟨u, ⟨hu, hall.1⟩, v, ⟨hv, hall.2⟩, rfl⟩
  · intro h
    rcases h with ⟨u, ⟨hu, hallu⟩, v, ⟨hv, hallv⟩, rfl⟩
    exact ⟨⟨u, hu, v, hv, rfl⟩, List.forall_mem_append.2 ⟨hallu, hallv⟩⟩

theorem clip_pow (L : Language α) (k : Nat) : clip allowed (L ^ k) = clip allowed L ^ k := by
  induction k with
  | zero => rw [pow_zero, pow_zero, clip_one]
  | succ k ih => rw [pow_succ, pow_succ, clip_mul, ih]

theorem clip_letters (some : α → Prop) :
    clip allowed (letters some) = letters fun c => some c ∧ allowed c := by
  ext w
  rw [mem_clip, mem_letters, mem_letters]
  constructor
  · intro h
    rcases h with ⟨⟨c, hc, rfl⟩, hall⟩
    exact ⟨c, ⟨hc, hall c (List.mem_singleton_self c)⟩, rfl⟩
  · intro h
    rcases h with ⟨c, ⟨hc, hallowed⟩, rfl⟩
    exact ⟨⟨c, hc, rfl⟩, List.forall_mem_singleton.2 hallowed⟩

theorem clip_repeated (L : Language α) (permitted : Nat → Prop) :
    clip allowed (repeated L permitted) = repeated (clip allowed L) permitted := by
  ext w
  simp only [mem_repeated, ← clip_pow]
  rw [mem_clip, mem_repeated]
  constructor
  · intro h
    rcases h with ⟨⟨k, hk, hw⟩, hall⟩
    exact ⟨k, hk, hw, hall⟩
  · intro h
    rcases h with ⟨k, hk, hw, hall⟩
    exact ⟨⟨k, hk, hw⟩, hall⟩

end Clip

/-! ### Renaming of letters -/

/-- **The words that a renaming takes into the language.** -/
def comap (f : α → β) (L : Language β) : Language α := {w | w.map f ∈ L}

theorem mem_comap {f : α → β} {L : Language β} : w ∈ comap f L ↔ w.map f ∈ L := Iff.rfl

section Comap

variable (f : α → β)

theorem comap_add (L M : Language β) : comap f (L + M) = comap f L + comap f M := rfl

theorem comap_both (L M : Language β) : comap f (both L M) = both (comap f L) (comap f M) := rfl

theorem comap_one : comap f (1 : Language β) = 1 := by
  ext w
  rw [mem_comap, Language.mem_one, Language.mem_one, List.map_eq_nil_iff]

theorem comap_mul (L M : Language β) : comap f (L * M) = comap f L * comap f M := by
  ext w
  rw [mem_comap, Language.mem_mul, Language.mem_mul]
  constructor
  · intro h
    rcases h with ⟨u, hu, v, hv, heq⟩
    obtain ⟨u', v', rfl, rfl, rfl⟩ := List.map_eq_append_iff.1 heq.symm
    exact ⟨u', hu, v', hv, rfl⟩
  · intro h
    rcases h with ⟨u, hu, v, hv, rfl⟩
    exact ⟨u.map f, hu, v.map f, hv, List.map_append.symm⟩

theorem comap_pow (L : Language β) (k : Nat) : comap f (L ^ k) = comap f L ^ k := by
  induction k with
  | zero => rw [pow_zero, pow_zero, comap_one]
  | succ k ih => rw [pow_succ, pow_succ, comap_mul, ih]

theorem comap_repeated (L : Language β) (permitted : Nat → Prop) :
    comap f (repeated L permitted) = repeated (comap f L) permitted := by
  ext w
  simp only [mem_repeated, ← comap_pow]
  rw [mem_comap, mem_repeated]
  rfl

end Comap

end SymbolAutomata
