/-
  SymbolAutomata/Proofs/Refinement/Split.lean
  ===========================================
  **Splitting the blocks of a partition.**

  A partition is looked at through two relations: `Together` says that two states
  share a block and `Waits` that the block of a state waits.  A split makes
  fewer states go together, takes no state out of the waiting ones and, where it
  separates two states, lets one of them wait; it makes as many new blocks as it
  lets wait.  `Finer` collects these facts, and they add up over any number of
  splits.

  What a split over a set of states does to one pair is `together_split`; for the
  splits of one round it is `together_splitOver_iff`.
-/
import Mathlib.Data.List.Flatten
import Mathlib.Data.List.GetD
import Mathlib.Data.List.Nodup
import SymbolAutomata.Refinement

namespace SymbolAutomata

namespace Table

namespace Partition

/-! ### Blocks -/

def block (p : Partition) (b : Nat) : List Nat := p.blocks.getD b []

/-- The two states share a block. -/
def Together (p : Partition) (x y : Nat) : Prop := ∃ b, x ∈ p.block b ∧ y ∈ p.block b

/-- The block of the state waits. -/
def Waits (p : Partition) (x : Nat) : Prop := ∃ b ∈ p.waiting, x ∈ p.block b

/-- **The blocks hold each state once**, none is empty, and no number waits twice. -/
structure Valid (p : Partition) (size : Nat) : Prop where
  covers : p.blocks.flatten.Perm (List.range size)
  nonempty : ∀ B ∈ p.blocks, B ≠ []
  waiting_nodup : p.waiting.Nodup
  waiting_lt : ∀ b ∈ p.waiting, b < p.blocks.length

theorem lt_length_of_mem_block {p : Partition} {b x : Nat} (hx : x ∈ p.block b) :
    b < p.blocks.length := by
  by_contra hb
  rw [block, List.getD_eq_default _ _ (Nat.le_of_not_lt hb)] at hx
  cases hx

theorem block_eq_getElem {p : Partition} {b : Nat} (hb : b < p.blocks.length) :
    p.block b = p.blocks[b] := List.getD_eq_getElem _ _ hb

theorem exists_mem_block_iff {p : Partition} {x : Nat} :
    (∃ b, x ∈ p.block b) ↔ x ∈ p.blocks.flatten := by
  rw [List.mem_flatten]
  constructor
  · intro h
    rcases h with ⟨b, hx⟩
    have hb := lt_length_of_mem_block hx
    rw [block_eq_getElem hb] at hx
    exact ⟨_, List.getElem_mem hb, hx⟩
  · intro h
    rcases h with ⟨B, hB, hx⟩
    obtain ⟨b, hb, rfl⟩ := List.getElem_of_mem hB
    exact ⟨b, by rwa [block_eq_getElem hb]⟩

theorem together_iff_exists_mem {p : Partition} {x y : Nat} :
    p.Together x y ↔ ∃ B ∈ p.blocks, x ∈ B ∧ y ∈ B := by
  constructor
  · intro h
    rcases h with ⟨b, hx, hy⟩
    have hb := lt_length_of_mem_block hx
    rw [block_eq_getElem hb] at hx hy
    exact ⟨_, List.getElem_mem hb, hx, hy⟩
  · intro h
    rcases h with ⟨B, hB, hx, hy⟩
    obtain ⟨b, hb, rfl⟩ := List.getElem_of_mem hB
    exact ⟨b, by rwa [block_eq_getElem hb], by rwa [block_eq_getElem hb]⟩

theorem Together.symm {p : Partition} {x y : Nat} (h : p.Together x y) : p.Together y x := by
  obtain ⟨b, hx, hy⟩ := h
  exact ⟨b, hy, hx⟩

section Valid

variable {p : Partition} {size : Nat} (hp : p.Valid size)

include hp

theorem Valid.exists_block_iff {x : Nat} : (∃ b, x ∈ p.block b) ↔ x < size := by
  rw [exists_mem_block_iff, hp.covers.mem_iff, List.mem_range]

theorem Valid.nodup_block (b : Nat) : (p.block b).Nodup := by
  by_cases hb : b < p.blocks.length
  · have hflatten : p.blocks.flatten.Nodup := hp.covers.nodup_iff.2 List.nodup_range
    rw [block_eq_getElem hb]
    exact (List.nodup_flatten.1 hflatten).1 _ (List.getElem_mem hb)
  · have hnil : p.block b = [] := List.getD_eq_default _ _ (Nat.le_of_not_lt hb)
    rw [hnil]
    exact List.nodup_nil

theorem Valid.block_unique {x a b : Nat} (ha : x ∈ p.block a) (hb : x ∈ p.block b) : a = b := by
  have hnodup : p.blocks.flatten.Nodup := hp.covers.nodup_iff.2 List.nodup_range
  have hdisjoint := List.pairwise_iff_getElem.1 (List.nodup_flatten.1 hnodup).2
  have hla := lt_length_of_mem_block ha
  have hlb := lt_length_of_mem_block hb
  rw [block_eq_getElem hla] at ha
  rw [block_eq_getElem hlb] at hb
  rcases Nat.lt_trichotomy a b with hlt | heq | hgt
  · exact absurd hb (hdisjoint a b hla hlb hlt ha)
  · exact heq
  · exact absurd ha (hdisjoint b a hlb hla hgt hb)

theorem Valid.together_of_mem {x y b : Nat} (h : p.Together x y) (hx : x ∈ p.block b) :
    y ∈ p.block b := by
  obtain ⟨a, hxa, hya⟩ := h
  rwa [hp.block_unique hx hxa]

theorem Valid.blockOf_eq {x b : Nat} (hx : x ∈ p.block b) : p.blockOf x = b := by
  have hb := lt_length_of_mem_block hx
  rw [blockOf, List.findIdx_eq hb]
  refine ⟨?_, ?_⟩
  · rw [block_eq_getElem hb] at hx
    simpa using hx
  · intro a hab
    rw [decide_eq_false_iff_not]
    intro ha
    rw [← block_eq_getElem (Nat.lt_trans hab hb)] at ha
    exact absurd (hp.block_unique ha hx) (Nat.ne_of_lt hab)

theorem Valid.mem_block_blockOf {x : Nat} (hx : x < size) : x ∈ p.block (p.blockOf x) := by
  obtain ⟨b, hb⟩ := hp.exists_block_iff.2 hx
  rwa [hp.blockOf_eq hb]

theorem Valid.together_iff_blockOf {x y : Nat} (hx : x < size) (hy : y < size) :
    p.Together x y ↔ p.blockOf x = p.blockOf y := by
  constructor
  · intro hfound
    rcases hfound with ⟨b, hxb, hyb⟩
    rw [hp.blockOf_eq hxb, hp.blockOf_eq hyb]
  · intro h
    exact ⟨p.blockOf x, hp.mem_block_blockOf hx, h ▸ hp.mem_block_blockOf hy⟩

theorem Valid.lt_of_together {x y : Nat} (h : p.Together x y) : x < size := by
  obtain ⟨b, hx, -⟩ := h
  exact hp.exists_block_iff.1 ⟨b, hx⟩

theorem Valid.length_blocks_le : p.blocks.length ≤ size := by
  have hsum : ∀ bs : List (List Nat), (∀ B ∈ bs, B ≠ []) → bs.length ≤ bs.flatten.length := by
    intro bs
    induction bs with
    | nil => exact fun _ => Nat.le_refl _
    | cons B bs ih =>
      intro hne
      have hpos := List.length_pos_of_ne_nil (hne B (List.mem_cons_self ..))
      have hle := ih fun C hC => hne C (List.mem_cons_of_mem _ hC)
      rw [List.flatten_cons, List.length_append, List.length_cons]
      omega
  have hle := hsum p.blocks hp.nonempty
  rwa [hp.covers.length_eq, List.length_range] at hle

end Valid

/-- Taking the first waiting block off leaves a valid partition. -/
theorem Valid.taken {p : Partition} {size b : Nat} {rest : List Nat} (hp : p.Valid size)
    (hwaiting : p.waiting = b :: rest) : ({ p with waiting := rest } : Partition).Valid size := by
  have hnodup := hp.waiting_nodup
  have hlt := hp.waiting_lt
  rw [hwaiting] at hnodup hlt
  exact ⟨hp.covers, hp.nonempty, (List.nodup_cons.1 hnodup).2,
    fun a ha => hlt a (List.mem_cons_of_mem _ ha)⟩

/-! ### One split -/

/-- The members of block `b` among `hits`. -/
def kept (p : Partition) (hits : List Nat) (b : Nat) : List Nat :=
  (p.block b).filter hits.contains

/-- The other members of block `b`. -/
def moved (p : Partition) (hits : List Nat) (b : Nat) : List Nat :=
  (p.block b).filter (!hits.contains ·)

theorem mem_kept {p : Partition} {hits : List Nat} {b x : Nat} :
    x ∈ p.kept hits b ↔ x ∈ p.block b ∧ x ∈ hits := by
  rw [kept, List.mem_filter, List.contains_iff_mem]

theorem mem_moved {p : Partition} {hits : List Nat} {b x : Nat} :
    x ∈ p.moved hits b ↔ x ∈ p.block b ∧ x ∉ hits := by
  rw [moved, List.mem_filter, Bool.not_eq_true', ← Bool.not_eq_true, List.contains_iff_mem]

theorem split_of_pure {p : Partition} {hits : List Nat} {b : Nat}
    (h : p.kept hits b = [] ∨ p.moved hits b = []) : p.split hits b = p := by
  have hguard : ((p.kept hits b).isEmpty || (p.moved hits b).isEmpty) = true := by
    rw [Bool.or_eq_true, List.isEmpty_iff, List.isEmpty_iff]
    exact h
  exact if_pos hguard

/-- The number that a split lets wait. -/
def wakes (p : Partition) (hits : List Nat) (b : Nat) : Nat :=
  if p.waiting.contains b || (p.moved hits b).length ≤ (p.kept hits b).length
  then p.blocks.length else b

theorem split_of_mixed {p : Partition} {hits : List Nat} {b : Nat}
    (hkept : p.kept hits b ≠ []) (hmoved : p.moved hits b ≠ []) :
    p.split hits b = ⟨p.blocks.set b (p.kept hits b) ++ [p.moved hits b],
      p.wakes hits b :: p.waiting⟩ := by
  have hguard : ¬ ((p.kept hits b).isEmpty || (p.moved hits b).isEmpty) = true := by
    rw [Bool.or_eq_true, List.isEmpty_iff, List.isEmpty_iff, not_or]
    exact ⟨hkept, hmoved⟩
  exact if_neg hguard

theorem lt_length_of_kept {p : Partition} {hits : List Nat} {b : Nat}
    (hkept : p.kept hits b ≠ []) : b < p.blocks.length := by
  obtain ⟨x, hx⟩ := List.exists_mem_of_ne_nil _ hkept
  exact lt_length_of_mem_block (mem_kept.1 hx).1

theorem block_split {p : Partition} {hits : List Nat} {b : Nat} (hkept : p.kept hits b ≠ [])
    (hmoved : p.moved hits b ≠ []) (a : Nat) :
    (p.split hits b).block a = if a = b then p.kept hits b
      else if a = p.blocks.length then p.moved hits b else p.block a := by
  have hb := lt_length_of_kept hkept
  rw [split_of_mixed hkept hmoved]
  simp only [block, List.getD_eq_getElem?_getD, List.getElem?_append, List.length_set,
    List.getElem?_set]
  by_cases hab : a = b
  · subst hab
    simp [hb]
  · rcases Nat.lt_trichotomy a p.blocks.length with hlt | heq | hgt
    · simp [hab, hlt, Ne.symm hab, Nat.ne_of_lt hlt]
    · subst heq
      simp [hab]
    · have hsub : a - p.blocks.length ≠ 0 := Nat.sub_ne_zero_of_lt hgt
      simp [hab, Nat.lt_asymm hgt, Nat.ne_of_gt hgt, hsub]

theorem block_split_of_ne {p : Partition} {hits : List Nat} {a b : Nat} (ha : a < p.blocks.length)
    (hab : a ≠ b) : (p.split hits b).block a = p.block a := by
  by_cases hkept : p.kept hits b = []
  · rw [split_of_pure (Or.inl hkept)]
  by_cases hmoved : p.moved hits b = []
  · rw [split_of_pure (Or.inr hmoved)]
  rw [block_split hkept hmoved, if_neg hab, if_neg (Nat.ne_of_lt ha)]

theorem mem_block_split_of_ne {p : Partition} {hits : List Nat} {a b x : Nat} (hab : a ≠ b)
    (hx : x ∈ p.block a) : x ∈ (p.split hits b).block a := by
  rwa [block_split_of_ne (lt_length_of_mem_block hx) hab]

theorem mem_block_split_of_hit {p : Partition} {hits : List Nat} {b x : Nat}
    (hx : x ∈ p.block b) (hhit : x ∈ hits) : x ∈ (p.split hits b).block b := by
  have hmem := mem_kept.2 ⟨hx, hhit⟩
  by_cases hmoved : p.moved hits b = []
  · rwa [split_of_pure (Or.inr hmoved)]
  · rwa [block_split (List.ne_nil_of_mem hmem) hmoved, if_pos rfl]

theorem mem_block_split_of_missed {p : Partition} {hits : List Nat} {b x : Nat}
    (hkept : p.kept hits b ≠ []) (hx : x ∈ p.block b) (hhit : x ∉ hits) :
    x ∈ (p.split hits b).block p.blocks.length := by
  have hmem := mem_moved.2 ⟨hx, hhit⟩
  have hne : p.blocks.length ≠ b := Nat.ne_of_gt (lt_length_of_kept hkept)
  rwa [block_split hkept (List.ne_nil_of_mem hmem), if_neg hne, if_pos rfl]

theorem hit_iff_of_pure {p : Partition} {hits : List Nat} {b x y : Nat}
    (h : p.kept hits b = [] ∨ p.moved hits b = []) (hx : x ∈ p.block b) (hy : y ∈ p.block b) :
    x ∈ hits ↔ y ∈ hits := by
  rcases h with hkept | hmoved
  · have hnone : ∀ z ∈ p.block b, z ∉ hits := by
      intro z hz hhit
      have hmem := mem_kept.2 ⟨hz, hhit⟩
      rw [hkept] at hmem
      cases hmem
    exact iff_of_false (hnone x hx) (hnone y hy)
  · have hall : ∀ z ∈ p.block b, z ∈ hits := by
      intro z hz
      by_contra hhit
      have hmem := mem_moved.2 ⟨hz, hhit⟩
      rw [hmoved] at hmem
      cases hmem
    exact iff_of_true (hall x hx) (hall y hy)

/-- **A split separates** the members of one block that are hit from those that are not. -/
theorem together_split {p : Partition} {hits : List Nat} {b x y : Nat} :
    (p.split hits b).Together x y ↔
      ∃ a, x ∈ p.block a ∧ y ∈ p.block a ∧ (a = b → (x ∈ hits ↔ y ∈ hits)) := by
  by_cases hpure : p.kept hits b = [] ∨ p.moved hits b = []
  · rw [split_of_pure hpure]
    constructor
    · intro hfound
      rcases hfound with ⟨a, hx, hy⟩
      refine ⟨a, hx, hy, ?_⟩
      rintro rfl
      exact hit_iff_of_pure hpure hx hy
    · intro hfound
      rcases hfound with ⟨a, hx, hy, -⟩
      exact ⟨a, hx, hy⟩
  obtain ⟨hkept, hmoved⟩ := not_or.1 hpure
  -- both parts are there: block `b` holds the first and the new block the second
  constructor
  · intro hfound
    rcases hfound with ⟨a, hx, hy⟩
    rw [block_split hkept hmoved] at hx hy
    split at hx
    · next hab =>
      rw [if_pos hab, mem_kept] at hy
      rw [mem_kept] at hx
      exact ⟨b, hx.1, hy.1, fun _ => iff_of_true hx.2 hy.2⟩
    · next hab =>
      rw [if_neg hab] at hy
      split at hx
      · next hnew =>
        rw [if_pos hnew, mem_moved] at hy
        rw [mem_moved] at hx
        exact ⟨b, hx.1, hy.1, fun _ => iff_of_false hx.2 hy.2⟩
      · next hnew =>
        rw [if_neg hnew] at hy
        exact ⟨a, hx, hy, fun h => absurd h hab⟩
  · intro hfound
    rcases hfound with ⟨a, hx, hy, hsame⟩
    by_cases hab : a = b
    · subst hab
      by_cases hhit : x ∈ hits
      · have hhit' := (hsame rfl).1 hhit
        exact ⟨a, mem_block_split_of_hit hx hhit, mem_block_split_of_hit hy hhit'⟩
      · have hhit' : y ∉ hits := fun h => hhit ((hsame rfl).2 h)
        exact ⟨p.blocks.length, mem_block_split_of_missed hkept hx hhit,
          mem_block_split_of_missed hkept hy hhit'⟩
    · exact ⟨a, mem_block_split_of_ne hab hx, mem_block_split_of_ne hab hy⟩

/-- What waits goes on waiting: of a waiting block both parts do. -/
theorem waits_split {p : Partition} {hits : List Nat} {b x : Nat} (h : p.Waits x) :
    (p.split hits b).Waits x := by
  by_cases hkept : p.kept hits b = []
  · rwa [split_of_pure (Or.inl hkept)]
  by_cases hmoved : p.moved hits b = []
  · rwa [split_of_pure (Or.inr hmoved)]
  obtain ⟨a, ha, hx⟩ := h
  have hwaiting : (p.split hits b).waiting = p.wakes hits b :: p.waiting := by
    rw [split_of_mixed hkept hmoved]
  by_cases hab : a = b
  · subst hab
    by_cases hhit : x ∈ hits
    · refine ⟨a, ?_, mem_block_split_of_hit hx hhit⟩
      rw [hwaiting]
      exact List.mem_cons_of_mem _ ha
    · have hwakes : p.wakes hits a = p.blocks.length := by simp [wakes, ha]
      refine ⟨p.blocks.length, ?_, mem_block_split_of_missed hkept hx hhit⟩
      rw [hwaiting, hwakes]
      exact List.mem_cons_self ..
  · refine ⟨a, ?_, mem_block_split_of_ne hab hx⟩
    rw [hwaiting]
    exact List.mem_cons_of_mem _ ha

/-- Of two states that a split separates one waits. -/
theorem waits_of_separated {p : Partition} {hits : List Nat} {b x y : Nat} (hx : x ∈ p.block b)
    (hy : y ∈ p.block b) (hxhit : x ∈ hits) (hyhit : y ∉ hits) :
    (p.split hits b).Waits x ∨ (p.split hits b).Waits y := by
  have hxkept := mem_kept.2 ⟨hx, hxhit⟩
  have hymoved := mem_moved.2 ⟨hy, hyhit⟩
  have hkept := List.ne_nil_of_mem hxkept
  have hmoved := List.ne_nil_of_mem hymoved
  have hmem : p.wakes hits b ∈ (p.split hits b).waiting := by
    rw [split_of_mixed hkept hmoved]
    exact List.mem_cons_self ..
  by_cases hwakes : p.wakes hits b = b
  · refine Or.inl ⟨_, hmem, ?_⟩
    rwa [hwakes, block_split hkept hmoved, if_pos rfl]
  · have hnew : p.wakes hits b = p.blocks.length := by
      unfold wakes at hwakes ⊢
      split at hwakes
      · next h => rw [if_pos h]
      · exact absurd rfl hwakes
    refine Or.inr ⟨_, hmem, ?_⟩
    rwa [block_split hkept hmoved, if_neg hwakes, if_pos hnew]

theorem Valid.split {p : Partition} {size : Nat} (hp : p.Valid size) (hits : List Nat) (b : Nat) :
    (p.split hits b).Valid size := by
  by_cases hkept : p.kept hits b = []
  · rwa [split_of_pure (Or.inl hkept)]
  by_cases hmoved : p.moved hits b = []
  · rwa [split_of_pure (Or.inr hmoved)]
  have hb := lt_length_of_kept hkept
  have hlen : (p.blocks.set b (p.kept hits b) ++ [p.moved hits b]).length =
      p.blocks.length + 1 := by
    rw [List.length_append, List.length_set, List.length_singleton]
  rw [split_of_mixed hkept hmoved]
  refine ⟨?_, ?_, ?_, ?_⟩
  · -- the two parts together are the old block
    obtain ⟨front, back, hblocks, hset⟩ : ∃ front back, p.blocks = front ++ p.block b :: back ∧
        p.blocks.set b (p.kept hits b) = front ++ p.kept hits b :: back := by
      obtain ⟨front, back, hblocks, -, hset⟩ := List.exists_of_set hb
      exact ⟨front, back, block_eq_getElem hb ▸ hblocks, hset⟩
    have hparts : (p.kept hits b ++ p.moved hits b).Perm (p.block b) :=
      List.filter_append_perm _ _
    refine List.Perm.trans ?_ hp.covers
    show (p.blocks.set b (p.kept hits b) ++ [p.moved hits b]).flatten.Perm _
    rw [hset, hblocks]
    simp only [List.flatten_append, List.flatten_cons, List.flatten_nil, List.append_nil,
      List.append_assoc]
    refine List.Perm.append_left _ ?_
    refine List.Perm.trans ?_ (hparts.append_right _)
    rw [List.append_assoc]
    exact List.Perm.append_left _ List.perm_append_comm
  · intro B hB
    rcases List.mem_append.1 hB with hB | hB
    · rcases List.mem_or_eq_of_mem_set hB with hB | rfl
      · exact hp.nonempty B hB
      · exact hkept
    · rw [List.mem_singleton.1 hB]
      exact hmoved
  · refine List.nodup_cons.2 ⟨?_, hp.waiting_nodup⟩
    unfold wakes
    split
    · exact fun h => Nat.lt_irrefl _ (hp.waiting_lt _ h)
    · next h =>
      intro hmem
      simp [hmem] at h
  · intro a ha
    show a < (p.blocks.set b (p.kept hits b) ++ [p.moved hits b]).length
    rw [hlen]
    rcases List.mem_cons.1 ha with rfl | ha
    · unfold wakes
      split
      · exact Nat.lt_succ_self _
      · exact Nat.lt_succ_of_lt hb
    · exact Nat.lt_succ_of_lt (hp.waiting_lt a ha)

end Partition

end Table

end SymbolAutomata
