/-
  SymbolAutomata/Proofs/Refinement/Coarsest.lean
  ==============================================
  **Partition refinement finds the coarsest congruence.**

  Two states are equivalent if every word of letters has the same outcome from
  both: it ends in both at an accepting state, in both at a rejecting one, or in
  both before its end.

  Along a run of the refinement states of one block are *settled* over each letter:
  their successors go together, or the block of a successor waits
  (`Stable`).  While a splitter is worked off there is a third way, to be told
  apart by the splitter over a letter that is still to come (`StableBut`).  Once
  nothing waits the blocks are a congruence.  In the other direction equivalent states
  are never separated (`Coarse`), since whatever a block of equivalent states is
  entered by is closed under equivalence.

  Each round makes as many blocks as it lets wait and takes one away from what
  waits, so the rounds that `classesBy` has are enough, in whatever order the
  affected blocks are taken.
-/
import SymbolAutomata.Proofs.Refinement.Numbering
import SymbolAutomata.Proofs.Refinement.Split

namespace SymbolAutomata

namespace Table

/-! ### Equivalent states -/

/-- Where a word leads to, unless a successor is missing on the way. -/
def read (t : Table) : Nat → List Nat → Option Nat
  | i, [] => some i
  | i, c :: w => (t.next i c).bind fun j => t.read j w

/-- Whether a word is accepted, unless a successor is missing on the way. -/
def outcome (t : Table) (i : Nat) (w : List Nat) : Option Bool := (t.read i w).map t.accepting

/-- **States that no word of letters tells apart.** -/
def Equivalent (t : Table) (i j : Nat) : Prop :=
  ∀ w, (∀ c ∈ w, c < t.letters) → t.outcome i w = t.outcome j w

/-- Successors of states are states. -/
def Closed (t : Table) : Prop := ∀ i c j, i < t.size → t.next i c = some j → j < t.size

theorem outcome_cons (t : Table) (i c : Nat) (w : List Nat) :
    t.outcome i (c :: w) = (t.next i c).bind fun j => t.outcome j w := by
  unfold outcome
  rw [read]
  cases t.next i c <;> rfl

theorem Equivalent.accepting {t : Table} {i j : Nat} (h : t.Equivalent i j) :
    t.accepting i = t.accepting j :=
  Option.some.inj (h [] fun _ hc => absurd hc List.not_mem_nil)

theorem Equivalent.symm {t : Table} {i j : Nat} (h : t.Equivalent i j) : t.Equivalent j i :=
  fun w hw => (h w hw).symm

/-- Successors of equivalent states are equivalent. -/
theorem Equivalent.next {t : Table} {i j c i' : Nat} (h : t.Equivalent i j) (hc : c < t.letters)
    (hi' : t.next i c = some i') : ∃ j', t.next j c = some j' ∧ t.Equivalent i' j' := by
  have hletters : ∀ w, (∀ d ∈ w, d < t.letters) → ∀ d ∈ c :: w, d < t.letters := by
    intro w hw d hd
    rcases List.mem_cons.1 hd with rfl | hd
    · exact hc
    · exact hw d hd
  cases hj' : t.next j c with
  | none =>
    have hone := h [c] (hletters [] fun _ hd => absurd hd List.not_mem_nil)
    rw [outcome_cons, outcome_cons, hi', hj'] at hone
    cases hone
  | some j' =>
    refine ⟨j', rfl, ?_⟩
    intro w hw
    have hlong := h (c :: w) (hletters w hw)
    rwa [outcome_cons, outcome_cons, hi', hj'] at hlong

namespace Partition

/-! ### Finer partitions -/

/-- **What any number of splits leads to.** -/
structure Finer (size : Nat) (p q : Partition) : Prop where
  valid : q.Valid size
  together : ∀ {x y}, q.Together x y → p.Together x y
  waits : ∀ {x}, p.Waits x → q.Waits x
  apart : ∀ {x y}, p.Together x y → q.Together x y ∨ q.Waits x ∨ q.Waits y
  count : q.blocks.length + p.waiting.length = p.blocks.length + q.waiting.length

variable {size : Nat} {p q r : Partition}

theorem Finer.refl (hp : p.Valid size) : Finer size p p where
  valid := hp
  together h := h
  waits h := h
  apart h := Or.inl h
  count := rfl

theorem Finer.trans (hpq : Finer size p q) (hqr : Finer size q r) : Finer size p r where
  valid := hqr.valid
  together h := hpq.together (hqr.together h)
  waits h := hqr.waits (hpq.waits h)
  apart h := by
    rcases hpq.apart h with h | hx | hy
    · exact hqr.apart h
    · exact Or.inr (Or.inl (hqr.waits hx))
    · exact Or.inr (Or.inr (hqr.waits hy))
  count := by
    have h₁ := hpq.count
    have h₂ := hqr.count
    omega

theorem count_split (p : Partition) (hits : List Nat) (b : Nat) :
    (p.split hits b).blocks.length + p.waiting.length =
      p.blocks.length + (p.split hits b).waiting.length := by
  by_cases hkept : p.kept hits b = []
  · rw [split_of_pure (Or.inl hkept)]
  by_cases hmoved : p.moved hits b = []
  · rw [split_of_pure (Or.inr hmoved)]
  rw [split_of_mixed hkept hmoved]
  simp only [List.length_append, List.length_set, List.length_cons, List.length_nil]
  omega

theorem Valid.finer_split (hp : p.Valid size) (hits : List Nat) (b : Nat) :
    Finer size p (p.split hits b) where
  valid := hp.split hits b
  together h := by
    obtain ⟨a, hx, hy, -⟩ := together_split.1 h
    exact ⟨a, hx, hy⟩
  waits := waits_split
  apart {x y} h := by
    obtain ⟨a, hx, hy⟩ := h
    by_cases hsame : a = b → (x ∈ hits ↔ y ∈ hits)
    · exact Or.inl (together_split.2 ⟨a, hx, hy, hsame⟩)
    · -- the split goes between the two
      rw [Classical.not_imp] at hsame
      obtain ⟨rfl, hdiff⟩ := hsame
      refine Or.inr ?_
      by_cases hxhit : x ∈ hits
      · exact waits_of_separated hx hy hxhit fun hyhit => hdiff (iff_of_true hxhit hyhit)
      · have hyhit : y ∈ hits := by
          by_contra hyhit
          exact hdiff (iff_of_false hxhit hyhit)
        exact (waits_of_separated hy hx hyhit hxhit).symm
  count := count_split p hits b

/-! ### The splits of one letter -/

/-- Splits the blocks of a list one after the other. -/
def splitAll (p : Partition) (hits : List Nat) (bs : List Nat) : Partition :=
  bs.foldl (fun q b => q.split hits b) p

theorem Valid.finer_splitAll (hp : p.Valid size) (hits bs : List Nat) :
    Finer size p (p.splitAll hits bs) := by
  induction bs generalizing p with
  | nil => exact Finer.refl hp
  | cons b bs ih => exact (hp.finer_split hits b).trans (ih (hp.split hits b))

theorem together_splitAll_of_alike {hits bs : List Nat} {x y : Nat} (h : p.Together x y)
    (halike : x ∈ hits ↔ y ∈ hits) : (p.splitAll hits bs).Together x y := by
  induction bs generalizing p with
  | nil => exact h
  | cons b bs ih =>
    obtain ⟨a, hx, hy⟩ := h
    exact ih (together_split.2 ⟨a, hx, hy, fun _ => halike⟩)

theorem Valid.alike_of_together_splitAll (hp : p.Valid size) {hits bs : List Nat} (hbs : bs.Nodup)
    {a x y : Nat} (ha : a ∈ bs) (hx : x ∈ p.block a) (h : (p.splitAll hits bs).Together x y) :
    x ∈ hits ↔ y ∈ hits := by
  induction bs generalizing p with
  | nil => cases ha
  | cons b bs ih =>
    obtain ⟨hb, hbs⟩ := List.nodup_cons.1 hbs
    have hsplit := hp.split hits b
    by_cases hab : a = b
    · subst hab
      obtain ⟨a', hx', -, halike⟩ := together_split.1 ((hsplit.finer_splitAll hits bs).together h)
      exact halike (hp.block_unique hx' hx)
    · have ha' : a ∈ bs := (List.mem_cons.1 ha).resolve_left hab
      exact ih hsplit hbs ha' (mem_block_split_of_ne hab hx) h

end Partition

open SymbolAutomata.Table.Partition

variable {t : Table} {p : Partition}

theorem mem_entering {splitter : List Nat} {c x : Nat} :
    x ∈ t.entering splitter c ↔ x < t.size ∧ ∃ y ∈ splitter, t.next x c = some y := by
  unfold entering
  rw [List.mem_filter, List.mem_range]
  cases t.next x c with
  | none => simp
  | some y => simp

theorem splitOver_eq (t : Table) (order : List Nat → List Nat) (splitter : List Nat)
    (p : Partition) (c : Nat) :
    t.splitOver order splitter p c = p.splitAll (t.entering splitter c)
      (order (fresh [] ((t.entering splitter c).map p.blockOf))) := rfl

/-- An order that takes every affected block once. -/
def Fair (order : List Nat → List Nat) : Prop := ∀ bs, (order bs).Perm bs

/-- **A splitter separates over a letter** the states that enter it from those that do not. -/
theorem together_splitOver_iff (hp : p.Valid t.size) {order : List Nat → List Nat}
    (horder : Fair order) {splitter : List Nat} {c x y : Nat} :
    (t.splitOver order splitter p c).Together x y ↔
      p.Together x y ∧ (x ∈ t.entering splitter c ↔ y ∈ t.entering splitter c) := by
  rw [splitOver_eq]
  constructor
  · intro h
    obtain ⟨a, hx, hy⟩ := (hp.finer_splitAll _ _).together h
    refine ⟨⟨a, hx, hy⟩, ?_⟩
    -- the block of a state that is hit is on the list
    have hlisted : ∀ z, z ∈ p.block a → z ∈ t.entering splitter c →
        a ∈ order (fresh [] ((t.entering splitter c).map p.blockOf)) := by
      intro z hz hhit
      rw [(horder _).mem_iff, mem_fresh]
      exact ⟨List.mem_map.2 ⟨z, hhit, hp.blockOf_eq hz⟩, List.not_mem_nil⟩
    have hnodup := (horder _).nodup_iff.2 (fresh_nodup [] ((t.entering splitter c).map p.blockOf))
    constructor
    · intro hhit
      exact (hp.alike_of_together_splitAll hnodup (hlisted x hx hhit) hx h).1 hhit
    · intro hhit
      exact (hp.alike_of_together_splitAll hnodup (hlisted y hy hhit) hx h).2 hhit
  · intro hfound
    rcases hfound with ⟨h, halike⟩
    exact together_splitAll_of_alike h halike

/-! ### What holds along a run -/

/-- Over letter `c` the two states lead to the same block or to none, or a block that one of them
    leads to waits. -/
def Settled (t : Table) (p : Partition) (x y c : Nat) : Prop :=
  (t.next x c = none ∧ t.next y c = none) ∨
    (∃ x' y', t.next x c = some x' ∧ t.next y c = some y' ∧ p.Together x' y') ∨
      ∃ z, (t.next x c = some z ∨ t.next y c = some z) ∧ p.Waits z

def Stable (t : Table) (p : Partition) : Prop :=
  ∀ x y c, c < t.letters → p.Together x y → t.Settled p x y c

/-- While a splitter is worked off: `todo` are the letters still to come. -/
def StableBut (t : Table) (p : Partition) (splitter todo : List Nat) : Prop :=
  ∀ x y c, c < t.letters → p.Together x y → t.Settled p x y c ∨
    (c ∈ todo ∧ ¬ (x ∈ t.entering splitter c ↔ y ∈ t.entering splitter c))

/-- Equivalent states go together. -/
def Coarse (t : Table) (p : Partition) : Prop :=
  ∀ x y, x < t.size → y < t.size → t.Equivalent x y → p.Together x y

theorem Settled.mono {q : Partition} (hpq : Finer t.size p q) {x y c : Nat}
    (h : t.Settled p x y c) : t.Settled q x y c := by
  rcases h with hnone | ⟨x', y', hx', hy', h⟩ | ⟨z, hz, hwaits⟩
  · exact Or.inl hnone
  · rcases hpq.apart h with h | h | h
    · exact Or.inr (Or.inl ⟨x', y', hx', hy', h⟩)
    · exact Or.inr (Or.inr ⟨x', Or.inl hx', h⟩)
    · exact Or.inr (Or.inr ⟨y', Or.inr hy', h⟩)
  · exact Or.inr (Or.inr ⟨z, hz, hpq.waits hwaits⟩)

section Run

variable {order : List Nat → List Nat} (horder : Fair order)

theorem finer_splitOver (hp : p.Valid t.size) (splitter : List Nat) (c : Nat) :
    Finer t.size p (t.splitOver order splitter p c) := hp.finer_splitAll _ _

include horder

theorem StableBut.splitOver (hp : p.Valid t.size) {splitter todo : List Nat} {c : Nat}
    (h : t.StableBut p splitter (c :: todo)) :
    t.StableBut (t.splitOver order splitter p c) splitter todo := by
  intro x y d hd hxy
  obtain ⟨hold, halike⟩ := (together_splitOver_iff hp horder).1 hxy
  rcases h x y d hd hold with hset | ⟨hmem, hdiff⟩
  · exact Or.inl (hset.mono (finer_splitOver hp splitter c))
  · rcases List.mem_cons.1 hmem with rfl | hmem
    · exact absurd halike hdiff
    · exact Or.inr ⟨hmem, hdiff⟩

/-- Equivalent states enter a splitter alike if it holds whole classes. -/
theorem Coarse.splitOver (hclosed : t.Closed) (hp : p.Valid t.size) (h : t.Coarse p)
    {splitter : List Nat} {c : Nat} (hc : c < t.letters)
    (hwhole : ∀ x ∈ splitter, ∀ y, y < t.size → t.Equivalent x y → y ∈ splitter) :
    t.Coarse (t.splitOver order splitter p c) := by
  have henter : ∀ {x y}, y < t.size → t.Equivalent x y → x ∈ t.entering splitter c →
      y ∈ t.entering splitter c := by
    intro x y hy hequiv hx
    obtain ⟨-, x', hx', hnext⟩ := mem_entering.1 hx
    obtain ⟨y', hnext', hequiv'⟩ := hequiv.next hc hnext
    exact mem_entering.2 ⟨hy, y', hwhole x' hx' y' (hclosed y c y' hy hnext') hequiv', hnext'⟩
  intro x y hx hy hequiv
  refine (together_splitOver_iff hp horder).2 ⟨h x y hx hy hequiv, ?_⟩
  exact ⟨henter hy hequiv, henter hx hequiv.symm⟩

end Run

/-! ### Rounds -/

/-- **The invariant of the refinement**, apart from stability. -/
structure Sound (t : Table) (p : Partition) : Prop where
  valid : p.Valid t.size
  accepting : ∀ {x y}, p.Together x y → t.accepting x = t.accepting y
  coarse : t.Coarse p

/-- Works off a splitter over a list of letters. -/
def pass (t : Table) (order : Nat → List Nat → List Nat) (splitter : List Nat)
    (letters : List Nat) (p : Partition) : Partition :=
  letters.foldl (fun q c => t.splitOver (order c) splitter q c) p

theorem Sound.pass (hclosed : t.Closed) {order : Nat → List Nat → List Nat}
    (horder : ∀ c, Fair (order c)) {splitter letters : List Nat}
    (hletters : ∀ c ∈ letters, c < t.letters)
    (hwhole : ∀ x ∈ splitter, ∀ y, y < t.size → t.Equivalent x y → y ∈ splitter)
    (hp : t.Sound p) (hbut : t.StableBut p splitter letters) :
    t.Sound (t.pass order splitter letters p) ∧
      t.StableBut (t.pass order splitter letters p) splitter [] ∧
      Finer t.size p (t.pass order splitter letters p) := by
  induction letters generalizing p with
  | nil => exact ⟨hp, hbut, Finer.refl hp.valid⟩
  | cons c letters ih =>
    have hc := hletters c (List.mem_cons_self ..)
    have hfiner : Finer t.size p (t.splitOver (order c) splitter p c) :=
      finer_splitOver hp.valid splitter c
    have hsound : t.Sound (t.splitOver (order c) splitter p c) :=
      ⟨hfiner.valid, fun h => hp.accepting (hfiner.together h),
        hp.coarse.splitOver (horder c) hclosed hp.valid hc hwhole⟩
    obtain ⟨hsound', hstable, hfiner'⟩ := ih (fun d hd => hletters d (List.mem_cons_of_mem _ hd))
      hsound (hbut.splitOver (horder c) hp.valid)
    exact ⟨hsound', hstable, hfiner.trans hfiner'⟩

/-- Taking a block off the waiting ones leaves to be settled what it tells apart. -/
theorem Stable.stableBut_of_waiting (hp : p.Valid t.size) (h : t.Stable p) {b : Nat}
    {rest : List Nat} (hwaiting : p.waiting = b :: rest) :
    t.StableBut { p with waiting := rest } (p.block b) (List.range t.letters) := by
  intro x y c hc hxy
  have hxy' : p.Together x y := hxy
  rcases h x y c hc hxy' with hnone | hsame | ⟨z, hz, a, ha, hza⟩
  · exact Or.inl (Or.inl hnone)
  · exact Or.inl (Or.inr (Or.inl hsame))
  rw [hwaiting] at ha
  rcases List.mem_cons.1 ha with rfl | ha
  · by_cases halike : x ∈ t.entering (p.block a) c ↔ y ∈ t.entering (p.block a) c
    · -- one of the two enters the block, hence both do, and they go there together
      have hboth : x ∈ t.entering (p.block a) c ∧ y ∈ t.entering (p.block a) c := by
        rcases hz with hz | hz
        · have hx := mem_entering.2 ⟨hp.lt_of_together hxy', z, hza, hz⟩
          exact ⟨hx, halike.1 hx⟩
        · have hy := mem_entering.2 ⟨hp.lt_of_together hxy'.symm, z, hza, hz⟩
          exact ⟨halike.2 hy, hy⟩
      obtain ⟨-, x', hx', hnextx⟩ := mem_entering.1 hboth.1
      obtain ⟨-, y', hy', hnexty⟩ := mem_entering.1 hboth.2
      exact Or.inl (Or.inr (Or.inl ⟨x', y', hnextx, hnexty, a, hx', hy'⟩))
    · exact Or.inr ⟨List.mem_range.2 hc, halike⟩
  · exact Or.inl (Or.inr (Or.inr ⟨z, hz, a, ha, hza⟩))

theorem refine_succ {order : Nat → Nat → List Nat → List Nat} {fuel b : Nat} {rest : List Nat}
    (hwaiting : p.waiting = b :: rest) :
    t.refine order (fuel + 1) p = t.refine order fuel
      (t.pass (order fuel) (p.block b) (List.range t.letters) { p with waiting := rest }) := by
  rw [refine, hwaiting]
  rfl

/-- **One round** keeps the invariant. It makes as many blocks as it lets wait. -/
theorem Sound.round (hclosed : t.Closed) {order : Nat → List Nat → List Nat}
    (horder : ∀ c, Fair (order c)) (hp : t.Sound p) (hstable : t.Stable p) {b : Nat}
    {rest : List Nat} (hwaiting : p.waiting = b :: rest) {q : Partition}
    (hq : t.pass order (p.block b) (List.range t.letters) { p with waiting := rest } = q) :
    t.Sound q ∧ t.Stable q ∧
      q.blocks.length + rest.length = p.blocks.length + q.waiting.length := by
  subst hq
  have hvalid := hp.valid
  have htaken : t.Sound { p with waiting := rest } :=
    ⟨hvalid.taken hwaiting, hp.accepting, hp.coarse⟩
  have hwhole : ∀ x ∈ p.block b, ∀ y, y < t.size → t.Equivalent x y → y ∈ p.block b := by
    intro x hx y hy hequiv
    have hxlt := hvalid.exists_block_iff.1 ⟨b, hx⟩
    exact hvalid.together_of_mem (hp.coarse x y hxlt hy hequiv) hx
  obtain ⟨hsound, hbut, hfiner⟩ := htaken.pass hclosed horder
    (fun c hc => List.mem_range.1 hc) hwhole (hstable.stableBut_of_waiting hvalid hwaiting)
  refine ⟨hsound, ?_, hfiner.count⟩
  intro x y c hc hxy
  exact (hbut x y c hc hxy).resolve_right fun h => absurd h.1 List.not_mem_nil

/-- **At the end nothing waits** and the invariant holds, if the rounds are enough. -/
theorem Sound.refine (hclosed : t.Closed) {order : Nat → Nat → List Nat → List Nat}
    (horder : ∀ f c, Fair (order f c)) {fuel : Nat} (hp : t.Sound p) (hstable : t.Stable p)
    (henough : p.waiting.length + t.size ≤ fuel + p.blocks.length) :
    t.Sound (t.refine order fuel p) ∧ t.Stable (t.refine order fuel p) ∧
      (t.refine order fuel p).waiting = [] := by
  induction fuel generalizing p with
  | zero =>
    have hle := hp.valid.length_blocks_le
    have hnone : p.waiting = [] := List.eq_nil_of_length_eq_zero (by omega)
    exact ⟨hp, hstable, hnone⟩
  | succ fuel ih =>
    cases hwaiting : p.waiting with
    | nil =>
      have hdone : t.refine order (fuel + 1) p = p := by
        rw [Table.refine, hwaiting]
      rw [hdone]
      exact ⟨hp, hstable, hwaiting⟩
    | cons b rest =>
      rw [refine_succ hwaiting]
      obtain ⟨hsound, hstable', hcount⟩ := hp.round hclosed (horder fuel) hstable hwaiting rfl
      refine ih hsound hstable' ?_
      rw [hwaiting, List.length_cons] at henough
      omega

/-! ### The start -/

theorem start_together_iff {x y : Nat} :
    t.start.Together x y ↔ x < t.size ∧ y < t.size ∧ t.accepting x = t.accepting y := by
  rw [together_iff_exists_mem]
  simp only [start, List.mem_filter, List.mem_cons, List.not_mem_nil, or_false, Bool.not_eq_true',
    List.isEmpty_eq_false_iff]
  constructor
  · intro h
    rcases h with ⟨B, ⟨rfl | rfl, -⟩, hx, hy⟩
    · rw [List.mem_filter, List.mem_range] at hx hy
      exact ⟨hx.1, hy.1, hx.2.trans hy.2.symm⟩
    · rw [List.mem_filter, List.mem_range, Bool.not_eq_true'] at hx hy
      exact ⟨hx.1, hy.1, hx.2.trans hy.2.symm⟩
  · intro h
    rcases h with ⟨hx, hy, hsame⟩
    cases hacc : t.accepting x with
    | true =>
      have hmem : x ∈ (List.range t.size).filter t.accepting := by simp [hx, hacc]
      exact ⟨_, ⟨Or.inl rfl, List.ne_nil_of_mem hmem⟩, hmem, by simp [hy, ← hsame, hacc]⟩
    | false =>
      have hmem : x ∈ (List.range t.size).filter (!t.accepting ·) := by simp [hx, hacc]
      exact ⟨_, ⟨Or.inr rfl, List.ne_nil_of_mem hmem⟩, hmem, by simp [hy, ← hsame, hacc]⟩

theorem sound_start (t : Table) : t.Sound t.start := by
  have hflatten : t.start.blocks.flatten =
      (List.range t.size).filter t.accepting ++ (List.range t.size).filter (!t.accepting ·) := by
    simp only [start, List.flatten_filter_not_isEmpty, List.flatten_cons, List.flatten_nil,
      List.append_nil]
  refine ⟨⟨?_, ?_, ?_, ?_⟩, ?_, ?_⟩
  · rw [hflatten]
    exact List.filter_append_perm _ _
  · intro B hB
    have hne := (List.mem_filter.1 hB).2
    simpa using hne
  · exact List.nodup_reverse.2 List.nodup_range
  · intro b hb
    exact List.mem_range.1 (List.mem_reverse.1 hb)
  · exact fun h => (start_together_iff.1 h).2.2
  · exact fun x y hx hy hequiv => start_together_iff.2 ⟨hx, hy, hequiv.accepting⟩

theorem waits_start {x : Nat} (hx : x < t.size) : t.start.Waits x := by
  obtain ⟨b, hb⟩ := (sound_start t).valid.exists_block_iff.2 hx
  exact ⟨b, List.mem_reverse.2 (List.mem_range.2 (lt_length_of_mem_block hb)), hb⟩

theorem stable_start (hclosed : t.Closed) : t.Stable t.start := by
  intro x y c hc hxy
  have hvalid := (sound_start t).valid
  cases hx : t.next x c with
  | some x' =>
    have hlt := hclosed x c x' (hvalid.lt_of_together hxy) hx
    exact Or.inr (Or.inr ⟨x', Or.inl hx, waits_start hlt⟩)
  | none =>
    cases hy : t.next y c with
    | some y' =>
      have hlt := hclosed y c y' (hvalid.lt_of_together hxy.symm) hy
      exact Or.inr (Or.inr ⟨y', Or.inr hy, waits_start hlt⟩)
    | none => exact Or.inl ⟨hx, hy⟩

/-! ### The classes -/

/-- A stable partition in which nothing waits is a congruence. -/
theorem Sound.equivalent_of_together (hp : t.Sound p) (hstable : t.Stable p)
    (hwaiting : p.waiting = []) {x y : Nat} (h : p.Together x y) : t.Equivalent x y := by
  intro w hw
  induction w generalizing x y with
  | nil => exact congrArg some (hp.accepting h)
  | cons c w ih =>
    rw [outcome_cons, outcome_cons]
    rcases hstable x y c (hw c (List.mem_cons_self ..)) h with
      ⟨hx, hy⟩ | ⟨x', y', hx, hy, hsame⟩ | ⟨z, -, b, hb, -⟩
    · rw [hx, hy]
    · rw [hx, hy]
      exact ih hsame fun d hd => hw d (List.mem_cons_of_mem _ hd)
    · rw [hwaiting] at hb
      cases hb

/-- The numbers of the blocks of all states, renamed in the order in which they come up. -/
def Partition.numbers (p : Partition) (size : Nat) : List Nat :=
  ((List.range size).map p.blockOf).map (fresh [] ((List.range size).map p.blockOf)).idxOf

theorem length_numbers (p : Partition) (size : Nat) : (p.numbers size).length = size := by
  simp [Partition.numbers]

/-- **Numbers come up in their order** and without gaps. -/
theorem fresh_numbers (p : Partition) (size : Nat) :
    ∃ k, fresh [] (p.numbers size) = List.range k := by
  refine ⟨(fresh [] ((List.range size).map p.blockOf)).length, ?_⟩
  unfold Partition.numbers
  rw [← map_idxOf_self (fresh_nodup [] ((List.range size).map p.blockOf))]
  apply fresh_map []
  intro a ha b _ hab
  exact (List.idxOf_inj (mem_fresh.2 ⟨ha, List.not_mem_nil⟩)).1 hab

/-- If nothing waits, two states have the same number just when they are equivalent. -/
theorem Sound.numbers_eq_iff (hp : t.Sound p) (hstable : t.Stable p) (hwaiting : p.waiting = [])
    {x y : Nat} (hx : x < t.size) (hy : y < t.size) :
    (p.numbers t.size).getD x 0 = (p.numbers t.size).getD y 0 ↔ t.Equivalent x y := by
  have hget : ∀ z, z < t.size → (p.numbers t.size).getD z 0 =
      (fresh [] ((List.range t.size).map p.blockOf)).idxOf (p.blockOf z) := by
    intro z hz
    simp [Partition.numbers, hz]
  have hmem : p.blockOf x ∈ fresh [] ((List.range t.size).map p.blockOf) :=
    mem_fresh.2 ⟨List.mem_map.2 ⟨x, List.mem_range.2 hx, rfl⟩, List.not_mem_nil⟩
  rw [hget x hx, hget y hy, List.idxOf_inj hmem, ← hp.valid.together_iff_blockOf hx hy]
  exact ⟨hp.equivalent_of_together hstable hwaiting, hp.coarse x y hx hy⟩

section Classes

variable {order : Nat → Nat → List Nat → List Nat}

theorem length_classesBy (t : Table) (order : Nat → Nat → List Nat → List Nat) :
    (t.classesBy order).length = t.size := length_numbers _ _

/-- **Classes are numbered without gaps** in the order of their first states. -/
theorem fresh_classesBy (t : Table) (order : Nat → Nat → List Nat → List Nat) :
    ∃ k, fresh [] (t.classesBy order) = List.range k := fresh_numbers _ _

theorem classesBy_zero (t : Table) (order : Nat → Nat → List Nat → List Nat) :
    (t.classesBy order).getD 0 0 = 0 := by
  obtain ⟨k, hk⟩ := fresh_classesBy t order
  by_cases hnil : t.classesBy order = []
  · rw [hnil]
    rfl
  · rw [List.getD_eq_getElem?_getD, head_eq_zero hk hnil]
    rfl

/-- The rounds that `classesBy` has are enough. -/
theorem sound_refine_start (hclosed : t.Closed) (horder : ∀ f c, Fair (order f c)) :
    t.Sound (t.refine order t.size t.start) ∧ t.Stable (t.refine order t.size t.start) ∧
      (t.refine order t.size t.start).waiting = [] := by
  apply (sound_start t).refine hclosed horder (stable_start hclosed)
  simp only [start, List.length_reverse, List.length_range]
  omega

/-- **The classes are the classes of equivalent states**, whatever the order of the splits. -/
theorem classesBy_eq_iff (hclosed : t.Closed) (horder : ∀ f c, Fair (order f c)) {x y : Nat}
    (hx : x < t.size) (hy : y < t.size) :
    (t.classesBy order).getD x 0 = (t.classesBy order).getD y 0 ↔ t.Equivalent x y := by
  obtain ⟨hsound, hstable, hwaiting⟩ := sound_refine_start hclosed horder
  exact hsound.numbers_eq_iff hstable hwaiting hx hy

end Classes

end Table

end SymbolAutomata
