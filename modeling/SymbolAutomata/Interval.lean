/-
  SymbolAutomata/Interval.lean
  ============================
  **Closed intervals of natural numbers**, the labels of every arc.

  An interval carries the proof that its bounds are in order, so a label is
  never empty and every operation below has to say where its bounds come from.
  `contains` is the view of an interval: each operation is pinned down by what
  it does to the numbers contained.
-/

namespace SymbolAutomata

/-- The closed interval `[min, max]`; it holds at least one number. -/
structure Interval where
  min : Nat
  max : Nat
  min_le_max : min ≤ max
deriving DecidableEq

namespace Interval

/-! ### Building and asking -/

/-- The interval with the two given bounds, whichever of them is the smaller. -/
def between (a b : Nat) : Interval :=
  if h : a ≤ b then ⟨a, b, h⟩ else ⟨b, a, by omega⟩

def single (c : Nat) : Interval := ⟨c, c, Nat.le_refl c⟩

def contains (i : Interval) (c : Nat) : Bool := decide (i.min ≤ c ∧ c ≤ i.max)

theorem contains_iff {i : Interval} {c : Nat} : i.contains c = true ↔ i.min ≤ c ∧ c ≤ i.max := by
  simp [contains]

theorem contains_min (i : Interval) : i.contains i.min = true :=
  contains_iff.2 ⟨Nat.le_refl _, i.min_le_max⟩

theorem contains_max (i : Interval) : i.contains i.max = true :=
  contains_iff.2 ⟨i.min_le_max, Nat.le_refl _⟩

@[simp] theorem contains_single {c d : Nat} : (single c).contains d = true ↔ d = c := by
  simp only [contains_iff, single]
  omega

theorem contains_between {a b c : Nat} :
    (between a b).contains c = true ↔ (a ≤ c ∧ c ≤ b) ∨ (b ≤ c ∧ c ≤ a) := by
  unfold between
  split <;> simp only [contains_iff] <;> omega

@[ext] theorem ext {i j : Interval} (h₁ : i.min = j.min) (h₂ : i.max = j.max) : i = j := by
  cases i
  cases j
  simp_all

/-! ### Cutting -/

/-- The part of the interval inside `[lo, hi]`, if there is one. -/
def clip (i : Interval) (lo hi : Nat) : Option Interval :=
  if h : Nat.max i.min lo ≤ Nat.min i.max hi then some ⟨_, _, h⟩ else none

def intersect (i j : Interval) : Option Interval := i.clip j.min j.max

/-- **A clipped interval** holds exactly the numbers of the interval inside the bounds. -/
theorem contains_clip {i : Interval} {lo hi c : Nat} :
    (∃ j, i.clip lo hi = some j ∧ j.contains c = true) ↔ i.contains c = true ∧ lo ≤ c ∧ c ≤ hi := by
  unfold clip
  constructor
  · rintro ⟨j, hj, hc⟩
    split at hj
    · obtain rfl := Option.some.inj hj
      simp only [contains_iff, Nat.max_def, Nat.min_def] at *
      split at hc <;> split at hc <;> omega
    · contradiction
  · rintro ⟨hc, hlo, hhi⟩
    simp only [contains_iff] at hc
    have h : Nat.max i.min lo ≤ Nat.min i.max hi := by
      simp only [Nat.max_def, Nat.min_def]
      split <;> split <;> omega
    refine ⟨⟨_, _, h⟩, by simp [h], ?_⟩
    simp only [contains_iff, Nat.max_def, Nat.min_def]
    split <;> split <;> omega

/-- What is left of the interval on either side of `c`. An interval that does not hold `c` is
    returned whole on the side where it lies. -/
def splitAround (i : Interval) (c : Nat) : Option Interval × Option Interval :=
  if h : i.min ≤ c ∧ c ≤ i.max then
    (if hl : i.min < c then some ⟨i.min, c - 1, by omega⟩ else none,
     if hr : c < i.max then some ⟨c + 1, i.max, by omega⟩ else none)
  else if i.max < c then (some i, none)
  else (none, some i)

/-! ### Joining -/

/-- Whether the two intervals overlap or follow each other without a gap. -/
def touches (i j : Interval) : Bool := decide (j.min ≤ i.max + 1 ∧ i.min ≤ j.max + 1)

/-- Where numbers end at `top`, the count above an interval may as well stop there. -/
theorem touches_iff_of_le {i j : Interval} {top : Nat} (hi : i.max ≤ top) (hj : j.max ≤ top) :
    i.touches j = true ↔ j.min ≤ Nat.min (i.max + 1) top ∧ i.min ≤ Nat.min (j.max + 1) top := by
  have hile := i.min_le_max
  have hjle := j.min_le_max
  simp only [touches, decide_eq_true_eq, Nat.le_min]
  omega

/-- The interval stretched upwards to reach the end of `j`. -/
def extend (i j : Interval) : Interval :=
  ⟨i.min, Nat.max i.max j.max, Nat.le_trans i.min_le_max (Nat.le_max_left _ _)⟩

/-! ### Order and text -/

def precedes (i j : Interval) : Bool := i.min < j.min || (i.min == j.min && i.max ≤ j.max)

def compare (i j : Interval) : Ordering :=
  (Ord.compare i.min j.min).then (Ord.compare i.max j.max)

/-- One number is written alone, more than one as `[min-max]`. -/
def render (i : Interval) : String :=
  if i.min = i.max then toString i.min else "[" ++ toString i.min ++ "-" ++ toString i.max ++ "]"

end Interval

end SymbolAutomata
