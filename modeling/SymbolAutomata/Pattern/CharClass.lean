/-
  SymbolAutomata/Pattern/CharClass.lean
  =====================================
  **Character classes** as sorted lists of intervals.

  Classes are classes of characters: the neighbours of a character skip the
  codepoints D800–DFFF, which no character has. A range may stretch over them all
  the same.
-/
import SymbolAutomata.Interval.Merged
import SymbolAutomata.Unicode.Fold

namespace SymbolAutomata.Pattern

/-- A set of characters, as intervals in order. -/
abbrev CharClass := List Interval

namespace CharClass

/-- The codepoint of the next character. -/
def after (c : Nat) : Nat := if c = 0xD7FF then 0xE000 else c + 1

/-- The codepoint of the character before; `c` is not 0. -/
def before (c : Nat) : Nat := if c = 0xE000 then 0xD7FF else c - 1

/-- The intervals between neighbours of a sorted list, and after the last of them up to `top`. -/
def gapsAfter (top : Nat) (i : Interval) : CharClass → CharClass
  | [] => if i.max < top then [Interval.between (after i.max) top] else []
  | j :: rest => Interval.between (after i.max) (before j.min) :: gapsAfter top j rest

/-- The characters up to `top` that are not in the class. -/
def negate (top : Nat) : CharClass → CharClass
  | [] => [Interval.between 0 top]
  | i :: rest => (if 0 < i.min then [Interval.between 0 (before i.min)] else []) ++ gapsAfter top i rest

def union (a b : CharClass) : CharClass := Interval.merged (a ++ b)

def intersect (a b : CharClass) : CharClass := a.flatMap fun i => b.filterMap i.intersect

/-- What is left of one interval when the intervals of a sorted list are taken out. -/
def cut (i : Interval) : CharClass → CharClass
  | [] => [i]
  | j :: rest =>
    if j.max < i.min then cut i rest
    else if i.max < j.min then [i]
    else
      let left := if i.min < j.min then [Interval.between i.min (before j.min)] else []
      if j.max < i.max then left ++ cut (Interval.between (after j.max) i.max) rest else left

def difference (a b : CharClass) : CharClass := a.flatMap (cut · b)

def symmetricDifference (a b : CharClass) : CharClass := difference (union a b) (intersect a b)

/-! ### Variants in case -/

def fold (a : CharClass) : CharClass :=
  Interval.merged (a ++ (Unicode.Fold.variants a).map Interval.single)

/-- The part of `[lo, hi]` in the class, moved by `distance`. -/
def shifted (a : CharClass) (lo hi : Nat) (distance : Int) : CharClass :=
  (intersect a [Interval.between lo hi]).map fun i =>
    Interval.between (i.min + distance).toNat (i.max + distance).toNat

/-- The class with the other case of its letters from A to Z. -/
def foldAscii (a : CharClass) : CharClass :=
  Interval.merged (a ++ shifted a 97 122 (-32) ++ shifted a 65 90 32)

end CharClass

end SymbolAutomata.Pattern
