/-
  SymbolAutomata/Codec.lean
  =========================
  **Symbols and codepoints.**

  Solvers number their symbols `0, 1, 2, …` without gaps. Arcs are labelled by
  codepoints `0 … 0xFFFF`, and nine of these are reserved for the structure of
  patterns and stand for no symbol. Symbols are handed out to the remaining
  codepoints in increasing order, so every reserved codepoint shifts the symbols
  above it by one.

  `rank c` counts the symbols whose codepoints lie below `c`; both directions of
  the correspondence and the symbol range of a codepoint interval are read off it.
-/

namespace SymbolAutomata

/-- A symbol as the solver numbers it. Values outside the codec are allowed in the type and
    refused by `Codec.codepoint?`. -/
abbrev Symbol := Int

/-- A label on an arc. -/
abbrev Codepoint := Nat

namespace Codec

def minCodepoint : Codepoint := 0

def maxCodepoint : Codepoint := 0xFFFF

/-- The characters that structure patterns, in increasing order of codepoint. -/
def reservedChars : List Char := ['"', '(', ')', '<', '>', '[', ']', '\x7b', '\x7d']

/-- The codepoints that never stand for a symbol. -/
def reserved : List Codepoint := [34, 40, 41, 60, 62, 91, 93, 123, 125]

theorem reserved_eq : reserved = reservedChars.map Char.toNat := by decide

def isReserved (c : Codepoint) : Bool := reserved.contains c

def size : Nat := maxCodepoint - minCodepoint + 1 - reserved.length

def maxSymbol : Symbol := (size : Int) - 1

/-! ### The two directions -/

/-- How many codepoints below `c` stand for a symbol. -/
def rank (c : Codepoint) : Nat := c - (reserved.filter (· < c)).length

/-- The codepoint reached from `n` by stepping over each reserved codepoint on the way. -/
def place (n : Nat) : Codepoint := reserved.foldl (fun c r => if r ≤ c then c + 1 else c) n

/-- The codepoint of a symbol that has one. -/
def code (s : Symbol) : Codepoint := place s.toNat

def codepoint? (s : Symbol) : Option Codepoint :=
  if 0 ≤ s ∧ s ≤ maxSymbol then some (code s) else none

def symbol? (c : Codepoint) : Option Symbol :=
  if c ≤ maxCodepoint ∧ isReserved c = false then some (rank c) else none

/-- The first and the last symbol whose codepoints lie in `[lo, hi]`, if there is any. The
    correspondence is increasing, so all symbols between the two lie there as well. -/
def symbolSpan (lo hi : Codepoint) : Option (Symbol × Symbol) :=
  let first := rank lo
  let past := rank (Nat.min hi maxCodepoint + 1)
  if first < past then some (first, (past : Int) - 1) else none

end Codec

end SymbolAutomata
