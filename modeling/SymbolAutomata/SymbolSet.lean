/-
  SymbolAutomata/SymbolSet.lean
  =============================
  **Sets of symbols** and the runs of consecutive symbols they fall into.

  Alphabets may hold every symbol of the codec, so they are search trees. Two
  sets with the same members are equal.
-/
import Std.Data.ExtTreeSet
import SymbolAutomata.Codec

namespace SymbolAutomata

/-- A finite set of symbols. -/
abbrev SymbolSet := Std.ExtTreeSet Symbol compare

namespace SymbolSet

def ofList (symbols : List Symbol) : SymbolSet := Std.ExtTreeSet.ofList symbols compare

def between (set : SymbolSet) (first last : Symbol) : List Symbol :=
  set.toList.filter fun s => first ≤ s && s ≤ last

def span (first last : Symbol) : List Symbol :=
  (List.range (last + 1 - first).toNat).map fun (k : Nat) => first + (k : Int)

theorem mem_span {first last s : Symbol} : s ∈ span first last ↔ first ≤ s ∧ s ≤ last := by
  simp only [span, List.mem_map, List.mem_range]
  constructor
  · rintro ⟨k, hk, rfl⟩
    simp only [Symbol] at *
    omega
  · rintro ⟨h₁, h₂⟩
    simp only [Symbol] at *
    exact ⟨(s - first).toNat, by omega, by omega⟩

/-! ### Runs -/

/-- The maximal runs of consecutive symbols in an increasing list. `first` and `last` are the ends
    of the run read so far. -/
def runsFrom (first last : Symbol) : List Symbol → List (Symbol × Symbol)
  | [] => [(first, last)]
  | s :: rest =>
    if s = last + 1 then runsFrom first s rest else (first, last) :: runsFrom s s rest

/-- The maximal runs of consecutive symbols in an increasing list, each by its ends. -/
def runs : List Symbol → List (Symbol × Symbol)
  | [] => []
  | s :: rest => runsFrom s s rest

end SymbolSet

end SymbolAutomata
