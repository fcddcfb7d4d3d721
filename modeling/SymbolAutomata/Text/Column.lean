/-
  SymbolAutomata/Text/Column.lean
  ===============================
  **Columns of a fixed width.** Text that is wider than its column is written in
  full.
-/

namespace SymbolAutomata.Text

/-- The blanks that fill a text up to a width. -/
def filling (width : Nat) (text : String) : String :=
  String.ofList (List.replicate (width - text.length) ' ')

def alignLeft (width : Nat) (text : String) : String := text ++ filling width text

def alignRight (width : Nat) (text : String) : String := filling width text ++ text

/-- A line of one character, repeated. -/
def rule (width : Nat) (c : Char) : String := String.ofList (List.replicate width c)

end SymbolAutomata.Text
