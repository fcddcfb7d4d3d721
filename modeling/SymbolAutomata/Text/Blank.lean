/-
  SymbolAutomata/Text/Blank.lean
  ==============================
  **Blank characters** and trimming.

  The blanks are the characters with the Unicode property White_Space.
-/
import SymbolAutomata.Interval

namespace SymbolAutomata.Text

/-- The codepoints of all blanks. -/
def blankRanges : List Interval :=
  [.between 0x09 0x0D, .single 0x20, .single 0x85, .single 0xA0, .single 0x1680,
   .between 0x2000 0x200A, .between 0x2028 0x2029, .single 0x202F, .single 0x205F,
   .single 0x3000]

def isBlank (c : Char) : Bool := blankRanges.any (·.contains c.toNat)

/-- The text without the blanks at its two ends. -/
def trim (text : List Char) : List Char :=
  ((text.dropWhile isBlank).reverse.dropWhile isBlank).reverse

end SymbolAutomata.Text
