/-
  SymbolAutomata/Word.lean
  ========================
  **Words as text**: symbols in decimal, separated by commas.

  Blanks around a piece are ignored, and so are empty pieces; the empty text is
  the empty word.
-/
import SymbolAutomata.Failure
import SymbolAutomata.Text.Blank

namespace SymbolAutomata.Word

open Text

/-- The symbol that a piece stands for. -/
def readPiece (word : String) (piece : List Char) : Except Failure Symbol :=
  match readSymbol piece with
  | .ok s => .ok s
  | .error fault => .error (.word (.badSymbol (String.ofList piece) word fault))

/-- Reads the pieces of a word. The first one that is no symbol makes it fail. -/
def readPieces (word : String) (pieces : List (List Char)) : Except Failure (List Symbol) :=
  ((pieces.map trim).filter (!·.isEmpty)).mapM (readPiece word)

/-- **Reads a word.** -/
def read (word : String) : Except Failure (List Symbol) :=
  readPieces word (word.toList.splitOn ',')

end SymbolAutomata.Word
