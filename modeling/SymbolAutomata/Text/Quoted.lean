/-
  SymbolAutomata/Text/Quoted.lean
  ===============================
  **Quoted text** for messages.

  Text is put between quotation marks so that every character can be told apart
  when it is read: the mark in use, the backslash and the common controls get
  short escapes; a character that shows nothing of its own, or that joins onto
  the one before it, is written by its number.
-/
import SymbolAutomata.Text.Numeral
import SymbolAutomata.Unicode.Category

namespace SymbolAutomata.Text

open Unicode (Category)

/-- Spacing and format characters that extend the character before them, beside all nonspacing
    and enclosing marks. -/
def extenders : List Interval :=
  [.single 0x09BE, .single 0x09D7, .single 0x0B3E, .single 0x0B57, .single 0x0BBE,
   .single 0x0BD7, .single 0x0CC0, .single 0x0CC2, .between 0x0CC7 0x0CC8,
   .between 0x0CCA 0x0CCB, .between 0x0CD5 0x0CD6, .single 0x0D3E, .single 0x0D57,
   .single 0x0DCF, .single 0x0DDF, .single 0x1715, .single 0x1734, .single 0x1B35,
   .single 0x1B3B, .single 0x1B3D, .between 0x1B43 0x1B44, .single 0x1BAA,
   .between 0x1BF2 0x1BF3, .single 0x200C, .between 0x302E 0x302F, .single 0xA953,
   .single 0xA9C0, .between 0xFF9E 0xFF9F, .single 0x111C0, .single 0x11235,
   .single 0x1133E, .single 0x1134D, .single 0x11357, .single 0x113B8, .single 0x113C2,
   .single 0x113C5, .between 0x113C7 0x113C9, .single 0x113CF, .single 0x114B0,
   .single 0x114BD, .single 0x115AF, .single 0x116B6, .single 0x11930, .single 0x1193D,
   .between 0x16FF0 0x16FF1, .between 0x1D165 0x1D166, .between 0x1D16D 0x1D172,
   .between 0xE0020 0xE007F]

/-- Whether a character can stand for itself inside quotation marks. -/
def isPlain (c : Char) : Bool :=
  if c.toNat < 0x7F then 0x20 ≤ c.toNat
  else
    match Category.of c.toNat with
    | .nonspacing | .enclosing => false
    | .control | .format | .surrogate | .personal | .unassigned => false
    | .space | .line | .paragraph => false
    | _ => !extenders.any (·.contains c.toNat)

/-- One character between quotation marks `mark`. -/
def escape (mark c : Char) : List Char :=
  if c = mark then ['\\', c]
  else if c = '\\' then ['\\', '\\']
  else if c = '\n' then ['\\', 'n']
  else if c = '\r' then ['\\', 'r']
  else if c = '\t' then ['\\', 't']
  else if c.toNat = 0 then ['\\', '0']
  else if isPlain c then [c]
  else ['\\', 'u', '\x7b'] ++ (hexLower 1 c.toNat).toList ++ ['\x7d']

def quote (text : String) : String :=
  String.ofList ('"' :: text.toList.flatMap (escape '"') ++ ['"'])

def quoteChar (c : Char) : String :=
  String.ofList ('\'' :: escape '\'' c ++ ['\''])

end SymbolAutomata.Text
