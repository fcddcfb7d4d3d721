/-
  SymbolAutomata/Text/Json.lean
  =============================
  **Writing JSON** over several lines, two blanks deeper at each level.

  Members of an object are written in the order given; whoever builds an object
  sorts its keys. An empty list or object takes no line of its own.
-/
import SymbolAutomata.Text.Numeral

namespace SymbolAutomata.Text

inductive Json where
  | null
  | bool (b : Bool)
  | num (n : Int)
  | str (s : String)
  | arr (items : List Json)
  | obj (members : List (String × Json))

namespace Json

def escape (c : Char) : List Char :=
  if c = '"' then ['\\', '"']
  else if c = '\\' then ['\\', '\\']
  else if c = '\n' then ['\\', 'n']
  else if c = '\r' then ['\\', 'r']
  else if c = '\t' then ['\\', 't']
  else if c.toNat = 8 then ['\\', 'b']
  else if c.toNat = 12 then ['\\', 'f']
  else if c.toNat < 0x20 then ['\\', 'u'] ++ (hexLower 4 c.toNat).toList
  else [c]

def quote (s : String) : String := String.ofList ('"' :: s.toList.flatMap escape ++ ['"'])

/-- A new line at the given depth. -/
def line (depth : Nat) : String := String.ofList ('\n' :: List.replicate (2 * depth) ' ')

/-- The items of a list or object between its brackets. -/
def enclose (opening closing : String) (depth : Nat) (items : List String) : String :=
  if items.isEmpty then opening ++ closing
  else
    opening ++ line (depth + 1) ++ String.intercalate ("," ++ line (depth + 1)) items ++
      line depth ++ closing

mutual

/-- The text of a value that stands at the given depth. -/
def render (depth : Nat) : Json → String
  | .null => "null"
  | .bool b => if b then "true" else "false"
  | .num n => toString n
  | .str s => quote s
  | .arr items => enclose "[" "]" depth (renderItems (depth + 1) items)
  | .obj members => enclose "\x7b" "\x7d" depth (renderMembers (depth + 1) members)

def renderItems (depth : Nat) : List Json → List String
  | [] => []
  | j :: rest => render depth j :: renderItems depth rest

def renderMembers (depth : Nat) : List (String × Json) → List String
  | [] => []
  | (key, j) :: rest => (quote key ++ ": " ++ render depth j) :: renderMembers depth rest

end

end Json

end SymbolAutomata.Text
