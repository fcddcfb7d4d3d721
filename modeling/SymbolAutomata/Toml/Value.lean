/-
  SymbolAutomata/Toml/Value.lean
  ==============================
  **TOML values and how tables grow.**

  The lines of a document add to tables that earlier lines have made. What may be
  added depends on how a table was made: a header makes a table once, a table
  that is only passed on the way to a deeper one may still get its header, keys
  with dots add to tables made by such keys, and a table written in braces is
  complete.
-/

namespace SymbolAutomata.Toml

/-- How a table came to be. -/
inductive Made where
  | header
  /-- On the way to a deeper header. -/
  | passed
  | dotted
  | braces
deriving DecidableEq

/-- A TOML value. Numbers with a fraction, dates and times are all `other`: no setting takes them. -/
inductive Value where
  | text (s : String)
  | integer (n : Int)
  | boolean (b : Bool)
  | other
  | array (items : List Value)
  /-- An array of tables, each item made by a header. -/
  | tables (items : List (List (String × Value)))
  | table (made : Made) (members : List (String × Value))

/-- The members of a table, in order. -/
abbrev Members := List (String × Value)

namespace Members

/-- Replaces the value of a key that is there, or adds the key at the end. -/
def put (ms : Members) (key : String) (v : Value) : Members :=
  if (ms.lookup key).isSome then ms.map fun m => if m.1 = key then (key, v) else m
  else ms ++ [(key, v)]

/-- Changes the table at the end of a path, making the tables on the way. `dotted` says whether the
    path belongs to a key; such a path only passes tables that no header has made. An array of
    tables is passed through its last item. -/
def changeAt (dotted : Bool) (made : Made) (change : Made → Members → Option Members) :
    List String → Members → Option Members
  | [], ms => change made ms
  | key :: path, ms =>
    match ms.lookup key with
    | none => do
      let new := if dotted then .dotted else .passed
      return ms ++ [(key, .table new (← changeAt dotted new change path []))]
    | some (.table inner members) =>
      if inner = .braces || (dotted && inner = .header) then none
      else do return ms.put key (.table inner (← changeAt dotted inner change path members))
    | some (.tables items) => do
      let last ← items.getLast?
      return ms.put key (.tables (items.dropLast ++ [← changeAt dotted .header change path last]))
    | some _ => none

/-- Adds a new key to a table. With dots before the key the table has to be one made by such
    keys. -/
def addKey (dotted : Bool) (key : String) (v : Value) (made : Made) (ms : Members) :
    Option Members :=
  if (ms.lookup key).isSome || dotted != decide (made = .dotted) then none
  else some (ms ++ [(key, v)])

/-- Adds the value of a key with dots to a table. -/
def addDotted (made : Made) (path : List String) (key : String) (v : Value) (ms : Members) :
    Option Members :=
  changeAt true made (addKey (!path.isEmpty) key v) path ms

def makeTable (key : String) (_ : Made) (ms : Members) : Option Members :=
  match ms.lookup key with
  | none => some (ms ++ [(key, .table .header [])])
  | some (.table .passed members) => some (ms.put key (.table .header members))
  | some _ => none

/-- Adds the next item to an array of tables. -/
def makeItem (key : String) (_ : Made) (ms : Members) : Option Members :=
  match ms.lookup key with
  | none => some (ms ++ [(key, .tables [[]])])
  | some (.tables items) => some (ms.put key (.tables (items ++ [[]])))
  | some _ => none

end Members

/-! ### Documents -/

/-- What one line of a document says. -/
inductive Statement where
  | table (path : List String) (key : String)
  | item (path : List String) (key : String)
  /-- A key, with what stands before its last dot, and its value. -/
  | member (path : List String) (key : String) (v : Value)

/-- A document that is being put together: all members so far and the path of the last header. -/
structure Document where
  members : Members
  current : List String

def Document.empty : Document := ⟨[], []⟩

/-- Adds a line to a document, unless it contradicts an earlier one. -/
def Document.add (d : Document) : Statement → Option Document
  | .table path key => do
    return ⟨← Members.changeAt false .header (Members.makeTable key) path d.members, path ++ [key]⟩
  | .item path key => do
    return ⟨← Members.changeAt false .header (Members.makeItem key) path d.members, path ++ [key]⟩
  | .member path key v => do
    let add (made : Made) (ms : Members) := Members.addDotted made path key v ms
    return { d with members := ← Members.changeAt false .header add d.current d.members }

/-- The members of the document with the given lines. -/
def ofStatements? (lines : List Statement) : Option Members := do
  return (← lines.foldlM Document.add Document.empty).members

end SymbolAutomata.Toml
