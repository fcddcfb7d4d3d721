/-
  SymbolAutomata/Settings/Basic.lean
  ==================================
  **Settings** and where they come from.

  A settings file is a TOML document with three tables. Whatever it leaves out
  keeps its default and whatever else it holds is ignored. A table may also be
  written as an array of its values in order.
-/
import SymbolAutomata.Settings.FileTree
import SymbolAutomata.Toml.Reader

namespace SymbolAutomata

open Toml (Value Members)

/-- What a user can set. -/
structure Settings where
  /-- The lowest codepoint that patterns keep. -/
  min : Codepoint
  /-- The highest codepoint that patterns keep. -/
  max : Codepoint
  minimize : Bool
  /-- How much is logged. -/
  level : String
  /-- The direction in which drawings are laid out. -/
  rankdir : String
deriving DecidableEq

namespace Settings

/-- The settings in force where a file says nothing. -/
def default : Settings where
  min := Codec.minCodepoint
  max := Codec.maxCodepoint
  minimize := true
  level := "info"
  rankdir := "LR"

/-! ### Reading values -/

/-- The value of a field: by its name in a table, by its position in an array. A value that is
    neither has no fields. -/
def field? (v : Value) (name : String) (position : Nat) : Option (Option Value) :=
  match v with
  | .table _ members => some (members.lookup name)
  | .array items => some items[position]?
  | .tables items => some ((items[position]?).map (.table .header))
  | _ => none

/-- Reads a value that may be missing. -/
def orDefault {α : Type} (fallback : α) (read : Value → Option α) : Option Value → Option α
  | none => some fallback
  | some v => read v

/-- A codepoint: a whole number of at most 32 bits. -/
def codepoint? : Value → Option Codepoint
  | .integer n => if 0 ≤ n && n ≤ Text.natural32 then some n.toNat else none
  | _ => none

def boolean? : Value → Option Bool
  | .boolean b => some b
  | _ => none

def text? : Value → Option String
  | .text s => some s
  | _ => none

/-- Reads the table of automaton settings on top of some settings. -/
def withAutomaton (s : Settings) (v : Value) : Option Settings := do
  let min ← orDefault s.min codepoint? (← field? v "min" 0)
  let max ← orDefault s.max codepoint? (← field? v "max" 1)
  let minimize ← orDefault s.minimize boolean? (← field? v "minimize" 2)
  return { s with min, max, minimize }

/-- Reads the table of logging settings. -/
def withLogging (s : Settings) (v : Value) : Option Settings := do
  return { s with level := ← orDefault s.level text? (← field? v "level" 0) }

/-- Reads the table of drawing settings. -/
def withExport (s : Settings) (v : Value) : Option Settings := do
  return { s with rankdir := ← orDefault s.rankdir text? (← field? v "rankdir" 0) }

/-- The settings of a document. -/
def ofDocument? (document : Members) : Option Settings := do
  let s ← orDefault default (withAutomaton default) (document.lookup "automaton")
  let s ← orDefault s (withLogging s) (document.lookup "logging")
  orDefault s (withExport s) (document.lookup "export")

/-! ### Reading files -/

/-- Refuses a range without codepoints. -/
def validate (s : Settings) : Except Fault Settings :=
  if s.max < s.min || Codec.maxCodepoint < s.min then .error (.emptyRange s.min s.max) else .ok s

/-- The settings that the text of a file gives. -/
def ofText (path text : String) : Except Fault Settings :=
  match Toml.read text >>= ofDocument? with
  | none => .error (.malformed path)
  | some s => validate s

/-- **The settings of a file.** -/
def ofFile (t : FileTree) (path : String) : Except Fault Settings :=
  match t.read path with
  | .error fault => .error (.unreadable path fault)
  | .ok text => ofText path text

/-- Where settings are looked for: in the working directory, below the home directory, and last in
    the place for all users. -/
def places (home? : Option String) : List String :=
  "cp-automaton.toml" ::
    ((home?.map (· ++ "/.cp-automaton/config.toml")).toList ++ ["/etc/cp-automaton/config.toml"])

/-- **The settings of the first file there is**, or the default. -/
def load (t : FileTree) (home? : Option String) : Except Fault Settings :=
  match (places home?).find? fun path => (t.find? path).isSome with
  | some path => ofFile t path
  | none => .ok default

end Settings

end SymbolAutomata
