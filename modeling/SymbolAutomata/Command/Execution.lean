/-
  SymbolAutomata/Command/Execution.lean
  =====================================
  **Carrying out a command** on the files it may see.

  The outcome holds what is printed, the files afterwards and the failure that
  ended the command early, if any; what was printed before it stays printed.
-/
import SymbolAutomata.Automaton.Drawing
import SymbolAutomata.Automaton.Report
import SymbolAutomata.Command.Invocation
import SymbolAutomata.Pattern.Standard
import SymbolAutomata.Settings.Basic
import SymbolAutomata.Word

namespace SymbolAutomata.Command

open Settings (FileTree)

/-- What comes of a command. -/
structure Outcome where
  printed : String
  files : FileTree
  failure? : Option Failure

/-- The outcome of a command that prints or fails. -/
def Outcome.of (t : FileTree) : Except Failure String → Outcome
  | .ok text => ⟨text, t, none⟩
  | .error f => ⟨"", t, some f⟩

/-- The automaton of a pattern within the bounds given, or else within those of the settings. -/
def automatonOf (s : Settings) (pattern : String) (min max : Option Codepoint) (minimize : Bool) :
    Except Failure Automaton :=
  let min := min.getD s.min
  let max := max.getD s.max
  if max < min then .error (.emptyOverride min max)
  else Automaton.ofPattern pattern min max minimize

/-! ### The commands -/

/-- Prints an automaton. A drawing may go to a file instead. -/
def present (s : Settings) (t : FileTree) (pattern : String) (format : Format)
    (file : Option String) (a : Automaton) : Outcome :=
  match format, file with
  | .json, _ => ⟨a.jsonReport pattern, t, none⟩
  | .table, _ => ⟨a.tableReport pattern, t, none⟩
  | .dot, none => ⟨a.draw s.rankdir, t, none⟩
  | .dot, some path =>
    match t.write path (a.draw s.rankdir) with
    | .ok t => ⟨"", t, none⟩
    | .error _ => ⟨"", t, some (.unwritable path)⟩

def verdict (a : Automaton) (word : String) : Except Failure String := do
  let accepted ← a.run (← Word.read word)
  return "[" ++ word ++ "] " ++ (if accepted then "accepted" else "rejected") ++ "\n"

/-- The lines for several words, up to the first that fails. -/
def verdicts (a : Automaton) : List String → String × Option Failure
  | [] => ("", none)
  | word :: rest =>
    match verdict a word with
    | .error f => ("", some f)
    | .ok line =>
      let (lines, failure?) := verdicts a rest
      (line ++ lines, failure?)

def hex (c : Codepoint) : String := "0x" ++ Text.hexLower 4 c

/-- The line for a symbol and its codepoint. The number given is the symbol, or the codepoint if
    `reverse` is set; a codepoint has at most 32 bits. -/
def correspondence (value : Int) (reverse : Bool) : Except Failure String :=
  if reverse then
    if 0 ≤ value && value ≤ Text.natural32 then do
      let c := value.toNat
      let s ← Codec.symbol c
      return "codepoint " ++ hex c ++ " -> symbol " ++ toString s ++ "\n"
    else .error (.unknownSymbol value)
  else do
    let c ← Codec.codepoint value
    return "symbol " ++ toString value ++ " -> codepoint " ++ hex c ++ "\n"

/-- Carries out a request under the given settings. -/
def Request.perform (s : Settings) (t : FileTree) : Request → Outcome
  | .compile pattern min max minimize format file =>
    match automatonOf s pattern min max (s.minimize && minimize) with
    | .ok a => present s t pattern format file a
    | .error f => ⟨"", t, some f⟩
  | .run pattern words min max =>
    match automatonOf s pattern min max s.minimize with
    | .ok a =>
      let (lines, failure?) := verdicts a words
      ⟨lines, t, failure?⟩
    | .error f => ⟨"", t, some f⟩
  | .symbol value reverse => Outcome.of t (correspondence value reverse)

/-- The files that may hold the settings of an invocation. -/
def Invocation.sources (i : Invocation) (home? : Option String) : List String :=
  match i.settings? with
  | some path => [path]
  | none => Settings.places home?

/-- **Carries out an invocation**: settings first, then the request. -/
def Invocation.perform (i : Invocation) (t : FileTree) (home? : Option String) : Outcome :=
  let settings := match i.settings? with
    | some path => Settings.ofFile t path
    | none => Settings.load t home?
  match settings with
  | .ok s => i.request.perform s t
  | .error fault => ⟨"", t, some (.settings fault)⟩

end SymbolAutomata.Command
