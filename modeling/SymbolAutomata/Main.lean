/-
  SymbolAutomata/Main.lean
  ========================
  **The program.** It reads the files that may hold settings, carries out its
  arguments, prints what comes of them and writes the drawing that they ask for.
-/
import SymbolAutomata.Command.Execution

namespace SymbolAutomata.Command

open Settings (FileTree)

/-- Adds what stands at a path to a tree: a text, or else a directory. -/
def look (t : FileTree) (path : String) : IO FileTree := do
  let names := FileTree.place path
  try
    let text ← IO.FS.readFile path
    return { t with files := (names, text) :: t.files }
  catch
    | .noFileOrDirectory .. => return t
    | _ => return { t with directories := names :: t.directories }

/-- Writes the drawing of an outcome to its file. -/
def store (path : String) (after : FileTree) : IO Bool := do
  match after.files.lookup (FileTree.place path) with
  | none => return true
  | some text =>
    try
      IO.FS.writeFile path text
      return true
    catch _ => return false

/-- The file that a request writes its drawing to. -/
def Request.target? : Request → Option String
  | .compile _ _ _ _ .dot file => file
  | _ => none

/-- Prints the reason for which arguments are not carried out. -/
def refuse (usage : Usage) : IO UInt32 := do
  match usage with
  | .help | .version =>
    IO.println usage.name
    return 0
  | _ =>
    IO.eprintln usage.name
    return 2

/-- Carries out an invocation. Whether its drawing can be written shows when it is. -/
def carryOut (invocation : Invocation) : IO UInt32 := do
  let home? ← IO.getEnv "HOME"
  let seen ← (invocation.sources home?).foldlM look ⟨[], []⟩
  let target? := invocation.request.target?
  let room := target?.toList.map fun path => (FileTree.place path).dropLast
  let outcome := invocation.perform { seen with directories := room ++ seen.directories } home?
  IO.print outcome.printed
  let failure? ← match outcome.failure?, target? with
    | none, some path =>
      pure (if ← store path outcome.files then none else some (Failure.unwritable path))
    | failure?, _ => pure failure?
  match failure? with
  | none => return 0
  | some failure =>
    IO.eprintln ("Error: " ++ failure.message)
    return 1

end SymbolAutomata.Command

open SymbolAutomata.Command in
def main (args : List String) : IO UInt32 :=
  match Invocation.ofArguments args with
  | .ok invocation => carryOut invocation
  | .error usage => refuse usage
