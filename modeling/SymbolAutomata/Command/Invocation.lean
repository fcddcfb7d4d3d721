/-
  SymbolAutomata/Command/Invocation.lean
  ======================================
  **What the arguments ask for.**

  There are three commands: `compile` prints the automaton of a pattern, `run`
  tests words against a pattern, and `symbol` goes between symbols and
  codepoints. The options for the settings file and the log level may stand
  before or after the command; after it they win.
-/
import SymbolAutomata.Codec
import SymbolAutomata.Command.Arguments
import SymbolAutomata.Text.Numeral

namespace SymbolAutomata.Command

inductive Format where
  | json | dot | table
deriving DecidableEq

def formats : List (String × Format) := [("json", .json), ("dot", .dot), ("table", .table)]

/-- A command with its arguments. Bounds that are not given come from the settings. -/
inductive Request where
  | compile (pattern : String) (min max : Option Codepoint) (minimize : Bool) (format : Format)
      (file : Option String)
  | run (pattern : String) (words : List String) (min max : Option Codepoint)
  | symbol (value : Int) (reverse : Bool)
deriving DecidableEq

/-- A command and where its settings come from. -/
structure Invocation where
  settings? : Option String
  logLevel? : Option String
  request : Request
deriving DecidableEq

/-! ### Values -/

/-- A whole number of 64 bits within bounds. -/
def number? (lo hi : Int) (text : String) : Option Int :=
  match Text.readInt Text.least64 Text.greatest64 text.toList with
  | .ok n => if lo ≤ n && n ≤ hi then some n else none
  | .error _ => none

/-- A codepoint of at most 32 bits. -/
def codepoint? (text : String) : Option Codepoint := (number? 0 Text.natural32 text).map Int.toNat

/-- A number that may be a symbol. -/
def value? (text : String) : Option Int := number? Text.least64 Text.greatest64 text

/-- What is wrong with the value of an argument. -/
def check (key : Key) (v : String) : Option Usage :=
  match key with
  | .config | .file => if v.isEmpty then some .invalidValue else none
  | .output => if (formats.lookup v).isSome then none else some .invalidValue
  | .min | .max => if (codepoint? v).isSome then none else some .badNumber
  | .value => if (value? v).isSome then none else some .badNumber
  | _ => none

/-! ### Grammars -/

/-- The options that may stand anywhere. -/
def sharedOptions : List Opt :=
  [⟨"config", some 'c', .single .config⟩, ⟨"log-level", none, .single .logLevel⟩,
   ⟨"help", some 'h', .help⟩]

/-- The options of the two commands that read a pattern. -/
def patternOptions : List Opt :=
  [⟨"pattern", some 'p', .single .pattern⟩, ⟨"min", none, .single .min⟩, ⟨"max", none, .single .max⟩]

/-- What may stand before a command. -/
def topGrammar : Grammar where
  options := ⟨"version", some 'V', .version⟩ :: sharedOptions
  operand? := none
  commands := ["compile", "run", "symbol", "help"]
  required := []

def compileGrammar : Grammar where
  options := patternOptions ++
    [⟨"no-minimize", none, .switch .noMinimize⟩, ⟨"output", some 'o', .single .output⟩,
     ⟨"file", some 'f', .single .file⟩] ++ sharedOptions
  operand? := none
  commands := []
  required := [.pattern]

def runGrammar : Grammar where
  options := patternOptions ++ [⟨"word", some 'w', .many .word⟩] ++ sharedOptions
  operand? := none
  commands := []
  required := [.pattern, .word]

def symbolGrammar : Grammar where
  options := ⟨"reverse", some 'r', .switch .reverse⟩ :: sharedOptions
  operand? := some .value
  commands := []
  required := [.value]

/-! ### Requests -/

/-- Reads the arguments of one command. -/
def readCommand (g : Grammar) (args : List String) : Except Usage Collected := do
  (← readArguments g check .start false false args).collected.finish g check

def compileRequest (c : Collected) : Request :=
  .compile ((c.value? .pattern).getD "") ((c.value? .min).bind codepoint?)
    ((c.value? .max).bind codepoint?) (!c.has .noMinimize)
    (((c.value? .output).bind fun v => formats.lookup v).getD .table) (c.value? .file)

def runRequest (c : Collected) : Request :=
  .run ((c.value? .pattern).getD "") (c.values .word) ((c.value? .min).bind codepoint?)
    ((c.value? .max).bind codepoint?)

def symbolRequest (c : Collected) : Request :=
  .symbol (((c.value? .value).bind value?).getD 0) (c.has .reverse)

/-- The command that help is asked for has to exist, and no command has commands of its own. -/
def helpUsage : List String → Usage
  | [] => .help
  | [name] => if topGrammar.commands.contains name then .help else .unknownCommand
  | _ => .unknownCommand

/-- Reads a command by its name. -/
def readRequest (name : String) (args : List String) : Except Usage (Request × Collected) :=
  match name with
  | "compile" => do
    let c ← readCommand compileGrammar args
    return (compileRequest c, c)
  | "run" => do
    let c ← readCommand runGrammar args
    return (runRequest c, c)
  | "symbol" => do
    let c ← readCommand symbolGrammar args
    return (symbolRequest c, c)
  | _ => .error (helpUsage args)

/-- **Reads all arguments.** Those before the command are checked after those of the command. -/
def Invocation.ofArguments (args : List String) : Except Usage Invocation := do
  let reading ← readArguments topGrammar check .start false false args
  match reading.command? with
  | none =>
    let c ← reading.collected.finish topGrammar check
    .error (if c.given.isEmpty then .noArguments else .noCommand)
  | some (name, rest) =>
    let (request, inner) ← readRequest name rest
    let outer ← reading.collected.finish topGrammar check
    return {
      settings? := (inner.value? .config).or (outer.value? .config)
      logLevel? := (inner.value? .logLevel).or (outer.value? .logLevel)
      request }

end SymbolAutomata.Command
