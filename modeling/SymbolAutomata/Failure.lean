/-
  SymbolAutomata/Failure.lean
  ===========================
  **Why an operation gives no answer.**

  A failure is a cause; `message` is the only place where its wording lives.
  State indices that do not exist are usually no failure: the operation is
  skipped and leaves a note (see `Automaton.Note`).
-/
import SymbolAutomata.Codec
import SymbolAutomata.Pattern.Fault
import SymbolAutomata.Settings.Fault

namespace SymbolAutomata

/-- Why a text is no word. -/
inductive WordFault where
  /-- The piece of the word that is no symbol. -/
  | badSymbol (piece word : String) (fault : Text.NumeralFault)
  /-- A fault found by another reader of words, in its own words. -/
  | described (text : String)
deriving DecidableEq

def WordFault.message : WordFault → String
  | badSymbol piece word fault =>
    "invalid symbol " ++ Text.quote piece ++ " in " ++ Text.quote word ++ ": " ++ fault.message
  | described text => text

/-- Why an operation gives no answer. -/
inductive Failure where
  /-- A state index at or above the number of states. -/
  | invalidState (index count : Nat)
  /-- The only destination was asked for where several are allowed. -/
  | nondeterministic
  /-- A symbol or codepoint outside the codec. -/
  | unknownSymbol (value : Int)
  | pattern (fault : Pattern.Fault)
  | word (fault : WordFault)
  | settings (fault : Settings.Fault)
  /-- The codepoint range given on the command line is empty. -/
  | emptyOverride (min max : Codepoint)
  /-- The drawing of an automaton cannot be written to a file. -/
  | unwritable (path : String)
  /-- Any other failure, in its own words. -/
  | described (text : String)
deriving DecidableEq

def Failure.message : Failure → String
  | invalidState index count =>
    "State " ++ toString index ++ " is not in the automaton (" ++ toString count ++ " states)"
  | nondeterministic => "Deterministic transition lookup on a non-deterministic automaton"
  | unknownSymbol value =>
    "Unknown symbol " ++ toString value ++ ". Only symbols in [0," ++ toString Codec.maxSymbol ++
      "] are allowed by the automaton"
  | pattern fault => "Pattern error: " ++ fault.message
  | word fault => "Parser error: " ++ fault.message
  | settings fault => "Configuration error: " ++ fault.message
  | emptyOverride min max =>
    "Empty codepoint range [" ++ toString min ++ ", " ++ toString max ++
      "] after command-line overrides"
  | unwritable path => "Failed to export automaton to " ++ Text.quote path
  | described text => text

/-- The codepoint of a symbol, or the failure that names the symbol. -/
def Codec.codepoint (s : Symbol) : Except Failure Codepoint :=
  match Codec.codepoint? s with
  | some c => .ok c
  | none => .error (.unknownSymbol s)

/-- The symbol of a codepoint, or the failure that names the codepoint. -/
def Codec.symbol (c : Codepoint) : Except Failure Symbol :=
  match Codec.symbol? c with
  | some s => .ok s
  | none => .error (.unknownSymbol c)

/-- What is done in two steps succeeds only if both steps do. -/
theorem exists_of_bind_eq_ok {α β : Type} {x : Except Failure α} {f : α → Except Failure β} {b : β}
    (h : x >>= f = .ok b) : ∃ a, x = .ok a ∧ f a = .ok b := by
  cases x with
  | error e => cases h
  | ok a => exact ⟨a, rfl, h⟩

/-- What is changed afterwards succeeds only if it was there. -/
theorem exists_of_map_eq_ok {α β : Type} {x : Except Failure α} {f : α → β} {b : β}
    (h : f <$> x = .ok b) : ∃ a, x = .ok a ∧ f a = b := by
  cases x with
  | error e => cases h
  | ok a => exact ⟨a, rfl, Except.ok.inj h⟩

end SymbolAutomata
