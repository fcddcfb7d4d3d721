/-
  SymbolAutomata/Settings/Fault.lean
  ==================================
  **What can be wrong with a settings file**: it cannot be read, it cannot be
  understood, or it asks for a range without codepoints.
-/
import SymbolAutomata.Codec
import SymbolAutomata.Text.Quoted

namespace SymbolAutomata.Settings

inductive FileFault where
  | missing
  /-- A part of the path names a file where a directory is needed. -/
  | notDirectory
  | isDirectory
deriving DecidableEq

def FileFault.message : FileFault → String
  | missing => "No such file or directory (os error 2)"
  | notDirectory => "Not a directory (os error 20)"
  | isDirectory => "Is a directory (os error 21)"

/-- Why a file gives no settings. -/
inductive Fault where
  | unreadable (path : String) (fault : FileFault)
  | malformed (path : String)
  | emptyRange (min max : Codepoint)
  /-- A fault found by another source of settings, in its own words. -/
  | described (text : String)
deriving DecidableEq

def Fault.message : Fault → String
  | unreadable path fault =>
    "Failed to read config file " ++ Text.quote path ++ ": " ++ fault.message
  | malformed path => "Failed to parse config file " ++ Text.quote path
  | emptyRange min max =>
    "Empty codepoint range [" ++ toString min ++ ", " ++ toString max ++
      "] (codepoints go up to " ++ toString Codec.maxCodepoint ++ ")"
  | described text => text

end SymbolAutomata.Settings
