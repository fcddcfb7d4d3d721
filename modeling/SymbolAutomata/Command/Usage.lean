/-
  SymbolAutomata/Command/Usage.lean
  =================================
  **Why arguments do not make up a command.**

  Asking for help or for the version is one of the reasons: such arguments are
  answered instead of being carried out.
-/

namespace SymbolAutomata.Command

/-- Why arguments are not carried out. -/
inductive Usage where
  | help
  | version
  /-- There are no arguments at all. -/
  | noArguments
  /-- There are options but no command. -/
  | noCommand
  | unknownCommand
  /-- An option or value that the command has no place for. -/
  | unknownArgument
  /-- A required argument is missing. -/
  | missingArgument
  /-- An option without its value, or a value that is not among those allowed. -/
  | invalidValue
  /-- A number that cannot be read or is out of range. -/
  | badNumber
  /-- An argument that may be given once is given again. -/
  | repeated
  /-- A value for an option that takes none. -/
  | unneededValue
deriving DecidableEq

/-- The word for the reason in messages. -/
def Usage.name : Usage → String
  | help => "DisplayHelp"
  | version => "DisplayVersion"
  | noArguments => "DisplayHelpOnMissingArgumentOrSubcommand"
  | noCommand => "MissingSubcommand"
  | unknownCommand => "InvalidSubcommand"
  | unknownArgument => "UnknownArgument"
  | missingArgument => "MissingRequiredArgument"
  | invalidValue => "InvalidValue"
  | badNumber => "ValueValidation"
  | repeated => "ArgumentConflict"
  | unneededValue => "TooManyValues"

end SymbolAutomata.Command
