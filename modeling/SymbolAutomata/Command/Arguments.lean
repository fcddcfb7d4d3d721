/-
  SymbolAutomata/Command/Arguments.lean
  =====================================
  **Collecting options and values.**

  Options have a long name and perhaps a letter. A value may follow as the next
  argument, after an equals sign, or directly after the letter. Letters of
  options without a value may be joined. After `--` everything is a value.

  The value of an option is checked when the next option or value is taken up, or
  at the end. An option that does not exist is reported before a value that is
  still to be checked.
-/
import SymbolAutomata.Command.Usage

namespace SymbolAutomata.Command

/-- What can be given on the command line. -/
inductive Key where
  | config | logLevel | pattern | word | min | max | noMinimize | output | file | value | reverse
deriving DecidableEq

/-- What an option does. -/
inductive Effect where
  | switch (key : Key)
  /-- Takes a value, once. -/
  | single (key : Key)
  /-- Takes a value each time it is given. -/
  | many (key : Key)
  | help
  | version
deriving DecidableEq

structure Opt where
  long : String
  letter? : Option Char
  effect : Effect

/-- What a command takes. -/
structure Grammar where
  options : List Opt
  /-- What a value that belongs to no option is for. Only one such value is taken. It may be a
      negative number. -/
  operand? : Option Key
  /-- Whether another command follows. -/
  commands : List String
  required : List Key

/-- What has been collected so far. -/
structure Collected where
  /-- The arguments taken, in order; switches have an empty value. -/
  given : List (Key × String)
  /-- An argument that is not checked yet; an option may still lack its value. -/
  pending? : Option (Effect × Option String)
deriving DecidableEq

def Collected.start : Collected := ⟨[], none⟩

def Collected.awaits (c : Collected) : Bool :=
  match c.pending? with
  | some (_, none) => true
  | _ => false

def Collected.has (c : Collected) (key : Key) : Bool := c.given.any (·.1 = key)

def Collected.value? (c : Collected) (key : Key) : Option String := c.given.lookup key

def Collected.values (c : Collected) (key : Key) : List String :=
  (c.given.filter (·.1 = key)).map (·.2)

/-! ### Taking arguments up -/

/-- Takes an option or operand with its value, if it has one. `check` says what is wrong with a
    value. -/
def Collected.take (check : Key → String → Option Usage) (c : Collected) (effect : Effect)
    (value? : Option String) : Except Usage Collected :=
  match effect with
  | .help => .error .help
  | .version => .error .version
  | .switch key => if c.has key then .error .repeated else .ok { c with given := c.given ++ [(key, "")] }
  | .single key =>
    match value? with
    | none => .error .invalidValue
    | some v =>
      if c.has key then .error .repeated
      else
        match check key v with
        | some fault => .error fault
        | none => .ok { c with given := c.given ++ [(key, v)] }
  | .many key =>
    match value? with
    | none => .error .invalidValue
    | some v =>
      match check key v with
      | some fault => .error fault
      | none => .ok { c with given := c.given ++ [(key, v)] }

/-- Checks the pending argument and takes it. -/
def Collected.settle (check : Key → String → Option Usage) (c : Collected) :
    Except Usage Collected :=
  match c.pending? with
  | none => .ok c
  | some (effect, v) => { c with pending? := none }.take check effect v

/-- Takes up an option whose value may follow. -/
def Collected.begin (check : Key → String → Option Usage) (c : Collected) (effect : Effect)
    (attached? : Option String) : Except Usage Collected := do
  let c ← c.settle check
  match effect, attached? with
  | .single _, none | .many _, none => return { c with pending? := some (effect, none) }
  | effect, v => c.take check effect v

def Effect.takesValue : Effect → Bool
  | .single _ | .many _ => true
  | _ => false

/-! ### Reading one argument -/

/-- Whether the text after a hyphen looks like a number: digits with a point and an exponent, both
    not in front. -/
def looksNumeric (text : List Char) : Bool :=
  let mantissa := text.takeWhile (· ≠ 'e')
  let exponent := text.drop mantissa.length
  let whole := mantissa.takeWhile (· ≠ '.')
  (mantissa.head?).any Char.isDigit && whole.all Char.isDigit &&
    ((mantissa.drop whole.length).drop 1).all Char.isDigit &&
    (exponent.isEmpty || (!(exponent.drop 1).isEmpty && (exponent.drop 1).all Char.isDigit))

/-- Takes an option by its long name, with the value after an equals sign if there is one. -/
def takeLong (g : Grammar) (check : Key → String → Option Usage) (c : Collected)
    (text : List Char) : Except Usage Collected :=
  let name := text.takeWhile (· ≠ '=')
  let attached? := match text.drop name.length with
    | _ :: value => some (String.ofList value)
    | [] => none
  match g.options.find? (·.long = String.ofList name) with
  | none => .error .unknownArgument
  | some o =>
    if attached?.isSome && !o.effect.takesValue then .error .unneededValue
    else c.begin check o.effect attached?

/-- Takes options by their letters. What follows the letter of an option with a value is the value;
    an equals sign in front of it is dropped. -/
def takeLetters (g : Grammar) (check : Key → String → Option Usage) (c : Collected) :
    List Char → Except Usage Collected
  | [] => .ok c
  | letter :: rest =>
    match g.options.find? (·.letter? = some letter) with
    | none => .error .unknownArgument
    | some o =>
      if o.effect.takesValue then
        let attached? := match rest with
          | [] => none
          | '=' :: value => some (String.ofList value)
          | value => some (String.ofList value)
        c.begin check o.effect attached?
      else do takeLetters g check (← c.begin check o.effect none) rest

/-- Takes a value: it belongs to the option that waits for one, else it is the operand. -/
def takeValue (g : Grammar) (check : Key → String → Option Usage) (c : Collected)
    (escaped operandTaken : Bool) (arg : String) : Except Usage (Collected × Bool) :=
  match escaped, c.pending?, g.operand? with
  | false, some (effect, none), _ => .ok ({ c with pending? := some (effect, some arg) }, operandTaken)
  | _, _, some key => do
    if operandTaken then .error .unknownArgument
    let c ← c.settle check
    return ({ c with pending? := some (.single key, some arg) }, true)
  | _, _, none =>
    if g.commands.isEmpty || (escaped && g.commands.contains arg) then .error .unknownArgument
    else .error .unknownCommand

/-- What arguments come to: all of them collected, or a command and the arguments after it. -/
structure Reading where
  collected : Collected
  command? : Option (String × List String)

/-- Reads arguments up to the end or to a command. -/
def readArguments (g : Grammar) (check : Key → String → Option Usage) (c : Collected)
    (escaped operandTaken : Bool) : List String → Except Usage Reading
  | [] => .ok ⟨c, none⟩
  | arg :: rest =>
    if escaped then do
      let (c, taken) ← takeValue g check c true operandTaken arg
      readArguments g check c true taken rest
    else if !c.awaits && g.commands.contains arg then .ok ⟨c, some (arg, rest)⟩
    else
      match arg.toList with
      | ['-', '-'] => readArguments g check c true operandTaken rest
      | '-' :: '-' :: text => do
        readArguments g check (← takeLong g check c text) false operandTaken rest
      | '-' :: letter :: text =>
        if g.operand?.isSome && !operandTaken && looksNumeric (letter :: text) then do
          let (c, taken) ← takeValue g check c false operandTaken arg
          readArguments g check c false taken rest
        else do
          readArguments g check (← takeLetters g check c (letter :: text)) false operandTaken rest
      | _ => do
        let (c, taken) ← takeValue g check c false operandTaken arg
        readArguments g check c false taken rest

/-- Checks what is pending and that nothing is missing. -/
def Collected.finish (g : Grammar) (check : Key → String → Option Usage) (c : Collected) :
    Except Usage Collected := do
  let c ← c.settle check
  if g.required.all c.has then return c else .error .missingArgument

end SymbolAutomata.Command
