/-
  SymbolAutomata/Toml/Reader.lean
  ===============================
  **Reading TOML documents** line by line.

  A line holds a header, a key with its value, or nothing, and then perhaps a
  comment. A value may stretch over several lines inside its brackets, braces or
  marks.
-/
import SymbolAutomata.Toml.Scalar

namespace SymbolAutomata.Toml

/-! ### Blanks and comments -/

def skipBlanks (text : List Char) : List Char := text.dropWhile fun c => c = ' ' || c = '\t'

def lineEnd? : List Char → Option (List Char)
  | '\n' :: rest => some rest
  | '\r' :: '\n' :: rest => some rest
  | _ => none

def skipComment : List Char → Option (List Char)
  | '#' :: rest =>
    let after := rest.dropWhile isPrintable
    if after.isEmpty || (lineEnd? after).isSome then some after else none
  | text => some text

/-- Passes over blanks, line ends and comments. -/
def skipLines : Nat → List Char → Option (List Char)
  | 0, text => some text
  | fuel + 1, text => do
    let text ← skipComment (skipBlanks text)
    match lineEnd? text with
    | some rest => skipLines fuel rest
    | none => return text

/-! ### Keys -/

def isBareKey (c : Char) : Bool := c.isAlphanum || c = '_' || c = '-'

/-- Reads a key without dots: bare, or a string of one line. -/
def readKey (text : List Char) : Option (String × List Char) :=
  match text with
  | '"' :: rest => (readBasic rest.length rest).map fun (cs, rest) => (String.ofList cs, rest)
  | '\'' :: rest => (readLiteral rest).map fun (cs, rest) => (String.ofList cs, rest)
  | text =>
    let bare := text.takeWhile isBareKey
    if bare.isEmpty then none else some (String.ofList bare, text.drop bare.length)

/-- Reads a key with dots, as the part before the last dot and the part after it, and the blanks
    after it. -/
def readPath : Nat → List Char → Option (List String × String × List Char)
  | 0, _ => none
  | fuel + 1, text => do
    let (key, rest) ← readKey (skipBlanks text)
    match skipBlanks rest with
    | '.' :: rest =>
      let (path, last, rest) ← readPath fuel rest
      return (key :: path, last, rest)
    | rest => return ([], key, rest)

/-! ### Values -/

def nestingLimit : Nat := 80

mutual

def readValue (depth : Nat) : Nat → List Char → Option (Value × List Char)
  | 0, _ => none
  | fuel + 1, text =>
    match text with
    | '[' :: rest =>
      if depth = 0 then none
      else do
        let (items, rest) ← readItems (depth - 1) fuel rest
        return (.array items, rest)
    | '\x7b' :: rest =>
      if depth = 0 then none
      else do
        let (members, rest) ← readMembers (depth - 1) fuel [] rest
        return (.table .braces members, rest)
    | '"' :: _ | '\'' :: _ =>
      (readString text).map fun (cs, rest) => (.text (String.ofList cs), rest)
    | text =>
      let plain := plainText text
      (plainValue? plain).map fun v => (v, text.drop plain.length)

def readItems (depth : Nat) : Nat → List Char → Option (List Value × List Char)
  | 0, _ => none
  | fuel + 1, text => do
    match ← skipLines text.length text with
    | ']' :: rest => return ([], rest)
    | text =>
      let (v, rest) ← readValue depth fuel text
      match ← skipLines rest.length rest with
      | ']' :: rest => return ([v], rest)
      | ',' :: rest =>
        let (vs, rest) ← readItems depth fuel rest
        return (v :: vs, rest)
      | _ => none

/-- Reads the members of a table in braces up to its closing brace. -/
def readMembers (depth : Nat) : Nat → Members → List Char → Option (Members × List Char)
  | 0, _, _ => none
  | fuel + 1, members, text => do
    match ← skipLines text.length text with
    | '\x7d' :: rest => return (members, rest)
    | text =>
      let (path, key, rest) ← readPath text.length text
      let (v, rest) ← readValue depth fuel (skipBlanks (← expect '=' rest))
      let members ← Members.addDotted .braces path key v members
      match ← skipLines rest.length rest with
      | '\x7d' :: rest => return (members, rest)
      | ',' :: rest => readMembers depth fuel members rest
      | _ => none

end

/-! ### Lines -/

/-- Reads a header, after its first bracket. -/
def readHeader (text : List Char) : Option (Statement × List Char) :=
  match text with
  | '[' :: rest => do
    let (path, key, rest) ← readPath rest.length rest
    return (.item path key, ← expect ']' (← expect ']' rest))
  | rest => do
    let (path, key, rest) ← readPath rest.length rest
    return (.table path key, ← expect ']' rest)

def readMember (text : List Char) : Option (Statement × List Char) := do
  let (path, key, rest) ← readPath text.length text
  let (v, rest) ← readValue nestingLimit (rest.length + 1) (skipBlanks (← expect '=' rest))
  return (.member path key v, rest)

/-- Reads all lines. Each statement takes at least one character, so `fuel` is the length of the
    text. -/
def readStatements : Nat → List Char → Option (List Statement)
  | fuel, text => do
    match ← skipLines text.length text, fuel with
    | [], _ => return []
    | _, 0 => none
    | text, fuel + 1 =>
      let (statement, rest) ← match text with
        | '[' :: rest => readHeader rest
        | text => readMember text
      let rest ← skipComment (skipBlanks rest)
      if rest.isEmpty then return [statement]
      return statement :: (← readStatements fuel (← lineEnd? rest))

/-- **Reads a document.** A mark for the order of bytes may stand in front. -/
def read (text : String) : Option Members :=
  let body := match text.toList with
    | c :: rest => if c.toNat = 0xFEFF then rest else c :: rest
    | [] => []
  readStatements body.length body >>= ofStatements?

end SymbolAutomata.Toml
