/-
  SymbolAutomata/Pattern/Reader.lean
  ==================================
  **Reading expressions.**

  The reader goes through the text once. It keeps the branches and parts of the
  group it is in and, on a stack, those of the groups around it. Groups are
  numbered in the order of their opening brackets.
-/
import SymbolAutomata.Pattern.ClassReader

namespace SymbolAutomata.Pattern

/-! ### Groups -/

/-- What has been read of a group, or of the whole expression, so far. -/
structure Level where
  /-- The branches before the last bar, the last one first. -/
  branches : List Tree
  /-- The parts of the current branch, the last one first. -/
  parts : List Tree

namespace Level

def start : Level := ⟨[], []⟩

/-- Begins a new branch. -/
def bar (l : Level) : Level := ⟨Tree.ofParts l.parts.reverse :: l.branches, []⟩

def add (l : Level) (part : Tree) : Level := { l with parts := part :: l.parts }

/-- Everything read on this level. -/
def close (l : Level) : Tree :=
  if l.branches.isEmpty then Tree.ofParts l.parts.reverse
  else .alternation (l.bar.branches.reverse)

end Level

/-- A group that is still open: its number and flags, and what was read before it. -/
structure OpenGroup where
  number : Option Nat
  switches : Switches
  before : Level
  /-- Whether verbose mode was on before the group. -/
  verbose : Bool

/-- The state of the reader. -/
structure Reader where
  level : Level
  groups : List OpenGroup
  /-- How many groups have a number so far. -/
  numbered : Nat
  verbose : Bool

def Reader.start : Reader := ⟨.start, [], 0, false⟩

def Reader.add (r : Reader) (part : Tree) : Reader := { r with level := r.level.add part }

/-! ### Flags -/

def flagOf? : Char → Option Flag
  | 'i' => some .caseless
  | 'm' => some .multiline
  | 's' => some .dotAll
  | 'U' => some .swapGreed
  | 'u' => some .unicode
  | 'R' => some .crlf
  | 'x' => some .verbose
  | _ => none

/-- Reads flags up to a colon or closing bracket, which is left in place. A hyphen switches off
    what follows it; there may be one, and something has to follow. -/
def readFlags (on : Bool) (switches : Switches) : List Char →
    Except ExpressionFault (Switches × List Char)
  | [] => .error .unclosedGroup
  | '-' :: rest =>
    match rest with
    | ':' :: _ | ')' :: _ => .error .badFlag
    | _ => if on then readFlags false switches rest else .error .badFlag
  | c :: rest =>
    if c = ':' || c = ')' then .ok (switches, c :: rest)
    else
      match flagOf? c with
      | none => .error .badFlag
      | some flag =>
        if (switches.lookup flag).isSome then .error .badFlag
        else readFlags on (switches ++ [(flag, on)]) rest

/-- The setting of verbose mode under the given switches. -/
def verboseUnder (switches : Switches) (verbose : Bool) : Bool :=
  (switches.lookup .verbose).getD verbose

/-- Opens a group whose parts are read next. -/
def Reader.openGroup (r : Reader) (number : Option Nat) (switches : Switches) : Reader :=
  { level := .start
    groups := ⟨number, switches, r.level, r.verbose⟩ :: r.groups
    numbered := if number.isSome then r.numbered + 1 else r.numbered
    verbose := verboseUnder switches r.verbose }

/-- Reads the opening of a group, after its bracket, or a whole directive. -/
def readOpening (r : Reader) (text : List Char) : Except ExpressionFault (Reader × List Char) :=
  match settle r.verbose text with
  | '?' :: '=' :: _ | '?' :: '!' :: _ | '?' :: '<' :: '=' :: _ | '?' :: '<' :: '!' :: _ =>
    .error .lookaround
  | '?' :: '<' :: _ | '?' :: 'P' :: '<' :: _ => .error .badGroupName
  | '?' :: rest =>
    match readFlags true [] rest with
    | .error fault => .error fault
    | .ok (switches, ')' :: rest) =>
      if switches.isEmpty then .error .nothingToRepeat
      else
        .ok ({ r.add (.directive switches) with verbose := verboseUnder switches r.verbose }, rest)
    | .ok (switches, rest) => .ok (r.openGroup none switches, rest.tail)
  | rest => .ok (r.openGroup (some (r.numbered + 1)) [], rest)

/-- Closes the innermost group. -/
def Reader.closeGroup (r : Reader) : Except ExpressionFault Reader :=
  match r.groups with
  | [] => .error .unopenedGroup
  | g :: groups =>
    .ok { r with
      level := g.before.add (.group g.number g.switches r.level.close)
      groups := groups
      verbose := g.verbose }

/-! ### Repetitions -/

/-- Repeats the last part. Directives and nothing cannot be repeated. -/
def Reader.repeatLast (r : Reader) (least : Nat) (most : Option Nat) (greedy : Bool) :
    Except ExpressionFault Reader :=
  match r.level.parts with
  | [] | .empty :: _ | .directive _ :: _ => .error .nothingToRepeat
  | part :: parts =>
    .ok { r with level := { r.level with parts := .repetition part least most greedy :: parts } }

/-- Takes the question mark that makes a repetition lazy. -/
def takeLazy : List Char → Bool × List Char
  | '?' :: rest => (false, rest)
  | text => (true, text)

/-- The bounds of a repetition, after their opening brace: `n`, `n,` or `n,m`. -/
def readBounds (verbose : Bool) (text : List Char) :
    Except ExpressionFault (Nat × Option Nat × List Char) := do
  let (least, rest) ← readCount verbose (settle verbose text)
  match rest with
  | '\x7d' :: rest => return (least, some least, rest)
  | ',' :: rest =>
    match settle verbose rest with
    | '\x7d' :: rest => return (least, none, rest)
    | rest =>
      let (most, rest) ← readCount verbose rest
      match rest with
      | '\x7d' :: rest => if least ≤ most then return (least, some most, rest) else .error .badCount
      | _ => .error .unclosedCount
  | _ => .error .unclosedCount

/-! ### The whole text -/

/-- A primitive as an expression. -/
def treeOf : Primitive → Tree
  | .letter l => .letter l
  | .anchor a => .anchor a
  | .shorthand kind negated => .shorthand kind negated
  | .property p negated => .property p negated

/-- One step: reads what starts with the character `c`. -/
def Reader.step (r : Reader) (c : Char) (rest : List Char) :
    Except ExpressionFault (Reader × List Char) :=
  match c with
  | '(' => readOpening r rest
  | ')' => do return (← r.closeGroup, rest)
  | '|' => .ok ({ r with level := r.level.bar }, rest)
  | '[' => do
    let (tree, rest) ← readClass r.verbose rest
    return (r.add tree, rest)
  | '?' => do
    let (greedy, rest) := takeLazy rest
    return (← r.repeatLast 0 (some 1) greedy, rest)
  | '*' => do
    let (greedy, rest) := takeLazy rest
    return (← r.repeatLast 0 none greedy, rest)
  | '+' => do
    let (greedy, rest) := takeLazy rest
    return (← r.repeatLast 1 none greedy, rest)
  | '\x7b' => do
    let (least, most, rest) ← readBounds r.verbose rest
    let (greedy, rest) := takeLazy (settle r.verbose rest)
    return (← r.repeatLast least most greedy, rest)
  | '\\' => do
    let (p, rest) ← readEscape r.verbose rest
    return (r.add (treeOf p), rest)
  | '.' => .ok (r.add .dot, rest)
  | '^' => .ok (r.add (.anchor .lineStart), rest)
  | '$' => .ok (r.add (.anchor .lineEnd), rest)
  | c => .ok (r.add (.letter ⟨c, false⟩), rest)

/-- Reads the rest of the text. Every step takes at least one character, so `fuel` is the length of
    the text. -/
def readFrom : Nat → Reader → List Char → Except ExpressionFault Tree
  | fuel, r, text =>
    match settle r.verbose text with
    | [] => if r.groups.isEmpty then .ok r.level.close else .error .unclosedGroup
    | c :: rest =>
      match fuel with
      | 0 => .error .tooDeep
      | fuel + 1 => do
        let (r, rest) ← r.step c rest
        readFrom fuel r rest

/-- How deeply the parts of an expression may be nested. -/
def depthLimit : Nat := 250

/-- **Reads an expression.** -/
def read (text : List Char) : Except ExpressionFault Tree := do
  let tree ← readFrom text.length .start text
  if depthLimit < tree.depth then .error .tooDeep
  return tree

end SymbolAutomata.Pattern
