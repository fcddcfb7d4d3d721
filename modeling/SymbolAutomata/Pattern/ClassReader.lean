/-
  SymbolAutomata/Pattern/ClassReader.lean
  =======================================
  **Reading classes** in brackets.

  Parts that follow each other are united. `&&`, `--` and `~~` combine what stands
  before them with what stands between them and the next operator, from left to
  right. The reader keeps a level for each open bracket.
-/
import SymbolAutomata.Pattern.Escape

namespace SymbolAutomata.Pattern

/-- A class whose bracket is still open. -/
structure ClassLevel where
  negated : Bool
  /-- What stands before the last operator, and the operator. -/
  left? : Option (ClassTree × ClassOperator)
  /-- The parts after the last operator, the last one first. -/
  parts : List ClassTree

namespace ClassLevel

/-- Everything read on this level, combined. -/
def close (l : ClassLevel) : ClassTree :=
  let right := ClassTree.ofParts l.parts.reverse
  match l.left? with
  | none => right
  | some (left, op) => .operator op left right

def add (l : ClassLevel) (part : ClassTree) : ClassLevel := { l with parts := part :: l.parts }

def operate (l : ClassLevel) (op : ClassOperator) : ClassLevel :=
  { l with left? := some (l.close, op), parts := [] }

end ClassLevel

/-- Takes hyphens, which stand for themselves at the start of a class. -/
def takeHyphens (verbose : Bool) (text : List Char) : List ClassTree × List Char :=
  let (hyphens, rest) := collectAll verbose (· = '-') text
  (hyphens.map fun c => .letter ⟨c, false⟩, rest)

/-- What follows an opening bracket: a caret that negates, hyphens, or a bracket that stands for
    itself. -/
def openClass (verbose : Bool) (text : List Char) :
    Except ExpressionFault (ClassLevel × List Char) :=
  let (negated, text) := match settle verbose text with
    | '^' :: rest => (true, settle verbose rest)
    | text => (false, text)
  match takeHyphens verbose text with
  | (_, []) => .error .unclosedClass
  | ([], ']' :: rest) =>
    match settle verbose rest with
    | [] => .error .unclosedClass
    | rest => .ok (⟨negated, none, [.letter ⟨']', false⟩]⟩, rest)
  | (hyphens, rest) => .ok (⟨negated, none, hyphens.reverse⟩, rest)

/-- An ASCII class by name, after its opening bracket: `:name:]` or `:^name:]`. -/
def asciiClass? (text : List Char) : Option (ClassTree × List Char) :=
  match text with
  | ':' :: rest =>
    let (negated, rest) := match rest with
      | '^' :: rest => (true, rest)
      | rest => (false, rest)
    let name := rest.takeWhile (· ≠ ':')
    match rest.drop name.length, Ascii.names.lookup (String.ofList name) with
    | ':' :: ']' :: rest, some kind => some (.ascii kind negated, rest)
    | _, _ => none
  | _ => none

def readItem (verbose : Bool) : List Char → Except ExpressionFault (Primitive × List Char)
  | [] => .error .unclosedClass
  | '\\' :: rest => readEscape verbose rest
  | c :: rest => .ok (.letter ⟨c, false⟩, rest)

def partOf : Primitive → Except ExpressionFault ClassTree
  | .letter l => .ok (.letter l)
  | .shorthand kind negated => .ok (.shorthand kind negated)
  | .property p negated => .ok (.property p negated)
  | .anchor _ => .error .badClassItem

def endOf : Primitive → Except ExpressionFault Letter
  | .letter l => .ok l
  | _ => .error .badRange

/-- One part of a class: a single item, or a range. A hyphen before a bracket or another hyphen
    starts no range. -/
def readPart (verbose : Bool) (text : List Char) :
    Except ExpressionFault (ClassTree × List Char) := do
  let (first, rest) ← readItem verbose text
  match settle verbose rest with
  | [] => .error .unclosedClass
  | '-' :: rest =>
    let next := peekBeyond verbose rest
    if next = some ']' || next = some '-' then return (← partOf first, '-' :: rest)
    match settle verbose rest with
    | [] => .error .unclosedClass
    | rest =>
      let (last, rest) ← readItem verbose rest
      let first ← endOf first
      let last ← endOf last
      if last.char < first.char then .error .badRange
      return (.range first last, rest)
  | rest => return (← partOf first, rest)

/-- Reads the rest of a class. `level` is the innermost open level and `outer` are those around it.
    Every round takes at least one character, so `fuel` is the length of the text. -/
def readClassFrom (verbose : Bool) : Nat → ClassLevel → List ClassLevel → List Char →
    Except ExpressionFault (Tree × List Char)
  | 0, _, _, _ => .error .unclosedClass
  | fuel + 1, level, outer, text =>
    match settle verbose text with
    | [] => .error .unclosedClass
    | '[' :: rest =>
      match asciiClass? rest with
      | some (part, rest) => readClassFrom verbose fuel (level.add part) outer rest
      | none => do
        let (inner, rest) ← openClass verbose rest
        readClassFrom verbose fuel inner (level :: outer) rest
    | ']' :: rest =>
      match outer with
      | [] => .ok (.cls level.negated level.close, rest)
      | around :: outer =>
        readClassFrom verbose fuel (around.add (.bracketed level.negated level.close)) outer rest
    | '&' :: '&' :: rest => readClassFrom verbose fuel (level.operate .intersection) outer rest
    | '-' :: '-' :: rest => readClassFrom verbose fuel (level.operate .difference) outer rest
    | '~' :: '~' :: rest =>
      readClassFrom verbose fuel (level.operate .symmetricDifference) outer rest
    | text => do
      let (part, rest) ← readPart verbose text
      readClassFrom verbose fuel (level.add part) outer rest

def readClass (verbose : Bool) (text : List Char) : Except ExpressionFault (Tree × List Char) := do
  let (level, rest) ← openClass verbose text
  readClassFrom verbose (rest.length + 1) level [] rest

end SymbolAutomata.Pattern
