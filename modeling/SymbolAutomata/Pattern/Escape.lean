/-
  SymbolAutomata/Pattern/Escape.lean
  ==================================
  **Escapes**: what a backslash makes of the text after it.

  Punctuation stands for itself. A few letters stand for control characters, a
  few for classes and anchors; `x`, `u` and `U` introduce a character by its
  number. All other letters, the digits and everything outside ASCII are refused.
-/
import SymbolAutomata.Pattern.Scan
import SymbolAutomata.Pattern.Tree

namespace SymbolAutomata.Pattern

/-- What stands at one place of an expression or a class. -/
inductive Primitive where
  | letter (l : Letter)
  | anchor (a : Anchor)
  | shorthand (kind : Shorthand) (negated : Bool)
  | property (p : Property) (negated : Bool)

def letterOf (digits : List Char) (byte : Bool) : Except ExpressionFault Primitive :=
  match charOf? (valueOf 16 digits) with
  | some c => .ok (.letter ⟨c, byte⟩)
  | none => .error .badNumber

/-- A number after `x`, `u` or `U`: so many digits, or any digits in braces. -/
def readNumber (verbose : Bool) (width : Nat) (text : List Char) :
    Except ExpressionFault (Primitive × List Char) :=
  match settle verbose text with
  | [] => .error .unfinishedEscape
  | '\x7b' :: rest =>
    match collectAll verbose isHexDigit rest with
    | ([], '\x7d' :: _) => .error .badNumber
    | (digits, '\x7d' :: rest) => do return (← letterOf digits false, rest)
    | (_, []) => .error .unfinishedEscape
    | _ => .error .badNumber
  | text =>
    let (digits, rest) := collect verbose isHexDigit false width text
    if digits.length = width then do return (← letterOf digits (width = 2), rest)
    else .error .badNumber

/-- The name of a property after `p` or `P`: one letter, or a name in braces which may give a
    value as well. -/
def readProperty (verbose negated : Bool) (text : List Char) :
    Except ExpressionFault (Primitive × List Char) :=
  match settle verbose text with
  | [] => .error .unfinishedEscape
  | '\x7b' :: rest =>
    let (name, rest) := collectAll verbose (· ≠ '\x7d') rest
    match rest with
    | [] => .error .unfinishedEscape
    | _ :: rest => .ok (.property (propertyOf name) negated, rest)
  | '\\' :: _ => .error .unknownProperty
  | c :: rest => .ok (.property (.named (String.singleton c)) negated, rest)
where
  /-- The name alone, or the name and the value around `!=`, else `:`, else `=`. -/
  propertyOf (name : List Char) : Property :=
    match splitAt? ['!', '='] name, splitAt? [':'] name, splitAt? ['='] name with
    | some (name, value), _, _ => .valued (String.ofList name) (String.ofList value)
    | none, some (name, value), _ => .valued (String.ofList name) (String.ofList value)
    | none, none, some (name, value) => .valued (String.ofList name) (String.ofList value)
    | none, none, none => .named (String.ofList name)
  /-- The text before and after the first place where `mark` stands. -/
  splitAt? (mark : List Char) : List Char → Option (List Char × List Char)
    | [] => none
    | c :: rest =>
      if mark.isPrefixOf (c :: rest) then some ([], (c :: rest).drop mark.length)
      else (splitAt? mark rest).map fun (front, back) => (c :: front, back)

/-- The kinds of word boundary that stand in braces after `b`. -/
def boundaryNames : List (String × Anchor) :=
  [("start", .wordStart), ("end", .wordEnd), ("start-half", .wordStartHalf),
   ("end-half", .wordEndHalf)]

/-- A word boundary, after `b`. A brace that no letter follows belongs to a repetition. -/
def readBoundary (verbose : Bool) (text : List Char) :
    Except ExpressionFault (Primitive × List Char) :=
  match text with
  | '\x7b' :: rest =>
    match settle verbose rest with
    | [] => .error .unfinishedEscape
    | c :: _ =>
      if isNameChar c then
        let (name, rest) := collectAll verbose isNameChar rest
        match rest, boundaryNames.lookup (String.ofList name) with
        | '\x7d' :: rest, some a => .ok (.anchor a, rest)
        | _, _ => .error .badEscape
      else .ok (.anchor .wordBoundary, text)
  | _ => .ok (.anchor .wordBoundary, text)
where
  isNameChar (c : Char) : Bool := c.isAlpha || c = '-'

/-- Letters that stand for a control character. -/
def controls : List (Char × Nat) :=
  [('a', 7), ('t', 9), ('n', 10), ('v', 11), ('f', 12), ('r', 13)]

/-- Letters that stand for an anchor. -/
def anchors : List (Char × Anchor) :=
  [('A', .textStart), ('z', .textEnd), ('B', .notWordBoundary), ('<', .wordStart), ('>', .wordEnd)]

/-- Letters that stand for a class. -/
def shorthands : List (Char × Shorthand × Bool) :=
  [('d', .digit, false), ('D', .digit, true), ('s', .space, false), ('S', .space, true),
   ('w', .word, false), ('W', .word, true)]

def readEscape (verbose : Bool) : List Char → Except ExpressionFault (Primitive × List Char)
  | [] => .error .unfinishedEscape
  | c :: rest =>
    if c.isDigit then .error .backreference
    else if c = 'x' then readNumber verbose 2 rest
    else if c = 'u' then readNumber verbose 4 rest
    else if c = 'U' then readNumber verbose 8 rest
    else if c = 'p' || c = 'P' then readProperty verbose (c = 'P') rest
    else if c = 'b' then readBoundary verbose rest
    else
      match shorthands.lookup c, anchors.lookup c, controls.lookup c with
      | some (kind, negated), _, _ => .ok (.shorthand kind negated, rest)
      | none, some a, _ => .ok (.anchor a, rest)
      | none, none, some n => .ok (.letter ⟨Char.ofNat n, false⟩, rest)
      | none, none, none =>
        if c.toNat < 0x80 && !c.isAlphanum then .ok (.letter ⟨c, false⟩, rest)
        else .error .badEscape

end SymbolAutomata.Pattern
