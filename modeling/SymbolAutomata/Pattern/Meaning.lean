/-
  SymbolAutomata/Pattern/Meaning.lean
  ===================================
  **What a written expression matches.**

  A directive holds from where it stands to the end of its group, also in later
  branches, so the flags in force are passed along with the text. Where Unicode
  is off, classes are made of ASCII characters only: anything that could match
  part of a character is refused.
-/
import SymbolAutomata.Pattern.Expression
import SymbolAutomata.Pattern.Tree
import SymbolAutomata.Pattern.Scan

namespace SymbolAutomata.Pattern

/-- The flags in force at one place. -/
structure Flags where
  caseless : Bool
  multiline : Bool
  dotAll : Bool
  swapGreed : Bool
  unicode : Bool
  crlf : Bool

namespace Flags

/-- At the start of an expression Unicode is on and the dot matches everything. -/
def initial : Flags where
  caseless := false
  multiline := false
  dotAll := true
  swapGreed := false
  unicode := true
  crlf := false

def set (f : Flags) : Flag × Bool → Flags
  | (.caseless, b) => { f with caseless := b }
  | (.multiline, b) => { f with multiline := b }
  | (.dotAll, b) => { f with dotAll := b }
  | (.swapGreed, b) => { f with swapGreed := b }
  | (.unicode, b) => { f with unicode := b }
  | (.crlf, b) => { f with crlf := b }
  | (.verbose, _) => f

def setAll (f : Flags) (switches : Switches) : Flags := switches.foldl set f

end Flags

/-! ### Classes -/

def isAscii (set : CharClass) : Bool := set.all (·.max ≤ 0x7F)

/-- A class under the flags: with its variants in case if they count, then negated if it is to
    be. -/
def finish (f : Flags) (negated : Bool) (set : CharClass) : Except ExpressionFault CharClass :=
  let folded := if f.caseless then (if f.unicode then set.fold else set.foldAscii) else set
  let result := if negated then folded.negate (if f.unicode then 0x10FFFF else 0xFF) else folded
  if f.unicode || isAscii result then .ok result else .error .notText

/-- The members of a shorthand class, which has all its variants in case. -/
def shorthandMembers (f : Flags) (kind : Shorthand) (negated : Bool) :
    Except ExpressionFault CharClass :=
  finish { f with caseless := false } negated (if f.unicode then kind.unicode else kind.ascii)

/-- The characters with a property, for which Unicode has to be on. -/
def propertyMembers (f : Flags) (p : Property) (negated : Bool) :
    Except ExpressionFault CharClass :=
  if f.unicode then
    match p.members? with
    | some set => finish f negated set
    | none => .error .unknownProperty
  else .error .needsUnicode

def memberOf (f : Flags) (l : Letter) : Except ExpressionFault Nat :=
  if f.unicode || l.char.toNat ≤ 0x7F then .ok l.char.toNat
  else .error (if l.byte then .notText else .needsUnicode)

def operate (op : ClassOperator) (a b : CharClass) : CharClass :=
  match op with
  | .intersection => a.intersect b
  | .difference => a.difference b
  | .symmetricDifference => a.symmetricDifference b

mutual

/-- The members of the inside of a class. -/
def ClassTree.members (f : Flags) : ClassTree → Except ExpressionFault CharClass
  | .letter l => do return [Interval.single (← memberOf f l)]
  | .range first last => do return [Interval.between (← memberOf f first) (← memberOf f last)]
  | .ascii kind negated => finish f negated kind.members
  | .shorthand kind negated => shorthandMembers f kind negated
  | .property p negated => propertyMembers f p negated
  | .bracketed negated body => do finish f negated (Interval.merged (← ClassTree.members f body))
  | .union parts => do return Interval.merged (← ClassTree.membersOf f parts)
  | .operator op left right => do
    let a ← ClassTree.members f left
    let b ← ClassTree.members f right
    return operate op (← finish f false (Interval.merged a)) (← finish f false (Interval.merged b))

def ClassTree.membersOf (f : Flags) : List ClassTree → Except ExpressionFault CharClass
  | [] => .ok []
  | part :: rest => do return (← ClassTree.members f part) ++ (← ClassTree.membersOf f rest)

end

/-! ### Letters, dots and anchors -/

/-- A single character, with its variants in case if they count. -/
def letterExpression (f : Flags) (l : Letter) : Except ExpressionFault Expression :=
  let c := l.char.toNat
  if !f.unicode && l.byte && 0x7F < c then .error .notText
  else if f.caseless then
    let set := [Interval.single c]
    let folded := if f.unicode then CharClass.fold set else CharClass.foldAscii set
    .ok (if folded = set then .literal [c] else .ofClass (!f.unicode) folded)
  else .ok (.literal [c])

def dotExpression (f : Flags) : Except ExpressionFault Expression :=
  if !f.unicode then .error .notText
  else
    let ends : CharClass :=
      if f.dotAll then []
      else if f.crlf then [.single 10, .single 13]
      else [.single 10]
    .ok (.ofClass false (ends.negate 0x10FFFF))

def assertionOf (f : Flags) : Anchor → Assertion
  | .lineStart =>
    if f.multiline then (if f.crlf then .startLineCrlf else .startLine) else .start
  | .lineEnd => if f.multiline then (if f.crlf then .endLineCrlf else .endLine) else .finish
  | .textStart => .start
  | .textEnd => .finish
  | .wordBoundary => if f.unicode then .wordUnicode else .wordAscii
  | .notWordBoundary => if f.unicode then .notWordUnicode else .notWordAscii
  | .wordStart => if f.unicode then .wordStartUnicode else .wordStartAscii
  | .wordEnd => if f.unicode then .wordEndUnicode else .wordEndAscii
  | .wordStartHalf => if f.unicode then .wordStartHalfUnicode else .wordStartHalfAscii
  | .wordEndHalf => if f.unicode then .wordEndHalfUnicode else .wordEndHalfAscii

/-! ### Expressions -/

mutual

/-- The expression for a tree under the flags, and the flags in force after it. -/
def Tree.expression (f : Flags) : Tree → Except ExpressionFault (Expression × Flags)
  | .empty => .ok (.empty, f)
  | .directive switches => .ok (.empty, f.setAll switches)
  | .letter l => do return (← letterExpression f l, f)
  | .dot => do return (← dotExpression f, f)
  | .anchor a => .ok (.assertion (assertionOf f a), f)
  | .shorthand kind negated => do
    return (.ofClass (!f.unicode) (← shorthandMembers f kind negated), f)
  | .property p negated => do return (.ofClass false (← propertyMembers f p negated), f)
  | .cls negated body => do
    let members ← body.members f
    return (.ofClass (!f.unicode) (← finish f negated (Interval.merged members)), f)
  | .repetition part least most greedy => do
    let (p, f) ← Tree.expression f part
    return (.ofRepetition p least most (greedy != f.swapGreed), f)
  | .group number switches part => do
    let (p, _) ← Tree.expression (f.setAll switches) part
    match number with
    | some n => return (.capture n p, f)
    | none => return (p, f)
  | .concat parts => do
    let (ps, f) ← Tree.expressions f parts
    return (.ofParts ps, f)
  | .alternation branches => do
    let (ps, f) ← Tree.expressions f branches
    return (.ofBranches ps, f)

/-- The expressions for several trees, one after the other. -/
def Tree.expressions (f : Flags) : List Tree → Except ExpressionFault (List Expression × Flags)
  | [] => .ok ([], f)
  | part :: rest => do
    let (p, f) ← Tree.expression f part
    let (ps, f) ← Tree.expressions f rest
    return (p :: ps, f)

end

end SymbolAutomata.Pattern
