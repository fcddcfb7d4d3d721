/-
  SymbolAutomata/Pattern/Tree.lean
  ================================
  **Expressions as they are written.**

  A tree keeps what the text of an expression says: flags that are switched on
  and off, groups with and without a number, classes with their operators. What
  it matches is settled by `Tree.expression`, which knows the flags in force.
-/
import SymbolAutomata.Pattern.Named

namespace SymbolAutomata.Pattern

/-- A switch that groups and directives turn on and off. -/
inductive Flag where
  /-- Letters match in either case. -/
  | caseless
  /-- Line anchors hold at every line. -/
  | multiline
  /-- The dot matches line ends. -/
  | dotAll
  /-- Repetitions are lazy unless marked. -/
  | swapGreed
  /-- Classes hold all of Unicode. -/
  | unicode
  /-- Line ends may be two characters. -/
  | crlf
  /-- Blanks and comments are skipped. -/
  | verbose
deriving DecidableEq

/-- Flags and the settings they are given. -/
abbrev Switches := List (Flag × Bool)

/-- What an assertion asks about its place. -/
inductive Anchor where
  | lineStart | lineEnd | textStart | textEnd
  | wordBoundary | notWordBoundary | wordStart | wordEnd | wordStartHalf | wordEndHalf
deriving DecidableEq

/-- A character as it is written. `byte` marks one written by two hexadecimal digits. -/
structure Letter where
  char : Char
  byte : Bool
deriving DecidableEq

/-- The operators between the parts of a class. -/
inductive ClassOperator where
  | intersection | difference | symmetricDifference
deriving DecidableEq

/-- The inside of a class. -/
inductive ClassTree where
  | letter (l : Letter)
  | range (first last : Letter)
  | ascii (kind : Ascii) (negated : Bool)
  | shorthand (kind : Shorthand) (negated : Bool)
  | property (p : Property) (negated : Bool)
  | bracketed (negated : Bool) (body : ClassTree)
  /-- Everything in one of the parts. A union of no parts is empty. -/
  | union (parts : List ClassTree)
  | operator (op : ClassOperator) (left right : ClassTree)

/-- An expression as it is written. -/
inductive Tree where
  | empty
  /-- A directive that sets flags for the rest of its group. -/
  | directive (switches : Switches)
  | letter (l : Letter)
  | dot
  | anchor (a : Anchor)
  | shorthand (kind : Shorthand) (negated : Bool)
  | property (p : Property) (negated : Bool)
  | cls (negated : Bool) (body : ClassTree)
  | repetition (part : Tree) (least : Nat) (most : Option Nat) (greedy : Bool)
  /-- A group with its number, if it has one, and the flags it sets. -/
  | group (number : Option Nat) (switches : Switches) (part : Tree)
  | concat (parts : List Tree)
  | alternation (branches : List Tree)

/-! ### Nesting -/

/-- The part itself, or the union of several parts. -/
def ClassTree.ofParts : List ClassTree → ClassTree
  | [part] => part
  | parts => .union parts

/-- The part itself, or the concatenation of several parts. -/
def Tree.ofParts : List Tree → Tree
  | [] => .empty
  | [part] => part
  | parts => .concat parts

mutual

/-- How deeply brackets, unions and operators are nested in a class. -/
def ClassTree.depth : ClassTree → Nat
  | .letter _ | .range _ _ | .ascii _ _ | .shorthand _ _ | .property _ _ => 0
  | .bracketed _ body => body.depth + 1
  | .union parts => if parts.isEmpty then 0 else ClassTree.depths parts + 1
  | .operator _ left right => Nat.max left.depth right.depth + 1

/-- The greatest depth of several classes. -/
def ClassTree.depths : List ClassTree → Nat
  | [] => 0
  | part :: rest => Nat.max part.depth (ClassTree.depths rest)

end

mutual

/-- How deeply the compound parts of an expression are nested. -/
def Tree.depth : Tree → Nat
  | .empty | .directive _ | .letter _ | .dot | .anchor _ | .shorthand _ _ | .property _ _ => 0
  | .cls _ body => body.depth + 1
  | .repetition part _ _ _ => part.depth + 1
  | .group _ _ part => part.depth + 1
  | .concat parts => Tree.depths parts + 1
  | .alternation branches => Tree.depths branches + 1

/-- The greatest depth of several expressions. -/
def Tree.depths : List Tree → Nat
  | [] => 0
  | part :: rest => Nat.max part.depth (Tree.depths rest)

end

end SymbolAutomata.Pattern
