/-
  SymbolAutomata/Pattern/Expression.lean
  ======================================
  **Expressions by what they match.**

  Flags, groups without a number and the spelling of characters are gone. The
  functions `ofClass`, `ofRepetition`, `ofParts` and `ofBranches` build
  expressions in a simple form: concatenations hold no concatenations and no two
  literals in a row, alternations hold no alternations, and what branches have in
  common at the front is written once.
-/
import SymbolAutomata.Pattern.CharClass

namespace SymbolAutomata.Pattern

/-- A condition on the place where a match stands. -/
inductive Assertion where
  | start | finish | startLine | endLine | startLineCrlf | endLineCrlf
  | wordAscii | notWordAscii | wordUnicode | notWordUnicode
  | wordStartAscii | wordEndAscii | wordStartUnicode | wordEndUnicode
  | wordStartHalfAscii | wordEndHalfAscii | wordStartHalfUnicode | wordEndHalfUnicode
deriving DecidableEq

/-- The name of a condition in messages. -/
def Assertion.name : Assertion → String
  | start => "Start"
  | finish => "End"
  | startLine => "StartLF"
  | endLine => "EndLF"
  | startLineCrlf => "StartCRLF"
  | endLineCrlf => "EndCRLF"
  | wordAscii => "WordAscii"
  | notWordAscii => "WordAsciiNegate"
  | wordUnicode => "WordUnicode"
  | notWordUnicode => "WordUnicodeNegate"
  | wordStartAscii => "WordStartAscii"
  | wordEndAscii => "WordEndAscii"
  | wordStartUnicode => "WordStartUnicode"
  | wordEndUnicode => "WordEndUnicode"
  | wordStartHalfAscii => "WordStartHalfAscii"
  | wordEndHalfAscii => "WordEndHalfAscii"
  | wordStartHalfUnicode => "WordStartHalfUnicode"
  | wordEndHalfUnicode => "WordEndHalfUnicode"

inductive Expression where
  | empty
  /-- A text, by the numbers of its characters. -/
  | literal (word : List Nat)
  /-- Any one member. `bytes` marks a class written where Unicode is off. -/
  | cls (bytes : Bool) (members : CharClass)
  | assertion (a : Assertion)
  | repetition (part : Expression) (least : Nat) (most : Option Nat) (greedy : Bool)
  /-- A numbered group; it matches what its part matches. -/
  | capture (number : Nat) (part : Expression)
  | concat (parts : List Expression)
  | alternation (branches : List Expression)

namespace Expression

/-! ### Equality -/

mutual

/-- Whether two expressions are the same, down to the numbers of groups. -/
def same : Expression → Expression → Bool
  | .empty, .empty => true
  | .literal v, .literal w => v = w
  | .cls b s, .cls c t => b = c && s = t
  | .assertion a, .assertion b => a = b
  | .repetition p l m g, .repetition q l' m' g' => l = l' && m = m' && g = g' && same p q
  | .capture n p, .capture n' q => n = n' && same p q
  | .concat ps, .concat qs => sameAll ps qs
  | .alternation ps, .alternation qs => sameAll ps qs
  | _, _ => false

def sameAll : List Expression → List Expression → Bool
  | [], [] => true
  | p :: ps, q :: qs => same p q && sameAll ps qs
  | _, _ => false

end

/-! ### Measures -/

mutual

/-- The length of the longest match, if there is a longest one. -/
def longest : Expression → Option Nat
  | .empty | .assertion _ => some 0
  | .literal w => some w.length
  | .cls _ set => if set.isEmpty then none else some 1
  | .repetition p _ most _ => do return (← longest p) * (← most)
  | .capture _ p => longest p
  | .concat ps => longestSum ps
  | .alternation ps => longestMax ps

def longestSum : List Expression → Option Nat
  | [] => some 0
  | p :: ps => do return (← longest p) + (← longestSum ps)

def longestMax : List Expression → Option Nat
  | [] => some 0
  | p :: ps => do return Nat.max (← longest p) (← longestMax ps)

end

mutual

/-- The number of parts of an expression on all levels. -/
def weight : Expression → Nat
  | .empty | .assertion _ | .literal _ | .cls _ _ => 1
  | .repetition p _ _ _ => weight p + 1
  | .capture _ p => weight p + 1
  | .concat ps => weights ps + 1
  | .alternation ps => weights ps + 1

def weights : List Expression → Nat
  | [] => 0
  | p :: ps => weight p + weights ps

end

/-! ### Classes and repetitions -/

/-- The expression that matches nothing. -/
def nothing : Expression := .cls true []

/-- Any one member of a class. A class with one member is a literal. -/
def ofClass (bytes : Bool) (members : CharClass) : Expression :=
  match members with
  | [] => nothing
  | [i] => if i.min = i.max then .literal [i.min] else .cls bytes members
  | members => .cls bytes members

/-- A repetition. What only matches the empty word is repeated once at most. -/
def ofRepetition (part : Expression) (least : Nat) (most : Option Nat) (greedy : Bool) :
    Expression :=
  let (least, most) :=
    if longest part = some 0 then (Nat.min least 1, some (Nat.min (most.getD 1) 1))
    else (least, most)
  if most = some 0 && least = 0 then .empty
  else if most = some 1 && least = 1 then part
  else .repetition part least most greedy

/-! ### Concatenation -/

/-- The parts that an expression gives to a concatenation. -/
def pieces : Expression → List Expression
  | .concat ps => ps
  | .empty => []
  | p => [p]

def joinLiterals : List Expression → List Expression
  | [] => []
  | p :: rest =>
    match p, joinLiterals rest with
    | .literal v, .literal w :: rest => .literal (v ++ w) :: rest
    | p, rest => p :: rest

def ofParts (parts : List Expression) : Expression :=
  match joinLiterals (parts.flatMap pieces) with
  | [] => .empty
  | [p] => p
  | ps => .concat ps

/-! ### Alternation -/

/-- The branches that an expression gives to an alternation. -/
def branchesOf : Expression → List Expression
  | .alternation ps => ps
  | p => [p]

/-- The only member of a literal of length 1. -/
def single? : Expression → Option Nat
  | .literal [c] => some c
  | _ => none

def members? : Expression → Option CharClass
  | .cls _ set => some set
  | _ => none

def parts? : Expression → Option (List Expression)
  | .concat ps => some ps
  | _ => none

def sharedFront : List Expression → List Expression → List Expression
  | p :: ps, q :: qs => if same p q then p :: sharedFront ps qs else []
  | _, _ => []

/-- The front that all lists share. -/
def front : List (List Expression) → List Expression
  | [] => []
  | ps :: rest => rest.foldl sharedFront ps

/-- An alternation. Branches that are single characters become one class, and so do branches that
    are classes; concatenations that start alike are written with a common front. `fuel` bounds how
    often a front is taken out. -/
def ofBranchesWithin : Nat → List Expression → Expression
  | fuel, branches =>
    match branches.flatMap branchesOf with
    | [] => nothing
    | [p] => p
    | ps =>
      match ps.mapM single?, ps.mapM members?, ps.mapM parts? with
      | some cs, _, _ => ofClass false (Interval.merged (cs.map Interval.single))
      | none, some sets, _ => ofClass false (Interval.merged sets.flatten)
      | none, none, none => .alternation ps
      | none, none, some lists =>
        let shared := front lists
        match fuel with
        | 0 => .alternation ps
        | fuel + 1 =>
          if shared.isEmpty then .alternation ps
          else
            let rests := lists.map fun l => ofParts (l.drop shared.length)
            ofParts (shared ++ [ofBranchesWithin fuel rests])

/-- An alternation. Taking out a front makes the branches lighter, so their weight bounds how often
    that happens. -/
def ofBranches (branches : List Expression) : Expression :=
  ofBranchesWithin (weights branches) branches

end Expression

end SymbolAutomata.Pattern
