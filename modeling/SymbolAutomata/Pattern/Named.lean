/-
  SymbolAutomata/Pattern/Named.lean
  =================================
  **Classes with a name**: the shorthands for digits, blanks and word characters,
  the bracketed names of ASCII classes, and the general categories.
-/
import SymbolAutomata.Pattern.CharClass
import SymbolAutomata.Text.Blank
import SymbolAutomata.Unicode.Category

namespace SymbolAutomata.Pattern

open Unicode (Category)

def chars (a b : Char) : Interval := Interval.between a.toNat b.toNat

/-! ### ASCII classes -/

/-- A class of ASCII characters that has a name. -/
inductive Ascii where
  | alnum | alpha | ascii | blank | cntrl | digit | graph | lower | print | punct | space | upper
  | word | xdigit
deriving DecidableEq

namespace Ascii

def names : List (String × Ascii) :=
  [("alnum", alnum), ("alpha", alpha), ("ascii", ascii), ("blank", blank), ("cntrl", cntrl),
   ("digit", digit), ("graph", graph), ("lower", lower), ("print", print), ("punct", punct),
   ("space", space), ("upper", upper), ("word", word), ("xdigit", xdigit)]

def members : Ascii → CharClass
  | alnum => [chars '0' '9', chars 'A' 'Z', chars 'a' 'z']
  | alpha => [chars 'A' 'Z', chars 'a' 'z']
  | ascii => [.between 0 0x7F]
  | blank => [.single 9, .single 32]
  | cntrl => [.between 0 0x1F, .single 0x7F]
  | digit => [chars '0' '9']
  | graph => [chars '!' '~']
  | lower => [chars 'a' 'z']
  | print => [chars ' ' '~']
  | punct => [chars '!' '/', chars ':' '@', chars '[' '\x60', chars '\x7b' '~']
  | space => [.between 9 13, .single 32]
  | upper => [chars 'A' 'Z']
  | word => [chars '0' '9', chars 'A' 'Z', chars '_' '_', chars 'a' 'z']
  | xdigit => [chars '0' '9', chars 'A' 'F', chars 'a' 'f']

end Ascii

/-! ### Shorthands -/

/-- The classes that an escape of one letter names. -/
inductive Shorthand where
  | digit | space | word
deriving DecidableEq

namespace Shorthand

def ascii : Shorthand → CharClass
  | digit => Ascii.digit.members
  | space => Ascii.space.members
  | word => Ascii.word.members

/-- Whether the characters of a category may be part of a word. -/
def wordCategory : Category → Bool
  | .upper | .lower | .title | .modifier | .otherLetter => true
  | .nonspacing | .spacing | .enclosing => true
  | .decimal | .letterNumber | .connector => true
  | _ => false

/-- Characters that may be part of a word though their category says nothing about it: those that
    control joining and the letters in circles and squares. -/
def wordExtras : CharClass :=
  [.between 0x200C 0x200D, .between 0x24B6 0x24E9, .between 0x1F130 0x1F149,
   .between 0x1F150 0x1F169, .between 0x1F170 0x1F189]

def unicode : Shorthand → CharClass
  | digit => Category.ranges (· = .decimal)
  | space => Text.blankRanges
  | word => CharClass.union wordExtras (Category.ranges wordCategory)

end Shorthand

/-! ### General categories -/

/-- How a pattern names a property of characters. -/
inductive Property where
  /-- By its name or value alone. -/
  | named (name : String)
  | valued (name value : String)
deriving DecidableEq

namespace Property

/-- Names are compared without case, blanks, low lines and hyphens; anything that is not ASCII is
    dropped, and so is a leading `is`. -/
def loose (name : String) : String :=
  let lower (c : Char) : Char := if 'A' ≤ c ∧ c ≤ 'Z' then Char.ofNat (c.toNat + 32) else c
  let cs := name.toList.map lower
  let (stripped, rest) := match cs with
    | 'i' :: 's' :: rest => (true, rest)
    | _ => (false, cs)
  let kept := rest.filter fun c => c.toNat < 0x80 && !" _-".toList.contains c
  String.ofList (if stripped && kept = ['c'] then "isc".toList else kept)

/-- The categories that a group of categories takes together, by the name of the group. -/
def groups : List (List String × (Category → Bool)) :=
  [(["lc", "casedletter"], fun k => [.upper, .lower, .title].contains k),
   (["l", "letter"], fun k => [.upper, .lower, .title, .modifier, .otherLetter].contains k),
   (["m", "mark", "combiningmark"], fun k => [.nonspacing, .spacing, .enclosing].contains k),
   (["n", "number"], fun k => [.decimal, .letterNumber, .otherNumber].contains k),
   (["p", "punctuation", "punct"], fun k =>
    [.connector, .dash, .openMark, .closeMark, .initialQuote, .finalQuote, .otherMark].contains k),
   (["s", "symbol"], fun k => [.mathSign, .currency, .modifierSign, .otherSign].contains k),
   (["z", "separator"], fun k => [.space, .line, .paragraph].contains k),
   (["c", "other"], fun k =>
    [.control, .format, .surrogate, .personal, .unassigned].contains k),
   (["nd", "digit"], fun k => k = .decimal),
   (["cc", "cntrl"], fun k => k = .control)]

/-- The characters whose category has the given loose name. -/
def category? (name : String) : Option CharClass :=
  if name = "any" then some [.between 0 0x10FFFF]
  else if name = "ascii" then some Ascii.ascii.members
  else if name = "assigned" then
    some (Interval.merged (Category.ranges fun k => k ≠ .unassigned && k ≠ .surrogate))
  else
    match groups.find? (·.1.contains name) with
    | some (_, p) => some (Interval.merged (Category.ranges p))
    | none =>
      (Category.names.find? fun (k, code, long) =>
        k ≠ .surrogate && (loose code = name || loose long = name)).map
          fun (k, _, _) => Category.ranges (· = k)

def members? : Property → Option CharClass
  | named name => category? (loose name)
  | valued name value =>
    if ["gc", "generalcategory"].contains (loose name) then category? (loose value) else none

end Property

end SymbolAutomata.Pattern
