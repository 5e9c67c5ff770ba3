import ApiCatalog.Text.Basic
import ApiCatalog.Text.Word
/-!
# Regular expressions

The expressions that route tables are written in: sets of characters, sequence, choice with the
left branch preferred, greedy repetition, numbered groups, and tests of a place in the text.
Counted and lazy repetition, named groups and named classes are left out, as no table uses them.
No table repeats what can be empty either: such a repetition goes on here only as long as it reads
something, and other matchers may report other groups for it.
-/

namespace ApiCatalog

inductive CharItem where
  | range (first last : Char)
  | blank
  | nonBlank
  | word
  | nonWord
  deriving Repr, DecidableEq

def CharItem.has : CharItem → Char → Bool
  | .range first last, c => first ≤ c && c ≤ last
  | .blank, c => Text.isBlank c
  | .nonBlank, c => !Text.isBlank c
  | .word, c => Text.isWordChar c
  | .nonWord, c => !Text.isWordChar c

/-- A set of characters: those that are in some item or, negated, in none. -/
structure CharSet where
  negated : Bool
  items : List CharItem
  deriving Repr, DecidableEq

def CharSet.has (set : CharSet) (c : Char) : Bool :=
  set.items.any (·.has c) != set.negated

inductive Anchor where
  | textStart
  | textEnd
  | lineStart
  | lineEnd
  | wordEdge
  deriving Repr, DecidableEq

def Anchor.holds (anchor : Anchor) (before after : Option Char) : Bool :=
  match anchor with
  | .textStart => before.isNone
  | .textEnd => after.isNone
  | .lineStart => before.isNone || before == some '\n'
  | .lineEnd => after.isNone || after == some '\n'
  | .wordEdge => before.any Text.isWordChar != after.any Text.isWordChar

inductive Regex where
  | empty
  | place (anchor : Anchor)
  | oneOf (set : CharSet)
  /-- As many characters of the set as there are, down to none. -/
  | run (set : CharSet)
  | seq (first second : Regex)
  | either (first second : Regex)
  /-- The body as often as possible, down to not at all. -/
  | star (body : Regex)
  | group (number : Nat) (body : Regex)
  deriving Repr, DecidableEq

namespace Regex

/-- Greedy repetition; a repeated set is a run. -/
def anyNumber : Regex → Regex
  | .oneOf set => .run set
  | body => .star body

def optional (body : Regex) : Regex :=
  .either body .empty

def atLeastOne (body : Regex) : Regex :=
  .seq body (anyNumber body)

end Regex

end ApiCatalog
