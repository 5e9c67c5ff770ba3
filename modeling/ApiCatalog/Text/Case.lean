import ApiCatalog.Text.CodeRange
import ApiCatalog.Text.CaseTable
/-!
# Lower case

The lower-case form of a text.  Every capital has one partner of its own, with two exceptions: the
dotted capital I becomes an i and a combining dot, and a capital sigma at the end of a word becomes
the final sigma.  A sigma ends a word if the nearest character before it that is not case-ignorable
has case and the nearest such character after it has none.
-/

namespace ApiCatalog.Text

def isCased (c : Char) : Bool :=
  c.isAlpha || (0x80 ≤ c.toNat && CodeRange.covers casedTable c)

def isCaseIgnorable (c : Char) : Bool :=
  c == '\'' || c == '.' || c == ':' || c == '^' || c == '\x60'
    || (0x80 ≤ c.toNat && CodeRange.covers caseIgnorableTable c)

/-- The partner of a single character, with no regard to its neighbours. -/
def lowerChar (c : Char) : Char :=
  if c.toNat < 0x80 then c.toLower
  else
    match CodeRange.findRow? capitalTable (fun run => (run.first, run.last)) c.toNat 0 capitalTable.size with
    | none => c
    | some run =>
      if (c.toNat - run.first) % run.stride = 0 then Char.ofNat ((c.toNat : Int) + run.shift).toNat else c

/-- Whether a text goes on with a cased character, case-ignorable ones passed over. -/
def casedAhead : List Char → Bool
  | [] => false
  | c :: text => if isCaseIgnorable c then casedAhead text else isCased c

/-- What one character becomes, nearest first; `casedBehind` tells of the text before it. -/
def lowered (casedBehind : Bool) (c : Char) (ahead : List Char) : List Char :=
  if c = 'Σ' then [if casedBehind && !casedAhead ahead then 'ς' else 'σ']
  else if c = 'İ' then ['\u0307', 'i']
  else [lowerChar c]

/-- Lowers the rest of a text onto `done`, which is held nearest first. -/
def lowercaseFrom (casedBehind : Bool) (done : List Char) : List Char → List Char
  | [] => done.reverse
  | c :: text =>
    lowercaseFrom (if isCaseIgnorable c then casedBehind else isCased c) (lowered casedBehind c text ++ done) text

def lowercase (text : List Char) : List Char :=
  lowercaseFrom false [] text

end ApiCatalog.Text
