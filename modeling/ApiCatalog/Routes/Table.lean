import Std.Data.HashSet.Basic
import ApiCatalog.Regex.Match
import ApiCatalog.Regex.Pattern
/-!
# Route tables

A table lists, for each way in which a route can be declared, a pattern, the file extensions it is meant
for, and which groups of the pattern hold the verb and the path.  The rows of a table are applied one
after another; where a row has found a route, no later match that starts there counts.
-/

namespace ApiCatalog

inductive VerbSource where
  /-- A group holds the verb. -/
  | group (number : Nat)
  /-- A group holds a list of verbs with commas, of which the first counts. -/
  | firstListed (number : Nat)
  /-- The declaration has no verb and stands for GET. -/
  | implicit
  deriving Repr, DecidableEq

structure Layout where
  verb : VerbSource
  path : Nat
  deriving Repr, DecidableEq

namespace Layout

def verbThenPath : Layout := ⟨.group 1, 2⟩

def pathThenVerb : Layout := ⟨.group 2, 1⟩

def pathThenVerbList : Layout := ⟨.firstListed 2, 1⟩

def pathOnly : Layout := ⟨.implicit, 1⟩

def ownerVerbPath : Layout := ⟨.group 2, 3⟩

end Layout

structure RouteRow where
  pattern : String
  extensions : List String
  layout : Layout

structure RouteRule where
  regex : Regex
  extensions : List String
  layout : Layout

abbrev RouteTable := List RouteRule

structure Route where
  method : List Char
  path : List Char
  /-- Where the declaration starts. -/
  start : Cursor
  /-- The declaration as matched. -/
  text : List Char

namespace RouteRow

/-- Patterns disregard case unless they say otherwise, and their anchors hold at every line. -/
def options : Pattern.Options := ⟨true, true⟩

/-- The rule of a row; none if the pattern is not well formed. -/
def rule? (row : RouteRow) : Option RouteRule :=
  (Regex.ofPattern? options row.pattern).map fun regex => ⟨regex, row.extensions, row.layout⟩

end RouteRow

def RouteTable.ofRows (rows : List RouteRow) : RouteTable :=
  rows.filterMap (·.rule?)

namespace Verb

def isQuote (c : Char) : Bool := c == '\'' || c == '"'

/-- The method that a captured verb stands for: upper case, with GET for `route`. -/
def normalize? (raw : List Char) : Option (List Char) :=
  let verb := Text.trimBy isQuote (Text.trim raw)
  if verb.isEmpty then none
  else if Text.asciiLower verb = "route".toList then some "GET".toList
  else some (Text.asciiUpper verb)

/-- The first entry of a list with commas that is not blank, without quotes. -/
def firstListed? (list : List Char) : Option (List Char) :=
  ((Text.split ',' list).map fun item => Text.trim (Text.trimBy isQuote (Text.trim item))).find? (!·.isEmpty)

end Verb

/-- Method and path of a match; none if a group is missing or blank. -/
def Layout.resolve? (layout : Layout) (found : Found) : Option (List Char × List Char) := do
  let path := Text.trim (← found.group? layout.path)
  if path.isEmpty then none
  else
    let method ← match layout.verb with
      | .group number => Verb.normalize? (← found.group? number)
      | .firstListed number => Verb.normalize? (← Verb.firstListed? (← found.group? number))
      | .implicit => some "GET".toList
    pure (method, path)

namespace RouteRule

/-- Extensions are compared without regard to case. -/
def appliesTo (rule : RouteRule) (extension : String) : Bool :=
  rule.extensions.any fun e => Text.asciiLower e.toList == Text.asciiLower extension.toList

def routes (rule : RouteRule) (content : List Char) : List Route :=
  (rule.regex.findAll content).filterMap fun found =>
    (rule.layout.resolve? found).map fun (method, path) => ⟨method, path, found.whole.start, found.whole.text⟩

end RouteRule

namespace RouteTable

/-- The routes of all rules for an extension, rule after rule. -/
def candidates (table : RouteTable) (content : List Char) (extension : String) : List Route :=
  (table.filter (·.appliesTo extension)).flatMap (·.routes content)

/-- Keeps the first route at each place; `claimed` holds the places taken and `done` the routes kept,
nearest first. -/
def firstPerStartFrom (claimed : Std.HashSet Nat) (done : List Route) : List Route → List Route
  | [] => done.reverse
  | route :: routes =>
    if claimed.contains route.start.index then firstPerStartFrom claimed done routes
    else firstPerStartFrom (claimed.insert route.start.index) (route :: done) routes

def routes (table : RouteTable) (content : List Char) (extension : String) : List Route :=
  firstPerStartFrom ∅ [] (table.candidates content extension)

end RouteTable

end ApiCatalog
