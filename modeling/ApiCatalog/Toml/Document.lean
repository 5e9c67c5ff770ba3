import ApiCatalog.Toml.Scalar
/-!
# TOML documents

A document is a sequence of lines, each with a header, with a key and its value, or with neither.  Values
may nest 79 deep.
-/

namespace ApiCatalog.Toml

/-! ## Keys -/

def isBareKey (c : Char) : Bool := c.isAlphanum || c = '_' || c = '-'

def simpleKey : Reader String := fun text =>
  match text with
  | '"' :: _ | '\'' :: _ => shortString text
  | _ =>
    let found := text.takeWhile isBareKey
    if found.isEmpty then none else some (String.ofList found, text.drop found.length)

/-- Keys with dots between them and spaces around them; fewer than 80. -/
def key : Reader (List String) := fun text => do
  let (path, rest) ← keysFrom (text.length + 1) [] text
  if path.length < 80 then pure (path, rest) else none
where
  keysFrom : Nat → List String → Reader (List String)
    | 0, _, _ => none
    | fuel + 1, done, text => do
      let (name, rest) ← simpleKey (skipSpace text)
      match skipSpace rest with
      | '.' :: rest => keysFrom fuel (name :: done) rest
      | rest => pure ((name :: done).reverse, rest)

/-! ## Values -/

/-- The text behind spaces, line ends and comments that end with a line; `fuel` is its length. -/
def skipFiller : Nat → List Char → List Char
  | 0, text => text
  | fuel + 1, text =>
    let behind := skipSpace text
    match newline? (skipComment behind) with
    | some rest => skipFiller fuel rest
    | none => behind

def filler (text : List Char) : List Char := skipFiller (text.length + 1) text

def arrayItems (value : Reader Item) : Nat → List Item → Reader (List Item)
  | 0, _, _ => none
  | fuel + 1, done, text =>
    match filler text with
    | ']' :: rest => some (done.reverse, rest)
    | text => do
      let (item, text) ← value text
      match filler text with
      | ',' :: rest => arrayItems value fuel (item :: done) rest
      | ']' :: rest => pure ((item :: done).reverse, rest)
      | _ => none

def pair (value : Reader Item) : Reader (List String × Item) := fun text => do
  let (path, text) ← key text
  let (item, text) ← value (skipSpace (← expect '=' text))
  pure ((path, item), text)

def bracedPairs (value : Reader Item) : Nat → List (List String × Item) → Reader (List (List String × Item))
  | 0, _, _ => none
  | fuel + 1, done, text => do
    let (found, text) ← pair value text
    match skipSpace text with
    | ',' :: rest => bracedPairs value fuel (found :: done) rest
    | '\x7d' :: rest => pure ((found :: done).reverse, rest)
    | _ => none

/-- A value with at most so many arrays and tables around it and in it. -/
def valueUpTo : Nat → Reader Item
  | depth, '[' :: rest =>
    match depth with
    | 0 => none
    | depth + 1 => (arrayItems (valueUpTo depth) (rest.length + 1) [] rest).map fun (items, rest) =>
      (.array items, rest)
  | depth, '\x7b' :: rest =>
    match depth with
    | 0 => none
    | depth + 1 => do
      let (pairs, rest) ← match skipSpace rest with
        | '\x7d' :: rest => some ([], rest)
        | text => bracedPairs (valueUpTo depth) (text.length + 1) [] text
      pure (.table .braces (← Entries.ofPairs? pairs), rest)
  | _, text => scalar text

def value : Reader Item := valueUpTo 79

/-! ## Lines -/

def lineEnd? (text : List Char) : Option (List Char) :=
  match skipComment (skipSpace text) with
  | [] => some []
  | text => newline? text

def statement : Reader (Option Statement) := fun text =>
  match skipSpace text with
  | '[' :: '[' :: rest => do
    let (path, rest) ← key rest
    pure (some (.repeated path), ← lineEnd? (← expect ']' (← expect ']' rest)))
  | '[' :: rest => do
    let (path, rest) ← key rest
    pure (some (.table path), ← lineEnd? (← expect ']' rest))
  | text =>
    match lineEnd? text with
    | some rest => some (none, rest)
    | none => do
      let ((path, item), rest) ← pair value text
      pure (some (.assign path item), ← lineEnd? rest)

/-- Reads line after line; `done` is held nearest first, and `fuel` bounds the lines. -/
def statementsFrom : Nat → List Statement → List Char → Option (List Statement)
  | _, done, [] => some done.reverse
  | 0, _, _ => none
  | fuel + 1, done, text => do
    let (found, rest) ← statement text
    statementsFrom fuel (found.toList ++ done) rest

/-- The entries of the document in a text; a byte order mark in front does not count. -/
def document? (text : List Char) : Option Entries :=
  let text := match text with
    | '\uFEFF' :: rest => rest
    | text => text
  (statementsFrom (text.length + 1) [] text).bind Statement.document?

end ApiCatalog.Toml
