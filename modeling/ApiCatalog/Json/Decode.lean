import ApiCatalog.Json.Doc
/-!
# Readers of documents

A reader turns a document into a value of some type, from left to right, and reports the first error
it meets.  It is given the number of containers that may still be open around what it reads: 127 at
the root, and none may be opened beyond that.
-/

namespace ApiCatalog.Json

/-- Reads a document, with a number of levels left. -/
abbrev Reader (α : Type) := Nat → Doc → Except ErrorKind α

namespace Reader

def maxDepth : Nat := 127

/-- The error of a document that is not of the shape wanted; a scalar is read first and may fail on its
own. -/
def mismatch : Doc → ErrorKind
  | .scalar (.string none) | .scalar (.number none) => .grammar
  | _ => .shape

def string : Reader String
  | _, .scalar (.string (some s)) => .ok s
  | _, doc => .error (mismatch doc)

/-- Reads `null` as nothing. -/
def optional {α : Type} (read : Reader α) : Reader (Option α)
  | _, .scalar .null => .ok none
  | depth, doc => (read depth doc).map some

/-- A container that breaks off is an error once all that was read of it was good. -/
def endOf (cut : Option Cut) : Except ErrorKind Unit :=
  match cut with
  | none => .ok ()
  | some cut => .error cut.fault.wanted

def items {α : Type} (read : Doc → Except ErrorKind α) (done : List α) : List Doc → Except ErrorKind (List α)
  | [] => .ok done.reverse
  | doc :: docs =>
    match read doc with
    | .ok a => items read (a :: done) docs
    | .error e => .error e

def list {α : Type} (read : Reader α) : Reader (List α)
  | 0, .array _ _ => .error .grammar
  | depth + 1, .array docs cut => do
    let all ← items (read depth) [] docs
    endOf cut
    pure all
  | _, doc => .error (mismatch doc)

def key (key : Key) : Except ErrorKind String :=
  match key with
  | some key => .ok key
  | none => .error .grammar

/-- The end of an object of which every key is welcome. -/
def endOfMembers (cut : Option Cut) : Except ErrorKind Unit :=
  match cut with
  | none => .ok ()
  | some ⟨_, some none, _⟩ => .error .grammar
  | some cut => .error cut.fault.wanted

mutual

def value (depth : Nat) : Doc → Except ErrorKind Value
  | .scalar .null => .ok .null
  | .scalar (.bool b) => .ok (.bool b)
  | .scalar (.number (some n)) => .ok (.number n)
  | .scalar (.string (some s)) => .ok (.string s)
  | .scalar (.number none) | .scalar (.string none) => .error .grammar
  | .array docs cut =>
    match depth with
    | 0 => .error .grammar
    | depth + 1 => do
      let all ← values depth [] docs
      endOf cut
      pure (.array all)
  | .object members cut =>
    match depth with
    | 0 => .error .grammar
    | depth + 1 => do
      let all ← membersOf depth [] members
      endOfMembers cut
      pure (.object (Members.ofList all))

def values (depth : Nat) (done : List Value) : List Doc → Except ErrorKind (List Value)
  | [] => .ok done.reverse
  | doc :: docs =>
    match value depth doc with
    | .ok v => values depth (v :: done) docs
    | .error e => .error e

def membersOf (depth : Nat) (done : List (String × Value)) :
    List (Key × Doc) → Except ErrorKind (List (String × Value))
  | [] => .ok done.reverse
  | (none, _) :: _ => .error .grammar
  | (some key, doc) :: members =>
    match value depth doc with
    | .ok v => membersOf depth ((key, v) :: done) members
    | .error e => .error e

end

/-- Reads an object with any keys. -/
def members : Reader Members
  | 0, .object _ _ => .error .grammar
  | depth + 1, .object all cut => do
    let all ← membersOf depth [] all
    endOfMembers cut
    pure (Members.ofList all)
  | _, doc => .error (mismatch doc)

structure Slot (δ : Type) where
  name : String
  /-- Whether the draft has the field already. -/
  filled : δ → Bool
  read : Nat → Doc → δ → Except ErrorKind δ
  /-- The error met if the text breaks off where the value has to come. -/
  fault : Fault → ErrorKind

def slot {δ α : Type} (name : String) (get : δ → Option α) (set : δ → α → δ) (read : Reader α) :
    Slot δ :=
  ⟨name, fun draft => (get draft).isSome, fun depth doc draft => (read depth doc).map (set draft), Fault.wanted⟩

/-- Reads one member: an unknown one is skipped, a field that comes twice is an error. -/
def member {δ : Type} (fields : List (Slot δ)) (depth : Nat) (draft : δ) (member : Key × Doc) :
    Except ErrorKind δ := do
  let key ← key member.1
  match fields.find? (·.name == key) with
  | none =>
    match member.2.skipError? with
    | none => pure draft
    | some e => throw e
  | some field => if field.filled draft then throw .shape else field.read depth member.2 draft

/-- The end of an object read into fields; it may break off behind a key. -/
def endOfRecord {δ : Type} (fields : List (Slot δ)) (draft : δ) (cut : Option Cut) : Except ErrorKind Unit :=
  match cut with
  | none => .ok ()
  | some ⟨_, none, fault⟩ => .error fault.wanted
  | some ⟨_, some none, _⟩ => .error .grammar
  | some ⟨_, some (some key), fault⟩ =>
    match fields.find? (·.name == key) with
    | none => .error fault.skipped
    | some field => .error (if field.filled draft then .shape else field.fault fault)

/-- Reads the fields in the order in which they are declared, as far as there are items. -/
def positional {δ : Type} (depth : Nat) (cut : Option Cut) :
    List (Slot δ) → List Doc → δ → Except ErrorKind δ
  | [], [], draft =>
    match cut with
    | none => .ok draft
    | some cut => .error (if cut.comma then .grammar else cut.fault.wanted)
  | [], _ :: _, _ => .error .grammar
  | field :: _, [], draft =>
    match cut with
    | none => .ok draft
    | some cut => .error (field.fault cut.fault)
  | field :: fields, doc :: docs, draft => do
    positional depth cut fields docs (← field.read depth doc draft)

/-- Reads a record: an object with the fields as keys, or an array of the fields in order. `finish` turns
the draft into the result if no required field is missing. -/
def record {δ α : Type} (fields : List (Slot δ)) (blank : δ) (finish : δ → Option α) : Reader α
  | 0, .array _ _ | 0, .object _ _ => .error .grammar
  | depth + 1, .object all cut => do
    let draft ← all.foldlM (member fields depth) blank
    endOfRecord fields draft cut
    match finish draft with
    | some a => pure a
    | none => throw .shape
  | depth + 1, .array docs cut => do
    let draft ← positional depth cut fields docs blank
    match finish draft with
    | some a => pure a
    | none => throw .shape
  | _, doc => .error (mismatch doc)

/-- Reads a whole text, behind which only blanks may follow. -/
def run {α : Type} (read : Reader α) (text : List Char) : Except ErrorKind α :=
  match Doc.ofText text with
  | ⟨.error fault, _⟩ => .error fault.wanted
  | ⟨.ok doc, trailing⟩ => do
    let a ← read maxDepth doc
    if trailing then throw .grammar else pure a

end Reader

mutual

def Doc.ofValue : Value → Doc
  | .null => .scalar .null
  | .bool b => .scalar (.bool b)
  | .number n => .scalar (.number (some n))
  | .string s => .scalar (.string (some s))
  | .array items => .array (Doc.ofValues items) none
  | .object members => .object (Doc.ofMembers members) none

def Doc.ofValues : List Value → List Doc
  | [] => []
  | v :: vs => Doc.ofValue v :: Doc.ofValues vs

def Doc.ofMembers : List (String × Value) → List (Key × Doc)
  | [] => []
  | (key, v) :: members => (some key, Doc.ofValue v) :: Doc.ofMembers members

end

def parse (text : List Char) : Except ErrorKind Value :=
  Reader.run Reader.value text

end ApiCatalog.Json
