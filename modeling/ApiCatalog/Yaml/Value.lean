import ApiCatalog.Json.Value
import ApiCatalog.Yaml.Event
/-!
# YAML values

The value that a document stands for.  Plain scalars are taken for null, booleans or numbers by their
spelling; aliases are replaced by what their anchors name; no key of a mapping may come twice.
-/

namespace ApiCatalog.Yaml

inductive Value where
  | null
  | bool (b : Bool)
  | whole (n : Int)
  | real (x : Float)
  | string (s : String)
  | sequence (items : List Value)
  | mapping (members : List (Value × Value))
  | tagged (tag : String) (value : Value)
  deriving Inhabited

namespace Value

/-! ## Equality of keys -/

/-- Two numbers are one key if they compare equal; not-a-number is equal to itself. -/
def sameReal (x y : Float) : Bool := x == y || (x.isNaN && y.isNaN)

def bareTag (tag : String) : List Char :=
  match tag.toList with
  | '!' :: rest => rest
  | rest => rest

mutual

/-- Whether two values are one key; the order of members does not count. -/
def same : Value → Value → Bool
  | .null, .null => true
  | .bool a, .bool b => a == b
  | .whole a, .whole b => a == b
  | .real x, .real y => sameReal x y
  | .string a, .string b => a == b
  | .sequence as, .sequence bs => sameItems as bs
  | .mapping as, .mapping bs => as.length == bs.length && sameMembers as bs
  | .tagged s a, .tagged t b => bareTag s == bareTag t && same a b
  | _, _ => false

def sameItems : List Value → List Value → Bool
  | [], [] => true
  | a :: as, b :: bs => same a b && sameItems as bs
  | _, _ => false

/-- Whether each member is among others. -/
def sameMembers : List (Value × Value) → List (Value × Value) → Bool
  | [], _ => true
  | (key, value) :: as, bs => bs.any (fun b => same key b.1 && same value b.2) && sameMembers as bs

end

/-! ## Plain scalars -/

def null? (text : String) : Option Value :=
  if ["null", "Null", "NULL", "~"].contains text then some .null else none

def bool? (text : String) : Option Value :=
  if ["true", "True", "TRUE"].contains text then some (.bool true)
  else if ["false", "False", "FALSE"].contains text then some (.bool false)
  else none

def digit? (base : Nat) (c : Char) : Option Nat :=
  (Scalar.hexDigit? c).bind fun d => if d < base then some d else none

/-- A natural number in some base; at least one digit. -/
def natural? (base : Nat) (text : List Char) : Option Nat :=
  if text.isEmpty then none else text.foldlM (fun n c => (digit? base c).map (n * base + ·)) 0

/-- Digits with a zero in front of them, which are no number. -/
def hasLeadingZero (text : List Char) : Bool :=
  let digits := match text with
    | '-' :: rest | '+' :: rest => rest
    | rest => rest
  1 < digits.length && digits.head? == some '0' && digits.all Char.isDigit

/-- An integer below zero, or the written form of it, in the bases that prefixes name. -/
def prefixed? (text : List Char) : Option Nat :=
  match text with
  | '0' :: 'x' :: rest => natural? 16 rest
  | '0' :: 'o' :: rest => natural? 8 rest
  | '0' :: 'b' :: rest => natural? 2 rest
  | _ => none

def integer? (text : List Char) : Option Int :=
  let unsigned := match text with
    | '+' :: rest => rest
    | rest => rest
  match prefixed? unsigned with
  | some n => some n
  | none =>
    match text with
    | '-' :: rest =>
      match prefixed? rest with
      | some n => some (-(n : Int))
      | none => if hasLeadingZero text then none else (natural? 10 rest).map fun n => -(n : Int)
    | _ => if hasLeadingZero text then none else (natural? 10 unsigned).map fun n => (n : Int)

/-- The integers that are kept: those of 64 bits. -/
def inRange (n : Int) : Bool := -(Nat.pow 2 63 : Int) ≤ n && n < (Nat.pow 2 64 : Int)

/-- The integers that are recognized as such and then refused, since 64 bits do not hold them. -/
def inWideRange (n : Int) : Bool := -(Nat.pow 2 127 : Int) ≤ n && n < (Nat.pow 2 128 : Int)

def roundDecimal (digits : Nat) (exponent : Int) : Float :=
  if 0 ≤ exponent then Float.ofScientific digits false exponent.toNat
  else Float.ofScientific digits true (-exponent).toNat

/-- Digits with an optional point and exponent; at least one digit stands before the exponent. -/
def decimal? (text : List Char) : Option Float := do
  let (negative, text) := match text with
    | '-' :: rest => (true, rest)
    | '+' :: rest => (false, rest)
    | rest => (false, rest)
  let whole := text.takeWhile Char.isDigit
  let text := text.drop whole.length
  let (fraction, text) := match text with
    | '.' :: rest => (rest.takeWhile Char.isDigit, rest.dropWhile Char.isDigit)
    | rest => ([], rest)
  if whole.isEmpty && fraction.isEmpty then none
  else
    let exponent : Int ← match text with
      | [] => some 0
      | c :: rest =>
        if c ≠ 'e' ∧ c ≠ 'E' then none
        else
          match rest with
          | '-' :: digits => (natural? 10 digits).map fun n => -(n : Int)
          | '+' :: digits => (natural? 10 digits).map fun n => (n : Int)
          | digits => (natural? 10 digits).map fun n => (n : Int)
    let digits := (whole ++ fraction).foldl (fun n c => n * 10 + (c.toNat - 48)) 0
    let x := roundDecimal digits (exponent - fraction.length)
    pure (if negative then -x else x)

/-- A float, which may be infinite or not a number only by its name. -/
def float? (text : List Char) : Option Float :=
  let unsigned := match text with
    | '+' :: rest => rest
    | rest => rest
  if text.head? = some '+' ∧ (unsigned.head? = some '+' ∨ unsigned.head? = some '-') then none
  else if [".inf", ".Inf", ".INF"].contains (String.ofList unsigned) then some (1.0 / 0.0)
  else if ["-.inf", "-.Inf", "-.INF"].contains (String.ofList text) then some (-(1.0 / 0.0))
  else if [".nan", ".NaN", ".NAN"].contains (String.ofList text) then some (0.0 / 0.0)
  else (decimal? unsigned).bind fun x => if x.isFinite then some x else none

/-- An integer as a value; nothing is left to try if it is too large for 64 bits. -/
def ofInteger? (text : List Char) : Option (Option Value) :=
  match integer? text with
  | none => none
  | some n => if inRange n then some (some (.whole n)) else if inWideRange n then some none else none

/-- What a plain scalar stands for; none if it is an integer too large. -/
def ofPlain? (text : String) : Option Value :=
  if text.isEmpty then some .null
  else
    match (null? text).or (bool? text) with
    | some value => some value
    | none =>
      match ofInteger? text.toList with
      | some value => value
      | none =>
        match if hasLeadingZero text.toList then none else float? text.toList with
        | some x => some (.real x)
        | none => some (.string text)

/-- What a scalar stands for; `tagged` tells that a tag of its own has been taken off. -/
def ofScalar? (tag : Option String) (tagged : Bool) (text : String) (plain : Bool) : Option Value :=
  match tag, tagged with
  | some "tag:yaml.org,2002:bool", false => bool? text
  | some "tag:yaml.org,2002:int", false =>
    match ofInteger? text.toList with
    | some value => value
    | none => none
  | some "tag:yaml.org,2002:float", false => (float? text.toList).map .real
  | some "tag:yaml.org,2002:null", false => null? text
  | some _, false => some (.string text)
  | _, _ => if plain then ofPlain? text else some (.string text)

/-! ## Documents -/

/-- The events of a document, and where the node of each alias starts; an alias is known by a number. -/
structure Resolved where
  events : Array (Event × Option Nat)
  targets : List (Nat × Nat)

/-- What is known of anchors after some events: the number of each name, and the position of each number. -/
structure Anchors where
  numbers : List (List Char × Nat)
  targets : List (Nat × Nat)

/-- Takes note of an anchor. Its number is the count of the names so far, also if the name is not new. -/
def Anchors.define (anchors : Anchors) (name : List Char) (position : Nat) : Anchors :=
  let number := anchors.numbers.length
  { numbers := (name, number) :: anchors.numbers.filter (·.1 ≠ name)
    targets := (number, position) :: anchors.targets }

/-- Numbers the aliases of a document; an alias must name an anchor before it. -/
def resolveFrom (anchors : Anchors) (done : Array (Event × Option Nat)) : List Event → Option Resolved
  | [] => some ⟨done, anchors.targets⟩
  | event :: events =>
    match event with
    | .alias name =>
      match anchors.numbers.find? (·.1 == name) with
      | none => none
      | some (_, number) => resolveFrom anchors (done.push (event, some number)) events
    | .scalar ⟨some name, _⟩ _ _ | .sequenceStart ⟨some name, _⟩ | .mappingStart ⟨some name, _⟩ =>
      resolveFrom (anchors.define name done.size) (done.push (event, none)) events
    | _ => resolveFrom anchors (done.push (event, none)) events

/-- Where a reader of events is, and how many aliases it has followed. -/
structure Cursor where
  position : Nat
  jumps : Nat

/-- How often aliases may be followed, for each event of the document. -/
def jumpsPerEvent : Nat := 100

def maxDepth : Nat := 128

/-- The tag that stays with a value: one that starts with an exclamation mark. -/
def ownTag? (tag : Option (List Char)) : Option (List Char) :=
  match tag with
  | some ('!' :: rest) => some rest
  | _ => none

/-- A value with the tag that stays with it, which must not be empty. -/
def tag? (own : Option (List Char)) (value : Value) : Option Value :=
  match own with
  | none => some value
  | some [] => none
  | some text => some (.tagged (String.ofList text) value)

def readItems (doc : Resolved) (read : Cursor → Option (Value × Cursor)) :
    Nat → List Value → Cursor → Option (List Value × Cursor)
  | 0, _, _ => none
  | fuel + 1, done, cursor =>
    match doc.events[cursor.position]? with
    | some (.sequenceEnd, _) => some (done.reverse, { cursor with position := cursor.position + 1 })
    | _ =>
      match read cursor with
      | none => none
      | some (value, cursor) => readItems doc read fuel (value :: done) cursor

def readMembers (doc : Resolved) (read : Cursor → Option (Value × Cursor)) :
    Nat → List (Value × Value) → Cursor → Option (List (Value × Value) × Cursor)
  | 0, _, _ => none
  | fuel + 1, done, cursor =>
    match doc.events[cursor.position]? with
    | some (.mappingEnd, _) => some (done.reverse, { cursor with position := cursor.position + 1 })
    | _ =>
      match read cursor with
      | none => none
      | some (key, cursor) =>
        if done.any fun member => same member.1 key then none
        else
          match read cursor with
          | none => none
          | some (value, cursor) => readMembers doc read fuel ((key, value) :: done) cursor

/-- Follows an alias to the position of its node. -/
def follow? (doc : Resolved) (cursor : Cursor) : Option Cursor :=
  match doc.events[cursor.position]? with
  | some (.alias _, some number) =>
    if doc.events.size * jumpsPerEvent < cursor.jumps + 1 then none
    else (doc.targets.find? (·.1 == number)).map fun target => ⟨target.2, cursor.jumps + 1⟩
  | _ => some cursor

/-- Reads the node at a place, with a number of levels left. -/
def readNode (doc : Resolved) : Nat → Cursor → Option (Value × Cursor)
  | depth, cursor => do
    let target ← follow? doc cursor
    let isAlias := cursor.jumps < target.jumps
    let inside : Cursor := { target with position := target.position + 1 }
    let (value, after) ← match doc.events[target.position]? with
      | some (.scalar properties text plain, _) => do
        let own := ownTag? properties.tag
        let value ← ofScalar? (properties.tag.map String.ofList) own.isSome (String.ofList text) plain
        pure (← tag? own value, inside)
      | some (.sequenceStart properties, _) =>
        match depth with
        | 0 => none
        | depth + 1 => do
          let (items, after) ← readItems doc (readNode doc depth) doc.events.size [] inside
          pure (← tag? (ownTag? properties.tag) (.sequence items), after)
      | some (.mappingStart properties, _) =>
        match depth with
        | 0 => none
        | depth + 1 => do
          let (members, after) ← readMembers doc (readNode doc depth) doc.events.size [] inside
          pure (← tag? (ownTag? properties.tag) (.mapping members), after)
      | _ => none
    pure (value, if isAlias then ⟨cursor.position + 1, after.jumps⟩ else after)

/-- The value of a text; a text without a document stands for null. -/
def ofText? (text : List Char) : Option Value := do
  let events ← Event.ofTokens? (← tokens? text)
  if events.isEmpty then pure .null
  else
    let doc ← resolveFrom ⟨[], []⟩ #[] events
    let (value, _) ← readNode doc maxDepth ⟨0, 0⟩
    pure value

/-! ## As JSON -/

/-- Keys carry no sign in their exponents. -/
def keyStyle : Decimal.Style := ⟨false⟩

/-- The text of a key; only texts, numbers and booleans have one. -/
def keyText? : Value → Option String
  | .string s => some s
  | .whole n => some (String.ofList (Json.Number.wholeText n))
  | .real x =>
    some (if x.isNaN then ".nan"
      else if x.isInf then (if x < 0 then "-.inf" else ".inf")
      else String.ofList (Decimal.floatText keyStyle x))
  | .bool b => some (if b then "true" else "false")
  | _ => none

mutual

/-- The value in JSON: tags are dropped, keys become texts, and numbers that are not finite become null. -/
def toJson : Value → Json.Value
  | .null => .null
  | .bool b => .bool b
  | .whole n => .number (.whole n)
  | .real x => if x.isFinite then .number (.real x) else .null
  | .string s => .string s
  | .sequence items => .array (itemsToJson [] items)
  | .mapping members => .object (Json.Members.ofList (membersToJson [] members))
  | .tagged _ value => toJson value

def itemsToJson (done : List Json.Value) : List Value → List Json.Value
  | [] => done.reverse
  | v :: vs => itemsToJson (toJson v :: done) vs

def membersToJson (done : List (String × Json.Value)) : List (Value × Value) → List (String × Json.Value)
  | [] => done.reverse
  | (key, v) :: members =>
    match keyText? key with
    | some key => membersToJson ((key, toJson v) :: done) members
    | none => membersToJson done members

end

end Value

end ApiCatalog.Yaml
