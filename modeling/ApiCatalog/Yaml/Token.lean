import ApiCatalog.Yaml.Scalar
/-!
# Tokens of YAML texts

A YAML text is cut into tokens.  Besides what is written there are tokens for what indentation means: where
a block collection starts and ends, and where a key starts of which only the colon behind it shows that it
is one.  Such a key is remembered from the place where it could start (`SimpleKey`); when its colon comes,
the tokens are put in there.
-/

namespace ApiCatalog.Yaml

inductive Token where
  | streamEnd
  | version (major minor : Nat)
  | tagDirective (handle start : List Char)
  | documentStart
  | documentEnd
  | blockSequenceStart
  | blockMappingStart
  | blockEnd
  | flowSequenceStart
  | flowSequenceEnd
  | flowMappingStart
  | flowMappingEnd
  | blockEntry
  | flowEntry
  | key
  | value
  | alias (name : List Char)
  | anchor (name : List Char)
  | tag (handle suffix : List Char)
  | scalar (text : List Char) (plain : Bool)
  deriving Repr, DecidableEq

/-- A place where a key may have started: at this token, line and column. A required one stands where the
block mapping around it can only have a key. -/
structure SimpleKey where
  required : Bool
  token : Nat
  index : Nat
  line : Nat
  column : Nat

/-- A lexer: the place in the text, the tokens so far, nearest first, and their number; the column of the
innermost block collection and those of the ones around it; how many flow collections are open; whether a
key may start here; and for each open flow collection, and outside of them, the key that may have
started. -/
structure Lexer where
  src : Source
  done : List Token
  count : Nat
  indent : Int
  indents : List Int
  flow : Nat
  keyAllowed : Bool
  keys : List (Option SimpleKey)

namespace Lexer

def start (text : List Char) : Lexer :=
  ⟨Source.ofText text, [], 0, -1, [], 0, true, [none]⟩

def emit (lx : Lexer) (token : Token) : Lexer :=
  { lx with done := token :: lx.done, count := lx.count + 1 }

def insert (lx : Lexer) (number : Nat) (token : Token) : Lexer :=
  let after := lx.count - number
  { lx with done := lx.done.take after ++ token :: lx.done.drop after, count := lx.count + 1 }

/-! ## Keys and indentation -/

/-- A key has to stand on one line and within 1024 characters. -/
def isStale (lx : Lexer) (key : SimpleKey) : Bool :=
  key.line < lx.src.line || key.index + 1024 < lx.src.index

/-- Forgets keys whose colon can no longer come; a required one must not be lost. -/
def dropStale? (lx : Lexer) : Option Lexer := do
  let keys ← lx.keys.mapM fun key =>
    match key with
    | none => some none
    | some key => if lx.isStale key then (if key.required then none else some none) else some (some key)
  pure { lx with keys }

def dropKey? (lx : Lexer) : Option Lexer :=
  match lx.keys with
  | [] => some lx
  | key :: keys => if key.any (·.required) then none else some { lx with keys := none :: keys }

/-- Remembers that a key may start here. -/
def saveKey? (lx : Lexer) : Option Lexer :=
  if !lx.keyAllowed then some lx
  else do
    let lx ← lx.dropKey?
    let key : SimpleKey :=
      ⟨lx.flow = 0 && lx.indent = (lx.src.column : Int), lx.count, lx.src.index, lx.src.line, lx.src.column⟩
    pure { lx with keys := some key :: lx.keys.drop 1 }

/-- Ends the block collections that are indented more than a column; `lx.indents` bounds how many. -/
def unroll (lx : Lexer) (column : Int) : Lexer :=
  if lx.flow ≠ 0 then lx
  else
    let rec close (lx : Lexer) : List Int → Lexer
      | [] => lx
      | around :: indents =>
        if column < lx.indent then close { lx.emit .blockEnd with indent := around, indents } indents else lx
    close lx lx.indents

/-- Starts a block collection if a column is indented more than the one around it; its token comes in front
of the one with a number, or last. -/
def roll (lx : Lexer) (column : Nat) (number : Option Nat) (token : Token) : Lexer :=
  if lx.flow ≠ 0 ∨ (column : Int) ≤ lx.indent then lx
  else
    let lx := { lx with indent := (column : Int), indents := lx.indent :: lx.indents }
    match number with
    | none => lx.emit token
    | some number => lx.insert number token

def pass (lx : Lexer) (n : Nat) : Lexer := { lx with src := lx.src.skip n }

/-- Passes over order marks, blanks, comments and breaks; tabs are passed over where no key can start. -/
def toNext : Nat → Lexer → Lexer
  | 0, lx => lx
  | fuel + 1, lx =>
    let isPassed (c : Char) : Bool := c == ' ' || ((lx.flow ≠ 0 || !lx.keyAllowed) && c == '\t')
    let src := (lx.src.skipOrderMark.skipWhile isPassed).skipComment
    match src.rest with
    | [] => { lx with src }
    | c :: _ =>
      if isBreak c then toNext fuel { lx with src := src.skipBreak, keyAllowed := lx.keyAllowed || lx.flow = 0 }
      else { lx with src }

/-! ## Directives, tags, anchors -/

def isDecimal (c : Char) : Bool := c.isDigit

/-- A number of up to nine digits. -/
def versionNumber? (src : Source) : Option (Nat × Source) :=
  let (digits, src) := src.takeWhile isDecimal
  if digits.isEmpty ∨ 9 < digits.length then none
  else some (digits.foldl (fun n c => n * 10 + (c.toNat - 48)) 0, src)

/-- A tag handle: an exclamation mark, alone or with a name and another one behind it. In a directive the
second mark must not be missing behind a name. -/
def tagHandle? (directive : Bool) (src : Source) : Option (List Char × Source) :=
  if !src.at_ 0 '!' then none
  else
    let (name, src) := (src.skip 1).takeWhile isNameChar
    if src.at_ 0 '!' then some ('!' :: name ++ ['!'], src.skip 1)
    else if directive && !name.isEmpty then none
    else some ('!' :: name, src)

def isTagChar (verbatim : Bool) (c : Char) : Bool :=
  isNameChar c || ";/?:@&=+$.%!~*'()".toList.contains c || (verbatim && ",[]".toList.contains c)

def escapedByte? (src : Source) : Option (UInt8 × Source) :=
  if src.at_ 0 '%' then (Scalar.hex? 2 (src.rest.drop 1)).map fun n => (n.toUInt8, src.skip 3) else none

/-- A character written as one percent escape for each of its bytes. -/
def escapedChar? (src : Source) : Option (List Char × Source) := do
  let (first, src) ← escapedByte? src
  let more ← if first < 0x80 then some 0
    else if first &&& 0xE0 = 0xC0 then some 1
    else if first &&& 0xF0 = 0xE0 then some 2
    else if first &&& 0xF8 = 0xF0 then some 3
    else none
  let step (state : List UInt8 × Source) (_ : Nat) : Option (List UInt8 × Source) := do
    let (byte, src) ← escapedByte? state.2
    if byte &&& 0xC0 = 0x80 then pure (state.1 ++ [byte], src) else none
  let (bytes, src) ← (List.range more).foldlM step ([first], src)
  pure (Utf8.decodeLossy bytes, src)

def tagTextFrom? (verbatim : Bool) : Nat → List Char → Source → Option (List Char × Source)
  | 0, text, src => some (text, src)
  | fuel + 1, text, src =>
    match src.rest with
    | [] => some (text, src)
    | c :: _ =>
      if !isTagChar verbatim c then some (text, src)
      else if c = '%' then
        match escapedChar? src with
        | none => none
        | some (chars, src) => tagTextFrom? verbatim fuel (text ++ chars) src
      else tagTextFrom? verbatim fuel (text ++ [c]) (src.skip 1)

def tagText? (verbatim : Bool) (head : List Char) (src : Source) : Option (List Char × Source) := do
  let (text, next) ← tagTextFrom? verbatim (src.size + 1) [] src
  if head.isEmpty && text.isEmpty then none else pure (head.drop 1 ++ text, next)

def directive? (src : Source) : Option (Token × Source) := do
  let (name, src) := (src.skip 1).takeWhile isNameChar
  if name.isEmpty || !isSpacing (src.peek 0) then none
  else
    let (token, src) ←
      if name = "YAML".toList then do
        let (major, src) ← versionNumber? src.skipBlanks
        if !src.at_ 0 '.' then none
        else
          let (minor, src) ← versionNumber? (src.skip 1)
          pure (Token.version major minor, src)
      else if name = "TAG".toList then do
        let (handle, src) ← tagHandle? true src.skipBlanks
        if !(src.peek 0).any isBlank then none
        else
          let (start, src) ← tagText? true [] src.skipBlanks
          if isSpacing (src.peek 0) then pure (Token.tagDirective handle start, src) else none
      else none
    pure (token, ← src.endLine?)

def name? (src : Source) : Option (List Char × Source) :=
  let (name, src) := (src.skip 1).takeWhile isNameChar
  let ends := match src.peek 0 with
    | none => true
    | some c => isBlank c || isBreak c || "?:,]\x7d%@\x60".toList.contains c
  if name.isEmpty || !ends then none else some (name, src)

def tag? (flow : Bool) (src : Source) : Option (Token × Source) := do
  let (handle, suffix, src) ←
    if src.at_ 1 '<' then do
      let (suffix, src) ← tagText? true [] (src.skip 2)
      if src.at_ 0 '>' then pure (([] : List Char), suffix, src.skip 1) else none
    else do
      let (handle, src) ← tagHandle? false src
      if 1 < handle.length && handle.getLast? = some '!' then
        let (suffix, src) ← tagText? false [] src
        pure (handle, suffix, src)
      else
        let (suffix, src) ← tagText? false handle src
        pure (if suffix.isEmpty then ([], ['!'], src) else (['!'], suffix, src))
  if (flow && src.at_ 0 ',') || isSpacing (src.peek 0) then pure (.tag handle suffix, src) else none

/-! ## One token -/

/-- Puts what was read behind the token, and says whether a key may start there. -/
def read (lx : Lexer) (keyAllowed : Bool) (token : Token) (src : Source) : Lexer :=
  { lx.emit token with src, keyAllowed }

/-- A directive or document mark, which ends all block collections. -/
def toplevel? (lx : Lexer) : Option Lexer := do
  let lx ← (lx.unroll (-1)).dropKey?
  pure { lx with keyAllowed := false }

/-- A colon that follows a key or stands alone. -/
def value? (lx : Lexer) : Option Lexer :=
  match lx.keys with
  | some key :: keys =>
    let lx := (lx.insert key.token .key).roll key.column (some key.token) .blockMappingStart
    some ({ lx with keys := none :: keys }.read false .value (lx.src.skip 1))
  | _ =>
    if lx.flow ≠ 0 then some (lx.read false .value (lx.src.skip 1))
    else if !lx.keyAllowed then none
    else some ((lx.roll lx.src.column none .blockMappingStart).read true .value (lx.src.skip 1))

def startsPlain (lx : Lexer) (c : Char) (next : Option Char) : Bool :=
  !(isBlank c || isBreak c || "-?:,[]\x7b\x7d#&*!|>'\"%@\x60".toList.contains c)
    || (c == '-' && !next.any isBlank)
    || (lx.flow = 0 && (c == '?' || c == ':') && !isSpacing next)

def token? (lx : Lexer) (c : Char) : Option Lexer := do
  let src := lx.src
  let next := src.peek 1
  if src.column = 0 && c == '%' then
    let lx ← lx.toplevel?
    let (token, src) ← directive? src
    pure (lx.read false token src)
  else if src.marks '-' then pure ((← lx.toplevel?).read false .documentStart (src.skip 3))
  else if src.marks '.' then pure ((← lx.toplevel?).read false .documentEnd (src.skip 3))
  else if c == '[' || c == '\x7b' then
    let lx ← lx.saveKey?
    let token := if c == '[' then Token.flowSequenceStart else .flowMappingStart
    pure ({ lx with flow := lx.flow + 1, keys := none :: lx.keys }.read true token (src.skip 1))
  else if c == ']' || c == '\x7d' then
    let lx ← lx.dropKey?
    let token := if c == ']' then Token.flowSequenceEnd else .flowMappingEnd
    let lx := if lx.flow = 0 then lx else { lx with flow := lx.flow - 1, keys := lx.keys.drop 1 }
    pure (lx.read false token (src.skip 1))
  else if c == ',' then pure ((← lx.dropKey?).read true .flowEntry (src.skip 1))
  else if c == '-' && isSpacing next then
    if lx.flow = 0 && !lx.keyAllowed then none
    else pure ((← (lx.roll src.column none .blockSequenceStart).dropKey?).read true .blockEntry (src.skip 1))
  else if c == '?' && (lx.flow ≠ 0 || isSpacing next) then
    if lx.flow = 0 && !lx.keyAllowed then none
    else
      pure ((← (lx.roll src.column none .blockMappingStart).dropKey?).read (lx.flow = 0) .key (src.skip 1))
  else if c == ':' && (lx.flow ≠ 0 || isSpacing next) then lx.value?
  else if c == '*' || c == '&' then
    let lx ← lx.saveKey?
    let (name, src) ← name? src
    pure (lx.read false (if c == '*' then .alias name else .anchor name) src)
  else if c == '!' then
    let lx ← lx.saveKey?
    let (token, src) ← tag? (lx.flow ≠ 0) src
    pure (lx.read false token src)
  else if (c == '|' || c == '>') && lx.flow = 0 then
    let lx ← lx.dropKey?
    let (text, src) ← Scalar.readBlock (c == '>') lx.indent src
    pure (lx.read true (.scalar text false) src)
  else if c == '\'' || c == '"' then
    let lx ← lx.saveKey?
    let (text, src) ← Scalar.readQuoted (c == '\'') src
    pure (lx.read false (.scalar text false) src)
  else if lx.startsPlain c next then
    let lx ← lx.saveKey?
    let plain ← Scalar.readPlain (lx.flow ≠ 0) (lx.indent + 1) src
    pure (lx.read plain.broken (.scalar plain.text true) plain.next)
  else none

/-- The end of the text ends all collections. -/
def finish? (lx : Lexer) : Option (List Token) := do
  let lx ← (lx.unroll (-1)).dropKey?
  pure (lx.emit .streamEnd).done.reverse

/-- Reads the tokens that are left; each round reads at least one character. -/
def run? : Nat → Lexer → Option (List Token)
  | 0, _ => none
  | fuel + 1, lx => do
    let lx ← (toNext (lx.src.size + 1) lx).dropStale?
    let lx := lx.unroll lx.src.column
    match lx.src.rest with
    | [] => lx.finish?
    | c :: _ => run? fuel (← lx.token? c)

end Lexer

def tokens? (text : List Char) : Option (List Token) :=
  if text.all isAllowed then Lexer.run? (text.length + 1) (.start text) else none

end ApiCatalog.Yaml
