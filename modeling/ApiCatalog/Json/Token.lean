import ApiCatalog.Json.Number
/-!
# Tokens of JSON documents

A document is cut into tokens one character at a time, so that a lexer is a fold.  A token can be
looked at in two ways: as a value that is wanted, or as something to be skipped.  A string with half
of a surrogate pair and a number beyond the floats cannot be had as values but can be skipped, hence
the options.  Behind a token that is neither, nothing is read.
-/

namespace ApiCatalog.Json

/-- What is wrong with a document: it is no JSON, it ends too early, or it is JSON of another shape. -/
inductive ErrorKind where
  | grammar
  | ended
  | shape
  deriving Repr, DecidableEq

inductive Scalar where
  | null
  | bool (b : Bool)
  | number (value : Option Number)
  | string (text : Option String)
  deriving Repr

/-- A scalar that breaks off; `atEnd` tells that the document ends there. -/
inductive Broken where
  | word (atEnd : Bool)
  | number (atEnd : Bool)
  /-- `spoiled` tells that half of a surrogate pair came before. -/
  | string (spoiled atEnd : Bool)
  deriving Repr, DecidableEq

def Broken.wanted : Broken → ErrorKind
  | .word atEnd | .number atEnd => if atEnd then .ended else .grammar
  | .string spoiled atEnd => if atEnd && !spoiled then .ended else .grammar

/-- The error met when the scalar is skipped: a number that breaks off is then no number at all. -/
def Broken.skipped : Broken → ErrorKind
  | .word atEnd => if atEnd then .ended else .grammar
  | .number _ => .grammar
  | .string _ atEnd => if atEnd then .ended else .grammar

inductive Token where
  | openArray
  | closeArray
  | openObject
  | closeObject
  | comma
  | colon
  | scalar (s : Scalar)
  | broken (b : Broken)
  /-- A character that starts no token. -/
  | stray
  deriving Repr

namespace Token

/-- The part of a number that was read last. -/
inductive NumberPart where
  | sign
  | zero
  | whole
  | point
  | fraction
  | mark
  | markSign
  | exponent
  deriving Repr, DecidableEq

def NumberPart.mayEnd : NumberPart → Bool
  | .zero | .whole | .fraction | .exponent => true
  | .sign | .point | .mark | .markSign => false

/-- A string that is being read: its characters, nearest first; whether half of a surrogate pair was
met; and the first half of a pair that may still be completed. -/
structure OpenString where
  text : List Char
  spoiled : Bool
  lead : Option Nat

inductive Mode where
  /-- Between tokens. -/
  | between
  /-- Inside of a literal name, with what is left of it. -/
  | word (rest : List Char) (value : Scalar)
  /-- Inside of a number, the digits of each part held nearest first. -/
  | number (part : NumberPart) (text : NumberText)
  | string (s : OpenString)
  /-- Behind a backslash. -/
  | escape (s : OpenString)
  /-- Behind `\u`: how many bytes were read and, while all of them are hexadecimal digits, their value. -/
  | hex (s : OpenString) (bytes : Nat) (value : Option Nat)
  /-- Behind a token that ends all reading. -/
  | halted

/-- A lexer: the tokens so far, nearest first, and where it stands. -/
structure Lexer where
  done : List Token
  mode : Mode

def Lexer.emit (done : List Token) (token : Token) : Lexer := ⟨token :: done, .between⟩

def Lexer.halt (done : List Token) (token : Token) : Lexer := ⟨token :: done, .halted⟩

def isSpace (c : Char) : Bool := c == ' ' || c == '\n' || c == '\t' || c == '\r'

def Lexer.begin (done : List Token) (c : Char) : Lexer :=
  match c with
  | '[' => emit done .openArray
  | ']' => emit done .closeArray
  | '\x7b' => emit done .openObject
  | '\x7d' => emit done .closeObject
  | ',' => emit done .comma
  | ':' => emit done .colon
  | '"' => ⟨done, .string ⟨[], false, none⟩⟩
  | 'n' => ⟨done, .word ['u', 'l', 'l'] .null⟩
  | 't' => ⟨done, .word ['r', 'u', 'e'] (.bool true)⟩
  | 'f' => ⟨done, .word ['a', 'l', 's', 'e'] (.bool false)⟩
  | '-' => ⟨done, .number .sign ⟨true, [], [], none⟩⟩
  | '0' => ⟨done, .number .zero ⟨false, ['0'], [], none⟩⟩
  | c =>
    if isSpace c then ⟨done, .between⟩
    else if c.isDigit then ⟨done, .number .whole ⟨false, [c], [], none⟩⟩
    else halt done .stray

/-- A number whose digits are held nearest first. -/
def numberToken (text : NumberText) : Token :=
  .scalar (.number (Number.ofText? { text with
    whole := text.whole.reverse
    fraction := text.fraction.reverse
    exponent := text.exponent.map fun (negative, digits) => (negative, digits.reverse) }))

def Lexer.inNumber (done : List Token) (part : NumberPart) (text : NumberText) (c : Char) : Lexer :=
  let onward (part : NumberPart) (text : NumberText) : Lexer := ⟨done, .number part text⟩
  let bad : Lexer := halt done (.broken (.number false))
  let close : Lexer := begin (numberToken text :: done) c
  let withExponent (digits : List Char) : NumberText :=
    { text with exponent := some ((text.exponent.map (·.1)).getD false, digits) }
  match part with
  | .sign =>
    if c = '0' then onward .zero { text with whole := ['0'] }
    else if c.isDigit then onward .whole { text with whole := [c] } else bad
  | .zero =>
    if c.isDigit then bad
    else if c = '.' then onward .point text
    else if c = 'e' ∨ c = 'E' then onward .mark (withExponent []) else close
  | .whole =>
    if c.isDigit then onward .whole { text with whole := c :: text.whole }
    else if c = '.' then onward .point text
    else if c = 'e' ∨ c = 'E' then onward .mark (withExponent []) else close
  | .point => if c.isDigit then onward .fraction { text with fraction := [c] } else bad
  | .fraction =>
    if c.isDigit then onward .fraction { text with fraction := c :: text.fraction }
    else if c = 'e' ∨ c = 'E' then onward .mark (withExponent []) else close
  | .mark =>
    if c = '+' then onward .markSign text
    else if c = '-' then onward .markSign { text with exponent := some (true, []) }
    else if c.isDigit then onward .exponent (withExponent [c]) else bad
  | .markSign => if c.isDigit then onward .exponent (withExponent [c]) else bad
  | .exponent =>
    if c.isDigit then
      onward .exponent (withExponent (c :: (text.exponent.map (·.2)).getD []))
    else close

/-- Takes a character into a string; the first half of a pair that is still open is then alone. -/
def OpenString.push (s : OpenString) (c : Char) : OpenString :=
  ⟨c :: s.text, s.spoiled || s.lead.isSome, none⟩

def OpenString.pushUnit (s : OpenString) (unit : Nat) : OpenString :=
  let isLead := 0xD800 ≤ unit && unit < 0xDC00
  let isTrail := 0xDC00 ≤ unit && unit < 0xE000
  match s.lead with
  | some lead =>
    if isTrail then ⟨Char.ofNat (0x10000 + (lead - 0xD800) * 0x400 + (unit - 0xDC00)) :: s.text, s.spoiled, none⟩
    else ⟨s.text, true, none⟩
  | none =>
    if isLead then { s with lead := some unit }
    else if isTrail then { s with spoiled := true }
    else s.push (Char.ofNat unit)

def unescape? : Char → Option Char
  | '"' => some '"'
  | '\\' => some '\\'
  | '/' => some '/'
  | 'b' => some '\x08'
  | 'f' => some '\x0c'
  | 'n' => some '\n'
  | 'r' => some '\r'
  | 't' => some '\t'
  | _ => none

def hexDigit? (c : Char) : Option Nat :=
  if c.isDigit then some (c.toNat - 48)
  else if 'a' ≤ c && c ≤ 'f' then some (c.toNat - 87)
  else if 'A' ≤ c && c ≤ 'F' then some (c.toNat - 55)
  else none

/-- A string that breaks off, seen with the character that breaks it. -/
def OpenString.spoiledAt (s : OpenString) : Bool := s.spoiled || s.lead.isSome

def Lexer.feed (lexer : Lexer) (c : Char) : Lexer :=
  let done := lexer.done
  match lexer.mode with
  | .halted => lexer
  | .between => begin done c
  | .word (next :: rest) value =>
    if c ≠ next then halt done (.broken (.word false))
    else if rest.isEmpty then emit done (.scalar value) else ⟨done, .word rest value⟩
  | .word [] value => begin (.scalar value :: done) c
  | .number part text => inNumber done part text c
  | .string s =>
    if c = '"' then
      emit done (.scalar (.string (if s.spoiledAt then none else some (String.ofList s.text.reverse))))
    else if c = '\\' then ⟨done, .escape s⟩
    else if c.toNat < 0x20 then halt done (.broken (.string s.spoiledAt false))
    else ⟨done, .string (s.push c)⟩
  | .escape s =>
    if c = 'u' then ⟨done, .hex s 0 (some 0)⟩
    else
      match unescape? c with
      | some c => ⟨done, .string (s.push c)⟩
      | none => halt done (.broken (.string s.spoiledAt false))
  | .hex s bytes value =>
    let value := value.bind fun n => (hexDigit? c).map (n * 16 + ·)
    if bytes + c.utf8Size < 4 then ⟨done, .hex s (bytes + c.utf8Size) value⟩
    else
      match value with
      | some unit => ⟨done, .string (s.pushUnit unit)⟩
      | none => halt done (.broken (.string s.spoiled false))

def Lexer.finish (lexer : Lexer) : List Token :=
  let done := lexer.done
  (match lexer.mode with
    | .halted | .between => done
    | .word _ _ => .broken (.word true) :: done
    | .number part text =>
      if part.mayEnd then numberToken text :: done else .broken (.number true) :: done
    | .string s | .escape s | .hex s _ _ => .broken (.string s.spoiled true) :: done).reverse

end Token

def tokens (text : List Char) : List Token :=
  (text.foldl Token.Lexer.feed ⟨[], .between⟩).finish

end ApiCatalog.Json
