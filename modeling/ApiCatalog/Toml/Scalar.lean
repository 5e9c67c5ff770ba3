import ApiCatalog.Toml.Table
import ApiCatalog.Text.Basic
/-!
# TOML scalars

Readers of the values on a line: strings, numbers and moments.  A reader gives what it read and the
text behind it; dates, times and floats are only recognized.
-/

namespace ApiCatalog.Toml

abbrev Reader (α : Type) := List Char → Option (α × List Char)

/-- Characters that may stand in comments and strings as they are. -/
def isPlain (c : Char) : Bool := c = '\t' || (0x20 ≤ c.toNat && c.toNat ≠ 0x7F)

def isSpace (c : Char) : Bool := c = ' ' || c = '\t'

def skipSpace (text : List Char) : List Char := text.dropWhile isSpace

def newline? : List Char → Option (List Char)
  | '\n' :: rest => some rest
  | '\r' :: '\n' :: rest => some rest
  | _ => none

def skipComment : List Char → List Char
  | '#' :: rest => rest.dropWhile isPlain
  | text => text

/-! ## Strings -/

def hexValue? (c : Char) : Option Nat :=
  if c.isDigit then some (c.toNat - 48)
  else if 'a' ≤ c ∧ c ≤ 'f' then some (c.toNat - 87)
  else if 'A' ≤ c ∧ c ≤ 'F' then some (c.toNat - 55)
  else none

def codePoint (count : Nat) : Reader Char := fun text => do
  let digits ← (text.take count).mapM hexValue?
  let n := digits.foldl (fun n d => n * 16 + d) 0
  if digits.length = count ∧ n.isValidChar then pure (Char.ofNat n, text.drop count) else none

def escape : Reader Char
  | 'b' :: rest => some ('\x08', rest)
  | 't' :: rest => some ('\t', rest)
  | 'n' :: rest => some ('\n', rest)
  | 'f' :: rest => some ('\x0c', rest)
  | 'r' :: rest => some ('\r', rest)
  | '"' :: rest => some ('"', rest)
  | '\\' :: rest => some ('\\', rest)
  | 'u' :: rest => codePoint 4 rest
  | 'U' :: rest => codePoint 8 rest
  | _ => none

/-- The text behind spaces and line ends; `fuel` is its length. -/
def skipLines : Nat → List Char → List Char
  | 0, text => text
  | fuel + 1, text =>
    match text with
    | ' ' :: rest | '\t' :: rest => skipLines fuel rest
    | text =>
      match newline? text with
      | some rest => skipLines fuel rest
      | none => text

/-- A kind of string: its quote, whether it has escapes and whether it may span lines. -/
structure Quoting where
  quote : Char
  escapes : Bool
  long : Bool

/-- How many quotes a text starts with, five at most. -/
def quotesAt (quote : Char) (text : List Char) : Nat :=
  ((text.take 5).takeWhile (· = quote)).length

/-- Reads a string up to its closing quotes; up to two quotes before those of a long string belong to it.
`done` is held nearest first, and `fuel` bounds the steps by the length of the text. -/
def stringBody (kind : Quoting) : Nat → List Char → Reader String
  | 0, _, _ => none
  | _ + 1, _, [] => none
  | fuel + 1, done, c :: rest =>
    if c = kind.quote then
      if !kind.long then some (String.ofList done.reverse, rest)
      else
        let count := quotesAt kind.quote (c :: rest)
        -- of four or five quotes the last three close the text and the others belong to it
        if count < 3 then stringBody kind fuel (c :: done) rest
        else
          some (String.ofList (done.reverse ++ List.replicate (count - 3) kind.quote), (c :: rest).drop count)
    else if kind.escapes && c = '\\' then
      match escape rest with
      | some (e, rest) => stringBody kind fuel (e :: done) rest
      | none =>
        if !kind.long then none
        else
          match newline? (skipSpace rest) with
          | some rest => stringBody kind fuel done (skipLines rest.length rest)
          | none => none
    else if isPlain c then stringBody kind fuel (c :: done) rest
    else if kind.long then
      match newline? (c :: rest) with
      | some rest => stringBody kind fuel ('\n' :: done) rest
      | none => none
    else none

def stringOf (kind : Quoting) (text : List Char) : Option (String × List Char) :=
  let text := if kind.long then (newline? text).getD text else text
  stringBody kind (text.length + 1) [] text

def shortString : Reader String
  | '"' :: rest => stringOf ⟨'"', true, false⟩ rest
  | '\'' :: rest => stringOf ⟨'\'', false, false⟩ rest
  | _ => none

def string : Reader String
  | '"' :: '"' :: '"' :: rest => stringOf ⟨'"', true, true⟩ rest
  | '\'' :: '\'' :: '\'' :: rest => stringOf ⟨'\'', false, true⟩ rest
  | text => shortString text

/-! ## Numbers -/

/-- Digits of a class; single underscores may stand between them. -/
def digits (isDigit : Char → Bool) : Reader (List Char) := fun text =>
  match text with
  | c :: rest => if isDigit c then some (more [c] rest) else none
  | [] => none
where
  more (done : List Char) : List Char → List Char × List Char
    | c :: rest =>
      if isDigit c then more (c :: done) rest
      else
        match c, rest with
        | '_', d :: rest => if isDigit d then more (d :: done) rest else (done.reverse, c :: d :: rest)
        | _, _ => (done.reverse, c :: rest)
    | [] => (done.reverse, [])

def valueOf (base : Nat) (digits : List Char) : Nat :=
  digits.foldl (fun n d => n * base + (hexValue? d).getD 0) 0

/-- A sign, if there is one: whether it is negative. -/
def sign : List Char → Bool × List Char
  | '-' :: rest => (true, rest)
  | '+' :: rest => (false, rest)
  | text => (false, text)

/-- The digits of a decimal integer: a zero in front stands alone. -/
def decimalDigits : Reader (List Char)
  | '0' :: rest => some (['0'], rest)
  | text => digits Char.isDigit text

/-- Integers lie below this and not below its negative. -/
def bound : Nat := Nat.pow 2 63

def integer : Reader Int := fun text =>
  match text with
  | '0' :: 'x' :: rest => based 16 (fun c => (hexValue? c).isSome) rest
  | '0' :: 'o' :: rest => based 8 (fun c => '0' ≤ c && c ≤ '7') rest
  | '0' :: 'b' :: rest => based 2 (fun c => c = '0' || c = '1') rest
  | text => do
    let (negative, rest) := sign text
    let (found, rest) ← decimalDigits rest
    let n := valueOf 10 found
    if (if negative then n ≤ bound else n < bound) then pure (if negative then -(n : Int) else n, rest) else none
where
  based (base : Nat) (isDigit : Char → Bool) (text : List Char) : Option (Int × List Char) := do
    let (found, rest) ← digits isDigit text
    let n := valueOf base found
    if n < bound then pure ((n : Int), rest) else none

def overflows (n : Nat) (exponent : Int) : Bool :=
  let length := (Text.ofNat n).length
  let limit := Nat.pow 2 1024 - Nat.pow 2 970
  if n = 0 ∨ length + exponent ≤ 308 then false
  else if 309 < length + exponent then true
  else if 0 ≤ exponent then limit ≤ n * Nat.pow 10 exponent.toNat
  else limit * Nat.pow 10 (-exponent).toNat ≤ n

/-- A float; one too large is none, unless it is negative. -/
def float : Reader Unit := fun text => do
  let (negative, text) := sign text
  match text with
  | 'i' :: 'n' :: 'f' :: rest => pure ((), rest)
  | 'n' :: 'a' :: 'n' :: rest => pure ((), rest)
  | text =>
    let (whole, rest) ← decimalDigits text
    let (fraction, rest) ← match rest with
      | '.' :: rest => digits Char.isDigit rest
      | rest => some ([], rest)
    let (exponent, rest) ← match rest with
      | 'e' :: rest | 'E' :: rest => do
        let (negative, rest) := sign rest
        let (found, rest) ← digits Char.isDigit rest
        pure (some (if negative then -(valueOf 10 found : Int) else valueOf 10 found), rest)
      | rest => some (none, rest)
    if fraction.isEmpty && exponent.isNone then none
    else if !negative && overflows (valueOf 10 (whole ++ fraction)) (exponent.getD 0 - fraction.length) then none
    else pure ((), rest)

/-! ## Moments -/

def fixed (count low high : Nat) : Reader Nat := fun text =>
  let found := (text.take count).takeWhile Char.isDigit
  let n := valueOf 10 found
  if found.length = count ∧ low ≤ n ∧ n ≤ high then some (n, text.drop count) else none

def expect (c : Char) : List Char → Option (List Char)
  | d :: rest => if c = d then some rest else none
  | [] => none

def date : Reader Unit := fun text => do
  let (year, text) ← fixed 4 0 9999 text
  let (month, text) ← fixed 2 1 12 (← expect '-' text)
  let (day, text) ← fixed 2 1 31 (← expect '-' text)
  let leap := year % 4 = 0 && (year % 100 ≠ 0 || year % 400 = 0)
  let last :=
    if month = 2 then (if leap then 29 else 28)
    else if month = 4 ∨ month = 6 ∨ month = 9 ∨ month = 11 then 30 else 31
  if day ≤ last then pure ((), text) else none

def time : Reader Unit := fun text => do
  let (_, text) ← fixed 2 0 23 text
  let (_, text) ← fixed 2 0 59 (← expect ':' text)
  let (_, text) ← fixed 2 0 60 (← expect ':' text)
  match text with
  | '.' :: rest =>
    let found := rest.takeWhile Char.isDigit
    if found.isEmpty then none else pure ((), rest.drop found.length)
  | text => pure ((), text)

def offset : Reader Unit
  | 'Z' :: rest | 'z' :: rest => some ((), rest)
  | '+' :: rest | '-' :: rest => do
    let (_, rest) ← fixed 2 0 23 rest
    let (_, rest) ← fixed 2 0 59 (← expect ':' rest)
    pure ((), rest)
  | _ => none

def moment : Reader Unit := fun text =>
  match date text with
  | some ((), rest) =>
    match rest with
    | 'T' :: behind | 't' :: behind | ' ' :: behind =>
      match time behind with
      | some ((), behind) => some ((), ((offset behind).map (·.2)).getD behind)
      | none => some ((), rest)
    | rest => some ((), rest)
  | none => time text

def bool : Reader Bool
  | 't' :: 'r' :: 'u' :: 'e' :: rest => some (true, rest)
  | 'f' :: 'a' :: 'l' :: 's' :: 'e' :: rest => some (false, rest)
  | _ => none

def scalar : Reader Item := fun text =>
  ((string text).map fun (s, rest) => (.string s, rest))
    <|> ((bool text).map fun (b, rest) => (.bool b, rest))
    <|> ((moment text).map fun (_, rest) => (.moment, rest))
    <|> ((float text).map fun (_, rest) => (.float, rest))
    <|> ((integer text).map fun (n, rest) => (.integer n, rest))

end ApiCatalog.Toml
