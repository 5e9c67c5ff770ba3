/-!
# UTF-8

Bytes are read one at a time by a decoder that knows which byte may come next.  Where no character can
be completed, the bytes read for it are one fault, and the byte that does not fit is looked at anew.
-/

namespace ApiCatalog.Utf8

/-- What the decoder waits for: nothing, or so many more bytes, the next of them within bounds, to
complete a code point of which the value so far is known. -/
inductive Pending where
  | nothing
  | bytes (more : Nat) (low high : UInt8) (value : Nat)

/-- A decoder: the characters so far, nearest first, with `none` for each fault. -/
structure Decoder where
  done : List (Option Char)
  pending : Pending

def Decoder.first (done : List (Option Char)) (b : UInt8) : Decoder :=
  if b < 0x80 then ⟨some (Char.ofNat b.toNat) :: done, .nothing⟩
  else if b < 0xC2 then ⟨none :: done, .nothing⟩
  else if b < 0xE0 then ⟨done, .bytes 1 0x80 0xBF (b.toNat - 0xC0)⟩
  else if b < 0xF0 then
    ⟨done, .bytes 2 (if b = 0xE0 then 0xA0 else 0x80) (if b = 0xED then 0x9F else 0xBF) (b.toNat - 0xE0)⟩
  else if b < 0xF5 then
    ⟨done, .bytes 3 (if b = 0xF0 then 0x90 else 0x80) (if b = 0xF4 then 0x8F else 0xBF) (b.toNat - 0xF0)⟩
  else ⟨none :: done, .nothing⟩

def Decoder.feed (d : Decoder) (b : UInt8) : Decoder :=
  match d.pending with
  | .nothing => first d.done b
  | .bytes more low high value =>
    if low ≤ b ∧ b ≤ high then
      let value := value * 64 + (b.toNat - 0x80)
      if more ≤ 1 then ⟨some (Char.ofNat value) :: d.done, .nothing⟩
      else ⟨d.done, .bytes (more - 1) 0x80 0xBF value⟩
    else first (none :: d.done) b

def Decoder.finish (d : Decoder) : List (Option Char) :=
  (match d.pending with
    | .nothing => d.done
    | .bytes _ _ _ _ => none :: d.done).reverse

/-- The characters of some bytes, `none` standing for each fault. -/
def decode (bytes : List UInt8) : List (Option Char) :=
  (bytes.foldl Decoder.feed ⟨[], .nothing⟩).finish

def decodeLossy (bytes : List UInt8) : List Char :=
  (decode bytes).map (·.getD '\uFFFD')

/-- The text of some bytes; nothing if there is a fault. -/
def decode? (bytes : List UInt8) : Option (List Char) :=
  let chars := decode bytes
  if chars.all (·.isSome) then some (chars.filterMap id) else none

def encodeChar (c : Char) : List UInt8 :=
  let n := c.toNat
  let tail (shift : Nat) : UInt8 := (0x80 + n / Nat.pow 2 shift % 64).toUInt8
  if n < 0x80 then [n.toUInt8]
  else if n < 0x800 then [(0xC0 + n / 64).toUInt8, tail 0]
  else if n < 0x10000 then [(0xE0 + n / 4096).toUInt8, tail 6, tail 0]
  else [(0xF0 + n / 262144).toUInt8, tail 12, tail 6, tail 0]

def encode (text : List Char) : List UInt8 :=
  text.flatMap encodeChar

end ApiCatalog.Utf8
