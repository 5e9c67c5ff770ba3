/-!
# The XXH3 hash

The 64-bit XXH3 hash with seed zero.  Words are little-endian and all arithmetic wraps at 64 bits.  Up
to 16 bytes are hashed in one step, up to 240 as a sum over pairs of words, and more than that in
stripes of 64 bytes on eight lanes.
-/

namespace ApiCatalog.XXH3

def prime32₁ : UInt64 := 0x9E3779B1
def prime32₂ : UInt64 := 0x85EBCA77
def prime32₃ : UInt64 := 0xC2B2AE3D
def prime64₁ : UInt64 := 0x9E3779B185EBCA87
def prime64₂ : UInt64 := 0xC2B2AE3D27D4EB4F
def prime64₃ : UInt64 := 0x165667B19E3779F9
def prime64₄ : UInt64 := 0x85EBCA77C2B2AE63
def prime64₅ : UInt64 := 0x27D4EB2F165667C5
def mix₁ : UInt64 := 0x165667919E3779F9
def mix₂ : UInt64 := 0x9FB21C651E98DF25

def secret : Array UInt8 := #[
  0xB8, 0xFE, 0x6C, 0x39, 0x23, 0xA4, 0x4B, 0xBE, 0x7C, 0x01, 0x81, 0x2C, 0xF7, 0x21, 0xAD, 0x1C,
  0xDE, 0xD4, 0x6D, 0xE9, 0x83, 0x90, 0x97, 0xDB, 0x72, 0x40, 0xA4, 0xA4, 0xB7, 0xB3, 0x67, 0x1F,
  0xCB, 0x79, 0xE6, 0x4E, 0xCC, 0xC0, 0xE5, 0x78, 0x82, 0x5A, 0xD0, 0x7D, 0xCC, 0xFF, 0x72, 0x21,
  0xB8, 0x08, 0x46, 0x74, 0xF7, 0x43, 0x24, 0x8E, 0xE0, 0x35, 0x90, 0xE6, 0x81, 0x3A, 0x26, 0x4C,
  0x3C, 0x28, 0x52, 0xBB, 0x91, 0xC3, 0x00, 0xCB, 0x88, 0xD0, 0x65, 0x8B, 0x1B, 0x53, 0x2E, 0xA3,
  0x71, 0x64, 0x48, 0x97, 0xA2, 0x0D, 0xF9, 0x4E, 0x38, 0x19, 0xEF, 0x46, 0xA9, 0xDE, 0xAC, 0xD8,
  0xA8, 0xFA, 0x76, 0x3F, 0xE3, 0x9C, 0x34, 0x3F, 0xF9, 0xDC, 0xBB, 0xC7, 0xC7, 0x0B, 0x4F, 0x1D,
  0x8A, 0x51, 0xE0, 0x4B, 0xCD, 0xB4, 0x59, 0x31, 0xC8, 0x9F, 0x7E, 0xC9, 0xD9, 0x78, 0x73, 0x64,
  0xEA, 0xC5, 0xAC, 0x83, 0x34, 0xD3, 0xEB, 0xC3, 0xC5, 0x81, 0xA0, 0xFF, 0xFA, 0x13, 0x63, 0xEB,
  0x17, 0x0D, 0xDD, 0x51, 0xB7, 0xF0, 0xDA, 0x49, 0xD3, 0x16, 0x55, 0x26, 0x29, 0xD4, 0x68, 0x9E,
  0x2B, 0x16, 0xBE, 0x58, 0x7D, 0x47, 0xA1, 0xFC, 0x8F, 0xF8, 0xB8, 0xD1, 0x7A, 0xD0, 0x31, 0xCE,
  0x45, 0xCB, 0x3A, 0x8F, 0x95, 0x16, 0x04, 0x28, 0xAF, 0xD7, 0xFB, 0xCA, 0xBB, 0x4B, 0x40, 0x7E]

def word (bytes : Array UInt8) (start count : Nat) : UInt64 :=
  (List.range count).foldr (fun i n => n <<< 8 ||| (bytes.getD (start + i) 0).toUInt64) 0

def read32 (bytes : Array UInt8) (start : Nat) : UInt64 := word bytes start 4

def read64 (bytes : Array UInt8) (start : Nat) : UInt64 := word bytes start 8

/-- The two halves of the product of two words, folded into one. -/
def foldProduct (a b : UInt64) : UInt64 :=
  let product := a.toNat * b.toNat
  product.toUInt64 ^^^ (product / Nat.pow 2 64).toUInt64

def rotateLeft (h : UInt64) (n : UInt64) : UInt64 :=
  h <<< n ||| h >>> (64 - n)

def swapBytes (h : UInt64) : UInt64 :=
  (List.range 8).foldl (fun n i => n <<< 8 ||| (h >>> (8 * i).toUInt64 &&& 0xFF)) 0

def avalanche (h : UInt64) : UInt64 :=
  let h := h ^^^ h >>> 37
  let h := h * mix₁
  h ^^^ h >>> 32

def avalancheShort (h : UInt64) : UInt64 :=
  let h := h ^^^ h >>> 33
  let h := h * prime64₂
  let h := h ^^^ h >>> 29
  let h := h * prime64₃
  h ^^^ h >>> 32

def avalancheMedium (h length : UInt64) : UInt64 :=
  let h := h ^^^ rotateLeft h 49 ^^^ rotateLeft h 24
  let h := h * mix₂
  let h := h ^^^ (h >>> 35 + length)
  let h := h * mix₂
  h ^^^ h >>> 28

/-- At most sixteen bytes. -/
def hashShort (input : Array UInt8) : UInt64 :=
  let n := input.size
  if n = 0 then avalancheShort (read64 secret 56 ^^^ read64 secret 64)
  else if n ≤ 3 then
    let first := word input 0 1
    let middle := word input (n / 2) 1
    let last := word input (n - 1) 1
    let combined := first <<< 16 ||| middle <<< 24 ||| last ||| n.toUInt64 <<< 8
    avalancheShort (combined ^^^ (read32 secret 0 ^^^ read32 secret 4))
  else if n ≤ 8 then
    let combined := read32 input (n - 4) + read32 input 0 <<< 32
    avalancheMedium (combined ^^^ (read64 secret 8 ^^^ read64 secret 16)) n.toUInt64
  else
    let low := read64 input 0 ^^^ (read64 secret 24 ^^^ read64 secret 32)
    let high := read64 input (n - 8) ^^^ (read64 secret 40 ^^^ read64 secret 48)
    avalanche (n.toUInt64 + swapBytes low + high + foldProduct low high)

def mixPair (input : Array UInt8) (start key : Nat) : UInt64 :=
  foldProduct (read64 input start ^^^ read64 secret key) (read64 input (start + 8) ^^^ read64 secret (key + 8))

/-- From 17 to 128 bytes: pairs from both ends towards the middle. -/
def hashMedium (input : Array UInt8) : UInt64 :=
  let n := input.size
  let rounds := (n - 1) / 32 + 1
  avalanche ((List.range rounds).foldl (fun h i =>
    h + mixPair input (16 * i) (32 * i) + mixPair input (n - 16 * (i + 1)) (32 * i + 16)) (n.toUInt64 * prime64₁))

/-- From 129 to 240 bytes: eight pairs, then the others with the secret taken from its fourth byte. -/
def hashLong (input : Array UInt8) : UInt64 :=
  let n := input.size
  let front := (List.range 8).foldl (fun h i => h + mixPair input (16 * i) (16 * i)) (n.toUInt64 * prime64₁)
  let rest := (List.range (n / 16 - 8)).foldl (fun h i => h + mixPair input (16 * (i + 8)) (16 * i + 3))
    (avalanche front)
  avalanche (rest + mixPair input (n - 16) 119)

/-! ## Inputs of more than 240 bytes -/

def lanes : List UInt64 :=
  [prime32₃, prime64₁, prime64₂, prime64₃, prime64₄, prime32₂, prime64₅, prime32₁]

def swapPairs : List UInt64 → List UInt64
  | a :: b :: rest => b :: a :: swapPairs rest
  | rest => rest

/-- The product of the two halves of a word. -/
def halves (k : UInt64) : UInt64 :=
  let low : UInt64 := k &&& 0xFFFFFFFF
  let high : UInt64 := k >>> 32
  low * high

/-- Adds a stripe of 64 bytes to the lanes: each word to the neighbour of its lane, and the product of its
halves, keyed by the secret, to its own. -/
def addStripe (acc : List UInt64) (input : Array UInt8) (start key : Nat) : List UInt64 :=
  let words : List UInt64 := (List.range 8).map fun i => read64 input (start + 8 * i)
  let keyed : List UInt64 := (List.range 8).map fun i => read64 input (start + 8 * i) ^^^ read64 secret (key + 8 * i)
  List.zipWith (· + ·) acc (List.zipWith (· + ·) (swapPairs words) (keyed.map halves))

def scramble (acc : List UInt64) : List UInt64 :=
  List.zipWith (fun (a : UInt64) i => (a ^^^ a >>> 47 ^^^ read64 secret (128 + 8 * i)) * prime32₁) acc (List.range 8)

def addStripes (acc : List UInt64) (input : Array UInt8) (start count : Nat) : List UInt64 :=
  (List.range count).foldl (fun acc i => addStripe acc input (start + 64 * i) (8 * i)) acc

def mergeLanes (start : UInt64) (key : Nat) : List UInt64 → UInt64
  | a :: b :: rest =>
    mergeLanes (start + foldProduct (a ^^^ read64 secret key) (b ^^^ read64 secret (key + 8))) (key + 16) rest
  | _ => avalanche start

def hashStripes (input : Array UInt8) : UInt64 :=
  let n := input.size
  let blocks := (n - 1) / 1024
  let acc := (List.range blocks).foldl (fun acc b => scramble (addStripes acc input (1024 * b) 16)) lanes
  let acc := addStripes acc input (1024 * blocks) ((n - 1 - 1024 * blocks) / 64)
  let acc := addStripe acc input (n - 64) 121
  mergeLanes (n.toUInt64 * prime64₁) 11 acc

def hash (input : Array UInt8) : UInt64 :=
  if input.size ≤ 16 then hashShort input
  else if input.size ≤ 128 then hashMedium input
  else if input.size ≤ 240 then hashLong input
  else hashStripes input

end ApiCatalog.XXH3
