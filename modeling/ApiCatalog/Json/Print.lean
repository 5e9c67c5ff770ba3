import ApiCatalog.Json.Value
/-!
# Printing JSON

Documents are printed with one item or member a line and two spaces for each level; an empty array or
object stays on its line.  Only what must be escaped in a string is escaped.
-/

namespace ApiCatalog.Json

/-- The digits of a number below 256 in hexadecimal. -/
def hexByte (n : Nat) : List Char :=
  [Nat.digitChar (n / 16), Nat.digitChar (n % 16)]

def escapeChar (c : Char) : List Char :=
  if c = '"' then ['\\', '"']
  else if c = '\\' then ['\\', '\\']
  else if c = '\n' then ['\\', 'n']
  else if c = '\r' then ['\\', 'r']
  else if c = '\t' then ['\\', 't']
  else if c = '\x08' then ['\\', 'b']
  else if c = '\x0c' then ['\\', 'f']
  else if c.toNat < 0x20 then ['\\', 'u', '0', '0'] ++ hexByte c.toNat
  else [c]

def quoted (s : String) : List Char :=
  '"' :: s.toList.flatMap escapeChar ++ ['"']

namespace Value

def newline (level : Nat) : String :=
  "\n".pushn ' ' (2 * level)

mutual

def printOn (level : Nat) (out : String) : Value → String
  | .null => out ++ "null"
  | .bool b => out ++ (if b then "true" else "false")
  | .number n => out ++ String.ofList n.text
  | .string s => out ++ String.ofList (quoted s)
  | .array [] => out ++ "[]"
  | .array (v :: vs) =>
    printItems (level + 1) (printOn (level + 1) (out ++ "[" ++ newline (level + 1)) v) vs ++ newline level ++ "]"
  | .object [] => out ++ "\x7b\x7d"
  | .object ((key, v) :: members) =>
    let out := out ++ "\x7b" ++ newline (level + 1) ++ String.ofList (quoted key) ++ ": "
    printMembers (level + 1) (printOn (level + 1) out v) members ++ newline level ++ "\x7d"

/-- Prints the items after the first. -/
def printItems (level : Nat) (out : String) : List Value → String
  | [] => out
  | v :: vs => printItems level (printOn level (out ++ "," ++ newline level) v) vs

def printMembers (level : Nat) (out : String) : List (String × Value) → String
  | [] => out
  | (key, v) :: members =>
    printMembers level (printOn level (out ++ "," ++ newline level ++ String.ofList (quoted key) ++ ": ") v) members

end

def pretty (v : Value) : String :=
  v.printOn 0 ""

end Value

end ApiCatalog.Json
