import ApiCatalog.Json.Number
/-!
# JSON values

A value as a document holds it: the members of an object keep their order and no key occurs twice.
-/

namespace ApiCatalog.Json

inductive Value where
  | null
  | bool (b : Bool)
  | number (n : Number)
  | string (s : String)
  | array (items : List Value)
  | object (members : List (String × Value))
  deriving Inhabited

abbrev Members := List (String × Value)

namespace Members

def get? (members : Members) (key : String) : Option Value :=
  (members.find? (·.1 == key)).map (·.2)

/-- Sets the value of a key: a key that is already there keeps its place. -/
def put (members : Members) (key : String) (value : Value) : Members :=
  if members.any (·.1 == key) then members.map fun m => if m.1 == key then (m.1, value) else m
  else members ++ [(key, value)]

/-- Members as read one after another: of several values for a key the last one counts, at the place
where the key came first. -/
def ofList (members : List (String × Value)) : Members :=
  members.foldl (fun all m => put all m.1 m.2) []

end Members

namespace Value

def string? : Value → Option String
  | .string s => some s
  | _ => none

def bool? : Value → Option Bool
  | .bool b => some b
  | _ => none

def array? : Value → Option (List Value)
  | .array items => some items
  | _ => none

def object? : Value → Option Members
  | .object members => some members
  | _ => none

/-- The value of a key, if the value is an object that has the key. -/
def get? (value : Value) (key : String) : Option Value :=
  value.object?.bind (·.get? key)

end Value

end ApiCatalog.Json
