/-!
# TOML tables

The data of a TOML document and the rules by which keys and headers build its tables.  How a table came to
be decides what may still be added to it.
-/

namespace ApiCatalog.Toml

inductive Origin where
  /-- It has a header of its own. -/
  | header
  /-- A table below it has a header. -/
  | implied
  /-- A dotted key leads through it. -/
  | dotted
  /-- It stands between braces and is complete. -/
  | braces
  deriving Repr, DecidableEq

/-- A value or table. The value of a float and of a date do not matter. -/
inductive Item where
  | bool (b : Bool)
  | integer (n : Int)
  | float
  | moment
  | string (text : String)
  | array (items : List Item)
  | table (origin : Origin) (entries : List (String × Item))
  /-- The tables of a repeated header. -/
  | tables (all : List (List (String × Item)))
  deriving Inhabited

abbrev Entries := List (String × Item)

namespace Entries

def get? (entries : Entries) (key : String) : Option Item :=
  (entries.find? (·.1 == key)).map (·.2)

def set (entries : Entries) (key : String) (item : Item) : Entries :=
  if (entries.get? key).isSome then entries.map fun e => if e.1 == key then (e.1, item) else e
  else entries ++ [(key, item)]

/-- Changes the table that a path of keys leads to, and makes tables on the way. A dotted key neither
extends a table with a header nor one in braces, a header only not the latter; of repeated tables the last
one is meant. -/
def alter (byKey : Bool) (change : Origin → Entries → Option Entries) :
    List String → Origin → Entries → Option Entries
  | [], origin, entries => change origin entries
  | key :: path, _, entries =>
    match entries.get? key with
    | none =>
      let origin := if byKey then .dotted else .implied
      (alter byKey change path origin []).map fun inner => entries.set key (.table origin inner)
    | some (.table origin inner) =>
      if origin = .braces ∨ (byKey ∧ origin = .header) then none
      else (alter byKey change path origin inner).map fun inner => entries.set key (.table origin inner)
    | some (.tables all) =>
      match all.getLast? with
      | none => none
      | some last =>
        (alter byKey change path .header last).map fun inner =>
          entries.set key (.tables (all.dropLast ++ [inner]))
    | some _ => none

/-- Sets a key that may be dotted: each key is set once, and the tables that dotted keys lead through
hold nothing else. -/
def assign (path : List String) (key : String) (item : Item) (entries : Entries) : Option Entries :=
  let change (origin : Origin) (entries : Entries) : Option Entries :=
    if decide (origin = .dotted) = path.isEmpty ∨ (entries.get? key).isSome then none
    else some (entries.set key item)
  alter true change path .header entries

/-- Starts the table of a header: it may be there if only headers of tables below it were met. -/
def startTable (key : String) (_ : Origin) (entries : Entries) : Option Entries :=
  match entries.get? key with
  | none => some (entries.set key (.table .header []))
  | some (.table .implied inner) => some (entries.set key (.table .header inner))
  | some _ => none

def startRepeated (key : String) (_ : Origin) (entries : Entries) : Option Entries :=
  match entries.get? key with
  | none => some (entries.set key (.tables [[]]))
  | some (.tables all) => some (entries.set key (.tables (all ++ [[]])))
  | some _ => none

def ofPairs? (pairs : List (List String × Item)) : Option Entries :=
  pairs.foldlM (fun entries (path, item) => do
    assign path.dropLast (← path.getLast?) item entries) []

end Entries

inductive Statement where
  | table (path : List String)
  | repeated (path : List String)
  | assign (path : List String) (item : Item)

namespace Statement

/-- Takes a statement into account: the path to the table at hand and all entries so far. -/
def apply : List String × Entries → Statement → Option (List String × Entries)
  | (_, document), .table path => do
    pure (path, ← Entries.alter false (Entries.startTable (← path.getLast?)) path.dropLast .header document)
  | (_, document), .repeated path => do
    pure (path, ← Entries.alter false (Entries.startRepeated (← path.getLast?)) path.dropLast .header document)
  | (header, document), .assign path item => do
    let key ← path.getLast?
    let change (_ : Origin) (entries : Entries) : Option Entries := entries.assign path.dropLast key item
    pure (header, ← Entries.alter false change header .header document)

def document? (statements : List Statement) : Option Entries :=
  (statements.foldlM apply (([] : List String), ([] : Entries))).map (·.2)

end Statement

end ApiCatalog.Toml
