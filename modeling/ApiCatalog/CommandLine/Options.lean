/-!
# Options

How a list of arguments is read as options and operands.  An option has a long name behind two hyphens and
perhaps a letter behind one; letters may be written together.  A value stands behind an equals sign, right
behind the letter, or in the next argument, where it may not look like an option.
-/

namespace ApiCatalog.CommandLine

inductive OptionKind where
  | flag
  | help
  | version
  /-- It has a value, which may be empty or not. -/
  | value (mayBeEmpty : Bool)
  deriving Repr, DecidableEq

structure OptionSpec where
  name : String
  letter : Option Char
  kind : OptionKind
  deriving Repr, DecidableEq

/-- Why arguments are not read to their end. -/
inductive Stop where
  | help
  | version
  /-- The arguments make no sense. -/
  | misuse
  deriving Repr, DecidableEq

structure Given where
  flags : List String
  values : List (String × String)
  operands : List String
  deriving Repr, DecidableEq

namespace Given

def nothing : Given := ⟨[], [], []⟩

def value? (given : Given) (name : String) : Option String :=
  (given.values.find? (·.1 == name)).map (·.2)

end Given

/-- What a part of an argument says. -/
inductive Setting where
  /-- An option by itself. -/
  | plain (spec : OptionSpec)
  | valued (spec : OptionSpec) (value : String)
  /-- The next argument is the value. -/
  | awaiting (spec : OptionSpec)
  | unknown
  deriving Repr, DecidableEq

namespace Setting

def ofLetters (specs : List OptionSpec) : List Char → List Setting
  | [] => []
  | c :: rest =>
    match specs.find? (·.letter = some c) with
    | none => [unknown]
    | some spec =>
      match spec.kind, rest with
      | .value _, [] => [awaiting spec]
      | .value _, '=' :: value => [valued spec (String.ofList value)]
      | .value _, value => [valued spec (String.ofList value)]
      | _, rest => plain spec :: ofLetters specs rest

def ofLong (specs : List OptionSpec) (text : List Char) : Setting :=
  let name := text.takeWhile (· ≠ '=')
  let value := (text.drop name.length).tail?
  match specs.find? (·.name = String.ofList name) with
  | none => unknown
  | some spec =>
    match spec.kind, value with
    | .value _, some value => valued spec (String.ofList value)
    | .value _, none => awaiting spec
    | _, some _ => unknown
    | _, none => plain spec

/-- What an argument says; none if it is no option. -/
def ofArgument? (specs : List OptionSpec) (argument : String) : Option (List Setting) :=
  match argument.toList with
  | '-' :: '-' :: text => some [ofLong specs text]
  | '-' :: c :: rest => some (ofLetters specs (c :: rest))
  | _ => none

end Setting

namespace Given

/-- Sets an option that has a value, once. -/
def setValue (given : Given) (spec : OptionSpec) (value : String) : Except Stop Given :=
  if (given.value? spec.name).isSome ∨ (spec.kind = .value false ∧ value = "") then .error .misuse
  else .ok { given with values := given.values ++ [(spec.name, value)] }

/-- Takes a setting into account: the option that awaits its value, if any. -/
def apply : Given × Option OptionSpec → Setting → Except Stop (Given × Option OptionSpec)
  | (given, _), .valued spec value => do pure (← given.setValue spec value, none)
  | (given, _), .awaiting spec => .ok (given, some spec)
  | (_, _), .unknown => .error .misuse
  | (given, _), .plain spec =>
    match spec.kind with
    | .help => .error .help
    | .version => .error .version
    | _ =>
      if given.flags.contains spec.name then .error .misuse
      else .ok ({ given with flags := given.flags ++ [spec.name] }, none)

/-- Adds an operand; `accepts` says of each operand in order whether it may be empty. -/
def addOperand (accepts : List Bool) (given : Given) (operand : String) : Except Stop Given :=
  match accepts[given.operands.length]? with
  | none => .error .misuse
  | some mayBeEmpty =>
    if operand = "" ∧ !mayBeEmpty then .error .misuse
    else .ok { given with operands := given.operands ++ [operand] }

end Given

/-- Whether an argument looks like an option; a single hyphen does not. -/
def looksLikeOption (argument : String) : Bool :=
  match argument.toList with
  | '-' :: _ :: _ => true
  | _ => false

/-- Reads arguments; behind two hyphens all are operands. -/
def readArguments (specs : List OptionSpec) (accepts : List Bool) (given : Given) : List String → Except Stop Given
  | [] => .ok given
  | "--" :: rest => rest.foldlM (Given.addOperand accepts) given
  | argument :: rest => do
    match Setting.ofArgument? specs argument with
    | none => readArguments specs accepts (← given.addOperand accepts argument) rest
    | some settings =>
      match ← settings.foldlM Given.apply (given, none), rest with
      | (given, none), rest => readArguments specs accepts given rest
      | (_, some _), [] => throw .misuse
      | (given, some spec), value :: rest =>
        if looksLikeOption value then throw .misuse
        else readArguments specs accepts (← given.setValue spec value) rest

end ApiCatalog.CommandLine
