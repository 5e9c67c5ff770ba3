import ApiCatalog.CommandLine.Options
import ApiCatalog.Files.Path
/-!
# Commands and their arguments

The command line names one of three commands.  An option for more talk may stand before the command as well
as behind it.
-/

namespace ApiCatalog.CommandLine

structure ScanRequest where
  root : Path
  output : Option Path
  format : Option String
  team : Option String
  topOnly : Bool
  config : Option Path
  deriving Repr, DecidableEq

inductive Command where
  | scan (request : ScanRequest)
  | search (catalog : Path) (query : String)
  | stats (catalog : Path)
  deriving Repr, DecidableEq

def helpOption : OptionSpec := ⟨"help", some 'h', .help⟩

def verboseOption : OptionSpec := ⟨"verbose", some 'v', .flag⟩

/-- The options in front of the command. -/
def topOptions : List OptionSpec := [helpOption, verboseOption, ⟨"version", some 'V', .version⟩]

def sharedOptions : List OptionSpec := [helpOption, verboseOption]

def scanOptions : List OptionSpec := sharedOptions ++ [
  ⟨"output", some 'o', .value false⟩,
  ⟨"format", some 'f', .value true⟩,
  ⟨"team", some 't', .value true⟩,
  ⟨"no-recursive", none, .flag⟩,
  ⟨"config", some 'c', .value false⟩]

namespace Command

def scanOf (arguments : List String) : Except Stop Command := do
  let given ← readArguments scanOptions [false] .nothing arguments
  match given.operands with
  | [root] => pure (.scan {
      root := Path.ofText root
      output := (given.value? "output").map Path.ofText
      format := given.value? "format"
      team := given.value? "team"
      topOnly := given.flags.contains "no-recursive"
      config := (given.value? "config").map Path.ofText })
  | _ => throw .misuse

def searchOf (arguments : List String) : Except Stop Command := do
  let given ← readArguments sharedOptions [false, true] .nothing arguments
  match given.operands with
  | [catalog, query] => pure (.search (Path.ofText catalog) query)
  | _ => throw .misuse

def statsOf (arguments : List String) : Except Stop Command := do
  let given ← readArguments sharedOptions [false] .nothing arguments
  match given.operands with
  | [catalog] => pure (.stats (Path.ofText catalog))
  | _ => throw .misuse

def helpOf : List String → Except Stop Command
  | [] => .error .help
  | [name] => .error (if ["scan", "search", "stats", "help"].contains name then .help else .misuse)
  | _ => .error .misuse

def ofName (name : String) (arguments : List String) : Except Stop Command :=
  if name = "scan" then scanOf arguments
  else if name = "search" then searchOf arguments
  else if name = "stats" then statsOf arguments
  else if name = "help" then helpOf arguments
  else .error .misuse

def ofArgumentsFrom (given : Given) : List String → Except Stop Command
  | [] => .error .misuse
  | argument :: rest => do
    match Setting.ofArgument? topOptions argument with
    | none => ofName argument rest
    | some settings => ofArgumentsFrom (← settings.foldlM Given.apply (given, none)).1 rest

def ofArguments (arguments : List String) : Except Stop Command := ofArgumentsFrom .nothing arguments

end Command

end ApiCatalog.CommandLine
