import ApiCatalog.Catalog.Search
import ApiCatalog.Catalog.Storage
import ApiCatalog.CommandLine.Arguments
import ApiCatalog.Config.Document
import ApiCatalog.Extract.Docs
import ApiCatalog.Scan.Basic
/-!
# Running commands

What the commands do with the files of a tree and what they print.  Only a scan changes the tree: it writes
one catalog.
-/

namespace ApiCatalog.CommandLine

open Ignore (Excludes)

inductive Outcome where
  /-- All went well; this is printed, and a catalog may have been written. -/
  | done (printed : String) (written : Option Path)
  /-- The messages of an error and of what caused it, the outermost one first. -/
  | failed (messages : List String)
  | helped
  | misused
  deriving Repr, DecidableEq

namespace Outcome

def exitCode : Outcome → Nat
  | done _ _ | helped => 0
  | failed _ => 1
  | misused => 2

/-- What is printed, help apart. -/
def printed : Outcome → String
  | done text _ => text
  | _ => ""

def report : Outcome → String
  | failed [] => "Error"
  | failed [message] => "Error: " ++ message
  | failed (message :: causes) => "Error: " ++ message ++ "\n\nCaused by:\n    " ++ "\n    ".intercalate causes
  | _ => ""

end Outcome

def versionText : String := "api-cataloger 0.1.0\n"

/-! ## Scan -/

/-- The configuration of a scan: what the arguments say goes before what the file says. -/
def ScanRequest.configure (request : ScanRequest) (config : Config) : Except ConfigError Config := do
  let format ← match request.format with
    | none => pure config.output.format
    | some text => pure (some (← OutputFormat.ofText text))
  pure {
    scan := { config.scan with
      teamOwner := request.team.or config.scan.teamOwner
      recursive := if request.topOnly then some false else config.scan.recursive }
    output := { format, path := request.output.or config.output.path } }

def scanSummary (catalog : Catalog) (output : Path) : String :=
  "Cataloged " ++ toString catalog.endpointCount ++ " endpoints from " ++ toString catalog.entries.length
    ++ " sources -> " ++ output.text ++ "\n"

/-- Scans and writes the catalog. Folders that were made for it stay also if it cannot be written. -/
def runScan (request : ScanRequest) (tree : Node) (now : Instant) (excludes : Excludes := .none) : Node × Outcome :=
  match Config.load tree request.root request.config with
  | .error e => (tree, .failed ["Failed to load configuration", e.message])
  | .ok config =>
    match request.configure config with
    | .error e => (tree, .failed [e.message])
    | .ok config =>
      match scan tree Registry.builtin config.scan request.root now excludes with
      | .error e => (tree, .failed ["Failed to scan " ++ request.root.text, e.message])
      | .ok catalog =>
        let output := config.output.pathInEffect
        match catalog.save tree output config.output.formatInEffect now with
        | (tree, .error e) => (tree, .failed ["Failed to write catalog to " ++ output.text, e.message])
        | (tree, .ok ()) => (tree, .done (scanSummary catalog output) (some output))

/-! ## Search -/

def snippetLength : Nat := 80

/-- The beginning of the summary, or else of the description, on one line. -/
def snippet (endpoint : Endpoint) : List Char :=
  let text := (endpoint.summary.or endpoint.description).getD ""
  (Text.truncate snippetLength text.toList).map fun c => if c = '\n' then ' ' else c

def hitLine (hit : Entry × Endpoint) : String :=
  String.ofList (Text.join [' '] [
    Text.filled 7 hit.2.method.toList,
    Text.filled 40 hit.2.path.toList,
    Text.filled 80 (snippet hit.2),
    hit.1.metadata.sourceFile.toList]) ++ "\n"

def searchReport (catalog : Catalog) (query : String) : String :=
  match catalog.searchEntriesWithMethod query with
  | [] => "No endpoints match '" ++ query ++ "'\n"
  | hits => String.join (hits.map hitLine) ++ toString hits.length ++ " matching endpoints\n"

/-! ## Stats -/

def tallyLines (width : Nat) (tally : Tally) : String :=
  String.join (tally.map fun (text, count) =>
    "  " ++ String.ofList (Text.filled width text.toList) ++ " " ++ toString count ++ "\n")

def statsReport (catalog : Catalog) : String :=
  let stats := catalog.stats
  "Generated: " ++ String.ofList (catalog.generatedAt.text .digits) ++ "\n"
    ++ "Sources:   " ++ toString stats.sources ++ "\n"
    ++ "Endpoints: " ++ toString stats.endpoints ++ "\n\n"
    ++ "By method:\n" ++ tallyLines 8 stats.byMethod
    ++ "By status:\n" ++ tallyLines 11 stats.byStatus

/-! ## All commands -/

/-- Prints a report on a stored catalog. -/
def runReport (path : Path) (report : Catalog → String) (tree : Node) : Outcome :=
  match Catalog.load tree path with
  | .error e => .failed ["Failed to load catalog " ++ path.text, e.message]
  | .ok catalog => .done (report catalog) none

def Command.run (tree : Node) (now : Instant) (excludes : Excludes := .none) : Command → Node × Outcome
  | .scan request => runScan request tree now excludes
  | .search catalog query => (tree, runReport catalog (searchReport · query) tree)
  | .stats catalog => (tree, runReport catalog statsReport tree)

def run (arguments : List String) (tree : Node) (now : Instant) (excludes : Excludes := .none) : Node × Outcome :=
  match Command.ofArguments arguments with
  | .ok command => command.run tree now excludes
  | .error .help => (tree, .helped)
  | .error .version => (tree, .done versionText none)
  | .error .misuse => (tree, .misused)

end ApiCatalog.CommandLine
