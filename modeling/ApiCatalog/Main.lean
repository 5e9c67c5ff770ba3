import ApiCatalog.CommandLine.Run
import Std.Time.DateTime.Timestamp
/-!
# The program

Reads what a command needs, runs it and prints what comes of it.  A scan is told on standard input which
files there are: a line for each, with the second of its last change, a tab and its path below the current
folder.
-/

open ApiCatalog ApiCatalog.CommandLine

def usage : String :=
  "Catalog HTTP endpoints from specs and source code\n\n"
    ++ "Usage: api-cataloger [-v] scan PATH [-o FILE] [-f FORMAT] [-t TEAM] [--no-recursive] [-c FILE]\n"
    ++ "       api-cataloger [-v] search CATALOG QUERY\n"
    ++ "       api-cataloger [-v] stats CATALOG\n"

def addFile (tree : Node) (path : String) (seconds : Int) : IO Node := do
  try
    let content ← IO.FS.readBinFile path
    let place := Path.ofText path
    match (tree.makeFolders (place.parent?.getD ⟨[]⟩)).1.write place content ⟨seconds, 0⟩ with
    | .ok tree => pure tree
    | .error _ => pure tree
  catch _ => pure tree

partial def addListed (input : IO.FS.Stream) (tree : Node) : IO Node := do
  let line := (← input.getLine).toList
  if line.isEmpty then pure tree
  else
    let line := line.filter (· ≠ '\n')
    let seconds := String.ofList (line.takeWhile (· ≠ '\t'))
    let path := String.ofList (line.dropWhile (· ≠ '\t')).tail
    addListed input (← addFile tree path (seconds.toInt?.getD 0))

def gather : Command → IO Node
  | .scan _ => do addListed (← IO.getStdin) Node.emptyFolder
  | .search catalog _ | .stats catalog => addFile Node.emptyFolder catalog.text 0

def store (tree : Node) (path : Path) : IO Unit := do
  match tree.node? path with
  | some (.file content _) =>
    match path.parent? with
    | some parent => if !parent.bytes.isEmpty then IO.FS.createDirAll parent.text
    | none => pure ()
    IO.FS.writeBinFile path.text content
  | _ => pure ()

def main (arguments : List String) : IO UInt32 := do
  let tree ← match Command.ofArguments arguments with
    | .ok command => gather command
    | .error _ => pure Node.emptyFolder
  let now ← Std.Time.Timestamp.now
  let (tree, outcome) := run arguments tree ⟨now.toSecondsSinceUnixEpoch.val, now.val.nano.val.toNat⟩
  match outcome with
  | .done printed written => do
    match written with
    | some path => store tree path
    | none => pure ()
    IO.print printed
  | .helped => IO.print usage
  | .misused => IO.eprint usage
  | .failed _ => IO.eprintln outcome.report
  pure outcome.exitCode.toUInt32
