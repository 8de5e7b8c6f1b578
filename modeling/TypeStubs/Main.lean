import TypeStubs.Json.Reader
import TypeStubs.Options.Reader
import TypeStubs.Run
import TypeStubs.World.Reader

/-! The command line: options as arguments, the description of the modules on standard input. -/

open TypeStubs

partial def readAll (stdin : IO.FS.Stream) (read : String) : IO String := do
  let line ← stdin.getLine
  if line.isEmpty then return read else readAll stdin (read ++ line)

def messageLine (m : Message) : String :=
  let level := match m.level with
    | .error => "  ERROR"
    | .warning => "WARNING"
    | .info => "   INFO"
  "pybind11_stubgen - [" ++ level ++ "] " ++ m.text

def makeTree (t : FileTree) : IO Unit := do
  for place in t.directories do
    IO.FS.createDirAll (joinWith "/" place)
  for (place, text) in t.files do
    IO.FS.writeFile (joinWith "/" place) text

def finishRun (r : Run) : IO UInt32 := do
  for m in r.log do
    IO.eprintln (messageLine m)
  makeTree r.tree
  match r.error? with
  | none => return 0
  | some (.setup e) =>
    IO.eprintln (if e.message = "" then "a flag was given nothing" else e.message)
    return 1
  | some (.inspection f) =>
    if f.message != "" && f != .terminated then IO.eprintln f.message
    return 1
  | some (.writing _) =>
    IO.eprintln "the stub cannot be written"
    return 1

def runOn (c : CommandLine) (description : String) : IO UInt32 := do
  match (Json.ofText? description).map World.ofJson with
  | some (.ok w) => finishRun (c.run w)
  | some (.error _) =>
    IO.eprintln "the description names an object that is not there"
    return 1
  | none =>
    IO.eprintln "the description cannot be read"
    return 1

def showUsage : IO Unit := do
  IO.println "usage: pybind11-stubgen [options] MODULE_NAME < DESCRIPTION"
  for flag in Flag.all do
    IO.println ("  " ++ joinWith ", " flag.spellings ++ (if flag.takesValue then " VALUE" else ""))

def main (args : List String) : IO UInt32 := do
  match CommandLine.ofArguments args with
  | .error .help =>
    showUsage
    return 0
  | .error e =>
    IO.eprintln e.message
    return 2
  | .ok c => runOn c (← readAll (← IO.getStdin) "")
