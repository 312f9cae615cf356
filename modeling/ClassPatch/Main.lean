import ClassPatch.Config.Document
import ClassPatch.Patch.Bytes
/-!
# The command line

`class INPUT OUTPUT --name NAME` patches a single class file. The name that the class is known by
may be given by `--transformed-name`, a configuration file by `-c`, and `-v` shows all reports. Only
this module reads and writes files.
-/

namespace ClassPatch

/-- What a command line asks for. -/
structure Arguments where
  verbose : Bool
  config : Option String
  name : Option String
  knownName : Option String
  /-- The words that are no options, last one first. -/
  plain : List String

namespace Arguments

def empty : Arguments := ⟨false, none, none, none, []⟩

/-- What is asked for by a word that no value belongs to, if it makes sense. -/
def addWord? (a : Arguments) (word : String) : Option Arguments :=
  if word = "-v" || word = "--verbose" then some { a with verbose := true }
  else if "-".toList.isPrefixOf word.toList then none
  else some { a with plain := word :: a.plain }

def addWords? (a : Arguments) : List String → Option Arguments
  | [] => some a
  | [word] => a.addWord? word
  | word :: value :: rest =>
    if word = "-c" || word = "--config" then addWords? { a with config := some value } rest
    else if word = "--name" then addWords? { a with name := some value } rest
    else if word = "--transformed-name" then addWords? { a with knownName := some value } rest
    else
      match a.addWord? word with
      | none => none
      | some a => addWords? a (value :: rest)

end Arguments

def usage : String :=
  "usage: [-v] [-c CONFIG] class INPUT OUTPUT --name NAME [--transformed-name NAME]"

def Event.logLine (e : Event) : String :=
  "[" ++ e.severity.name ++ " " ++ logTarget ++ "] " ++ e.text

def contents? {α : Type} (read : IO α) : IO (Option α) := do
  try return some (← read) catch _ => return none

def Config.load (path : String) : IO (Except ConfigError Config) := do
  match ← contents? (IO.FS.readFile path) with
  | none => return .error (.absent path)
  | some text => return (Config.ofJson text).mapError (.unreadable path)

def patchFile (c : Config) (verbose : Bool) (input output name knownName : String) :
    IO UInt32 := do
  match ← contents? (IO.FS.readBinFile input) with
  | none =>
    IO.eprintln ("Error: failed to read class file " ++ Quoted.string input)
    return 1
  | some bytes =>
    let result := c.patch name knownName bytes.toList
    for e in result.events do
      if verbose || e.severity ≠ .debug then IO.eprintln e.logLine
    match ← contents? (IO.FS.writeBinFile output ⟨result.bytes.toArray⟩) with
    | none =>
      IO.eprintln ("Error: failed to write class file " ++ Quoted.string output)
      return 1
    | some _ => return 0

end ClassPatch

open ClassPatch

/-- Patches the class file that the command line asks for. -/
def main (words : List String) : IO UInt32 := do
  match Arguments.empty.addWords? words with
  | some ⟨verbose, config, some name, knownName, [output, input, "class"]⟩ =>
    let loaded ← match config with
      | none => pure (.ok .standard)
      | some path => Config.load path
    match loaded with
    | .error e =>
      IO.eprintln ("Error: " ++ e.message)
      return 1
    | .ok c => patchFile c verbose input output name (knownName.getD name)
  | _ =>
    IO.eprintln usage
    return 2
