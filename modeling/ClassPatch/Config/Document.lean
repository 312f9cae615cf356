import ClassPatch.Config.Basic
import ClassPatch.Json.Record
/-!
# Configuration files

The form of a configuration as a JSON document.

* `Config.ofJson` — reads a document; what is left out of it is as in `Config.standard`
* `Config.toJson` — writes one, without blanks and with all members
-/

namespace ClassPatch

open Json (Member Reader Shape)

/-! ## Reading -/

/-- Reads a table. A later value of a name takes the place of an earlier one. -/
def NameTable.reader : Reader NameTable := fun s =>
  match h : Json.skipBlanks s with
  | '\x7b' :: r =>
    Json.weaken (Json.length_le_of_skipBlanks h)
      (Json.object (fun t name => .ok fun s => (Json.string s).map fun (value, r) =>
        (NameTable.insert t name value, r)) .empty r)
  | s => .error (Json.otherValue s)

/-- A method has both its members. -/
def MemberKey.shape : Shape MemberKey where
  members := [
    .of "name" Json.string fun k name => { k with name },
    .of "descriptor" Json.string fun k descriptor => { k with descriptor }]
  start := ⟨"", ""⟩
  isComplete := true

/-- A time helper may leave out any member. -/
def TimeHelper.shape : Shape TimeHelper where
  members := [
    .of "class" Json.string fun h className => { h with className },
    .of "tick_length_field" Json.string fun h tickLengthField => { h with tickLengthField },
    .of "display_update_method" Json.string
      fun h displayUpdateMethod => { h with displayUpdateMethod }]
  start := .standard
  isComplete := false

namespace Config

/-- A configuration may leave out any member. -/
def shape : Shape Config where
  members := [
    .of "server_class" Json.string fun c serverClass => { c with serverClass },
    .of "client_class" Json.string fun c clientClass => { c with clientClass },
    .of "tick_method" MemberKey.shape.read fun c tickMethod => { c with tickMethod },
    .of "tick_length" Json.integer fun c tickLength => { c with tickLength },
    .of "game_loop_method" MemberKey.shape.read fun c gameLoopMethod => { c with gameLoopMethod },
    .of "display_update_method" Json.string
      fun c displayUpdateMethod => { c with displayUpdateMethod },
    .of "time_helper" TimeHelper.shape.read fun c timeHelper => { c with timeHelper },
    .of "symbols" NameTable.reader fun c symbols => { c with symbols },
    .of "hierarchy" NameTable.reader fun c hierarchy => { c with hierarchy },
    .of "class_names" NameTable.reader fun c classNames => { c with classNames }]
  start := .standard
  isComplete := false

def ofJson (s : String) : Except Json.Fault Config := Json.document shape.read s

end Config

/-! ## Writing -/

/-- An object of members whose values are written already. -/
def objectText (fields : List (String × String)) : String :=
  let members := fields.map fun (name, value) => Json.quoted name ++ ":" ++ value
  "\x7b" ++ String.intercalate "," members ++ "\x7d"

def NameTable.toJson (t : NameTable) : String :=
  objectText (t.entries.map fun (name, value) => (name, Json.quoted value))

def MemberKey.toJson (k : MemberKey) : String :=
  objectText [("name", Json.quoted k.name), ("descriptor", Json.quoted k.descriptor)]

def TimeHelper.toJson (h : TimeHelper) : String :=
  objectText [("class", Json.quoted h.className),
    ("tick_length_field", Json.quoted h.tickLengthField),
    ("display_update_method", Json.quoted h.displayUpdateMethod)]

def Config.toJson (c : Config) : String :=
  objectText [("server_class", Json.quoted c.serverClass),
    ("client_class", Json.quoted c.clientClass),
    ("tick_method", c.tickMethod.toJson),
    ("tick_length", toString c.tickLength),
    ("game_loop_method", c.gameLoopMethod.toJson),
    ("display_update_method", Json.quoted c.displayUpdateMethod),
    ("time_helper", c.timeHelper.toJson),
    ("symbols", c.symbols.toJson),
    ("hierarchy", c.hierarchy.toJson),
    ("class_names", c.classNames.toJson)]

/-! ## Files -/

/-- Why there is no configuration. -/
inductive ConfigError where
  | absent (path : String)
  | unreadable (path : String) (fault : Json.Fault)
  deriving DecidableEq

def ConfigError.message : ConfigError → String
  | absent path => "failed to open config file " ++ Quoted.string path
  | unreadable path _ => "failed to parse config file " ++ Quoted.string path

end ClassPatch
