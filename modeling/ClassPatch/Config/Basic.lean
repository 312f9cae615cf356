import ClassPatch.Member
import ClassPatch.NameTable
/-!
# Configurations

What has to be known about the classes to patch. Everything has a value by default.

* `Config.standard` — the configuration that says nothing
* `Config.resolve` — the name of a member in a class that may be obfuscated
-/

namespace ClassPatch

/-- The class whose static members the patched code uses. -/
structure TimeHelper where
  /-- The name of the class in internal form, with slashes. -/
  className : String
  /-- The field that holds the length of a tick in milliseconds. -/
  tickLengthField : String
  /-- The method that decides whether the display is updated. -/
  displayUpdateMethod : String
  deriving DecidableEq

def TimeHelper.standard : TimeHelper where
  className := "com/microsoft/Malmo/Utils/TimeHelper"
  tickLengthField := "serverTickLength"
  displayUpdateMethod := "updateDisplay"

/-- What is known about the classes to patch. -/
structure Config where
  /-- The class that runs the ticks, by its binary name, with dots. -/
  serverClass : String
  /-- The class that runs the game loop, by its binary name. -/
  clientClass : String
  /-- The method of the server class in which the length of a tick stands. -/
  tickMethod : MemberKey
  /-- The length of a tick as it stands there. -/
  tickLength : Int64
  /-- The method of the client class that updates the display. -/
  gameLoopMethod : MemberKey
  /-- The method that is called for it. -/
  displayUpdateMethod : String
  timeHelper : TimeHelper
  /-- The names that members have in obfuscated classes, by their names in others. -/
  symbols : NameTable
  /-- Super classes of further classes, by internal names. -/
  hierarchy : NameTable
  /-- The binary names that classes stand for, by their internal names in an archive. -/
  classNames : NameTable

namespace Config

def standard : Config where
  serverClass := "net.minecraft.server.MinecraftServer"
  clientClass := "net.minecraft.client.Minecraft"
  tickMethod := ⟨"run", "()V"⟩
  tickLength := 50
  gameLoopMethod := ⟨"runGameLoop", "()V"⟩
  displayUpdateMethod := "updateDisplay"
  timeHelper := .standard
  symbols := .ofList [("runGameLoop", "as"), ("updateDisplay", "h")]
  hierarchy := .empty
  classNames := .empty

/-- The name of a member in a class that is obfuscated or not. Names that the configuration does not
mention are the same in both. -/
def resolve (c : Config) (obfuscated : Bool) (name : String) : String :=
  if obfuscated then (c.symbols.get? name).getD name else name

def equals (c d : Config) : Bool :=
  c.serverClass = d.serverClass && c.clientClass = d.clientClass && c.tickMethod = d.tickMethod &&
    c.tickLength = d.tickLength && c.gameLoopMethod = d.gameLoopMethod &&
    c.displayUpdateMethod = d.displayUpdateMethod && c.timeHelper = d.timeHelper &&
    c.symbols.equals d.symbols && c.hierarchy.equals d.hierarchy &&
    c.classNames.equals d.classNames

end Config

end ClassPatch
