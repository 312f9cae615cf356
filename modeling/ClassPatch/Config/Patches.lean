import ClassPatch.Config.Basic
import ClassPatch.Patch.Basic
/-!
# The patches of a configuration

* `Config.tickLengthPatch` — the length of a tick is read from the time helper
* `Config.displayUpdatePatch` — the time helper is called to update the display

Names of the time helper's members are never obfuscated, only those of the class to patch are.
-/

namespace ClassPatch.Config

/-- Where the server loads the length of a tick, the field of the time helper is read. Either pushes
a `long`, so nothing else changes. -/
def tickLengthPatch (c : Config) (obfuscated : Bool) : Patch where
  method := ⟨c.resolve obfuscated c.tickMethod.name, c.tickMethod.descriptor⟩
  pattern := .constant (.long c.tickLength)
  edit := .replace (.field .getStatic
    ⟨c.timeHelper.className, c.timeHelper.tickLengthField, "J"⟩)

/-- Where the game loop of the client updates the display, the method of the time helper is called,
which has no receiver. -/
def displayUpdatePatch (c : Config) (obfuscated : Bool) : Patch where
  method := ⟨c.resolve obfuscated c.gameLoopMethod.name, c.gameLoopMethod.descriptor⟩
  pattern := .invoke .virtual (c.resolve obfuscated c.displayUpdateMethod) (some "()V")
  edit := .redirect c.timeHelper.className c.timeHelper.displayUpdateMethod .static true

/-- The patch for the class that is known by a binary name. -/
def patchFor? (c : Config) (binaryName : String) (obfuscated : Bool) : Option Patch :=
  if binaryName = c.serverClass then some (c.tickLengthPatch obfuscated)
  else if binaryName = c.clientClass then some (c.displayUpdatePatch obfuscated)
  else none

end ClassPatch.Config
