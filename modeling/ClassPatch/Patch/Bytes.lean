import ClassPatch.Class.Write
import ClassPatch.Config.Patches
/-!
# Patching class files

`Config.patch` goes from the bytes of a class file to the patched bytes: reading, the patch that the
configuration has for the class, and writing. Bytes come back as they are if there is no patch,
nothing to edit, or anything goes wrong.
-/

namespace ClassPatch

/-- The bytes of a class file, and the reports of what happened to it. -/
structure Patched where
  bytes : Bytes
  events : List Event

namespace Config

/-- The classes that are known: the standard ones and the ones of the configuration. -/
def knownClasses (c : Config) : Hierarchy :=
  c.hierarchy.entries.foldl (fun h (name, superName) => h.insert name ⟨some superName, false⟩)
    .standard

/-- What some bytes become by a patch of the class in them. The class is called `className` in
reports of failures. -/
def patchWith (c : Config) (p : Patch) (className : String) (bytes : Bytes) : Patched :=
  match ClassFile.read bytes with
  | .error e => ⟨bytes, [.failed className (.read e)]⟩
  | .ok found =>
    match p.apply found with
    | .error e => ⟨bytes, [.failed className e]⟩
    | .ok ⟨edited, edits, events⟩ =>
      if edits = 0 then ⟨bytes, events⟩
      else
        match edited.write ⟨c.knownClasses, false⟩ with
        | .error e => ⟨bytes, events ++ [.failed className (.write e)]⟩
        | .ok patched => ⟨patched, events⟩

/-- Patches the class file of a class. It has the binary name `name`, and is known by `knownName`,
which is another name if the class is obfuscated. -/
def patch (c : Config) (name knownName : String) (bytes : Bytes) : Patched :=
  let obfuscated := decide (name ≠ knownName)
  match c.patchFor? knownName obfuscated with
  | none => ⟨bytes, []⟩
  | some p =>
    let result := c.patchWith p knownName bytes
    { result with events := .targetClass knownName obfuscated :: result.events }

end Config

end ClassPatch
