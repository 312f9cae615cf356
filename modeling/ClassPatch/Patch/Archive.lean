import ClassPatch.Patch.Bytes
/-!
# Patching archives

Every class of an archive is offered to be patched, and all else stays as it is. Archives are given
by their entries, with the contents inflated.

* `Config.classNames?` — the names that the class of an entry has
* `Config.patchArchive` — the archive with all its classes patched
-/

namespace ClassPatch

inductive ArchiveEntry where
  | directory (name : String)
  | file (name : String) (deflated : Bool) (bytes : Bytes)
  deriving DecidableEq

/-- Why an archive can not be patched. -/
inductive ArchiveError where
  | notArchive
  deriving DecidableEq

def ArchiveError.message : ArchiveError → String
  | notArchive => "failed to open jar"

/-- The bytes of an archive without entries: the record at the end of every archive. -/
def emptyArchive : Bytes := [0x50, 0x4b, 0x05, 0x06] ++ List.replicate 18 0

/-- The entries of bytes that are not of an archive with entries. -/
def ArchiveEntry.ofBare (bytes : Bytes) : Except ArchiveError (List ArchiveEntry) :=
  if bytes = emptyArchive then .ok [] else .error .notArchive

/-- What is left of a path when the ending of class files is taken off. -/
def classPath? (path : String) : Option String :=
  let ending := ".class".toList
  if ending.isSuffixOf path.toList then
    some (String.ofList (path.toList.take (path.toList.length - ending.length)))
  else none

/-- The binary name of a class, from its internal name. -/
def binaryName (internalName : String) : String :=
  String.ofList (internalName.toList.map fun c => if c = '/' then '.' else c)

/-- An entry of an archive that was offered to be patched, and what became of it. -/
structure PatchedEntry where
  entry : ArchiveEntry
  isClass : Bool
  isPatched : Bool
  events : List Event

/-- An archive that was patched, with the number of classes in it and of those that changed. -/
structure PatchedArchive where
  entries : List ArchiveEntry
  classes : Nat
  patched : Nat
  events : List Event

namespace Config

/-- The names of the class at a path, if there is one: its binary name, and the name that it is
known by, which is the same unless the configuration has another one. -/
def classNames? (c : Config) (path : String) : Option (String × String) :=
  (classPath? path).map fun internalName =>
    let name := binaryName internalName
    (name, (c.classNames.get? internalName).getD name)

/-- Patches an entry, if it is a class. It is compressed as it was. -/
def patchEntry (c : Config) : ArchiveEntry → PatchedEntry
  | .directory name => ⟨.directory name, false, false, []⟩
  | .file name deflated bytes =>
    match c.classNames? name with
    | none => ⟨.file name deflated bytes, false, false, []⟩
    | some (className, knownName) =>
      let result := c.patch className knownName bytes
      ⟨.file name deflated result.bytes, true, result.bytes ≠ bytes, result.events⟩

def patchArchive (c : Config) (entries : List ArchiveEntry) : PatchedArchive :=
  let results := entries.map c.patchEntry
  { entries := results.map PatchedEntry.entry
    classes := results.countP PatchedEntry.isClass
    patched := results.countP PatchedEntry.isPatched
    events := results.flatMap PatchedEntry.events }

end Config

end ClassPatch
