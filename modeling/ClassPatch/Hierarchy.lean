import ClassPatch.Text.Quoted
/-!
# Class hierarchies

What is known about the super classes of classes, as a table. It answers where two classes meet,
which is the type of a value that comes from either of them.

* `Hierarchy.superClass?`, `Hierarchy.isInterface` — what the table says about a class
* `Hierarchy.chain?` — a class and its super classes, up to where nothing is known
* `Hierarchy.common` — the first class that two classes have in common

Main statements: `mem_chain_of_common`, which says that two classes meet on the chain of the first,
and `length_chain_lt`, which says that chains get shorter on the way up.
-/

namespace ClassPatch

structure ClassInfo where
  /-- The super class; none if there is none, or if it is not known. -/
  superName : Option String
  interface : Bool
  deriving DecidableEq

/-- A table of classes. Of two entries for a class, the first one counts. -/
structure Hierarchy where
  entries : List (String × ClassInfo)

/-- Why two classes have no common super class. -/
inductive HierarchyError where
  /-- The class is a super class of itself. -/
  | cycle (name : String)
  /-- The classes do not meet as far as the hierarchy is known, which ends at `last`. -/
  | apart (a b last : String)
  deriving DecidableEq

def HierarchyError.message : HierarchyError → String
  | .cycle name => "cycle in the class hierarchy at " ++ Quoted.string name
  | .apart a b last =>
    "no common super class of " ++ Quoted.string a ++ " and " ++ Quoted.string b ++
      " is known, the class hierarchy ends at " ++ Quoted.string last

namespace Hierarchy

def object : String := "java/lang/Object"

def throwable : String := "java/lang/Throwable"

def empty : Hierarchy := ⟨[]⟩

/-- The table with an entry for a class, in place of the one it had. -/
def insert (h : Hierarchy) (name : String) (info : ClassInfo) : Hierarchy :=
  ⟨(name, info) :: h.entries⟩

def find? (h : Hierarchy) (name : String) : Option ClassInfo := h.entries.lookup name

def contains (h : Hierarchy) (name : String) : Bool := (h.find? name).isSome

def superClass? (h : Hierarchy) (name : String) : Option String :=
  (h.find? name).bind ClassInfo.superName

def isInterface (h : Hierarchy) (name : String) : Bool :=
  ((h.find? name).map ClassInfo.interface).getD false

/-! ## The classes that are always known -/

/-- Common classes, each with its super class. -/
def knownClasses : List (String × String) := [
  ("java/lang/String", object),
  ("java/lang/Class", object),
  ("java/lang/Thread", object),
  ("java/lang/Number", object),
  ("java/lang/Boolean", object),
  ("java/lang/Character", object),
  ("java/lang/Byte", "java/lang/Number"),
  ("java/lang/Short", "java/lang/Number"),
  ("java/lang/Integer", "java/lang/Number"),
  ("java/lang/Long", "java/lang/Number"),
  ("java/lang/Float", "java/lang/Number"),
  ("java/lang/Double", "java/lang/Number"),
  ("java/lang/StringBuilder", "java/lang/AbstractStringBuilder"),
  ("java/lang/AbstractStringBuilder", object),
  (throwable, object),
  ("java/lang/Exception", throwable),
  ("java/lang/Error", throwable),
  ("java/lang/RuntimeException", "java/lang/Exception"),
  ("java/lang/InterruptedException", "java/lang/Exception"),
  ("java/lang/ReflectiveOperationException", "java/lang/Exception"),
  ("java/lang/ClassNotFoundException", "java/lang/ReflectiveOperationException"),
  ("java/lang/IllegalArgumentException", "java/lang/RuntimeException"),
  ("java/lang/IllegalStateException", "java/lang/RuntimeException"),
  ("java/lang/NullPointerException", "java/lang/RuntimeException"),
  ("java/lang/ClassCastException", "java/lang/RuntimeException"),
  ("java/lang/ArithmeticException", "java/lang/RuntimeException"),
  ("java/lang/IndexOutOfBoundsException", "java/lang/RuntimeException"),
  ("java/lang/OutOfMemoryError", "java/lang/VirtualMachineError"),
  ("java/lang/VirtualMachineError", "java/lang/Error"),
  ("java/lang/LinkageError", "java/lang/Error"),
  ("java/io/IOException", "java/lang/Exception")]

def knownInterfaces : List String := [
  "java/lang/Runnable",
  "java/lang/Comparable",
  "java/lang/CharSequence",
  "java/lang/Iterable",
  "java/lang/AutoCloseable"]

/-- The table of the classes that are always known. -/
def standard : Hierarchy where
  entries :=
    (object, ⟨none, false⟩) ::
      (knownClasses.map fun (name, superName) => (name, ⟨some superName, false⟩)) ++
      knownInterfaces.map fun name => (name, ⟨some object, true⟩)

/-! ## Chains of super classes -/

/-- No chain without a cycle has more classes than the table, but for the last one. -/
def bound (h : Hierarchy) : Nat := h.entries.length + 1

/-- The first `fuel` classes of the chain of a class, if these are all of them. -/
def chainUpTo? (h : Hierarchy) (name : String) : Nat → Option (List String)
  | 0 => none
  | fuel + 1 =>
    match h.superClass? name with
    | none => some [name]
    | some parent => (chainUpTo? h parent fuel).map (name :: ·)

/-- A class and its super classes, up to one without a known super class. There is no such chain
where a class is a super class of itself. -/
def chain? (h : Hierarchy) (name : String) : Option (List String) := h.chainUpTo? name h.bound

/-- Collects the super classes of a class. The ones passed so far are in `passed`, last one first.
-/
def climb (h : Hierarchy) (passed : List String) (name : String) :
    Nat → Except HierarchyError (List String)
  | 0 => .error (.cycle name)
  | fuel + 1 =>
    match h.superClass? name with
    | none => .ok passed
    | some parent =>
      if parent ∈ passed then .error (.cycle parent)
      else climb h (parent :: passed) parent fuel

/-- A class and its super classes, last one first. -/
def ancestors (h : Hierarchy) (name : String) : Except HierarchyError (List String) :=
  h.climb [name] name h.bound

/-- Looks for the first class among `ancestors`, going up from a class. -/
def meet (h : Hierarchy) (apart : String → HierarchyError) (ancestors passed : List String)
    (name : String) : Nat → Except HierarchyError String
  | 0 => .error (.cycle name)
  | fuel + 1 =>
    if name ∈ ancestors then .ok name
    else if name ∈ passed then .error (.cycle name)
    else match h.superClass? name with
      | none => .error (apart name)
      | some parent => meet h apart ancestors (name :: passed) parent fuel

/-- Whether a class name is that of an array type, which is its descriptor. -/
def isArray (name : String) : Bool := name.toList.head? = some '['

/-- Whether a class has only the class of all objects above it, as far as its values matter. -/
def isRootOnly (h : Hierarchy) (name : String) : Bool :=
  name = object || isArray name || h.isInterface name

/-- The class that two classes have in common. Interfaces and arrays only share the class of all
objects with others. It is an error if no common class is known: the class of all objects would then
be a guess that later uses of the value may contradict. -/
def common (h : Hierarchy) (a b : String) : Except HierarchyError String :=
  if a = b then .ok a
  else if h.isRootOnly a || h.isRootOnly b then .ok object
  else
    match h.ancestors a with
    | .error e => .error e
    | .ok ancestors => h.meet (.apart a b) ancestors [] b (h.bound + 1)

/-! ## Chains get shorter on the way up -/

theorem chainUpTo?_succ {h : Hierarchy} {fuel : Nat} {name : String} {c : List String}
    (hc : h.chainUpTo? name fuel = some c) : h.chainUpTo? name (fuel + 1) = some c := by
  induction fuel generalizing name c with
  | zero => simp [chainUpTo?] at hc
  | succ fuel ih =>
    rw [chainUpTo?] at hc ⊢
    split at hc
    · next hs => simpa [hs] using hc
    · next parent hs =>
      obtain ⟨c', hc', rfl⟩ := Option.map_eq_some_iff.1 hc
      simp [ih hc']

theorem chainUpTo?_of_mem {h : Hierarchy} {fuel : Nat} {name other : String} {c : List String}
    (hc : h.chainUpTo? name fuel = some c) (hm : other ∈ c) (hne : other ≠ name) :
    ∃ c', h.chainUpTo? other fuel = some c' ∧ c'.length < c.length := by
  induction fuel generalizing name c with
  | zero => simp [chainUpTo?] at hc
  | succ fuel ih =>
    rw [chainUpTo?] at hc
    split at hc
    · cases hc
      simp_all
    · next parent hs =>
      obtain ⟨c', hc', rfl⟩ := Option.map_eq_some_iff.1 hc
      have hm : other ∈ c' := by simpa [hne] using hm
      by_cases ho : other = parent
      · subst ho
        exact ⟨c', chainUpTo?_succ hc', by simp⟩
      · obtain ⟨d, hd, hlt⟩ := ih hc' hm ho
        exact ⟨d, chainUpTo?_succ hd, by simp; omega⟩

theorem length_chainUpTo?_le {h : Hierarchy} {fuel : Nat} {name : String} {c : List String}
    (hc : h.chainUpTo? name fuel = some c) : c.length ≤ fuel := by
  induction fuel generalizing name c with
  | zero => simp [chainUpTo?] at hc
  | succ fuel ih =>
    rw [chainUpTo?] at hc
    split at hc
    · cases hc; simp
    · obtain ⟨c', hc', rfl⟩ := Option.map_eq_some_iff.1 hc
      have := ih hc'
      simp; omega

theorem name_mem_chainUpTo? {h : Hierarchy} {fuel : Nat} {name : String} {c : List String}
    (hc : h.chainUpTo? name fuel = some c) : name ∈ c := by
  cases fuel with
  | zero => simp [chainUpTo?] at hc
  | succ fuel =>
    rw [chainUpTo?] at hc
    split at hc
    · cases hc; simp
    · obtain ⟨d, _, rfl⟩ := Option.map_eq_some_iff.1 hc
      simp

theorem chainUpTo?_of_climb {h : Hierarchy} {passed l : List String} {name : String} {fuel : Nat}
    (hl : h.climb passed name fuel = .ok l) :
    ∃ c, h.chainUpTo? name fuel = some c ∧ ∀ x ∈ l, x ∈ c ∨ x ∈ passed := by
  induction fuel generalizing passed name with
  | zero => simp [climb] at hl
  | succ fuel ih =>
    rw [climb] at hl
    rw [chainUpTo?]
    split at hl
    · next hs =>
      cases hl
      exact ⟨[name], by simp, fun x hx => .inr hx⟩
    · next parent hs =>
      split at hl
      · simp at hl
      · obtain ⟨c, hc, hsub⟩ := ih hl
        refine ⟨name :: c, by simp [hc], fun x hx => ?_⟩
        have hp : parent ∈ c := name_mem_chainUpTo? hc
        rcases hsub x hx with hx | hx
        · exact .inl (by simp [hx])
        · rcases List.mem_cons.1 hx with rfl | hx
          · exact .inl (by simp [hp])
          · exact .inr hx

theorem mem_ancestors_of_meet {h : Hierarchy} {apart : String → HierarchyError}
    {ancestors passed : List String} {name c : String} {fuel : Nat}
    (hm : h.meet apart ancestors passed name fuel = .ok c) : c ∈ ancestors := by
  induction fuel generalizing passed name with
  | zero => simp [meet] at hm
  | succ fuel ih =>
    rw [meet] at hm
    split at hm
    · cases hm; assumption
    · split at hm
      · simp at hm
      · split at hm
        · simp at hm
        · exact ih hm

/-- Two classes meet at the class of all objects or on the chain of the first one. -/
theorem mem_chain_of_common {h : Hierarchy} {a b c : String} (hc : h.common a b = .ok c) :
    c = a ∨ c = object ∨ ∃ l, h.chain? a = some l ∧ c ∈ l := by
  unfold common at hc
  split at hc
  · cases hc; exact .inl rfl
  · split at hc
    · cases hc; exact .inr (.inl rfl)
    · split at hc
      · simp at hc
      · next l hl =>
        obtain ⟨d, hd, hsub⟩ := chainUpTo?_of_climb hl
        refine .inr (.inr ⟨d, hd, ?_⟩)
        rcases hsub c (mem_ancestors_of_meet hc) with hc | hc
        · exact hc
        · have : c = a := by simpa using hc
          exact this ▸ name_mem_chainUpTo? hd

/-- The chain of a class further up is shorter. -/
theorem length_chain_lt {h : Hierarchy} {a c : String} {l : List String}
    (ha : h.chain? a = some l) (hc : c ∈ l) (hne : c ≠ a) :
    ∃ l', h.chain? c = some l' ∧ l'.length < l.length :=
  chainUpTo?_of_mem ha hc hne

end Hierarchy

end ClassPatch
