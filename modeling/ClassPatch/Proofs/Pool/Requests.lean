import ClassPatch.Proofs.Pool.Repeating
/-!
# Requests to a pool

Whatever indices a pool was asked for, also where it had no room for all parts of a value, the indices
that it gave stay good for the values that they were given for.

* `Pool.Request` — a value whose index is asked for, and what it takes to be found
* `Pool.after` — a pool after some requests
* `Pool.Faithful` — what holds of a pool between requests

Main statement: `Pool.faithful_after`, for the pools that start without entries or in a class file.
-/

namespace ClassPatch.Pool

/-- A value whose index in a pool is asked for. -/
inductive Request where
  | text (text : Text)
  | name (name : String)
  | className (name : String)
  | nameAndType (name descriptor : String)
  | field (ref : MemberRef)
  | method (ref : MemberRef) (interface : Bool)
  | invokeDynamic (ref : DynamicRef)
  | constant (value : Constant)

namespace Request

def put : Request → Putting UInt16
  | text t => putText t
  | name s => putName s
  | className s => putClass s
  | nameAndType n d => putNameAndType n d
  | field m => putField m
  | method m interface => putMethod m interface
  | invokeDynamic d => putInvokeDynamic d
  | constant c => putConstant c

/-- The value is what is looked up at the index. -/
def Found (p : Pool) (i : UInt16) : Request → Prop
  | text t => p.text i = .ok t
  | name s => p.name i = .ok s
  | className s => p.className i = .ok s
  | nameAndType n d => p.nameAndType i = .ok ⟨n, d⟩
  | field m => p.field i = .ok m
  | method m interface => p.method i = .ok (m, interface)
  | invokeDynamic d => p.invokeDynamic i = .ok d
  | constant c => p.constant i = .ok c

theorem ensures_put (r : Request) : Ensures r.put fun p i => r.Found p i := by
  cases r with
  | text t => exact ensures_putText t
  | name s => exact ensures_putName s
  | className s => exact ensures_putClass s
  | nameAndType n d => exact ensures_putNameAndType n d
  | field m => exact ensures_putField m
  | method m interface => exact ensures_putMethod m interface
  | invokeDynamic d => exact ensures_putInvokeDynamic d
  | constant c => exact ensures_putConstant c

theorem repeats_put (r : Request) : Repeats r.put := by
  cases r with
  | text t => exact Pool.repeats_put (.utf8 t)
  | name s => exact repeats_putName s
  | className s => exact repeats_putClass s
  | nameAndType n d => exact repeats_putNameAndType n d
  | field m => exact repeats_putMember .field m
  | method m interface => exact repeats_putMember _ m
  | invokeDynamic d => exact repeats_putInvokeDynamic d
  | constant c => exact repeats_putConstant c

end Request

variable {p q : Pool} {e : Entry} {i : UInt16}

/-- The pool after some requests. One that fails may still have put parts of its value. -/
def after (p : Pool) (requests : List Request) : Pool :=
  requests.foldl (fun p r => left (r.put p)) p

theorem puts_after (p : Pool) (requests : List Request) : p.Puts (p.after requests) := by
  induction requests generalizing p with
  | nil => exact .refl
  | cons r requests inductionHypothesis =>
    exact (r.repeats_put.onlyPuts p).trans (inductionHypothesis (left (r.put p)))

/-- The pool at the start: one without entries, or that of a class file. -/
def Starts (p : Pool) : Prop := p = empty ∨ ∃ c d, read c = .ok (p, d)

theorem Starts.interned (starts : p.Starts) : p.Interned := by
  obtain rfl | ⟨c, d, reads⟩ := starts
  · exact interned_empty
  · exact interned_of_read reads

theorem Starts.interned_after (starts : p.Starts) (requests : List Request) :
    (p.after requests).Interned :=
  (puts_after p requests).interned starts.interned

/-! ## Layout -/

theorem getElem?_cells_succ {es : List Entry} {k : Nat} (wide : e.isWide)
    (here : (es.flatMap Entry.cells)[k]? = some (some e)) :
    (es.flatMap Entry.cells)[k + 1]? = some none := by
  induction es generalizing k with
  | nil => simp at here
  | cons x es inductionHypothesis =>
    rw [List.flatMap_cons] at here ⊢
    rcases Nat.lt_or_ge k x.cells.length with inside | behind
    · -- the entry is the first of its own cells, so the second one is behind it
      rw [List.getElem?_append_left inside] at here
      obtain ⟨rfl, rfl⟩ := eq_of_getElem?_cells here
      simp [Entry.cells, wide]
    · rw [List.getElem?_append_right behind] at here
      rw [List.getElem?_append_right (by omega), Nat.sub_add_comm behind]
      exact inductionHypothesis here

/-- There is no entry behind one that takes two slots. -/
theorem Consistent.getElem?_slots_succ (consistent : p.Consistent) (gets : p.get i = .ok e)
    (wide : e.isWide) : p.slots[i.toNat + 1]? = some none := by
  have here := get_ok_iff.1 gets
  rw [← Array.getElem?_toList, consistent.layout] at here ⊢
  cases place : i.toNat with
  | zero =>
    -- index zero is free
    rw [place] at here
    exact nomatch Option.some.inj here
  | succ k =>
    rw [place, List.getElem?_cons_succ] at here
    exact getElem?_cells_succ wide here

/-! ## Runs -/

/-- What holds of a pool between requests. -/
structure Faithful (p : Pool) : Prop where
  bounded : p.size ≤ 65535
  first : p.slots[0]? = some none
  skipped : ∀ (e : Entry) (i : UInt16), p.get i = .ok e → e.isWide →
    p.slots[i.toNat + 1]? = some none
  /-- Entries stay where they are, whatever is asked for. -/
  kept : ∀ (requests : List Request) (e : Entry) (i : UInt16),
    p.get i = .ok e → (p.after requests).get i = .ok e
  /-- What is known for an entry is its smallest index. -/
  known : ∀ (e : Entry) (i : UInt16),
    p.indices[e]? = some i ↔ p.get i = .ok e ∧ ∀ j, p.get j = .ok e → i ≤ j
  /-- An entry that is there is given its smallest index, and nothing is added. -/
  there : ∀ (e : Entry) (i : UInt16), p.get i = .ok e →
    ∃ j, p.indices[e]? = some j ∧ put e p = .ok j p
  /-- An index that is given for a value is one of that value, and the one that is given again. -/
  given : ∀ (r : Request) (i : UInt16) (q : Pool), r.put p = .ok i q →
    ∀ requests : List Request,
      r.Found (q.after requests) i ∧ r.put (q.after requests) = .ok i (q.after requests)

theorem Interned.faithful (interned : p.Interned) : p.Faithful where
  bounded := interned.bounded
  first := by
    rw [← Array.getElem?_toList, interned.layout]
    rfl
  skipped := fun _ _ => interned.getElem?_slots_succ
  kept := fun requests _ _ gets => (puts_after p requests).grows.get gets
  known := fun _ _ => interned.indices_iff
  there := by
    intro e i gets
    obtain ⟨j, _, found⟩ := interned.known e i gets
    exact ⟨j, found, by rw [put, found]⟩
  given := by
    intro r i q puts requests
    have grows := (puts_after q requests).grows
    have later := (puts_after q requests).interned
      ((r.repeats_put.onlyPuts.puts puts).interned interned)
    obtain ⟨_, _, found⟩ := r.ensures_put p q i interned.toConsistent puts
    exact ⟨found _ later.toConsistent grows, r.repeats_put.holds p q i interned puts _ later grows⟩

/-- Whatever a pool has been asked for, all that it holds and all indices that it gave stay good. -/
theorem faithful_after (starts : p.Starts) (requests : List Request) :
    (p.after requests).Faithful :=
  (starts.interned_after requests).faithful

/-- In a class file an entry may stand twice. The second request fails. -/
theorem faithful_doubled : ∃ p d,
    read ⟨0, [0, 4, 1, 0, 1, 65, 1, 0, 1, 65, 7, 0, 2]⟩ = .ok (p, d) ∧
      (p.after [.className "A", .constant (.methodHandle 3)]).Faithful := by
  have consistent := ((consistent_empty.append (e := .utf8 (Text.ofString "A")) (by decide)).append
    (e := .utf8 (Text.ofString "A")) (by decide)).append (e := .classRef 2) (by decide)
  obtain ⟨p, _, reads⟩ := read_encode consistent (by decide) 0 []
  exact ⟨p, _, reads, faithful_after (.inr ⟨_, _, reads⟩) _⟩

end ClassPatch.Pool
