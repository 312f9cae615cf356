import ClassPatch.Proofs.Flow.GoingOn
import ClassPatch.Proofs.Frame.Paired
import ClassPatch.Proofs.StackMap.RoundTrip
/-!
# Frames survive the stack map

A stack map lists frames by how they differ from those before them. When the entries that are read of it
are resolved against the instructions, the frames that were written come back, each at the instruction at
its offset. Only the `top`s at the end of the locals are lost.

* `Delta.Leads` — what an entry makes of the locals before it
* `StackMap.StartsAt` — the offsets at which instructions start
* `StackMap.Binds` — the labels of offsets are bound to the instructions there

Main statement: `StackMap.declareAll_of_write`.
-/

namespace ClassPatch

/-! ## What an entry stands for -/

/-- The locals by value and the stack that an entry makes of the locals before it. -/
inductive Delta.Leads : List FrameType → Delta NodeId → List FrameType → Stack → Prop
  | same {values : List FrameType} : Leads values .same values []
  | sameWithStack {values : List FrameType} {t : FrameType} :
    Leads values (.sameWithStack t) values [t]
  | chop {values dropped : List FrameType} {count : UInt8} (length : dropped.length = count.toNat) :
    Leads (values ++ dropped) (.chop count) values []
  | append {values more : List FrameType} : Leads values (.append more) (values ++ more) []
  | full {previous values bottomUp : List FrameType} :
    Leads previous (.full values bottomUp) values bottomUp.reverse

theorem Delta.leads_between (previous locals : List FrameType) (stack : Stack) :
    Leads previous (.between previous locals stack) locals stack := by
  unfold between
  split
  · split
    · next same => exact same ▸ .same
    · split
      · next shorter =>
        -- at most three locals are dropped, so their number fits the tag
        obtain ⟨dropped, rfl⟩ := List.isPrefixOf_iff_prefix.1 shorter.2.2
        refine .chop ?_
        have few : dropped.length ≤ 3 := by simpa using shorter.2.1
        rw [List.length_append, Nat.add_sub_cancel_left, UInt8.toNat_ofNat_of_lt']
        exact Nat.lt_of_le_of_lt few (by decide)
      · split
        · next longer =>
          obtain ⟨more, rfl⟩ := List.isPrefixOf_iff_prefix.1 longer.2.2
          rw [List.drop_left]
          exact .append
        · exact .full
  · split
    · next same => exact same ▸ .sameWithStack
    · exact .full
  · have full : Leads previous (.full locals stack.reverse) locals stack.reverse.reverse := .full
    rwa [List.reverse_reverse] at full

section Resolving

variable {R : Label → NodeId → Prop} {p : Positions}

theorem Positions.mapM_resolve {as : List DeclaredType} {ts : List FrameType}
    (same : List.Forall₂ (VType.Rel R) as ts)
    (resolves : ∀ t ∈ ts, ∀ a : DeclaredType, a.Rel R t → p.resolve a = .ok t) :
    as.mapM p.resolve = .ok ts := by
  rw [mapM_ok_iff]
  induction same with
  | nil => exact .nil
  | cons here _ inductionHypothesis =>
    obtain ⟨first, others⟩ := List.forall_mem_cons.1 resolves
    exact .cons (first _ here) (inductionHypothesis others)

/-- An entry that only differs in what uninitialized objects are known by is applied as the entry
itself. -/
theorem Positions.applyDelta_of_leads {previous locals : List FrameType} {stack : Stack}
    {delta : Delta NodeId} (leads : delta.Leads previous locals stack) {a : FrameDelta}
    (agrees : a.Rel R delta)
    (resolves : ∀ t ∈ locals ++ stack, ∀ a : DeclaredType, a.Rel R t → p.resolve a = .ok t) :
    p.applyDelta previous a = .ok (locals, stack) := by
  rw [List.forall_mem_append] at resolves
  obtain ⟨ofLocals, ofStack⟩ := resolves
  cases leads with
  | same =>
    cases agrees
    rfl
  | sameWithStack =>
    cases agrees with
    | sameWithStack value =>
      have first := ofStack _ List.mem_cons_self _ value
      simp [applyDelta, first]
  | chop length =>
    -- the locals that are left are those in front of the dropped ones
    cases agrees
    simp [applyDelta, ← length]
  | append =>
    cases agrees with
    | append values =>
      have added := mapM_resolve values fun t member => ofLocals t (List.mem_append_right _ member)
      simp [applyDelta, added]
  | full =>
    cases agrees with
    | full locals stack =>
      have first := mapM_resolve locals ofLocals
      have second := mapM_resolve stack fun t member => ofStack t (List.mem_reverse.2 member)
      simp [applyDelta, first, second]

end Resolving

section Tables

variable {β : Type} {t : Std.TreeMap Nat β} {k j : Nat} {b : β}

theorem getElem?_insert_of_ne (differs : k ≠ j) : (t.insert k b)[j]? = t[j]? := by
  rw [Std.TreeMap.getElem?_insert, if_neg (by simpa using differs)]

theorem size_insert_of_absent (absent : t[k]? = none) : (t.insert k b).size = t.size + 1 := by
  have missing : t.contains k = false := by
    rw [Std.TreeMap.contains_eq_isSome_getElem?, absent]
    rfl
  simp [Std.TreeMap.size_insert, missing]

end Tables

namespace StackMap

variable {l : InstructionList} {starts : List Nat} {offsets : NodeOffsets} {u : LabelTable}

/-! ## Entries at instructions -/

theorem nodeOffset_ok_iff {id : NodeId} {o : Nat} :
    nodeOffset offsets id = .ok o ↔ offsets[id.index]? = some o := by
  unfold nodeOffset
  split <;> simp_all

/-- The instructions of a list start at some offsets, in their order, and only these offsets are known
for nodes. -/
structure StartsAt (l : InstructionList) (starts : List Nat) (offsets : NodeOffsets) : Prop where
  wellFormed : l.WellFormed
  length : starts.length = l.toList.length
  short : ∀ o ∈ starts, o < 65536
  nodes : ∀ id o, nodeOffset offsets id = .ok o →
    ∃ (k : Nat) (n : Node), starts[k]? = some o ∧ l.toList[k]? = some (id, n)

/-- The labels that a table has for offsets of instructions are bound to the instructions there. -/
def Binds (l : InstructionList) (starts : List Nat) (u : LabelTable) : Prop :=
  ∀ (k o : Nat) (label : Label), starts[k]? = some o → u.get? o = some label →
    l.position? label = some k

/-- If the type is that of an uninitialized object, then it is known by the `new` that it comes from. -/
def FromNew (l : InstructionList) (t : FrameType) : Prop :=
  ∀ id, t = .uninitialized id → ∃ labels name, l.node? id = some ⟨labels, .ofClass .new name⟩

/-- A frame at the offset of an instruction, in which wide values have their upper halves and
uninitialized objects come from a `new`. -/
structure Storable (l : InstructionList) (starts : List Nat) (x : Nat × Frame) : Prop where
  among : x.1 ∈ starts
  paired : x.2.locals.Paired
  fromNew : ∀ t ∈ x.2.locals ++ x.2.stack, FromNew l t

namespace StartsAt

variable (startsAt : StartsAt l starts offsets)
include startsAt

theorem target {k o : Nat} {label : Label} (binds : Binds l starts u) (starts : starts[k]? = some o)
    (isLabel : u.get? o = some label) : (Positions.ofList l).target label = .ok k := by
  refine Positions.target_of_position? startsAt.wellFormed (binds k o label starts isLabel) ?_
  have bound := (List.getElem?_eq_some_iff.1 starts).1
  rwa [startsAt.length, InstructionList.length_toList] at bound

theorem newAt {id : NodeId} {label : Label} (binds : Binds l starts u)
    (isLabel : LabelOf offsets u label id) {labels : List Label} {name : String}
    (isNew : l.node? id = some ⟨labels, .ofClass .new name⟩) :
    (Positions.ofList l).newAt label = .ok id := by
  obtain ⟨o, isOffset, isLabel⟩ := isLabel
  obtain ⟨k, n, starts, here⟩ := startsAt.nodes id o isOffset
  -- the instruction at the offset is the one of the id, so it is the `new`
  obtain rfl : n = ⟨labels, .ofClass .new name⟩ :=
    Option.some.inj ((InstructionList.mem_toList.1 (List.mem_of_getElem? here)).symm.trans isNew)
  have found : (Positions.ofList l).nodes[k]? = some (id, ⟨labels, .ofClass .new name⟩) := by
    simpa [Positions.ofList] using here
  simp [Positions.newAt, startsAt.target binds starts isLabel, found]

theorem resolve {a : DeclaredType} {t : FrameType} (binds : Binds l starts u)
    (fromNew : FromNew l t) (same : a.Rel (LabelOf offsets u) t) :
    (Positions.ofList l).resolve a = .ok t := by
  cases same with
  | uninitialized isLabel =>
    obtain ⟨labels, name, isNew⟩ := fromNew _ rfl
    simp [Positions.resolve, VType.mapOrigin, startsAt.newAt binds isLabel isNew]
  | _ => rfl

/-- A frame is declared by the entry that leads to it. -/
theorem declare {d : Positions.Declaring} {k o : Nat} {label : Label} {f : Frame} {delta : FrameDelta}
    (binds : Binds l starts u) (storable : Storable l starts (o, f)) (isStart : starts[k]? = some o)
    (isLabel : u.get? o = some label)
    (agrees : delta.Rel (LabelOf offsets u) (.between d.values f.locals.compact f.stack))
    (absent : d.frames[k]? = none) :
    (Positions.ofList l).declare d label delta =
      .ok ⟨d.frames.insert k ⟨f.locals.trim, f.stack⟩, f.locals.compact⟩ := by
  have applies : (Positions.ofList l).applyDelta d.values delta =
      .ok (f.locals.compact, f.stack) := by
    refine Positions.applyDelta_of_leads (Delta.leads_between _ _ _) agrees fun t member a same =>
      startsAt.resolve binds (storable.fromNew t ?_) same
    -- compact locals are some of the locals
    rcases List.mem_append.1 member with isLocal | onStack
    · exact List.mem_append_left _ (Locals.mem_of_mem_compact isLocal)
    · exact List.mem_append_right _ onStack
  simp [Positions.declare, startsAt.target binds isStart isLabel, applies, absent,
    Locals.expand_compact storable.paired]

/-- One frame after the other is declared, as long as they are at different offsets. -/
theorem foldlM_declare {step : Positions.Declaring → Label × FrameDelta → Analysing Positions.Declaring}
    (steps : ∀ d x e, (Positions.ofList l).declare d x.1 x.2 = .ok e → step d x = .ok e)
    (binds : Binds l starts u) {values : List FrameType} {frames : List (Nat × Frame)}
    {deltas : List (Label × FrameDelta)} (lists : Lists offsets u values frames deltas)
    (storable : ∀ x ∈ frames, Storable l starts x) (apart : (frames.map Prod.fst).Nodup)
    {d : Positions.Declaring} (behind : d.values = values)
    (absent : ∀ x ∈ frames, ∀ k : Nat, starts[k]? = some x.1 → d.frames[k]? = none) :
    ∃ e, deltas.foldlM step d = .ok e ∧ e.frames.size = d.frames.size + frames.length ∧
      (∀ (k : Nat) (f : Frame), d.frames[k]? = some f → e.frames[k]? = some f) ∧
      ∀ x ∈ frames, ∀ k : Nat, starts[k]? = some x.1 →
        e.frames[k]? = some ⟨x.2.locals.trim, x.2.stack⟩ := by
  induction lists generalizing d with
  | nil => exact ⟨d, rfl, rfl, fun _ _ here => here, by simp⟩
  | @cons values offset f frames label delta deltas here between _ inductionHypothesis =>
    obtain ⟨first, others⟩ := List.forall_mem_cons.1 storable
    obtain ⟨new, apart⟩ := List.nodup_cons.1 apart
    obtain ⟨k, isStart⟩ := List.mem_iff_getElem?.1 first.among
    have fresh := absent (offset, f) List.mem_cons_self k isStart
    have declares := steps d (label, delta) _
      (startsAt.declare binds first isStart here (behind ▸ between) fresh)
    -- no later frame is at the offset of this one
    have later : ∀ x ∈ frames, ∀ j : Nat, starts[j]? = some x.1 →
        (d.frames.insert k ⟨f.locals.trim, f.stack⟩)[j]? = none := by
      intro x member j isStart'
      have differs : k ≠ j := by
        rintro rfl
        have same : offset = x.1 := Option.some.inj (isStart.symm.trans isStart')
        exact new (List.mem_map.2 ⟨x, member, same.symm⟩)
      rw [getElem?_insert_of_ne differs]
      exact absent x (List.mem_cons_of_mem _ member) j isStart'
    obtain ⟨e, folds, size, kept, all⟩ := inductionHypothesis others apart
      (d := ⟨d.frames.insert k ⟨f.locals.trim, f.stack⟩, f.locals.compact⟩) rfl later
    refine ⟨e, ?_, ?_, ?_, List.forall_mem_cons.2 ⟨?_, all⟩⟩
    · rw [List.foldlM_cons, declares]
      exact folds
    · rw [size, size_insert_of_absent fresh, List.length_cons]
      omega
    · intro j g before
      have differs : k ≠ j := by
        rintro rfl
        simp [fresh] at before
      exact kept j g ((getElem?_insert_of_ne differs).trans before)
    · intro j isStart'
      -- the label is only bound to one instruction
      obtain rfl : k = j := Option.some.inj
        ((binds k offset label isStart here).symm.trans (binds j offset label isStart' here))
      exact kept k _ Std.TreeMap.getElem?_insert_self

/-- The entries of some frames declare these frames and no others. -/
theorem declareAll (binds : Binds l starts u) {initial : Frame} {frames : List (Nat × Frame)}
    {deltas : List (Label × FrameDelta)}
    (lists : Lists offsets u initial.locals.compact frames deltas)
    (storable : ∀ x ∈ frames, Storable l starts x) (apart : (frames.map Prod.fst).Nodup) :
    ∃ declared, (Positions.ofList l).declareAll initial deltas = .ok declared ∧
      declared.size = frames.length ∧ ∀ x ∈ frames, ∀ k : Nat, starts[k]? = some x.1 →
        declared[k]? = some ⟨x.2.locals.trim, x.2.stack⟩ := by
  obtain ⟨e, folds, size, _, all⟩ := startsAt.foldlM_declare (fun _ _ _ => mapError_ok_iff.2) binds lists
    storable apart (d := ⟨{}, initial.locals.compact⟩) rfl (by simp)
  exact ⟨e.frames, bind_ok_iff.2 ⟨e, folds, rfl⟩, by simpa using size, all⟩

end StartsAt

/-- Frames survive the stack map. The entries that are read of it, resolved against the instructions
at their offsets, declare as many frames at the same offsets, each with the same stack and with the same
locals up to the `top`s at their end. -/
theorem declareAll_of_write (startsAt : StartsAt l starts offsets) (initial : Frame)
    {frames : List (Nat × Frame)} (increasing : (frames.map Prod.fst).Pairwise (· < ·))
    (storable : ∀ x ∈ frames, Storable l starts x) {p q : Pool} (consistent : p.Consistent)
    {bytes : Bytes} (writes : write offsets initial frames p = .ok bytes q) {r : Pool}
    (grows : q.Grows r) {t : LabelTable} (inside : ∀ o ∈ starts, o < t.codeLength) (pos : Nat)
    (rest : Bytes) :
    ∃ (deltas : List (Label × FrameDelta)) (os : List Nat), (∀ o ∈ os, o ∈ starts) ∧
      read r t ⟨pos, bytes ++ rest⟩ =
        .ok (deltas, t.addAll os, ⟨pos + bytes.length, rest⟩) ∧
      ∀ u, (t.addAll os).Grows u → Binds l starts u →
        ∃ declared, (Positions.ofList l).declareAll initial deltas = .ok declared ∧
          declared.size = frames.length ∧ ∀ x ∈ frames, ∀ k : Nat, starts[k]? = some x.1 →
            declared[k]? = some ⟨x.2.locals.trim, x.2.stack⟩ := by
  have known : ∀ id o, nodeOffset offsets id = .ok o → o ∈ starts := by
    intro id o isOffset
    obtain ⟨k, _, isStart, _⟩ := startsAt.nodes id o isOffset
    exact List.mem_of_getElem? isStart
  -- the reader finds the entries of the frames, for any table that keeps the labels it has given
  obtain ⟨isConsistent, _, holds⟩ := ensures_write_lists
    (fun o isStart => ⟨inside o isStart, startsAt.short o isStart⟩) known initial
    (fun x member => (storable x member).among) p q bytes consistent writes
  obtain ⟨deltas, os, among, lists, reads⟩ := holds q isConsistent (.refl q) r grows t pos rest rfl
  exact ⟨deltas, os, among, reads, fun u labels binds => startsAt.declareAll binds (lists u labels)
    storable (increasing.imp Nat.ne_of_lt)⟩

/-- An object is made and left on the stack, where it is not initialized. -/
def making : InstructionList :=
  let l := (((InstructionList.withLabelsFrom 3).push (.ofClass .new "A")).2.push (.simple .nop)).2
  (((l.push (.simple .vreturn)).2.attach ⟨0⟩ (some ⟨0⟩)).attach ⟨1⟩ (some ⟨1⟩)).attach ⟨2⟩ (some ⟨2⟩)

def makingOffsets : NodeOffsets := ((({} : NodeOffsets).insert 0 0).insert 1 3).insert 2 4

def makingLabels : LabelTable :=
  ⟨5, ((({} : Std.HashMap Nat Label).insert 0 ⟨0⟩).insert 3 ⟨1⟩).insert 4 ⟨2⟩⟩

/-- A frame with the object on its stack, and one with less locals and a `top` behind them. -/
def makingFrames : List (Nat × Frame) :=
  [(3, ⟨[.long, .top, .integer], [.uninitialized ⟨0⟩]⟩), (4, ⟨[.long, .top, .top], []⟩)]

theorem eq_of_isStart {k o : Nat} (isStart : ([0, 3, 4] : List Nat)[k]? = some o) :
    k = 0 ∧ o = 0 ∨ k = 1 ∧ o = 3 ∨ k = 2 ∧ o = 4 := by
  obtain ⟨bound, rfl⟩ := List.getElem?_eq_some_iff.1 isStart
  obtain rfl | rfl | rfl : k = 0 ∨ k = 1 ∨ k = 2 := by
    simp only [List.length_cons, List.length_nil] at bound
    omega
  all_goals simp

theorem isStart_of_makingOffsets {k o : Nat} (found : makingOffsets[k]? = some o) :
    ([0, 3, 4] : List Nat)[k]? = some o := by
  simp only [makingOffsets, Std.TreeMap.getElem?_insert, Std.LawfulEqCmp.compare_eq_iff_eq] at found
  split at found
  · next same => simpa [← same] using found
  · split at found
    · next same => simpa [← same] using found
    · split at found
      · next same => simpa [← same] using found
      · simp at found

theorem get?_makingLabels {k o : Nat} (isStart : ([0, 3, 4] : List Nat)[k]? = some o) :
    makingLabels.get? o = some ⟨k⟩ := by
  obtain ⟨rfl, rfl⟩ | ⟨rfl, rfl⟩ | ⟨rfl, rfl⟩ := eq_of_isStart isStart
  all_goals simp [makingLabels, LabelTable.get?, Std.HashMap.getElem_insert]

theorem startsAt_making : StartsAt making [0, 3, 4] makingOffsets where
  wellFormed := by
    refine ⟨by decide, ?_⟩
    have labels : making.labels = [⟨0⟩, ⟨1⟩, ⟨2⟩] := rfl
    rw [labels]
    simp [making, InstructionList.attach, InstructionList.modify]
  length := rfl
  short := by decide
  nodes id o isOffset := by
    obtain ⟨index⟩ := id
    have isStart := isStart_of_makingOffsets (nodeOffset_ok_iff.1 isOffset)
    refine ⟨index, ?_⟩
    obtain ⟨rfl, rfl⟩ | ⟨rfl, rfl⟩ | ⟨rfl, rfl⟩ := eq_of_isStart isStart
    all_goals exact ⟨_, rfl, rfl⟩

theorem binds_making : Binds making [0, 3, 4] makingLabels := by
  intro k o label isStart isLabel
  obtain rfl := Option.some.inj ((get?_makingLabels isStart).symm.trans isLabel)
  obtain ⟨rfl, rfl⟩ | ⟨rfl, rfl⟩ | ⟨rfl, rfl⟩ := eq_of_isStart isStart
  all_goals rfl

theorem storable_making : ∀ x ∈ makingFrames, Storable making [0, 3, 4] x := by
  have fromNew : ∀ x ∈ makingFrames, ∀ t ∈ x.2.locals ++ x.2.stack, FromNew making t := by
    rintro x member _ among id rfl
    obtain rfl : id = ⟨0⟩ := by
      simp only [makingFrames, List.mem_cons, List.not_mem_nil, or_false] at member
      rcases member with rfl | rfl
      · simpa using among
      · simp at among
    exact ⟨[⟨0⟩], "A", rfl⟩
  have paired : ∀ x ∈ makingFrames, x.1 ∈ [0, 3, 4] ∧ x.2.locals.Paired := by decide
  exact fun x member => ⟨(paired x member).1, (paired x member).2, fromNew x member⟩

theorem declareAll_of_write_making : ∃ (deltas : List (Label × FrameDelta))
    (declared : Std.TreeMap Nat Frame),
    write makingOffsets ⟨[], []⟩ makingFrames .empty =
      .ok [0, 2, 255, 0, 3, 0, 2, 4, 1, 0, 1, 8, 0, 0, 250, 0, 0] .empty ∧
    read .empty makingLabels ⟨0, [0, 2, 255, 0, 3, 0, 2, 4, 1, 0, 1, 8, 0, 0, 250, 0, 0]⟩ =
      .ok (deltas, makingLabels, ⟨17, []⟩) ∧
    (Positions.ofList making).declareAll ⟨[], []⟩ deltas = .ok declared ∧ declared.size = 2 ∧
    declared[1]? = some ⟨[.long, .top, .integer], [.uninitialized ⟨0⟩]⟩ ∧
    declared[2]? = some ⟨[.long, .top], []⟩ := by
  have writes : write makingOffsets ⟨[], []⟩ makingFrames .empty =
      .ok [0, 2, 255, 0, 3, 0, 2, 4, 1, 0, 1, 8, 0, 0, 250, 0, 0] .empty := rfl
  obtain ⟨deltas, os, among, reads, declares⟩ := declareAll_of_write startsAt_making ⟨[], []⟩
    (by decide) storable_making Pool.consistent_empty writes (.refl _)
    (t := makingLabels) (by decide) 0 []
  have same : makingLabels.addAll os = makingLabels := by
    refine LabelTable.addAll_of_has fun o member => ?_
    obtain ⟨k, isStart⟩ := List.mem_iff_getElem?.1 (among o member)
    exact ⟨_, get?_makingLabels isStart⟩
  -- all offsets had labels, so that the table is the one that the labels are bound for
  rw [same] at reads declares
  obtain ⟨declared, isDeclared, size, all⟩ := declares makingLabels (.refl _) binds_making
  exact ⟨deltas, declared, writes, reads, isDeclared, size,
    all (3, ⟨[.long, .top, .integer], [.uninitialized ⟨0⟩]⟩) (by simp [makingFrames]) 1 rfl,
    all (4, ⟨[.long, .top, .top], []⟩) (by simp [makingFrames]) 2 rfl⟩

end StackMap

end ClassPatch
