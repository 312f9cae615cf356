import ClassPatch.Proofs.Bytecode.Settling
/-!
# How many attempts there are

An attempt that fails makes a branch wide that was not, so that there are no more of them than branches.
The next attempt starts over: all that is left of the one before are entries of the pool, and those the
next one would have put there itself.

* `Primes` — that a computation leaves a pool in which another one comes out as it would have before
* `Placement.Retries` — attempts that fail, one after the other
* `Placement.LastAttempt` — what the attempt after them gives

Main statements: `Placement.primes_attempt` and `Placement.attempts_end`.
-/

namespace ClassPatch

/-! ## What an attempt leaves behind -/

/-- What a computation comes to, without the pool that it leaves. -/
def Writing.outcome {α : Type} : EStateM.Result WriteError Pool α → Except WriteError α
  | .ok a _ => .ok a
  | .error e _ => .error e

/-- The computation `w` puts into a pool whatever `v` would put there. So where `w` succeeds, `v` comes out
the same in the pool before and in all pools that the one behind grows into. -/
structure Primes {ε α β : Type} (w : EStateM ε Pool α) (v : EStateM ε Pool β) : Prop where
  onlyPuts : OnlyPuts w
  same : ∀ (p q : Pool) (a : α), p.Interned → w p = .ok a q → ∀ r : Pool, r.Interned → q.Grows r →
    (∃ b, v p = .ok b q ∧ v r = .ok b r) ∨ ∃ e s s', v p = .error e s ∧ v r = .error e s'

namespace Primes

variable {ε ε' α β γ δ : Type} {w : EStateM ε Pool α} {v : EStateM ε Pool β}

theorem pure (a : α) (b : β) :
    Primes (Pure.pure a : EStateM ε Pool α) (Pure.pure b : EStateM ε Pool β) where
  onlyPuts := .pure a
  same := by
    intro p q _ _ runs r _ _
    obtain ⟨rfl, rfl⟩ := EStateM.Result.ok.inj runs
    exact .inl ⟨b, rfl, rfl⟩

/-- A failure leaves nothing to compare. -/
theorem throw_left (e : ε) : Primes (MonadExcept.throw e : EStateM ε Pool α) v :=
  ⟨.throw e, fun _ _ _ _ runs => nomatch runs⟩

theorem throw_right (puts : OnlyPuts w) (e : ε) :
    Primes w (MonadExcept.throw e : EStateM ε Pool β) :=
  ⟨puts, fun p _ _ _ _ r _ _ => .inr ⟨e, p, r, rfl, rfl⟩⟩

/-- What gives the same when it is run again may as well be run in its own place. -/
theorem of_repeats (repeats : Repeats w) : Primes w w where
  onlyPuts := repeats.onlyPuts
  same p q a interned runs r later grows :=
    .inl ⟨a, runs, repeats.holds p q a interned runs r later grows⟩

theorem bind {f : α → EStateM ε Pool γ} {g : β → EStateM ε Pool δ} (first : Primes w v)
    (next : ∀ a b, Primes (f a) (g b)) (puts : ∀ a, OnlyPuts (f a)) :
    Primes (w >>= f) (v >>= g) where
  onlyPuts := first.onlyPuts.bind puts
  same := by
    intro p q c interned runs r later grows
    cases head : w p with
    | error e p' => simp [Bind.bind, EStateM.bind, head] at runs
    | ok a p' =>
      have tail : f a p' = .ok c q := by simpa [Bind.bind, EStateM.bind, head] using runs
      have between := (first.onlyPuts.puts head).interned interned
      have more := ((puts a).puts tail).grows
      cases first.same p p' a interned head r later (more.trans grows) with
      | inl gives =>
        obtain ⟨b, before, again⟩ := gives
        have rest := (next a b).same p' q c between tail r later grows
        simpa [Bind.bind, EStateM.bind, before, again] using rest
      | inr fails =>
        obtain ⟨e, s, s', before, again⟩ := fails
        exact .inr ⟨e, s, s', by simp [Bind.bind, EStateM.bind, before],
          by simp [Bind.bind, EStateM.bind, again]⟩

theorem adaptExcept (primes : Primes w v) (f g : ε → ε') :
    Primes (w.adaptExcept f) (v.adaptExcept g) where
  onlyPuts := primes.onlyPuts.adaptExcept f
  same := by
    intro p q a interned runs r later grows
    cases inner : w p with
    | error e p' => simp [EStateM.adaptExcept, inner] at runs
    | ok b p' =>
      simp only [EStateM.adaptExcept, inner, EStateM.Result.ok.injEq] at runs
      obtain ⟨rfl, rfl⟩ := runs
      cases primes.same p p' b interned inner r later grows with
      | inl gives =>
        obtain ⟨c, before, again⟩ := gives
        exact .inl ⟨c, by simp [EStateM.adaptExcept, before], by simp [EStateM.adaptExcept, again]⟩
      | inr fails =>
        obtain ⟨e, s, s', before, again⟩ := fails
        exact .inr ⟨g e, s, s', by simp [EStateM.adaptExcept, before],
          by simp [EStateM.adaptExcept, again]⟩

/-- Behind a run of `w`, `v` comes to the same as before it, and puts nothing more into the pool. -/
theorem again {w : Writing α} {v : Writing β} (primes : Primes w v) {p q : Pool} {a : α}
    (interned : p.Interned) (runs : w p = .ok a q) :
    Writing.outcome (v q) = Writing.outcome (v p) ∧ ∀ {b r}, v q = .ok b r → r = q := by
  have later := (primes.onlyPuts.puts runs).interned interned
  cases primes.same p q a interned runs q later (.refl _) with
  | inl gives =>
    obtain ⟨b, before, behind⟩ := gives
    rw [before, behind]
    exact ⟨rfl, fun same => (EStateM.Result.ok.inj same).2.symm⟩
  | inr fails =>
    obtain ⟨e, s, s', before, behind⟩ := fails
    rw [before, behind]
    exact ⟨rfl, fun same => nomatch same⟩

end Primes

namespace Bytecode

/-! ## Every attempt primes every other one -/

/-- Which form a branch has, and where it is, does not matter to the pool. -/
theorem Encoding.primes_of (wide wide' : Bool) (known known' : Label → Option Nat) (pos pos' : Nat)
    (i : Instruction) : Primes (Encoding.of wide known pos i) (Encoding.of wide' known' pos' i) := by
  cases i with
  | branch condition target =>
    unfold Encoding.of
    dsimp only
    split
    · exact .throw_left _
    · split
      · exact .throw_right (.pure _) _
      · exact .pure _ _
  | goto | jsr => exact .pure _ _
  | tableSwitch | lookupSwitch => exact .of_repeats (Writing.repeats_ofExcept _)
  | _ => exact .of_repeats ((repeats_fixedBytes _).map _)

namespace Placement

variable {l : InstructionList} {pool : Pool}

theorem primes_push (wide wide' : NodeId → Bool) (p q : Placement) (id : NodeId) (n : Node) :
    Primes (p.push wide id n) (q.push wide' id n) := by
  unfold push
  dsimp only
  split
  · exact .throw_left _
  · have encodes := (Encoding.repeats_of (wide id)
      (fun label => (Positions.mark p.labels p.size n.labels)[label.id]?) p.size n.instruction)
    split
    · exact .throw_right
        ((Writing.repeats_within _ encodes).bind fun _ => Repeats.pure _).onlyPuts _
    · have both := Encoding.primes_of (wide id) (wide' id)
        (fun label => (Positions.mark p.labels p.size n.labels)[label.id]?)
        (fun label => (Positions.mark q.labels q.size n.labels)[label.id]?) p.size q.size n.instruction
      exact (both.adaptExcept _ _).bind (fun _ _ => .pure _ _) fun _ => .pure _

theorem primes_pushAll (wide wide' : NodeId → Bool) (p q : Placement) (nodes : List (NodeId × Node)) :
    Primes (pushAll wide p nodes) (pushAll wide' q nodes) := by
  induction nodes generalizing p q with
  | nil => exact .pure p q
  | cons node nodes inductionHypothesis =>
    obtain ⟨id, n⟩ := node
    exact (primes_push wide wide' p q id n).bind inductionHypothesis
      fun a => (repeats_pushAll wide a nodes).onlyPuts

theorem primes_attempt (wide wide' : NodeId → Bool) (l : InstructionList) :
    Primes (attempt wide l) (attempt wide' l) := by
  apply (primes_pushAll wide wide' ⟨[], {}, 0⟩ ⟨[], {}, 0⟩ l.toList).bind
  · intro p q
    dsimp only
    split
    · exact .throw_left _
    · split
      · exact .throw_right (.pure _) _
      · exact .pure _ _
  · intro p
    dsimp only
    split
    · exact .throw _
    · exact .pure _

/-! ## Which branches are made wide -/

/-- Every instruction is in a form that was chosen by offsets of labels which stay. -/
def Chooses (wide : NodeId → Bool) (nodes : List (NodeId × Node)) (labels : Std.TreeMap Nat Nat)
    (y : Placed) : Prop :=
  ∃ n known, (y.id, n) ∈ nodes ∧
    (∀ label : Label, ∀ offset, known label = some offset → labels[label.id]? = some offset) ∧
    y.encoding.Chosen (wide y.id) known y.pos ∧
    ∀ opcode target, y.encoding = .near opcode target → hasNearForm n.instruction = true

/-- While instructions are placed, no label that has an offset gets another one. -/
theorem ensures_pushAll_chooses (wide : NodeId → Bool) {nodes : List (NodeId × Node)} {p : Placement}
    {seen : List Label}
    (known : ∀ (label : Label) (offset : Nat), p.labels[label.id]? = some offset → label ∈ seen)
    (once : (seen ++ nodes.flatMap fun x => x.2.labels).Nodup) :
    Ensures (pushAll wide p nodes) fun _ q =>
      (∀ label : Label, label ∉ (nodes.flatMap fun x => x.2.labels) →
        q.labels[label.id]? = p.labels[label.id]?) ∧
      ∀ y ∈ q.placed, y ∈ p.placed ∨ Chooses wide nodes q.labels y := by
  induction nodes generalizing p seen with
  | nil => exact .pure fun _ _ => ⟨fun _ _ => rfl, fun _ member => .inl member⟩
  | cons node nodes inductionHypothesis =>
    obtain ⟨id, n⟩ := node
    rw [List.flatMap_cons, ← List.append_assoc] at once
    have knownHere : ∀ (label : Label) (offset : Nat),
        (Positions.mark p.labels p.size n.labels)[label.id]? = some offset →
          label ∈ seen ++ n.labels := by
      intro label offset isKnown
      rw [getElem?_mark] at isKnown
      split at isKnown
      · next here => exact List.mem_append_right _ here
      · exact List.mem_append_left _ (known label offset isKnown)
    refine ((ensures_push p id (Encoding.ensures_chosen _ _ _ _)).bind (Q := fun q _ r =>
      q.labels = Positions.mark p.labels p.size n.labels →
        (∀ label : Label, label ∉ (nodes.flatMap fun x => x.2.labels) →
          r.labels[label.id]? = q.labels[label.id]?) ∧
        ∀ y ∈ r.placed, y ∈ q.placed ∨ Chooses wide nodes r.labels y) fun q _ pushes => ?_).mono ?_
    · obtain ⟨e, rfl, _⟩ := pushes
      exact (inductionHypothesis knownHere once).mono fun _ _ _ holds _ => holds
    · rintro _ r _ ⟨_, ⟨e, rfl, chosen, isNear⟩, behind⟩
      obtain ⟨stays, chooses⟩ := behind rfl
      constructor
      · intro label absent
        rw [List.flatMap_cons, List.mem_append, not_or] at absent
        rw [stays label absent.2, getElem?_mark, if_neg absent.1]
      · intro y member
        cases chooses y member with
        | inr later =>
          obtain ⟨m, known', among, rest⟩ := later
          exact .inr ⟨m, known', List.mem_cons_of_mem _ among, rest⟩
        | inl placed =>
          cases List.mem_cons.1 placed with
          | inr before => exact .inl before
          | inl same =>
            subst same
            refine .inr ⟨n, _, List.mem_cons_self, fun label offset isKnown => ?_, chosen, isNear⟩
            -- the labels behind are others than those that are known here
            have absent : label ∉ (nodes.flatMap fun x => x.2.labels) := fun later =>
              (List.nodup_append.1 once).2.2 label (knownHere label offset isKnown) label later rfl
            rw [stays label absent]
            exact isKnown

theorem ensures_attempt_chooses (wide : NodeId → Bool) (wellFormed : l.WellFormed) :
    Ensures (attempt wide l) fun _ p => ∀ y ∈ p.placed, Chooses wide l.toList p.labels y := by
  obtain ⟨once, apart⟩ := Positions.nodup_nodes wellFormed
  have nothing : ∀ (label : Label) (offset : Nat),
      (⟨[], {}, 0⟩ : Placement).labels[label.id]? = some offset → label ∈ ([] : List Label) := by
    simp
  unfold attempt
  refine ((ensures_pushAll_chooses wide nothing once).bind
    (Q := fun q _ p => p = ⟨q.placed.reverse, Positions.mark q.labels q.size l.endLabels, q.size⟩)
      fun q _ _ => ?_).mono ?_
  · dsimp only
    split
    · exact .throw_bind
    · exact .pure fun _ _ => rfl
  · rintro _ _ _ ⟨q, ⟨stays, chooses⟩, rfl⟩ y member
    cases chooses y (List.mem_reverse.1 member) with
    | inl first => exact absurd first List.not_mem_nil
    | inr placed =>
      obtain ⟨n, known, among, keeps, rest⟩ := placed
      refine ⟨n, known, among, fun label offset isKnown => ?_, rest⟩
      have found := keeps label offset isKnown
      -- what is known is a label of an instruction, which is none at the end
      have ofNode : label ∈ l.toList.flatMap fun x => x.2.labels := by
        by_contra absent
        rw [stays label absent] at found
        simp at found
      rw [getElem?_mark, if_neg fun atEnd => apart label atEnd ofNode]
      exact found

/-- What does not reach its target is a branch that was not asked to be wide. -/
theorem notWide_of_attempt {wide : NodeId → Bool} {p : Placement} {q : Pool} {id : NodeId}
    (wellFormed : l.WellFormed) (consistent : pool.Consistent)
    (attempts : attempt wide l pool = .ok p q) (unfit : p.findUnfit p.placed = .ok (some id)) :
    wide id = false ∧ ∃ n, (id, n) ∈ l.toList ∧ hasNearForm n.instruction = true := by
  obtain ⟨later, _, chooses⟩ :=
    ensures_attempt_chooses wide wellFormed pool q p consistent attempts
  obtain ⟨y, member, rfl, isUnfit⟩ := findUnfit_some unfit
  obtain ⟨n, known, among, keeps, chosen, isNear⟩ := chooses q later (.refl _) y member
  obtain ⟨opcode, target, _, near, _⟩ := isUnfit_iff.1 isUnfit
  exact ⟨notWide_of_isUnfit keeps chosen isUnfit, n, among, isNear opcode target near⟩

/-! ## Attempts that fail -/

/-- From some wide branches and a pool, so many attempts fail, each of which makes a branch wide that does
not reach its target. -/
inductive Retries (l : InstructionList) :
    Nat → Std.TreeSet Nat → Pool → Std.TreeSet Nat → Pool → Prop
  | none (wide : Std.TreeSet Nat) (pool : Pool) : Retries l 0 wide pool wide pool
  | more {n : Nat} {wide last : Std.TreeSet Nat} {pool q r : Pool} {p : Placement} {id : NodeId}
    (attempts : attempt (fun id => wide.contains id.index) l pool = .ok p q)
    (unfit : p.findUnfit p.placed = .ok (some id))
    (behind : Retries l n (wide.insert id.index) q last r) : Retries l (n + 1) wide pool last r

/-- What an attempt comes to that is not followed by another one. -/
inductive LastAttempt (l : InstructionList) (wide : Std.TreeSet Nat) (pool : Pool) :
    EStateM.Result WriteError Pool Placement → Prop
  | fails {e : WriteError} {q : Pool}
    (attempts : attempt (fun id => wide.contains id.index) l pool = .error e q) :
    LastAttempt l wide pool (.error e q)
  | unbound {p : Placement} {e : WriteError} {q : Pool}
    (attempts : attempt (fun id => wide.contains id.index) l pool = .ok p q)
    (lacks : p.findUnfit p.placed = .error e) : LastAttempt l wide pool (.error e q)
  | fits {p : Placement} {q : Pool}
    (attempts : attempt (fun id => wide.contains id.index) l pool = .ok p q)
    (fit : p.findUnfit p.placed = .ok none) : LastAttempt l wide pool (.ok p q)

variable {n : Nat} {wide last : Std.TreeSet Nat} {q : Pool}

theorem interned_of_attempt {chosen : NodeId → Bool} {p : Placement} (interned : pool.Interned)
    (attempts : attempt chosen l pool = .ok p q) : q.Interned :=
  ((repeats_attempt chosen l).onlyPuts.puts attempts).interned interned

/-- What happens behind an attempt is decided by the first branch that does not reach its target. -/
theorem settle_of_attempt {fuel : Nat} {p : Placement}
    (attempts : attempt (fun id => wide.contains id.index) l pool = .ok p q) :
    settle l wide (fuel + 1) pool = match p.findUnfit p.placed with
      | .error e => .error e q
      | .ok none => .ok p q
      | .ok (some id) => settle l (wide.insert id.index) fuel q := by
  rw [settle]
  simp only [Bind.bind, EStateM.bind, attempts]
  cases p.findUnfit p.placed with
  | error e => rfl
  | ok found => cases found <;> rfl

/-- An attempt places one instruction behind the other. -/
theorem pushAll_cons {chosen : NodeId → Bool} {p : Placement} {id : NodeId} {n : Node} {e : Encoding}
    {rest : List (NodeId × Node)} (fits : p.size ≤ 65535)
    (encodes : Encoding.of (chosen id) (fun label => (Positions.mark p.labels p.size n.labels)[label.id]?)
      p.size n.instruction pool = .ok e q) :
    pushAll chosen p ((id, n) :: rest) pool = pushAll chosen ⟨⟨id, p.size, e⟩ :: p.placed,
      Positions.mark p.labels p.size n.labels, p.size + e.length p.size⟩ rest q := by
  rw [pushAll, push, if_neg (Nat.not_lt.2 fits)]
  simp only [Bind.bind, EStateM.bind, Writing.within, EStateM.adaptExcept, encodes]
  rfl

theorem attempt_of_pushAll {chosen : NodeId → Bool} {p : Placement}
    (places : pushAll chosen ⟨[], {}, 0⟩ l.toList pool = .ok p q) (short : p.size ≤ 65535) :
    attempt chosen l pool =
      .ok ⟨p.placed.reverse, Positions.mark p.labels p.size l.endLabels, p.size⟩ q := by
  unfold attempt
  simp only [Bind.bind, EStateM.bind, places, if_neg (Nat.not_lt.2 short)]
  rfl

/-- The attempts go on until one is the last. -/
theorem exists_lastAttempt (wellFormed : l.WellFormed) {fuel : Nat} (interned : pool.Interned)
    (enough : narrow l wide < fuel) :
    ∃ n last q, Retries l n wide pool last q ∧ LastAttempt l last q (settle l wide fuel pool) := by
  induction fuel generalizing wide pool with
  | zero => exact absurd enough (Nat.not_lt_zero _)
  | succ fuel inductionHypothesis =>
    cases attempts : attempt (fun id => wide.contains id.index) l pool with
    | error e q =>
      have settles : settle l wide (fuel + 1) pool = .error e q := by
        simp [settle, Bind.bind, EStateM.bind, attempts]
      exact ⟨0, wide, pool, .none wide pool, settles ▸ .fails attempts⟩
    | ok p q =>
      rw [settle_of_attempt attempts]
      cases unfit : p.findUnfit p.placed with
      | error e => exact ⟨0, wide, pool, .none wide pool, .unbound attempts unfit⟩
      | ok found =>
        cases found with
        | none => exact ⟨0, wide, pool, .none wide pool, .fits attempts unfit⟩
        | some id =>
          obtain ⟨notWide, node, among, isBranch⟩ :=
            notWide_of_attempt wellFormed interned.toConsistent attempts unfit
          have fewer := narrow_insert among isBranch notWide
          have later := interned_of_attempt interned attempts
          have enough' : narrow l (wide.insert id.index) < fuel := by omega
          obtain ⟨n, last, r, retries, ends⟩ := inductionHypothesis later enough'
          exact ⟨n + 1, last, r, .more attempts unfit retries, ends⟩

theorem Retries.interned (retries : Retries l n wide pool last q) (interned : pool.Interned) :
    q.Interned := by
  induction retries with
  | none => exact interned
  | more attempts _ _ inductionHypothesis =>
    exact inductionHypothesis (interned_of_attempt interned attempts)

/-- Every failed attempt leaves fewer branches that are not wide. -/
theorem Retries.add_narrow_le (retries : Retries l n wide pool last q) (wellFormed : l.WellFormed)
    (interned : pool.Interned) : n + narrow l last ≤ narrow l wide := by
  induction retries with
  | none => simp
  | more attempts unfit _ inductionHypothesis =>
    obtain ⟨notWide, node, among, isBranch⟩ :=
      notWide_of_attempt wellFormed interned.toConsistent attempts unfit
    have fewer := narrow_insert among isBranch notWide
    have rest := inductionHypothesis (interned_of_attempt interned attempts)
    omega

/-- Of some failed attempts, only the first one puts anything into the pool. -/
theorem Retries.eq_or_first (retries : Retries l n wide pool last q) (interned : pool.Interned) :
    (n = 0 ∧ q = pool) ∨ ∃ chosen p, attempt chosen l pool = .ok p q := by
  induction retries with
  | none => exact .inl ⟨rfl, rfl⟩
  | more attempts _ _ inductionHypothesis =>
    have later := interned_of_attempt interned attempts
    refine .inr ?_
    cases inductionHypothesis later with
    | inl only =>
      obtain ⟨_, rfl⟩ := only
      exact ⟨_, _, attempts⟩
    | inr further =>
      obtain ⟨chosen, p, again⟩ := further
      -- the later attempt would have left the same pool, had it been the first one
      cases (primes_attempt _ chosen l).same _ _ _ interned attempts _ later (.refl _) with
      | inl gives =>
        obtain ⟨p', before, behind⟩ := gives
        obtain ⟨rfl, rfl⟩ := EStateM.Result.ok.inj (again.symm.trans behind)
        exact ⟨chosen, _, before⟩
      | inr fails =>
        obtain ⟨e, s, s', _, behind⟩ := fails
        cases again.symm.trans behind

/-- An instruction list is placed by a number of attempts that fail, which is not greater than that of the
branches in it, and a last one. What fails is a branch that was not wide so far, and no switch. Whatever is
made wide next, an attempt comes to the same as if there had been none before it, and it adds nothing to the
pool that the first one has not added. -/
theorem attempts_end (wellFormed : l.WellFormed) (interned : pool.Interned) :
    (∃ n wide q, Retries l n {} pool wide q ∧ LastAttempt l wide q (Placement.of l pool)) ∧
    ∀ n wide q, Retries l n {} pool wide q →
      n ≤ (l.toList.filter fun x => hasNearForm x.2.instruction).length ∧
      (∀ p r id, attempt (fun id => wide.contains id.index) l q = .ok p r →
        p.findUnfit p.placed = .ok (some id) → wide.contains id.index = false ∧
          ∃ node, (id, node) ∈ l.toList ∧ hasNearForm node.instruction = true) ∧
      (∀ chosen, Writing.outcome (attempt chosen l q) = Writing.outcome (attempt chosen l pool)) ∧
      (0 < n → ∀ chosen p r, attempt chosen l q = .ok p r → r = q) := by
  constructor
  · apply exists_lastAttempt wellFormed interned
    rw [narrow_empty]
    exact Nat.lt_succ_self _
  · intro n wide q retries
    have few := retries.add_narrow_le wellFormed interned
    rw [narrow_empty] at few
    have later := retries.interned interned
    refine ⟨by omega, fun p r id attempts unfit =>
      notWide_of_attempt wellFormed later.toConsistent attempts unfit, ?_, ?_⟩
    · intro chosen
      cases retries.eq_or_first interned with
      | inl only => rw [only.2]
      | inr further =>
        obtain ⟨first, p, attempts⟩ := further
        exact ((primes_attempt first chosen l).again interned attempts).1
    · intro positive chosen p r attempts
      cases retries.eq_or_first interned with
      | inl only => exact absurd only.1 (Nat.ne_of_gt positive)
      | inr further =>
        obtain ⟨first, p', attempts'⟩ := further
        exact ((primes_attempt first chosen l).again interned attempts').2 attempts

/-! ## A branch that is made wide because of another one -/

theorem findUnfit_cons {p : Placement} {x : Placed} {rest : List Placed}
    (bound : (x.encoding.targets.find? fun label => (p.offset? label).isNone) = none)
    (fits : p.isUnfit x = false) : p.findUnfit (x :: rest) = p.findUnfit rest := by
  rw [findUnfit, bound]
  simp [fits]

namespace Cascade

/-- The second branch does not reach the end. The first one reaches what is behind the switch, as long as
the second one is near. -/
def list : InstructionList :=
  (((InstructionList.withLabelsFrom 2).pushAll [.branch .eq ⟨0⟩, .branch .eq ⟨1⟩,
    .tableSwitch ⟨1⟩ 0 8185 (List.replicate 8186 ⟨1⟩), .iinc 300 1000, .iinc 300 1000,
    .simple .vreturn]).attach ⟨0⟩ (some ⟨3⟩)).attach ⟨1⟩ (some ⟨5⟩)

def branch (wide : Bool) (target : Label) : Encoding :=
  if wide then .aroundJump 0x9a target else .near 0x99 target

def switch : Encoding := .tableSwitch ⟨1⟩ 0 8185 (List.replicate 8186 ⟨1⟩)

def increment : Encoding := .fixed [0xc4, 0x84, 1, 44, 3, 232]

def placement (first second : Bool) : Placement :=
  let inner := (branch first ⟨0⟩).length 0
  let table := inner + (branch second ⟨1⟩).length inner
  let behind := table + (32757 + Encoding.padding table)
  ⟨[⟨⟨0⟩, 0, branch first ⟨0⟩⟩, ⟨⟨1⟩, inner, branch second ⟨1⟩⟩, ⟨⟨2⟩, table, switch⟩,
    ⟨⟨3⟩, behind, increment⟩, ⟨⟨4⟩, behind + 6, increment⟩, ⟨⟨5⟩, behind + 12, .fixed [0xb1]⟩],
    Positions.mark (Positions.mark {} behind [⟨0⟩]) (behind + 12) [⟨1⟩], behind + 13⟩

theorem length_switch (pos : Nat) : switch.length pos = 32757 + Encoding.padding pos := by
  simp only [switch, Encoding.length, List.length_replicate]
  omega

theorem encoding_switch (wide : Bool) (known : Label → Option Nat) (pos : Nat) :
    Encoding.of wide known pos (.tableSwitch ⟨1⟩ 0 8185 (List.replicate 8186 ⟨1⟩)) = pure switch := by
  have encodes : Encoding.ofTableSwitch ⟨1⟩ 0 8185 (List.replicate 8186 ⟨1⟩) = .ok switch := by
    unfold Encoding.ofTableSwitch
    rw [List.length_replicate]
    rfl
  unfold Encoding.of
  dsimp only
  rw [encodes]
  rfl

theorem attempt_eq (chosen : NodeId → Bool) :
    attempt chosen list .empty = .ok (placement (chosen ⟨0⟩) (chosen ⟨1⟩)) .empty := by
  have nodes : list.toList = [(⟨0⟩, ⟨[], .branch .eq ⟨0⟩⟩), (⟨1⟩, ⟨[], .branch .eq ⟨1⟩⟩),
      (⟨2⟩, ⟨[], .tableSwitch ⟨1⟩ 0 8185 (List.replicate 8186 ⟨1⟩)⟩),
      (⟨3⟩, ⟨[⟨0⟩], .iinc 300 1000⟩), (⟨4⟩, ⟨[], .iinc 300 1000⟩),
      (⟨5⟩, ⟨[⟨1⟩], .simple .vreturn⟩)] := rfl
  generalize outer : chosen ⟨0⟩ = first
  generalize inner : chosen ⟨1⟩ = second
  have places : pushAll chosen ⟨[], {}, 0⟩ list.toList .empty =
      .ok { placement first second with placed := (placement first second).placed.reverse } .empty := by
    rw [nodes, pushAll_cons (e := branch first ⟨0⟩) (Nat.zero_le _) (by rw [outer]; rfl),
      pushAll_cons (e := branch second ⟨1⟩) (by cases first <;> decide)
        (by rw [inner]; cases first <;> rfl),
      pushAll_cons (e := switch) (by cases first <;> cases second <;> decide)
        (by rw [encoding_switch]; rfl)]
    dsimp only
    rw [length_switch]
    cases first <;> cases second <;> rfl
  exact attempt_of_pushAll places (by cases first <;> cases second <;> decide)

theorem find_targets : (switch.targets.find? fun label =>
    ((placement true true).offset? label).isNone) = none := by
  rw [List.find?_eq_none]
  intro label member
  have same : label = ⟨1⟩ := by
    cases List.mem_cons.1 member with
    | inl same => exact same
    | inr later => exact List.eq_of_mem_replicate later
  rw [same]
  decide

theorem findUnfit_wide : (placement true true).findUnfit (placement true true).placed = .ok none :=
  calc (placement true true).findUnfit (placement true true).placed
    _ = (placement true true).findUnfit ((placement true true).placed.drop 2) :=
      (findUnfit_cons rfl rfl).trans (findUnfit_cons rfl rfl)
    _ = (placement true true).findUnfit ((placement true true).placed.drop 3) :=
      findUnfit_cons find_targets rfl
    _ = .ok none := rfl

theorem wellFormed : list.WellFormed := by
  refine ((InstructionList.wellFormed_withLabelsFrom 2).pushAll _).attach ?_ ?_ |>.attach ?_ ?_
  · rintro _ ⟨⟩
    rfl
  · decide
  · rintro _ ⟨⟩
    rfl
  · decide

end Cascade

/-- Two attempts fail, which are as many as there are branches: what is behind the switch is out of reach
once the second branch is wide. -/
theorem attempts_end_cascade :
    (∀ n wide q, Retries Cascade.list n {} .empty wide q → n ≤ 2) ∧
      ∃ wide, Retries Cascade.list 2 {} .empty wide .empty ∧
        Placement.of Cascade.list .empty = .ok (Cascade.placement true true) .empty ∧
        LastAttempt Cascade.list wide .empty (Placement.of Cascade.list .empty) := by
  let once : Std.TreeSet Nat := ({} : Std.TreeSet Nat).insert 1
  let twice : Std.TreeSet Nat := once.insert 0
  have first : attempt (fun id => ({} : Std.TreeSet Nat).contains id.index) Cascade.list .empty =
      .ok (Cascade.placement false false) .empty := Cascade.attempt_eq _
  have second : attempt (fun id => once.contains id.index) Cascade.list .empty =
      .ok (Cascade.placement false true) .empty := Cascade.attempt_eq _
  have third : attempt (fun id => twice.contains id.index) Cascade.list .empty =
      .ok (Cascade.placement true true) .empty := Cascade.attempt_eq _
  have inner : (Cascade.placement false false).findUnfit (Cascade.placement false false).placed =
      .ok (some ⟨1⟩) := by decide
  have outer : (Cascade.placement false true).findUnfit (Cascade.placement false true).placed =
      .ok (some ⟨0⟩) := by decide
  have settles : Placement.of Cascade.list .empty = .ok (Cascade.placement true true) .empty :=
    calc Placement.of Cascade.list .empty
      _ = settle Cascade.list {} 3 .empty := rfl
      _ = settle Cascade.list once 2 .empty := by rw [settle_of_attempt first, inner]
      _ = settle Cascade.list twice 1 .empty := by rw [settle_of_attempt second, outer]
      _ = .ok (Cascade.placement true true) .empty := by
        rw [settle_of_attempt third, Cascade.findUnfit_wide]
  have retries : Retries Cascade.list 2 {} .empty twice .empty :=
    .more first inner (.more second outer (.none twice .empty))
  refine ⟨fun n wide q retries => ?_, twice, retries, settles,
    settles ▸ .fits third Cascade.findUnfit_wide⟩
  exact ((attempts_end Cascade.wellFormed Pool.interned_empty).2 n wide q retries).1

end Placement

end Bytecode

end ClassPatch
