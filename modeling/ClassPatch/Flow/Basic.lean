import Std.Data.TreeMap
import ClassPatch.Class
import ClassPatch.Frame.Execute
import ClassPatch.Frame.Merge
/-!
# Flow of a method body

What the analysis of a body needs to know about it: the instructions by their position in the list,
where execution goes on behind each, the frame at the start, and the frames that were declared.

* `Positions` — the positions of instructions and labels
* `Flow.ofMethod` — the flow of a method
* `Flow.successors`, `Flow.catchers` — where execution may go on behind an instruction
-/

namespace ClassPatch

/-- A part of an analysis. -/
inductive AnalysisPart where
  | handlers
  | declared (delta : FrameDelta) (label : Label)
  | instruction (pos : Nat) (i : Instruction)
  /-- A frame that comes to the declared frame at `successor` from `pos`. -/
  | fitting (successor pos : Nat)
  /-- A frame that comes to `successor` from `pos`. -/
  | merging (successor pos : Nat)
  deriving DecidableEq

/-- Why a body can not be analysed. -/
inductive AnalysisError where
  | noCode (key : MemberKey)
  | noInstructions
  | unbound (label : Label)
  /-- The end of the code is used as a target. -/
  | endTarget (label : Label)
  | descriptor (e : DescriptorError)
  /-- An uninitialized object of the stack map does not come from a `new`. -/
  | notFromNew (label : Label)
  /-- More locals are dropped than there are. -/
  | chop (count : UInt8) (locals : List FrameType)
  /-- Two frames are declared for one instruction. -/
  | differing (a b : Frame) (pos : Nat)
  | frame (e : FrameError)
  | merge (e : MergeError)
  | misfit (m : Misfit)
  | fallsOff
  | unreachable (pos : Nat) (i : Instruction)
  | stackTooLarge (slots : Nat)
  | tooManyLocals (slots : Nat)
  | within (part : AnalysisPart) (e : AnalysisError)
  deriving DecidableEq

def AnalysisPart.message : AnalysisPart → String
  | handlers => "while resolving the exception table"
  | declared delta label =>
    "while reading the stack map frame " ++ delta.describe ++ " at " ++ label.describe
  | instruction pos i => "at instruction " ++ toString pos ++ ": " ++ i.describe
  | fitting successor pos =>
    "at the stack map frame of instruction " ++ toString successor ++
      " coming from instruction " ++ toString pos
  | merging successor pos =>
    "while merging the frames at instruction " ++ toString successor ++
      " coming from instruction " ++ toString pos

def AnalysisError.message : AnalysisError → String
  | noCode key =>
    "method " ++ Quoted.string key.name ++ " " ++ Quoted.string key.descriptor ++ " has no code"
  | noInstructions => "method has no instructions"
  | unbound label => "label " ++ label.describe ++ " isn't bound to any position"
  | endTarget label => "label " ++ label.describe ++ " is the end of the code, but used as a target"
  | descriptor e => e.message
  | notFromNew label =>
    "uninitialized value of label " ++ label.describe ++
      " doesn't come from a `new` instruction"
  | chop count locals =>
    "can't chop " ++ toString count ++ " locals off " ++ FrameType.describeAll locals
  | differing a b pos =>
    "differing stack map frames " ++ a.describe ++ " and " ++ b.describe ++ " at instruction " ++
      toString pos
  | frame e => e.message
  | merge e => e.message
  | misfit m => m.message
  | fallsOff => "execution falls off the end of the code"
  | unreachable pos i =>
    "instruction " ++ toString pos ++ " is unreachable: " ++ Describe.option (some i.describe)
  | stackTooLarge slots =>
    "operand stack of " ++ toString slots ++
      " slots is too large: number too large to fit in target type"
  | tooManyLocals slots =>
    toString slots ++ " local variable slots are too many: number too large to fit in target type"
  | within part e => part.message ++ ": " ++ e.message

/-- What an analysis gives: a value, or why there is none. -/
abbrev Analysing := Except AnalysisError

def Analysing.within {α : Type} (part : AnalysisPart) (r : Analysing α) : Analysing α :=
  r.mapError (.within part)

/-! ## Positions -/

/-- The instructions of a list by their position, and the positions of labels. -/
structure Positions where
  nodes : Array (NodeId × Node)
  /-- The position of each label, by its id. -/
  labels : Std.TreeMap Nat Nat

namespace Positions

/-- The number of instructions, which is the position of the end. -/
def size (p : Positions) : Nat := p.nodes.size

def mark (labels : Std.TreeMap Nat Nat) (pos : Nat) (ls : List Label) : Std.TreeMap Nat Nat :=
  ls.foldl (fun labels l => labels.insert l.id pos) labels

def ofList (l : InstructionList) : Positions :=
  let nodes := l.toList
  let labels := nodes.zipIdx.foldl (fun labels ((_, n), pos) => mark labels pos n.labels) {}
  ⟨nodes.toArray, mark labels nodes.length l.endLabels⟩

def position (p : Positions) (label : Label) : Analysing Nat :=
  match p.labels[label.id]? with
  | some pos => .ok pos
  | none => .error (.unbound label)

/-- The position of a label, which has to be that of an instruction. -/
def target (p : Positions) (label : Label) : Analysing Nat := do
  let pos ← p.position label
  if p.size ≤ pos then throw (.endTarget label)
  return pos

end Positions

/-! ## Declared frames -/

/-- A type with another kind of origin. -/
def VType.mapOrigin {ι κ ε : Type} (f : ι → Except ε κ) : VType ι → Except ε (VType κ)
  | top => .ok top
  | integer => .ok integer
  | float => .ok float
  | long => .ok long
  | double => .ok double
  | null => .ok null
  | uninitializedThis => .ok uninitializedThis
  | object name => .ok (object name)
  | uninitialized origin => (f origin).map uninitialized

namespace Positions

def newAt (p : Positions) (label : Label) : Analysing NodeId := do
  let pos ← p.target label
  match p.nodes[pos]? with
  | some (id, ⟨_, .ofClass .new _⟩) => return id
  | _ => throw (.notFromNew label)

def resolve (p : Positions) (t : DeclaredType) : Analysing FrameType := t.mapOrigin p.newAt

/-- The locals by value and the stack that an entry of a stack map stands for, behind a frame with
the locals `values`. -/
def applyDelta (p : Positions) (values : List FrameType) :
    FrameDelta → Analysing (List FrameType × Stack)
  | .same => .ok (values, [])
  | .sameWithStack t => do return (values, [← p.resolve t])
  | .chop count =>
    if values.length < count.toNat then .error (.chop count values)
    else .ok (values.take (values.length - count.toNat), [])
  | .append more => do return (values ++ (← more.mapM p.resolve), [])
  | .full locals stack => do
    let locals ← locals.mapM p.resolve
    let stack ← stack.mapM p.resolve
    return (locals, stack.reverse)

/-- The frames declared so far, and the locals by value of the last one. -/
structure Declaring where
  frames : Std.TreeMap Nat Frame
  values : List FrameType

def declare (p : Positions) (d : Declaring) (label : Label) (delta : FrameDelta) :
    Analysing Declaring := do
  let pos ← p.target label
  let (values, stack) ← p.applyDelta d.values delta
  let frame : Frame := ⟨Locals.expand values, stack⟩
  match d.frames[pos]? with
  | some other => if other ≠ frame then throw (.differing other frame pos)
  | none => pure ()
  return ⟨d.frames.insert pos frame, values⟩

/-- The frames that a stack map declares, by position, where `initial` is the frame at the start. -/
def declareAll (p : Positions) (initial : Frame) (deltas : List (Label × FrameDelta)) :
    Analysing (Std.TreeMap Nat Frame) := do
  let d ← deltas.foldlM
    (fun d (label, delta) => Analysing.within (.declared delta label) (p.declare d label delta))
    ⟨{}, initial.locals.compact⟩
  return d.frames

end Positions

/-! ## Flow -/

/-- A range of positions that an exception handler covers. -/
structure Guard where
  start : Nat
  /-- The first position behind the range. -/
  stop : Nat
  handler : Nat
  caught : String
  deriving DecidableEq

def Positions.guard (p : Positions) (h : Handler) : Analysing Guard := do
  return ⟨← p.position h.start, ← p.position h.stop, ← p.target h.handler,
    h.caught.getD Hierarchy.throwable⟩

def Frame.initial (className : String) (m : Method) : Analysing Frame := do
  let d ← (MethodDescriptor.parse m.descriptor).mapError .descriptor
  let receiver : FrameType :=
    if m.name = "<init>" ∧ className ≠ Hierarchy.object then .uninitializedThis
    else .object className
  let parameters := Locals.expand (d.parameters.map VType.ofFieldType)
  return ⟨if m.isStatic then parameters else receiver :: parameters, []⟩

/-- What the analysis of a body needs to know. -/
structure Flow where
  className : String
  /-- The known classes, the class of the body among them. -/
  hierarchy : Hierarchy
  /-- Whether the class has stack maps. -/
  exact : Bool
  list : InstructionList
  positions : Positions
  guards : List Guard
  initial : Frame
  /-- The frames that were declared, by position. They stand as they are, without merging. -/
  declared : Std.TreeMap Nat Frame

namespace Flow

def ofCode (h : Hierarchy) (c : ClassFile) (m : Method) (body : Code) : Analysing Flow := do
  let positions := Positions.ofList body.instructions
  if positions.size = 0 then throw .noInstructions
  let guards ← Analysing.within .handlers (body.handlers.mapM positions.guard)
  let initial ← Frame.initial c.name m
  let declared ← positions.declareAll initial body.frames
  return {
    className := c.name
    hierarchy := h.insert c.name ⟨c.superName, c.isInterface⟩
    exact := c.version.hasStackMap
    list := body.instructions
    positions, guards, initial, declared }

def ofMethod (h : Hierarchy) (c : ClassFile) (m : Method) : Analysing Flow :=
  match m.code with
  | none => .error (.noCode ⟨m.name, m.descriptor⟩)
  | some body => ofCode h c m body

/-- The positions at which execution may go on behind the instruction `i` at `pos`. -/
def successors (flow : Flow) (pos : Nat) (i : Instruction) : Analysing (List Nat) := do
  let targets ← i.targets.mapM flow.positions.target
  if i.isTransfer then return targets
  if flow.positions.size ≤ pos + 1 then throw .fallsOff
  return targets ++ [pos + 1]

/-- The guards that cover a position. -/
def catchers (flow : Flow) (pos : Nat) : List Guard :=
  flow.guards.filter fun g => g.start ≤ pos && pos < g.stop

end Flow

end ClassPatch
