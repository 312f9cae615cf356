import ClassPatch.Class.Read
import ClassPatch.Patch.Edit
import ClassPatch.WriteError
/-!
# Events

What is reported while a class is patched, with the text and the severity of each report.
-/

namespace ClassPatch

/-- Why a class can not be patched. -/
inductive PatchError where
  | read (e : ReadError)
  | edit (className : String) (method : MemberKey) (e : ListError)
  | write (e : WriteError)

/-- The text of the error. A sum of argument slots that does not fit its 16 bits gives up all that
was under way, so nothing is said about the parts around it. -/
def PatchError.message : PatchError → String
  | read e => "failed to read class: " ++ e.message
  | edit className method e =>
    "failed to edit " ++ className ++ "." ++ method.text ++ ": " ++ e.message
  | write e =>
    if e.cause = .descriptor .slotOverflow then "panicked: " ++ e.cause.message else e.message

/-- Something that happened while a class was patched. -/
inductive Event where
  /-- The class is one that there is a patch for. -/
  | targetClass (className : String) (obfuscated : Bool)
  | targetMethod (className : String) (method : MemberKey)
  | methodMissing (className : String) (method : MemberKey)
  | edited (className : String) (method : MemberKey) (before after : Instruction)
  /-- There is nothing to edit in the method. -/
  | patternMissing (className : String) (method : MemberKey)
  | mismatch (className : String) (method : MemberKey) (reason : Mismatch)
  /-- The class is left as it is. -/
  | failed (className : String) (error : PatchError)

def Verdict.event (className : String) (method : MemberKey) : Verdict → Event
  | edited before after => .edited className method before after
  | skipped reason => .mismatch className method reason

inductive Severity where
  | info | debug | warn
  deriving DecidableEq

namespace Severity

def name : Severity → String
  | info => "INFO"
  | debug => "DEBUG"
  | warn => "WARN"

end Severity

namespace Event

def text : Event → String
  | targetClass className true => "found obfuscated target class " ++ className
  | targetClass className false => "found target class " ++ className
  | targetMethod className method => "found method " ++ method.text ++ " in " ++ className
  | methodMissing className method => "no method " ++ method.text ++ " in " ++ className
  | edited className method before after =>
    className ++ "." ++ method.text ++ ": replaced " ++ before.describe ++ " with " ++
      after.describe
  | patternMissing className method => className ++ "." ++ method.text ++ ": nothing to rewrite"
  | mismatch className method reason =>
    className ++ "." ++ method.text ++ ": skipped a match: " ++ reason.message
  | failed className error =>
    "failed to transform " ++ className ++ ", leaving it unchanged: " ++ error.message

/-- The name under which reports stand in a log. -/
def logTarget : String := "overclock::observer"

/-- How much a report matters. What was found and edited is worth more than what was not. -/
def severity : Event → Severity
  | targetClass .. | targetMethod .. | edited .. => .info
  | methodMissing .. | patternMissing .. | mismatch .. => .debug
  | failed .. => .warn

end Event

end ClassPatch
