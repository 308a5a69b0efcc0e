import CallTree.ErrorChain
import CallTree.Json

/-!
Errors as JSON: a cause stands inside the error that it caused. An error that is read has no
handle of its own.
-/
namespace CallTree

namespace StackLine

def toJson (s : StackLine) : Json :=
  .object [("class_id", .nat s.classId), ("method_id", .nat s.methodId),
    ("file_id", .nat s.fileId), ("line", .nat s.line)]

def ofJson? (room : Nat) (j : Json) : Option StackLine :=
  match room, j.record? ["class_id", "method_id", "file_id", "line"] with
  | _ + 1, some [classId, methodId, fileId, line] => do
    let classId ← Json.required Json.word32? classId
    let methodId ← Json.required Json.word32? methodId
    let fileId ← Json.required Json.word32? fileId
    let line ← Json.required Json.word32? line
    return { classId, methodId, fileId, line }
  | _, _ => none

end StackLine

def ErrorRecord.toJson (e : ErrorRecord) (cause : Option Json) : Json :=
  let stack :=
    if e.stack.isEmpty then [] else [("stack", Json.array (e.stack.map (·.toJson)))]
  let cause := match cause with
    | none => []
    | some j => [("cause", j)]
  .object ([("class_id", .nat e.classId), ("message", .text e.message)] ++ stack ++ cause)

namespace ErrorChain

def toJson (e : ErrorChain) : Json :=
  e.error.toJson (e.causes.foldr (fun cause inner => some (cause.toJson inner)) none)

def ofJson? : Nat → Json → Option ErrorChain
  | 0, _ => none
  | room + 1, j =>
    match j.record? ["class_id", "message", "stack", "cause"] with
    | some [classId, message, stack, cause] => do
      let classId ← Json.required Json.word32? classId
      let message ← Json.required Json.text? message
      let stack ← Json.orElse [] (·.array? room StackLine.ofJson?) stack
      let cause ← Json.optional (ofJson? room) cause
      return ofCause { handle := 0, classId, message, stack } cause
    | _ => none

end ErrorChain

end CallTree
