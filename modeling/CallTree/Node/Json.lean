import CallTree.ErrorChain.Json
import CallTree.Json.Parser
import CallTree.Marker.Json
import CallTree.Node

/-!
Trees as JSON. What a node does not have is left out, but for the time of entry.
-/
namespace CallTree

namespace AttrValue

/-- A float that is no number has no JSON form of its own. -/
def toJson : AttrValue → Json
  | bool b => .bool b
  | int n => .int n
  | float x => if x.isFinite then .float x else .null
  | text s => .text s

/-- An integer beyond 64 bits with sign is read as a float. -/
def ofJson? : Json → Option AttrValue
  | .bool b => some (bool b)
  | .int n =>
    if -(Nat.pow 2 63) ≤ n ∧ n < Nat.pow 2 63 then some (int n)
    else if 0 ≤ n then some (float (.ofNat n.toNat))
    else none
  | .float x => some (float x)
  | .text s => some (text s)
  | _ => none

end AttrValue

namespace Attributes

def toJson (as : Attributes) : Json :=
  .array (as.map fun (id, value) => .array [.nat id, value.toJson])

def entry? (room : Nat) : Json → Option (SymbolId × AttrValue)
  | .array [id, value] =>
    match room with
    | 0 => none
    | _ + 1 => do
      let id ← id.word32?
      let value ← AttrValue.ofJson? value
      return (id, value)
  | _ => none

end Attributes

namespace Frame

def fieldsBefore (f : Frame) : List (String × Json) :=
  let error := match f.error with
    | none => []
    | some e => [("exception", e.toJson)]
  let attributes :=
    if f.attributes.isEmpty then [] else [("attributes", Attributes.toJson f.attributes)]
  [("class_id", .nat f.classId), ("method_id", .nat f.methodId),
    ("signature_id", .nat f.signatureId),
    ("start_time", (f.startTime.map Json.nat).getD .null), ("duration", .nat f.duration),
    ("calls", .nat f.calls), ("errors", .nat f.errors), ("flags", .text f.flags.toText)] ++
    error ++ attributes

def fieldsAfter (f : Frame) : List (String × Json) :=
  match f.marker with
  | none => []
  | some m => [("marker", m.toJson)]

end Frame

namespace Node

mutual

def toJson : Node → Json
  | ⟨_, frame, children⟩ =>
    let kept := if children.isEmpty then [] else [("children", Json.array (toJsons children))]
    .object (frame.fieldsBefore ++ kept ++ frame.fieldsAfter)

def toJsons : List Node → List Json
  | [] => []
  | n :: ns => n.toJson :: toJsons ns

end

def keys : List String :=
  ["class_id", "method_id", "signature_id", "start_time", "duration", "calls", "errors", "flags",
    "exception", "attributes", "children", "marker"]

def ofFields? (room : Nat) (children? : Json → Option (List Node)) :
    List (Option Json) → Option Node
  | [classId, methodId, signatureId, startTime, duration, calls, errors, flags, error, attributes,
      children, marker] => do
    let classId ← Json.required Json.word32? classId
    let methodId ← Json.required Json.word32? methodId
    let signatureId ← Json.required Json.word32? signatureId
    let startTime ← Json.optional Json.word64? startTime
    let duration ← Json.required Json.word64? duration
    let calls ← Json.required Json.word64? calls
    let errors ← Json.required Json.word64? errors
    let flags ← Json.required Marker.flags? flags
    let error ← Json.optional (ErrorChain.ofJson? room) error
    let attributes ← Json.orElse [] (·.array? room Attributes.entry?) attributes
    let children ← Json.orElse [] children? children
    let marker ← Json.optional (Marker.ofJson? room) marker
    let frame : Frame :=
      { classId, methodId, signatureId, startTime, duration, calls, errors, flags, error,
        attributes, marker }
    return { frame, children }
  | _ => none

/-- Reads a tree. A child is two levels further in than its parent. -/
def ofJson? : Nat → Json → Option Node
  | 0, _ => none
  | 1, j => (j.record? keys).bind (ofFields? 0 fun _ => none)
  | room + 2, j => (j.record? keys).bind (ofFields? (room + 1) (Json.items? (ofJson? room)))

def depthLimit : Nat := 127

def ofText? (text : String) : Option Node :=
  (Json.parse? text.toList).bind (ofJson? depthLimit)

end Node

def ErrorChain.ofText? (text : String) : Option ErrorChain :=
  (Json.parse? text.toList).bind (ofJson? Node.depthLimit)

def TraceContext.ofText? (text : String) : Option TraceContext :=
  (Json.parse? text.toList).bind (ofJson? Node.depthLimit)

end CallTree
