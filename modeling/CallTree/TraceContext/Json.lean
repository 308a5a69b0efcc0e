import CallTree.Json
import CallTree.Text.Digits
import CallTree.TraceContext

/-!
Trace contexts as JSON: ids are arrays of bytes, most significant first.
-/
namespace CallTree.TraceContext

def bytes (width n : Nat) : Json := .array ((Digits.fixed 256 width n).map Json.nat)

def bytes? (room width : Nat) (j : Json) : Option Nat := do
  let items ← j.array? room fun _ item => item.nat? 256
  if items.length = width then some (Digits.ofDigits 256 items) else none

def toJson (c : TraceContext) : Json :=
  let parent := match c.parentSpan with
    | none => []
    | some span => [("parent_span_id", bytes 8 span.toNat)]
  .object ([("trace_id", bytes 16 c.traceId.toNat), ("span_id", bytes 8 c.spanId.toNat)] ++
    parent ++ [("trace_flags", .nat c.flags.toNat)])

def ofJson? (room : Nat) (j : Json) : Option TraceContext :=
  match room, j.record? ["trace_id", "span_id", "parent_span_id", "trace_flags"] with
  | room + 1, some [traceId, spanId, parentSpan, flags] => do
    let traceId ← Json.required (bytes? room 16) traceId
    let spanId ← Json.required (bytes? room 8) spanId
    let parentSpan ← Json.optional (bytes? room 8) parentSpan
    let flags ← Json.required (·.nat? 256) flags
    return {
      traceId := BitVec.ofNat 128 traceId
      spanId := BitVec.ofNat 64 spanId
      parentSpan := parentSpan.map (BitVec.ofNat 64)
      flags := BitVec.ofNat 8 flags }
  | _, _ => none

end CallTree.TraceContext
