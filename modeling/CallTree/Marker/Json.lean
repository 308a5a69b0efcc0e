import CallTree.Flag.Text
import CallTree.Marker
import CallTree.TraceContext.Json

/-!
Markers as JSON.
-/
namespace CallTree.Marker

def flags? {α : Type} [Flag α] (j : Json) : Option (FlagSet α) := j.text?.bind FlagSet.ofText?

def toJson (m : Marker) : Json :=
  let context := match m.context with
    | none => []
    | some c => [("dtrace", c.toJson)]
  .object ([("trace_id", .nat m.traceId), ("clock", .nat m.clock),
    ("minimum_time", .nat m.minimumTime), ("flags", .text m.flags.toText)] ++ context)

def ofJson? (room : Nat) (j : Json) : Option Marker :=
  match room, j.record? ["trace_id", "clock", "minimum_time", "flags", "dtrace"] with
  | room + 1, some [traceId, clock, minimumTime, flags, context] => do
    let traceId ← Json.required Json.word32? traceId
    let clock ← Json.required Json.word64? clock
    let minimumTime ← Json.required Json.word64? minimumTime
    let flags ← Json.required flags? flags
    let context ← Json.optional (TraceContext.ofJson? room) context
    return { traceId, clock, minimumTime, flags, context }
  | _, _ => none

end CallTree.Marker
