import CallTree.Config
import CallTree.Json

/-!
Configurations as JSON. Every setting may be missing.
-/
namespace CallTree.Config

def keys : List String :=
  ["max_trace_records", "min_method_time", "min_trace_time", "min_trace_calls", "drop_interim",
    "pool_capacity"]

def toJson (c : Config) : Json :=
  .object [("max_trace_records", .nat c.maxTraceRecords),
    ("min_method_time", .nat c.minMethodTime), ("min_trace_time", .nat c.minTraceTime),
    ("min_trace_calls", .nat c.minTraceCalls), ("drop_interim", .bool c.dropInterim),
    ("pool_capacity", .nat c.poolCapacity)]

def ofJson? (j : Json) : Option Config :=
  let default : Config := {}
  match j.record? keys with
  | some [records, methodTime, traceTime, calls, interim, pool] => do
    return {
      maxTraceRecords := ← Json.orElse default.maxTraceRecords Json.word64? records
      minMethodTime := ← Json.orElse default.minMethodTime Json.word64? methodTime
      minTraceTime := ← Json.orElse default.minTraceTime Json.word64? traceTime
      minTraceCalls := ← Json.orElse default.minTraceCalls Json.word64? calls
      dropInterim := ← Json.orElse default.dropInterim Json.bool? interim
      poolCapacity := ← Json.orElse default.poolCapacity Json.word64? pool }
  | _ => none

end CallTree.Config
