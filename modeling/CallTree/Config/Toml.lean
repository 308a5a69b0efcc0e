import CallTree.Config
import CallTree.Toml.Parser

/-!
Configurations as TOML text: one line for each setting. Settings that are not written have their
own values; other keys and tables do not matter.
-/
namespace CallTree.Config

/-- The largest integer of the format. -/
def tomlLimit : Nat := Nat.pow 2 63 - 1

def line (key value : String) : String := key ++ " = " ++ value ++ "\n"

def toToml (c : Config) : Except ConfigError String :=
  if [c.maxTraceRecords, c.minMethodTime, c.minTraceTime, c.minTraceCalls, c.poolCapacity].all
      (· ≤ tomlLimit) then
    .ok (line "max_trace_records" (Nat.repr c.maxTraceRecords) ++
      line "min_method_time" (Nat.repr c.minMethodTime) ++
      line "min_trace_time" (Nat.repr c.minTraceTime) ++
      line "min_trace_calls" (Nat.repr c.minTraceCalls) ++
      line "drop_interim" (if c.dropInterim then "true" else "false") ++
      line "pool_capacity" (Nat.repr c.poolCapacity))
  else .error .tooLarge

def number (es : Toml.Entries) (key : String) (default : Nat) : Except ConfigError Nat :=
  match es.lookup key with
  | none => .ok default
  | some (.scalar (.integer n)) => if 0 ≤ n then .ok n.toNat else .error .malformed
  | some _ => .error .malformed

def switch (es : Toml.Entries) (key : String) (default : Bool) : Except ConfigError Bool :=
  match es.lookup key with
  | none => .ok default
  | some (.scalar (.boolean b)) => .ok b
  | some _ => .error .malformed

def ofEntries (es : Toml.Entries) : Except ConfigError Config := do
  let default : Config := {}
  let maxTraceRecords ← number es "max_trace_records" default.maxTraceRecords
  let minMethodTime ← number es "min_method_time" default.minMethodTime
  let minTraceTime ← number es "min_trace_time" default.minTraceTime
  let minTraceCalls ← number es "min_trace_calls" default.minTraceCalls
  let dropInterim ← switch es "drop_interim" default.dropInterim
  let poolCapacity ← number es "pool_capacity" default.poolCapacity
  return { maxTraceRecords, minMethodTime, minTraceTime, minTraceCalls, dropInterim, poolCapacity }

def ofToml (text : String) : Except ConfigError Config :=
  match Toml.parse? text.toList with
  | none => .error .malformed
  | some es => do
    let c ← ofEntries es
    c.validate
    return c

def ofFile (content : Except FileError ByteArray) : Except ConfigError Config :=
  match content with
  | .error why => .error (.unreadable why)
  | .ok bytes =>
    match String.fromUTF8? bytes with
    | none => .error (.unreadable .notText)
    | some text => ofToml text

end CallTree.Config
