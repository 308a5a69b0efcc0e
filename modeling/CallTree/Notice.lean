import CallTree.Symbol

/-!
What the library has to say about its own work. A notice is a fact; its row is the text of it.
-/
namespace CallTree

inductive Level where
  | error
  | warn
  | info
  | debug
  | trace
deriving DecidableEq

namespace Level

def rank : Level → Nat
  | .error => 1
  | .warn => 2
  | .info => 3
  | .debug => 4
  | .trace => 5

def name : Level → String
  | .error => "ERROR"
  | .warn => "WARN"
  | .info => "INFO"
  | .debug => "DEBUG"
  | .trace => "TRACE"

end Level

inductive AttrTarget where
  | current
  | anyTrace
  | trace (id : SymbolId)
deriving DecidableEq

def AttrTarget.describe : AttrTarget → String
  | .current => "CurrentFrame"
  | .anyTrace => "AnyTrace"
  | .trace id => "Trace(" ++ Nat.repr id ++ ")"

inductive Rejection where
  | markerAlreadySet (existing requested : SymbolId)
  | noOpenFrame
  | noMatchingFrame
deriving DecidableEq

def Rejection.message : Rejection → String
  | .markerAlreadySet existing requested =>
    "trace marker already set on current frame (existing trace " ++ Nat.repr existing ++
      ", requested " ++ Nat.repr requested ++ ")"
  | .noOpenFrame => "return/error event without an open frame"
  | .noMatchingFrame => "no open frame matches the requested target"

inductive Notice where
  | entered (classId methodId : SymbolId) (depth time : Nat)
  | exited (classId methodId : SymbolId) (duration errors : Nat)
  | traceDropped (traceId : SymbolId) (duration calls : Nat)
  | beginIgnored (traceId classId methodId : SymbolId) (why : Rejection)
  | returnIgnored (time : Nat) (why : Rejection)
  | errorIgnored (time : Nat) (why : Rejection)
  | attributeDropped (id : SymbolId) (target : AttrTarget) (why : Rejection)
  | sinkRegistered (sinks : Nat)
  | acceptPanicked
  | shutdownPanicked
  | engineShutDown (released : Nat)
  | queueFull (capacity : Nat)
  | consumerPanicked
deriving DecidableEq

inductive FieldValue where
  | num (n : Nat)
  | text (s : String)
deriving DecidableEq

structure LogRow where
  level : Level
  target : String
  message : String
  fields : List (String × FieldValue)
deriving DecidableEq

namespace Notice

private def assemblerTarget : String := "calltrace::assembler"
private def engineTarget : String := "calltrace::engine"
private def queueTarget : String := "calltrace::queued_sink"

def row : Notice → LogRow
  | entered classId methodId depth time =>
    ⟨.trace, assemblerTarget, "enter",
      [("class_id", .num classId), ("method_id", .num methodId), ("depth", .num depth),
        ("tstamp", .num time)]⟩
  | exited classId methodId duration errors =>
    ⟨.trace, assemblerTarget, "exit",
      [("class_id", .num classId), ("method_id", .num methodId), ("duration", .num duration),
        ("errors", .num errors)]⟩
  | traceDropped traceId duration calls =>
    ⟨.trace, assemblerTarget, "trace dropped",
      [("trace_id", .num traceId), ("duration", .num duration), ("calls", .num calls)]⟩
  | beginIgnored traceId classId methodId why =>
    ⟨.warn, assemblerTarget, "trace begin ignored",
      [("trace_id", .num traceId), ("class_id", .num classId), ("method_id", .num methodId),
        ("error", .text why.message)]⟩
  | returnIgnored time why =>
    ⟨.warn, assemblerTarget, "return ignored",
      [("tstamp", .num time), ("error", .text why.message)]⟩
  | errorIgnored time why =>
    ⟨.warn, assemblerTarget, "error ignored",
      [("tstamp", .num time), ("error", .text why.message)]⟩
  | attributeDropped id target why =>
    ⟨.warn, assemblerTarget, "attribute dropped",
      [("attr_id", .num id), ("target", .text target.describe), ("error", .text why.message)]⟩
  | sinkRegistered sinks =>
    ⟨.debug, engineTarget, "trace sink registered", [("sinks", .num sinks)]⟩
  | acceptPanicked =>
    ⟨.error, engineTarget,
      "trace sink panicked while accepting a trace; continuing with remaining sinks", []⟩
  | shutdownPanicked => ⟨.error, engineTarget, "trace sink panicked during shutdown", []⟩
  | engineShutDown released =>
    ⟨.debug, engineTarget, "trace engine shut down", [("released", .num released)]⟩
  | queueFull capacity =>
    ⟨.debug, queueTarget, "sink queue full, trace dropped", [("capacity", .num capacity)]⟩
  | consumerPanicked => ⟨.warn, queueTarget, "sink consumer thread panicked", []⟩

def level (n : Notice) : Level := n.row.level

/-- Whether the notice tells of a single call. -/
def isCall : Notice → Bool
  | entered .. => true
  | exited .. => true
  | _ => false

end Notice

def LogRow.line (r : LogRow) : String :=
  r.fields.foldl (fun s (name, value) =>
    s ++ " " ++ name ++ "=" ++
      match value with
      | .num n => Nat.repr n
      | .text t => t) r.message

end CallTree
