import CallTree.TraceContext
import CallTree.Text.Blank
import CallTree.Text.Digits
import CallTree.Text.Split

/-!
The `traceparent` header: version, trace id, span id and flags in lower-case hexadecimal, with
hyphens between them. The version is zero, and neither id is.
-/
namespace CallTree.TraceContext

inductive HeaderError where
  | format
  | version
  | traceId
  | spanId
  | flags
  | zeroTraceId
  | zeroSpanId
deriving DecidableEq

def HeaderError.message : HeaderError → String
  | .format => "Invalid traceparent format (expected: version-trace_id-span_id-flags)"
  | .version => "Invalid version (must be 00)"
  | .traceId => "Invalid trace_id (must be 32 hex characters)"
  | .spanId => "Invalid span_id (must be 16 hex characters)"
  | .flags => "Invalid trace_flags (must be 2 hex characters)"
  | .zeroTraceId => "Trace ID cannot be all zeros"
  | .zeroSpanId => "Span ID cannot be all zeros"

def traceIdHex (c : TraceContext) : List Char := Digits.hex 32 c.traceId.toNat

def spanHex (span : BitVec 64) : List Char := Digits.hex 16 span.toNat

/-- The header of a context. The parent span is not part of it. -/
def toHeader (c : TraceContext) : List Char :=
  Text.join ['-']
    [Digits.hex 2 0, c.traceIdHex, spanHex c.spanId, Digits.hex 2 c.flags.toNat]

def isLowerHex (c : Char) : Bool := ('0' ≤ c && c ≤ '9') || ('a' ≤ c && c ≤ 'f')

def field? (width : Nat) (cs : List Char) : Option Nat :=
  if cs.length = width ∧ cs.all isLowerHex then Digits.read? 16 cs else none

def ofHeader (text : List Char) : Except HeaderError TraceContext :=
  match Text.splitOn '-' (Text.trim text) with
  | [version, traceId, spanId, flags] => do
    let some 0 := field? 2 version | throw .version
    let some trace := field? 32 traceId | throw .traceId
    if trace = 0 then throw .zeroTraceId
    let some span := field? 16 spanId | throw .spanId
    if span = 0 then throw .zeroSpanId
    let some bits := field? 2 flags | throw .flags
    return {
      traceId := BitVec.ofNat 128 trace
      spanId := BitVec.ofNat 64 span
      flags := BitVec.ofNat 8 bits }
  | _ => throw .format

end CallTree.TraceContext
