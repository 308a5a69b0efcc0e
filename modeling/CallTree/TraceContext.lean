/-!
Correlation of a call tree with the spans that other services record for the same request.
-/
namespace CallTree

structure TraceContext where
  traceId : BitVec 128
  spanId : BitVec 64
  parentSpan : Option (BitVec 64) := none
  flags : BitVec 8
deriving DecidableEq

namespace TraceContext

def isSampled (c : TraceContext) : Bool := c.flags.getLsbD 0

def root (traceId : BitVec 128) (spanId : BitVec 64) : TraceContext := ⟨traceId, spanId, none, 1⟩

def child (c : TraceContext) (spanId : BitVec 64) : TraceContext :=
  { c with spanId := spanId, parentSpan := some c.spanId }

/-- The span id that follows `id`. Zero is left out, as it stands for no span. -/
def spanAfter (id : BitVec 64) : BitVec 64 := if id + 1 = 0 then 1 else id + 1

theorem spanAfter_ne_zero (id : BitVec 64) : spanAfter id ≠ 0 := by
  unfold spanAfter
  split
  · decide
  · assumption

end TraceContext

end CallTree
