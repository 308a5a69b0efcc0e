import CallTree.Flag
import CallTree.Symbol
import CallTree.TraceContext

/-!
A marker sits on the call that opened a trace. It decides, when that call closes, whether the
trace is submitted.
-/
namespace CallTree

structure Marker where
  traceId : SymbolId
  clock : Nat
  minimumTime : Nat
  flags : MarkerFlags := ∅
  context : Option TraceContext := none
deriving DecidableEq

namespace Marker

/-- The marker of a trace opened inside another one, which hands on its threshold and flags. -/
def nested (traceId : SymbolId) (clock : Nat) (outer : Marker) : Marker :=
  { traceId, clock, minimumTime := outer.minimumTime, flags := outer.flags }

def mark (m : Marker) (flags : MarkerFlags) : Marker := { m with flags := m.flags ∪ flags }

def inherit (m : Marker) (inner : MarkerFlags) : Marker := m.mark (inner ∩ MarkerFlags.inheritable)

/-- A trace is submitted on demand, or if it is long or busy enough and not to be dropped. -/
def shouldSubmit (m : Marker) (duration calls minCalls : Nat) : Bool :=
  m.flags.has .submit ||
    ((m.minimumTime ≤ duration || minCalls ≤ calls) && !m.flags.has .drop)

end Marker

end CallTree
