import CallTree.Config
import CallTree.Notice
import CallTree.Pool

/-!
An assembler turns the calls of one thread into trees. It holds the open calls as a stack: the top
slot and the slots around it. After a call is discarded the top slot stays above its parent as a
clean placeholder, which the next entry reuses and the next return skips.
-/
namespace CallTree

structure Assembler where
  /-- The innermost slot: an open call, or one that is not entered yet. -/
  top : Node := {}
  ancestors : List Node := []
  /-- The nodes counted against the budget of the current trace. -/
  nodeCount : Nat := 0
  enabled : Bool := true
  pool : Pool

namespace Assembler

def new (poolCapacity : Nat) : Assembler :=
  let (top, pool) := (Pool.ofCapacity poolCapacity).acquire
  { top, pool }

def slots (a : Assembler) : List Node := a.top :: a.ancestors

def depth (a : Assembler) : Nat := a.ancestors.length + if a.top.isBusy then 1 else 0

def nearest? (slots : List Node) : Option Marker := slots.findSome? (·.frame.marker)

def markers (a : Assembler) : List Marker := a.slots.filterMap (·.frame.marker)

/-- Whether the top slot only keeps a place above its parent. -/
def isPlaceholder (a : Assembler) : Bool :=
  !a.top.isBusy && !a.ancestors.isEmpty && !a.top.isTraceRoot

def isInTrace (a : Assembler) (id : SymbolId) : Bool :=
  a.enabled && a.markers.any (·.traceId == id)

def inAnyTrace (a : Assembler) : Bool := a.enabled && (nearest? a.slots).isSome

def tracesCalls (a : Assembler) : Bool := (nearest? a.slots).any (·.flags.has .traceCalls)

def updateFirst (p : Node → Bool) (g : Node → Node) : List Node → Option (List Node)
  | [] => none
  | n :: ns => if p n then some (g n :: ns) else (updateFirst p g ns).map (n :: ·)

def updateMarker (p : Marker → Bool) (g : Marker → Marker) (slots : List Node) :
    Option (List Node) :=
  updateFirst (·.frame.marker.any p)
    (·.mapFrame fun f => { f with marker := f.marker.map g }) slots

def withSlots (a : Assembler) : List Node → Assembler
  | [] => a
  | top :: ancestors => { a with top, ancestors }

def updateFrame (a : Assembler) (p : Frame → Bool) (g : Frame → Frame) : Option Assembler :=
  let change := updateFirst (p ·.frame) (·.mapFrame g)
  if a.isPlaceholder then (change a.ancestors).map fun ns => { a with ancestors := ns }
  else (change a.slots).map a.withSlots

def describe (a : Assembler) : String :=
  "Assembler \x7b depth: " ++ Nat.repr a.depth ++ ", node_count: " ++ Nat.repr a.nodeCount ++
    ", enabled: " ++ (if a.enabled then "true" else "false") ++ " \x7d"

end Assembler

def AttrTarget.isMet (target : AttrTarget) (f : Frame) : Bool :=
  match target with
  | .current => true
  | .anyTrace => f.isTraceRoot
  | .trace id => f.isTraceRoot && f.traceId == id

end CallTree
