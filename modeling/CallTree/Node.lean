import CallTree.Binary64
import CallTree.ErrorChain
import CallTree.Keyed
import CallTree.Marker

/-!
Call trees. A node holds what was recorded of one call and the nodes kept below it. The same type
serves for calls that are still open.
-/
namespace CallTree

inductive AttrValue where
  | bool (b : Bool)
  | int (n : Int)
  | float (x : Binary64)
  | text (s : String)
deriving DecidableEq

abbrev Attributes := List (SymbolId × AttrValue)

structure Frame where
  classId : SymbolId := 0
  methodId : SymbolId := 0
  signatureId : SymbolId := 0
  startTime : Option Nat := none
  duration : Nat := 0
  /-- Calls of this frame and of all that was merged into it. -/
  calls : Nat := 0
  errors : Nat := 0
  flags : NodeFlags := ∅
  error : Option ErrorChain := none
  attributes : Attributes := []
  marker : Option Marker := none
deriving DecidableEq

namespace Frame

def isBusy (f : Frame) : Bool := f.startTime.isSome

def isTraceRoot (f : Frame) : Bool := f.marker.isSome

def traceId (f : Frame) : SymbolId := (f.marker.map (·.traceId)).getD 0

def clock (f : Frame) : Nat := (f.marker.map (·.clock)).getD 0

def mark (f : Frame) (flags : NodeFlags) : Frame := { f with flags := f.flags ∪ flags }

def setAttr (f : Frame) (id : SymbolId) (value : AttrValue) : Frame :=
  { f with attributes := Keyed.put id value f.attributes }

def attr? (f : Frame) (id : SymbolId) : Option AttrValue := f.attributes.lookup id

def countsFrom (f outer : Frame) : Frame := { f with calls := outer.calls, errors := outer.errors }

end Frame

/-- A call and the calls kept below it, in the order in which they closed. -/
structure Node where
  /-- Tells apart trees of equal content, once they are shared. -/
  handle : Option Nat := none
  frame : Frame := {}
  children : List Node := []

namespace Node

def isBusy (n : Node) : Bool := n.frame.isBusy

def isTraceRoot (n : Node) : Bool := n.frame.isTraceRoot

def lastChild? (n : Node) : Option Node := n.children.getLast?

def addChild (n child : Node) : Node := { n with children := n.children ++ [child] }

def mapFrame (g : Frame → Frame) (n : Node) : Node := { n with frame := g n.frame }

mutual

def size : Node → Nat
  | ⟨_, _, children⟩ => 1 + sizes children

def sizes : List Node → Nat
  | [] => 0
  | n :: ns => n.size + sizes ns

end

mutual

/-- The error that the call ended with. A call that only passed it on refers to its last child. -/
def findError : Node → Option ErrorChain
  | ⟨_, frame, children⟩ =>
    match frame.error with
    | some e => some e
    | none => if frame.flags.has .passesError then lastError children else none

def lastError : List Node → Option ErrorChain
  | [] => none
  | [n] => n.findError
  | _ :: m :: ns => lastError (m :: ns)

end

/-- Whether the node says nothing that its only child does not say. -/
def isInterim (n : Node) : Bool :=
  n.frame.error.isNone && n.frame.attributes.isEmpty && !n.frame.flags.has .opensTrace &&
    n.children.length == 1

mutual

/-- All nodes, parents first, each with its place: the child indices from `path` on. -/
def preorder (path : List Nat) : Node → List (List Nat × Node)
  | ⟨handle, frame, children⟩ => (path, ⟨handle, frame, children⟩) :: preorders path 0 children

def preorders (path : List Nat) (i : Nat) : List Node → List (List Nat × Node)
  | [] => []
  | n :: ns => n.preorder (path ++ [i]) ++ preorders path (i + 1) ns

end

end Node

end CallTree
