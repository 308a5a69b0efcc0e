import CallTree.Proofs.Effects

/-!
Calls as they are made, one inside another: the events they come to, and by recursion the trees
that should be submitted for them.
-/
namespace CallTree
open Assembler

structure Opening where
  traceId : SymbolId
  clock : Nat
  flags : MarkerFlags

/-- A call without the calls made inside it. -/
structure Visit where
  classId : SymbolId
  methodId : SymbolId
  signatureId : SymbolId
  start : Nat
  stop : Nat
  trace : Option Opening := none
  error : Option ErrorChain := none

structure Call where
  visit : Visit
  inner : List Call := []

namespace Visit

def duration (v : Visit) : Nat := v.stop - v.start

def marker (t : Thresholds) (outer : Option Marker) (v : Visit) : Option Marker :=
  v.trace.map fun o => newMarker t o.traceId o.clock o.flags outer

/-- The trace that the calls made inside the call are in. -/
def innerTrace (t : Thresholds) (outer : Option Marker) (v : Visit) : Option Marker :=
  (v.marker t outer).or outer

def arrive (v : Visit) : List Event :=
  .enter v.classId v.methodId v.signatureId v.start ::
    (v.trace.map fun o => .begin o.traceId o.clock o.flags).toList

def leave (v : Visit) : Event :=
  match v.error with
  | none => .exit v.stop
  | some error => .fail error v.stop

end Visit

namespace Call

mutual

def events : Call → List Event
  | ⟨visit, inner⟩ => visit.arrive ++ (eventsOf inner ++ [visit.leave])

def eventsOf : List Call → List Event
  | [] => []
  | c :: cs => c.events ++ eventsOf cs

end

mutual

def size : Call → Nat
  | ⟨_, inner⟩ => 1 + sizes inner

def sizes : List Call → Nat
  | [] => 0
  | c :: cs => c.size + sizes cs

end

mutual

def failures : Call → Nat
  | ⟨visit, inner⟩ => failuresOf inner + if visit.error.isSome then 1 else 0

def failuresOf : List Call → Nat
  | [] => 0
  | c :: cs => c.failures + failuresOf cs

end

def isRetained (t : Thresholds) (outer : Option Marker) (c : Call) : Bool :=
  t.minMethodTime < c.visit.duration || 0 < c.failures ||
    (c.visit.innerTrace t outer).any (·.flags.has .allMethods)

mutual

/-- The tree of a call inside the trace `outer`. -/
def tree (t : Thresholds) (outer : Option Marker) : Call → Node
  | ⟨visit, inner⟩ => {
    frame := {
      classId := visit.classId
      methodId := visit.methodId
      signatureId := visit.signatureId
      startTime := some visit.start
      duration := visit.duration
      calls := 1 + sizes inner
      errors := failuresOf inner + if visit.error.isSome then 1 else 0
      marker := visit.marker t outer }
    children := kept t (visit.innerTrace t outer) inner }

def kept (t : Thresholds) (outer : Option Marker) : List Call → List Node
  | [] => []
  | c :: cs =>
    (if outer.isSome && c.isRetained t outer then [c.tree t outer] else []) ++ kept t outer cs

end

mutual

/-- The trees that are submitted, in the order in which their calls close. -/
def submissions (t : Thresholds) (outer : Option Marker) : Call → List Node
  | ⟨visit, inner⟩ =>
    submissionsOf t (visit.innerTrace t outer) inner ++
      if (visit.marker t outer).any (·.shouldSubmit visit.duration (1 + sizes inner)
        t.minTraceCalls) then [tree t outer ⟨visit, inner⟩]
      else []

def submissionsOf (t : Thresholds) (outer : Option Marker) : List Call → List Node
  | [] => []
  | c :: cs => c.submissions t outer ++ submissionsOf t outer cs

end

def feed (t : Thresholds) (outer : Option Marker) (cs : List Call) (p : Node) : Node :=
  { p with
    frame := { p.frame with
      calls := p.frame.calls + sizes cs
      errors := p.frame.errors + failuresOf cs }
    children := p.children ++ kept t outer cs }

theorem feed_cons (t : Thresholds) (outer : Option Marker) (c : Call) (cs : List Call) (p : Node) :
    feed t outer (c :: cs) p = feed t outer cs (feed t outer [c] p) := by
  simp [feed, sizes, failuresOf, kept, Nat.add_assoc]

theorem feed_nil (t : Thresholds) (outer : Option Marker) (p : Node) : feed t outer [] p = p := by
  cases p
  simp [feed, sizes, failuresOf, kept]

theorem nearest_feed (t : Thresholds) (outer : Option Marker) (cs : List Call) (ns : List Node) :
    nearest? (ns.modifyHead (feed t outer cs)) = nearest? ns := by
  cases ns <;> rfl

end Call

/-! ### What is compared -/

def Frame.bare (f : Frame) : Frame :=
  { f with
    flags := ∅
    error := none
    attributes := []
    marker := f.marker.map ({ · with flags := ∅ }) }

namespace Node

mutual

/-- The tree without what tells it apart from others of equal content, errors, attributes and
flags. -/
def bare : Node → Node
  | ⟨_, frame, children⟩ => ⟨none, frame.bare, bares children⟩

def bares : List Node → List Node
  | [] => []
  | n :: ns => n.bare :: bares ns

end

theorem bares_eq (ns : List Node) : bares ns = ns.map bare := by
  induction ns with
  | nil => rfl
  | cons n ns ih => rw [bares, ih, List.map_cons]

theorem bare_eq (n : Node) : n.bare = ⟨none, n.frame.bare, n.children.map bare⟩ := by
  cases n
  rw [bare, bares_eq]

end Node

end CallTree
