import CallTree.Assembler.Step
import CallTree.Config.Json
import CallTree.Engine
import CallTree.LocalTable
import CallTree.Node.Json
import CallTree.Sink.Queue
import CallTree.TraceContext.Header

/-!
A session: engines, their handles, assemblers and sinks under names, and the threads that use them
one after the other. It knows who holds what, and so which trees may be taken apart.
-/
namespace CallTree

inductive SinkBehaviour where
  /-- Reports the whole tree, gives it a number and refuses it. -/
  | record
  | collect (trees : List Node) (closed : Bool)
  | respond (response : Response)
  | failShutdown
  /-- Tries to use the thread's own assembler through the handle of this number, reports whether it
  could, and accepts. It does not keep the handle. -/
  | useLocal (tracer : Nat)
  | enqueue (queue : Queue)

structure Sink where
  name : String
  behaviour : SinkBehaviour

def Sink.recorder : Sink := ⟨"", .record⟩

structure TreeReport where
  number : Option Nat
  error : Option String
  /-- The places of those nodes below the root that have a number themselves. -/
  shared : List (List Nat × Nat)
  tree : Node

inductive Report where
  | tree (report : TreeReport)
  | note (sink what : String) (traceId : SymbolId)

/-- A handle of an engine. The number tells it from a later one of the same name. -/
structure Tracer where
  engine : EngineId
  number : Nat

structure Member where
  tracer : String
  engine : EngineId
  assembler : Assembler

structure Session where
  engines : List Engine := []
  sinks : List Sink := []
  tracers : List (String × Tracer) := []
  /-- The last sink of each name, and whether the name still holds it. -/
  sinkNames : List (String × SinkId × Bool) := []
  assemblers : List (String × Member) := []
  current : String := ""
  errors : List (String × ErrorChain) := []
  table : LocalTable := {}
  localTracer : String := ""
  waiting : List LocalTable := []
  nextTracer : Nat := 0
  nextTree : Nat := 0
  nextError : Nat := 1
  recorded : List Nat := []
  notices : List Notice := []
  reports : List Report := []

namespace Session

def engine? (s : Session) (e : EngineId) : Option Engine := s.engines[e]?

def setEngine (s : Session) (e : EngineId) (engine : Engine) : Session :=
  { s with engines := s.engines.set e engine }

def setSink (s : Session) (id : SinkId) (behaviour : SinkBehaviour) : Session :=
  { s with sinks := s.sinks.modify id fun sink => { sink with behaviour } }

def tell (s : Session) (notices : List Notice) : Session :=
  { s with notices := s.notices ++ notices }

def report (s : Session) (r : Report) : Session := { s with reports := s.reports ++ [r] }

/-! ### Who holds what -/

def hasTracers (s : Session) (e : EngineId) : Bool := s.tracers.any (·.2.engine == e)

/-- An engine is held by its handles and its assemblers. -/
def isEngineAlive (s : Session) (e : EngineId) : Bool :=
  s.hasTracers e || s.assemblers.any (·.2.engine == e) || s.table.has e || s.waiting.any (·.has e)

/-- A sink is held by its name and by the engines that are alive. -/
def isSinkAlive (s : Session) (id : SinkId) : Bool :=
  s.sinkNames.any (fun (_, i, held) => i == id && held) ||
    s.engines.zipIdx.any fun (engine, e) => engine.sinks.contains id && s.isEngineAlive e

def heldTrees (s : Session) : List Nat :=
  s.sinks.zipIdx.flatMap fun (sink, id) =>
    match sink.behaviour with
    | .collect trees _ => if s.isSinkAlive id then trees.filterMap (·.handle) else []
    | _ => []

/-! ### Trees and sinks -/

def numberOf? (s : Session) (n : Node) : Option Nat := n.handle.bind (s.recorded.idxOf? ·)

def errorName (s : Session) (e : ErrorChain) : String :=
  ((s.errors.find? (·.2.handle == e.handle)).map (·.1)).getD "?"

def reportOf (s : Session) (tree : Node) : TreeReport where
  number := s.numberOf? tree
  error := tree.findError.map s.errorName
  shared := (tree.preorder []).tail.filterMap fun (path, n) =>
    (s.numberOf? n).map fun k => (path, k)
  tree := tree

def freshAssembler (s : Session) (e : EngineId) : Assembler :=
  .new (((s.engine? e).map (·.poolCapacity)).getD 0)

def enterLocal (s : Session) (e : EngineId) : Option Session :=
  (s.table.enter s.hasTracers (s.freshAssembler e) e).map fun table => { s with table }

def engineOf? (s : Session) (tracer : Nat) : Option EngineId :=
  (s.tracers.find? (·.2.number == tracer)).map (·.2.engine)

def leaveLocal (s : Session) : Session := { s with table := s.table.leave }

def accept (tree : Node) (id : SinkId) (s : Session) : Reply × Session :=
  match s.sinks[id]? with
  | none => (⟨.refused, []⟩, s)
  | some sink =>
    let note (what : String) (s : Session) := s.report (.note sink.name what tree.frame.traceId)
    match sink.behaviour with
    | .record =>
      let s := { s with recorded := s.recorded ++ tree.handle.toList }
      (⟨.refused, []⟩, s.report (.tree (s.reportOf tree)))
    | .collect trees closed =>
      if closed then (⟨.refused, []⟩, s)
      else (⟨.accepted, []⟩, s.setSink id (.collect (trees ++ [tree]) closed))
    | .respond .accepted => (⟨.accepted, []⟩, note "accept" s)
    | .respond .refused => (⟨.refused, []⟩, note "refuse" s)
    | .respond .panicked => (⟨.panicked, []⟩, note "panic" s)
    | .failShutdown => (⟨.accepted, []⟩, s)
    | .useLocal tracer =>
      match (s.engineOf? tracer).bind s.enterLocal with
      | none => (⟨.accepted, []⟩, note "blocked" s)
      | some s => (⟨.accepted, []⟩, note "entered" s.leaveLocal)
    | .enqueue queue =>
      let (accepted, queue, notices) := queue.offer tree
      (⟨if accepted then .accepted else .refused, notices⟩, s.setSink id (.enqueue queue))

def closeSink (id : SinkId) (s : Session) : Reply × Session :=
  match s.sinks[id]? with
  | some ⟨_, .collect trees _⟩ => (⟨.accepted, []⟩, s.setSink id (.collect trees true))
  | some ⟨_, .failShutdown⟩ => (⟨.panicked, []⟩, s)
  | some ⟨_, .enqueue queue⟩ =>
    let (queue, notices) := queue.close
    (⟨.accepted, notices⟩, s.setSink id (.enqueue queue))
  | _ => (⟨.accepted, []⟩, s)

def submit (s : Session) (e : EngineId) (tree : Node) : Session × Bool :=
  match s.engine? e with
  | none => (s, false)
  | some engine =>
    let tree := { tree with handle := some s.nextTree }
    let r := engine.submit (accept tree) { s with nextTree := s.nextTree + 1 }
    ((r.state.setEngine e r.engine).tell r.notices, r.accepted)

/-! ### The assembler in use -/

/-- The assembler that events go to: one of the thread while it is in use, else the named one. -/
def member? (s : Session) : Option Member :=
  match s.table.inUse with
  | some e => (s.table.assembler? e).map fun a => ⟨s.localTracer, e, a⟩
  | none => s.assemblers.lookup s.current

def setAssembler (s : Session) (a : Assembler) : Session :=
  match s.table.inUse with
  | some e => { s with table := s.table.set e a }
  | none =>
    { s with assemblers := s.assemblers.map fun (name, m) =>
      (name, if name = s.current then { m with assembler := a } else m) }

def event (s : Session) (e : Event) : Session :=
  match s.member? with
  | none => s
  | some m =>
    match s.engine? m.engine with
    | none => s
    | some engine =>
      let held := s.heldTrees
      let (a, outcome) := m.assembler.step
        { thresholds := engine.thresholds, held := held.contains, handle := s.nextTree } e
      let s := (s.setAssembler a).tell outcome.notices
      match outcome.verdict with
      | .none => s
      | .dropped => s.setEngine m.engine engine.recordDropped
      | .submitted tree => (s.submit m.engine tree).1

end Session

end CallTree
