import CallTree.Session

/-!
The commands of a session and their answers.
-/
namespace CallTree

inductive SinkRequest where
  | collect
  | respond (response : Response)
  | failShutdown
  | useLocal (tracer : String)
  | enqueue (capacity : Nat)

inductive Command where
  | event (e : Event)
  | fail (error : String) (time : Nat)
  | correlate (header : String)
  | isInTrace (id : SymbolId)
  | inAnyTrace
  | isEnabled
  | top
  | pool
  | describe
  | defineError (name : String) (classId : SymbolId) (message : String) (cause : Option String)
      (stack : List StackLine)
  | tracer (name : String) (config : Json) (recorder : Bool)
  | cloneTracer (name copy : String)
  | dropTracer (name : String)
  | describeTracer (name : String)
  | assembler (name tracer : String)
  | use (name : String)
  | dropAssembler (name : String)
  | sink (name : String) (request : SinkRequest)
  | addSink (tracer sink : String)
  | removeSink (tracer sink : String)
  | sinks (tracer : String)
  | shutdown (tracer : String)
  | dropSink (name : String)
  | isSinkAlive (name : String)
  | submit (tracer text : String)
  | offer (sink text : String)
  | closeSink (sink : String)
  | take (sink : String)
  | snapshot (sink : String)
  | sinkState (sink : String)
  | config (tracer : String)
  | adjust (tracer : String) (change : Adjustment)
  | useLocal (tracer : String) (commands : List Command)
  | releaseLocal (tracer : String)
  | thread (commands : List Command)

inductive Failure where
  | unreadable
  | header (e : TraceContext.HeaderError)
deriving DecidableEq

structure View where
  depth : Nat
  nodeCount : Nat
  top : Node
  pool : Pool
  counters : Option Counters

structure Row (α : Type) where
  answer : α
  view : Option View
  notices : List Notice
  reports : List Report

inductive Answer where
  | none
  | refused
  | bool (b : Bool)
  | text (s : String)
  | names (names : List String)
  | node (n : Node)
  | pool (p : Pool)
  | trees (reports : List TreeReport)
  | collected (count : Nat) (closed : Bool)
  | queue (q : Queue)
  | config (c : Config)
  | failed (why : Failure)
  | rows (rows : List (Row Answer))

namespace Session

/-- The session at its start: one engine with a handle and an assembler, and a recorder unless it
is not wanted. -/
def start (config : Config) (recorder : Bool) : Session :=
  let engine := Engine.ofConfig config
  { engines := [if recorder then (engine.addSink 0).1 else engine]
    sinks := if recorder then [Sink.recorder] else []
    tracers := [("t", ⟨0, 0⟩)]
    nextTracer := 1
    assemblers := [("a", ⟨"t", 0, .new config.poolCapacity⟩)]
    current := "a" }

def view? (s : Session) : Option View :=
  s.member?.map fun m =>
    { depth := m.assembler.depth
      nodeCount := m.assembler.nodeCount
      top := m.assembler.top
      pool := m.assembler.pool
      counters := (s.tracers.lookup m.tracer).bind fun t =>
        (s.engine? t.engine).map (·.counters) }

def sinkId? (s : Session) (name : String) : Option SinkId := (s.sinkNames.lookup name).map (·.1)

def sinkName (s : Session) (id : SinkId) : String :=
  ((s.sinkNames.find? fun (_, i, held) => i == id && held).map (·.1)).getD "-"

def addHandle (s : Session) (name : String) (e : EngineId) : Session :=
  { s with
    tracers := Keyed.put name ⟨e, s.nextTracer⟩ s.tracers
    nextTracer := s.nextTracer + 1 }

def addTracer (s : Session) (name : String) (config : Config) (recorder : Bool) : Session :=
  let e := s.engines.length
  let s := { s with engines := s.engines ++ [Engine.ofConfig config] }.addHandle name e
  if recorder then
    let (engine, notices) := (Engine.ofConfig config).addSink s.sinks.length
    ({ s with sinks := s.sinks ++ [Sink.recorder] }.setEngine e engine).tell notices
  else s

def addNamedSink (s : Session) (name : String) (behaviour : SinkBehaviour) : Session :=
  { s with
    sinks := s.sinks ++ [⟨name, behaviour⟩]
    sinkNames := Keyed.put name (s.sinks.length, true) s.sinkNames }

def behaviour? (s : Session) : SinkRequest → Option SinkBehaviour
  | .collect => some (.collect [] false)
  | .respond response => some (.respond response)
  | .failShutdown => some .failShutdown
  | .useLocal tracer => (s.tracers.lookup tracer).map (.useLocal ·.number)
  | .enqueue capacity => some (.enqueue (.ofCapacity capacity))

def withEngine (s : Session) (tracer : String)
    (act : EngineId → Engine → Session × Answer) : Session × Answer :=
  match s.tracers.lookup tracer with
  | none => (s, .none)
  | some t =>
    match s.engine? t.engine with
    | none => (s, .none)
    | some engine => act t.engine engine

def withSink (s : Session) (name : String)
    (act : SinkId → SinkBehaviour → Session × Answer) : Session × Answer :=
  match s.sinkId? name with
  | none => (s, .none)
  | some id =>
    match s.sinks[id]? with
    | none => (s, .none)
    | some sink => act id sink.behaviour

def ask (s : Session) (question : Assembler → Answer) : Session × Answer :=
  (s, ((s.member?.map (·.assembler)).map question).getD .none)

def withTree (s : Session) (text : String) (act : Node → Session × Answer) : Session × Answer :=
  match Node.ofText? text with
  | none => (s, .failed .unreadable)
  | some tree => act tree

/-- A thread of its own has no assemblers at first, and leaves none behind. -/
def beginThread (s : Session) : Session :=
  { s with table := {}, waiting := s.table :: s.waiting }

def endThread (outer inner : Session) : Session :=
  { inner with
    table := outer.table, waiting := outer.waiting, localTracer := outer.localTracer }

mutual

def execute (s : Session) : Command → Session × Answer
  | .event e => (s.event e, .none)
  | .fail error time =>
    match s.errors.lookup error with
    | none => (s, .none)
    | some e => (s.event (.fail e time), .none)
  | .correlate header =>
    match TraceContext.ofHeader header.toList with
    | .error e => (s, .failed (.header e))
    | .ok context =>
      (s.event (.correlate context), .bool (s.member?.any (·.assembler.inAnyTrace)))
  | .isInTrace id => s.ask fun a => .bool (a.isInTrace id)
  | .inAnyTrace => s.ask fun a => .bool a.inAnyTrace
  | .isEnabled => s.ask fun a => .bool a.enabled
  | .top => s.ask fun a => .node a.top
  | .pool => s.ask fun a => .pool a.pool
  | .describe => s.ask fun a => .text a.describe
  | .defineError name classId message cause stack =>
    let error : ErrorRecord := { handle := s.nextError, classId, message, stack }
    let chain := ErrorChain.ofCause error (cause.bind (s.errors.lookup ·))
    ({ s with nextError := s.nextError + 1, errors := Keyed.put name chain s.errors }, .none)
  | .tracer name config recorder =>
    match Config.ofJson? config with
    | none => (s, .failed .unreadable)
    | some config => (s.addTracer name config recorder, .none)
  | .cloneTracer name copy =>
    s.withEngine name fun e _ => (s.addHandle copy e, .none)
  | .dropTracer name =>
    ({ s with tracers := Keyed.erase name s.tracers }, .bool (s.tracers.lookup name).isSome)
  | .describeTracer name => s.withEngine name fun _ engine => (s, .text engine.describe)
  | .assembler name tracer =>
    s.withEngine tracer fun e _ =>
      ({ s with
        assemblers := Keyed.put name ⟨tracer, e, s.freshAssembler e⟩ s.assemblers
        current := name }, .none)
  | .use name => ({ s with current := name }, .none)
  | .dropAssembler name =>
    ({ s with assemblers := Keyed.erase name s.assemblers },
      .bool (s.assemblers.lookup name).isSome)
  | .sink name request =>
    match s.behaviour? request with
    | none => (s, .none)
    | some behaviour => (s.addNamedSink name behaviour, .none)
  | .addSink tracer sink =>
    s.withEngine tracer fun e engine => s.withSink sink fun id _ =>
      let (engine, notices) := engine.addSink id
      ((s.setEngine e engine).tell notices, .none)
  | .removeSink tracer sink =>
    s.withEngine tracer fun e engine => s.withSink sink fun id _ =>
      let (engine, removed) := engine.removeSink id
      (s.setEngine e engine, .bool removed)
  | .sinks tracer =>
    s.withEngine tracer fun _ engine => (s, .names (engine.sinks.map s.sinkName))
  | .shutdown tracer =>
    s.withEngine tracer fun e engine =>
      let (engine, notices, s) := engine.shutdown closeSink s
      ((s.setEngine e engine).tell notices, .none)
  | .dropSink name =>
    match s.sinkNames.lookup name with
    | none => (s, .bool false)
    | some (id, held) =>
      ({ s with sinkNames := Keyed.put name (id, false) s.sinkNames }, .bool held)
  | .isSinkAlive name =>
    (s, .bool ((s.sinkId? name).any s.isSinkAlive))
  | .submit tracer text =>
    s.withEngine tracer fun e _ => s.withTree text fun tree =>
      let (s, accepted) := s.submit e tree
      (s, .bool accepted)
  | .offer sink text =>
    s.withSink sink fun id _ => s.withTree text fun tree =>
      let tree := { tree with handle := some s.nextTree }
      let (reply, s) := accept tree id { s with nextTree := s.nextTree + 1 }
      (s.tell reply.notices, .bool (reply.response = .accepted))
  | .closeSink sink =>
    s.withSink sink fun id _ =>
      let (reply, s) := closeSink id s
      (s.tell reply.notices, .none)
  | .take sink =>
    s.withSink sink fun id behaviour =>
      match behaviour with
      | .collect trees closed =>
        (s.setSink id (.collect [] closed), .trees (trees.map s.reportOf))
      | _ => (s, .none)
  | .snapshot sink =>
    s.withSink sink fun _ behaviour =>
      match behaviour with
      | .collect trees _ => (s, .trees (trees.map s.reportOf))
      | _ => (s, .none)
  | .sinkState sink =>
    s.withSink sink fun _ behaviour =>
      match behaviour with
      | .collect trees closed => (s, .collected trees.length closed)
      | .enqueue queue => (s, .queue queue)
      | _ => (s, .none)
  | .config tracer => s.withEngine tracer fun _ engine => (s, .config engine.config)
  | .adjust tracer change =>
    s.withEngine tracer fun e engine => (s.setEngine e (engine.adjust change), .none)
  | .useLocal tracer commands =>
    match s.tracers.lookup tracer with
    | none => (s, .none)
    | some t =>
      match s.enterLocal t.engine with
      | none => (s, .refused)
      | some inner =>
        let (inner, rows) := runAll { inner with localTracer := tracer } commands
        (inner.leaveLocal, .rows rows)
  | .releaseLocal tracer =>
    match s.tracers.lookup tracer with
    | none => (s, .none)
    | some t =>
      let (table, released) := s.table.release t.engine
      ({ s with table }, .bool released)
  | .thread commands =>
    let (inner, rows) := runAll s.beginThread commands
    (s.endThread inner, .rows rows)

def runAll (s : Session) : List Command → Session × List (Row Answer)
  | [] => (s, [])
  | c :: cs =>
    let (s, answer) := execute s c
    let row : Row Answer := ⟨answer, s.view?, s.notices, s.reports⟩
    let (s, rows) := runAll { s with notices := [], reports := [] } cs
    (s, row :: rows)

end

end Session

end CallTree
