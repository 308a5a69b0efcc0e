import CallTree.Config
import CallTree.Notice

/-!
An engine hands every finished tree to its sinks, in the order of their registration, and keeps
count of what became of it. A sink that panics does not keep the tree from the others.
-/
namespace CallTree

abbrev SinkId := Nat

inductive Response where
  | accepted
  | refused
  | panicked
deriving DecidableEq

structure Reply where
  response : Response
  notices : List Notice := []
deriving DecidableEq

structure Counters where
  submitted : Nat := 0
  dropped : Nat := 0
  /-- Trees that no sink accepted. -/
  undelivered : Nat := 0
  sinkPanics : Nat := 0
deriving DecidableEq

structure Engine where
  thresholds : Thresholds
  poolCapacity : Nat
  /-- The registrations, in order. A sink may be there more than once. -/
  sinks : List SinkId := []
  counters : Counters := {}
deriving DecidableEq

def askAll {σ : Type} (ask : SinkId → σ → Reply × σ) : List SinkId → σ → List Reply × σ
  | [], s => ([], s)
  | id :: ids, s =>
    let (reply, s) := ask id s
    let (replies, s) := askAll ask ids s
    (reply :: replies, s)

def Reply.noticesOf (panic : Notice) (replies : List Reply) : List Notice :=
  replies.flatMap fun r => r.notices ++ if r.response = .panicked then [panic] else []

def Reply.panics (replies : List Reply) : Nat := replies.countP (·.response = .panicked)

namespace Engine

def ofConfig (c : Config) : Engine :=
  { thresholds := .ofConfig c, poolCapacity := c.poolCapacity }

def config (e : Engine) : Config := e.thresholds.toConfig e.poolCapacity

def adjust (e : Engine) (change : Adjustment) : Engine :=
  { e with thresholds := e.thresholds.adjust change }

def addSink (e : Engine) (id : SinkId) : Engine × List Notice :=
  let sinks := e.sinks ++ [id]
  ({ e with sinks }, [.sinkRegistered sinks.length])

/-- Ends all registrations of a sink, and tells whether there was one. -/
def removeSink (e : Engine) (id : SinkId) : Engine × Bool :=
  let sinks := e.sinks.filter (· != id)
  ({ e with sinks }, sinks.length != e.sinks.length)

structure Submission (σ : Type) where
  engine : Engine
  accepted : Bool
  notices : List Notice
  state : σ

def submit {σ : Type} (accept : SinkId → σ → Reply × σ) (e : Engine) (s : σ) : Submission σ :=
  let (replies, s) := askAll accept e.sinks s
  let accepted := replies.any (·.response = .accepted)
  let counters := { e.counters with
    submitted := e.counters.submitted + 1
    undelivered := e.counters.undelivered + if accepted then 0 else 1
    sinkPanics := e.counters.sinkPanics + Reply.panics replies }
  { engine := { e with counters }
    accepted
    notices := Reply.noticesOf .acceptPanicked replies
    state := s }

def recordDropped (e : Engine) : Engine :=
  { e with counters := { e.counters with dropped := e.counters.dropped + 1 } }

def shutdown {σ : Type} (close : SinkId → σ → Reply × σ) (e : Engine) (s : σ) :
    Engine × List Notice × σ :=
  let (replies, s) := askAll close e.sinks s
  let counters := { e.counters with
    sinkPanics := e.counters.sinkPanics + Reply.panics replies }
  ({ e with sinks := [], counters },
    Reply.noticesOf .shutdownPanicked replies ++ [.engineShutDown e.sinks.length], s)

def describe (e : Engine) : String :=
  let c := e.counters
  "Tracer \x7b id: _, sinks: " ++ Nat.repr e.sinks.length ++
    ", stats: EngineStats \x7b traces_submitted: " ++ Nat.repr c.submitted ++
    ", traces_dropped: " ++ Nat.repr c.dropped ++ ", traces_undelivered: " ++
    Nat.repr c.undelivered ++ ", sink_panics: " ++ Nat.repr c.sinkPanics ++ " \x7d \x7d"

end Engine

end CallTree
