import CallTree.Node
import CallTree.Notice

/-!
A bounded queue in front of a consumer that runs on a thread of its own. Offering a tree never
waits: a full queue refuses it. Closing lets the consumer have what is queued and waits for it.
-/
namespace CallTree

inductive Worker where
  | resting
  /-- In a batch. Whether the queue is closing was read when the batch began. -/
  | draining (closing : Bool) (taken : Nat)
  | stopped
  | panicked
deriving DecidableEq

structure Queue where
  capacity : Nat
  /-- The consumer fails on its tree of this number, counted from one. -/
  failsOn : Option Nat := none
  waiting : List Node := []
  received : List Node := []
  closed : Bool := false
  pushed : Nat := 0
  dropped : Nat := 0
  /-- Trees of finished batches. -/
  delivered : Nat := 0
  worker : Worker := .resting
  joined : Bool := false

namespace Queue

/-- The most trees of one batch, unless the queue is closing. -/
def batchSize : Nat := 100

def ofCapacity (capacity : Nat) (failsOn : Option Nat := none) : Queue :=
  { capacity := max capacity 1, failsOn }

def offer (q : Queue) (tree : Node) : Bool × Queue × List Notice :=
  if q.closed then (false, q, [])
  else
    let q := { q with pushed := q.pushed + 1 }
    if q.waiting.length < q.capacity then
      (true, { q with waiting := q.waiting ++ [tree] }, [])
    else (false, { q with dropped := q.dropped + 1 }, [.queueFull q.capacity])

def finishBatch (q : Queue) (closing : Bool) (taken : Nat) : Queue :=
  { q with
    delivered := q.delivered + taken
    worker := if closing then .stopped else .resting }

def advance (q : Queue) : Queue :=
  match q.worker with
  | .resting => { q with worker := .draining q.closed 0 }
  | .draining closing taken =>
    if taken < batchSize || closing then
      match q.waiting with
      | [] => q.finishBatch closing taken
      | tree :: rest =>
        let received := q.received ++ [tree]
        let worker :=
          if q.failsOn = some received.length then .panicked else .draining closing (taken + 1)
        { q with waiting := rest, received, worker }
    else q.finishBatch closing taken
  | .stopped => q
  | .panicked => q

def run : Nat → Queue → Queue
  | 0, q => q
  | n + 1, q => run n q.advance

/-- Closes the queue and waits for the consumer. Besides a step for each tree, the thread takes at
most four to end its batch, start one that sees the queue closing, and end that. -/
def close (q : Queue) : Queue × List Notice :=
  let q := { q with closed := true }
  if q.joined then (q, [])
  else
    let q := { run (q.waiting.length + 4) q with joined := true }
    (q, if q.worker = .panicked then [.consumerPanicked] else [])

def dropRate (pushed dropped : Nat) : Binary64 := .percentage dropped pushed

def describe (q : Queue) : String :=
  "QueuedSink \x7b stats: QueueStats \x7b pushed: " ++ Nat.repr q.pushed ++ ", dropped: " ++
    Nat.repr q.dropped ++ ", delivered: " ++ Nat.repr q.delivered ++ ", queued: " ++
    Nat.repr q.waiting.length ++ ", capacity: " ++ Nat.repr q.capacity ++ " \x7d \x7d"

end Queue

end CallTree
