import CallTree.Node

/-!
Nodes kept for reuse. A discarded tree is taken apart, except for the parts that somebody else
still holds, and its nodes go back to the pool as good as new.
-/
namespace CallTree

structure Pool where
  capacity : Nat
  enabled : Bool
  idle : List Node := []
  hits : Nat := 0
  misses : Nat := 0
  /-- Nodes given back, kept or not. -/
  released : Nat := 0

structure PoolStats where
  capacity : Nat
  available : Nat
  hits : Nat
  misses : Nat
  released : Nat
  enabled : Bool
deriving DecidableEq

def PoolStats.hitRate (s : PoolStats) : Binary64 := .percentage s.hits (s.hits + s.misses)

def PoolStats.fillRatio (s : PoolStats) : Binary64 := .percentage s.available s.capacity

namespace Pool

def ofCapacity (capacity : Nat) : Pool := { capacity, enabled := 0 < capacity }

def disabled : Pool := { capacity := 0, enabled := false }

def available (p : Pool) : Nat := p.idle.length

def acquire (p : Pool) : Node × Pool :=
  match p.idle with
  | [] => ({}, { p with misses := p.misses + 1 })
  | n :: ns => (n, { p with idle := ns, hits := p.hits + 1 })

def clean (n : Node) : Node :=
  { n with
    handle := none
    frame := { n.frame with
      classId := 0
      methodId := 0
      signatureId := 0
      startTime := none
      duration := 0
      calls := 0
      errors := 0
      flags := ∅
      error := none
      attributes := []
      marker := none }
    children := [] }

@[simp] theorem clean_eq (n : Node) : clean n = {} := rfl

def put (p : Pool) (n : Node) : Pool :=
  let p := { p with released := p.released + 1 }
  if p.enabled && p.available < p.capacity then { p with idle := clean n :: p.idle } else p

def isHeld (held : Nat → Bool) (n : Node) : Bool := n.handle.any held

mutual

/-- Takes a node back with all that nobody holds below it. -/
def release (held : Nat → Bool) (p : Pool) : Node → Pool
  | ⟨handle, frame, children⟩ =>
    reclaim held (p.put ⟨handle, frame, children⟩) children

def reclaim (held : Nat → Bool) (p : Pool) : List Node → Pool
  | [] => p
  | n :: ns => reclaim held (if isHeld held n then p else release held p n) ns

end

def cleanInPlace (held : Nat → Bool) (p : Pool) (n : Node) : Node × Pool :=
  (clean n, reclaim held p n.children)

def stats (p : Pool) : PoolStats :=
  ⟨p.capacity, p.available, p.hits, p.misses, p.released, p.enabled⟩

end Pool

end CallTree
