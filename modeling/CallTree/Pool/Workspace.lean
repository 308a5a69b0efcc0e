import CallTree.Pool

/-!
A pool at work: nodes under names, which come from the pool and go back to it. A node belongs to
its name alone or is shared; a shared one can stand below other nodes as well, and its parts go
back with the last node that it stands below.
-/
namespace CallTree

mutual

def Node.handles : Node → List Nat
  | ⟨handle, _, children⟩ => handle.toList ++ Node.handlesIn children

def Node.handlesIn : List Node → List Nat
  | [] => []
  | n :: ns => n.handles ++ Node.handlesIn ns

end

mutual

/-- The tree with every shared tree at its first place only, and the handles met so far. -/
def Node.once (met : List Nat) : Node → Node × List Nat
  | ⟨handle, frame, children⟩ =>
    let (children, met) := Node.onceIn (handle.toList ++ met) children
    (⟨handle, frame, children⟩, met)

def Node.onceIn (met : List Nat) : List Node → List Node × List Nat
  | [] => ([], met)
  | n :: ns =>
    if Pool.isHeld met.contains n then Node.onceIn met ns
    else
      let (n, met) := n.once met
      let (ns, met) := Node.onceIn met ns
      (n :: ns, met)

end

structure Workspace where
  pool : Pool
  nodes : List (String × Node) := []
  nextHandle : Nat := 0

namespace Workspace

def node? (w : Workspace) (name : String) : Option Node := w.nodes.lookup name

def put (w : Workspace) (name : String) (n : Node) : Workspace :=
  { w with nodes := Keyed.put name n w.nodes }

def drop (w : Workspace) (name : String) : Workspace :=
  { w with nodes := Keyed.erase name w.nodes }

def holds (w : Workspace) (handle : Nat) : Bool := w.nodes.any (·.2.handles.contains handle)

def acquire (w : Workspace) (name : String) : Workspace :=
  let (n, pool) := w.pool.acquire
  { w with pool }.put name n

def share (w : Workspace) (name : String) : Workspace :=
  match w.node? name with
  | some ⟨none, frame, children⟩ =>
    { w with nextHandle := w.nextHandle + 1 }.put name ⟨some w.nextHandle, frame, children⟩
  | _ => w

/-- Adds a node below another one, which must not be shared. A node that is not shared itself
loses its name. -/
def add (w : Workspace) (name child : String) : Workspace :=
  match w.node? name, w.node? child with
  | some parent, some n =>
    if parent.handle.isSome then w
    else (if n.handle.isSome then w else w.drop child).put name (parent.addChild n)
  | _, _ => w

def release (w : Workspace) (name : String) : Workspace :=
  match w.node? name with
  | none => w
  | some n =>
    let w := w.drop name
    if Pool.isHeld w.holds n then w else { w with pool := w.pool.release w.holds (n.once []).1 }

def clean (w : Workspace) (name : String) : Workspace :=
  match w.node? name with
  | some ⟨none, frame, children⟩ =>
    let others := w.drop name
    let (n, pool) := w.pool.cleanInPlace others.holds ((⟨none, frame, children⟩ : Node).once []).1
    { w with pool }.put name n
  | _ => w

end Workspace

end CallTree
