import CallTree.Assembler

/-!
The assemblers that one thread has of its own, at most one for each engine. While one of them is
in use the table takes no further request, so that an engine never traces its own work.
-/
namespace CallTree

abbrev EngineId := Nat

structure LocalTable where
  entries : List (EngineId × Assembler) := []
  inUse : Option EngineId := none

namespace LocalTable

def has (t : LocalTable) (e : EngineId) : Bool := t.entries.any (·.1 == e)

def assembler? (t : LocalTable) (e : EngineId) : Option Assembler := t.entries.lookup e

def set (t : LocalTable) (e : EngineId) (a : Assembler) : LocalTable :=
  { t with entries := t.entries.map fun (i, b) => if i = e then (i, a) else (i, b) }

/-- Begins to use the assembler of an engine. The first use makes it, and on that occasion the
assemblers of engines that nobody refers to are given up. -/
def enter (t : LocalTable) (referred : EngineId → Bool) (fresh : Assembler) (e : EngineId) :
    Option LocalTable :=
  match t.inUse with
  | some _ => none
  | none =>
    let entries :=
      if t.has e then t.entries else t.entries.filter (referred ·.1) ++ [(e, fresh)]
    some { entries, inUse := some e }

def leave (t : LocalTable) : LocalTable := { t with inUse := none }

def release (t : LocalTable) (e : EngineId) : LocalTable × Bool :=
  match t.inUse with
  | some _ => (t, false)
  | none => ({ t with entries := t.entries.filter (·.1 != e) }, t.has e)

end LocalTable

end CallTree
