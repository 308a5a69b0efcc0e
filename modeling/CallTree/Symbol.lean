/-!
Names are interned elsewhere; calls, attributes and traces carry small numbers for them.
-/
namespace CallTree

abbrev SymbolId := Nat

structure SymbolResolver where
  resolve : SymbolId → Option String

/-- The name of a symbol, or its number after a hash sign. -/
def SymbolResolver.name (symbols : SymbolResolver) (id : SymbolId) : String :=
  (symbols.resolve id).getD ("#" ++ Nat.repr id)

abbrev SymbolTable := List (SymbolId × String)

namespace SymbolTable

instance : Coe SymbolTable SymbolResolver := ⟨fun table => ⟨(table.lookup ·)⟩⟩

def name (table : SymbolTable) : SymbolId → String := SymbolResolver.name table

end SymbolTable

end CallTree
