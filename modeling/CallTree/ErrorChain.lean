import CallTree.Symbol

/-!
Errors that a call can end with: an error and the errors that caused it. Two errors are the same
if their handles are, whatever they contain.
-/
namespace CallTree

structure StackLine where
  classId : SymbolId
  methodId : SymbolId
  fileId : SymbolId
  line : Nat
deriving DecidableEq

structure ErrorRecord where
  /-- Tells errors of equal content apart; `0` for one that nobody refers to. -/
  handle : Nat
  classId : SymbolId
  message : String
  stack : List StackLine
deriving DecidableEq

structure ErrorChain where
  error : ErrorRecord
  causes : List ErrorRecord := []
deriving DecidableEq

namespace ErrorChain

def ofCause (error : ErrorRecord) : Option ErrorChain → ErrorChain
  | none => ⟨error, []⟩
  | some cause => ⟨error, cause.error :: cause.causes⟩

def handle (e : ErrorChain) : Nat := e.error.handle

def isCausedBy (e other : ErrorChain) : Bool := e.causes.head?.any (·.handle == other.handle)

def same : Option ErrorChain → Option ErrorChain → Bool
  | some a, some b => a.handle == b.handle
  | _, _ => false

end ErrorChain

end CallTree
