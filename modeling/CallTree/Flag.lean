/-!
Sets of named flags, each kept as one 32-bit word. Bits that no flag names are kept as well.
-/
namespace CallTree

/-- A vocabulary of flags: every flag is one bit with a name. -/
class Flag (α : Type) where
  title : String
  all : List α
  bit : α → Nat
  name : α → String

structure FlagSet (α : Type) where
  bits : BitVec 32
deriving DecidableEq

namespace FlagSet

variable {α : Type}

instance : EmptyCollection (FlagSet α) := ⟨⟨0#32⟩⟩
instance : Inhabited (FlagSet α) := ⟨∅⟩
instance : Union (FlagSet α) := ⟨fun s t => ⟨s.bits ||| t.bits⟩⟩
instance : Inter (FlagSet α) := ⟨fun s t => ⟨s.bits &&& t.bits⟩⟩
instance : SDiff (FlagSet α) := ⟨fun s t => ⟨s.bits &&& ~~~t.bits⟩⟩

def ofNat (n : Nat) : FlagSet α := ⟨BitVec.ofNat 32 n⟩

def toNat (s : FlagSet α) : Nat := s.bits.toNat

def isEmpty (s : FlagSet α) : Bool := s.bits == 0#32

def meets (s t : FlagSet α) : Bool := !(s ∩ t).isEmpty

variable [Flag α]

def single (f : α) : FlagSet α := ⟨BitVec.twoPow 32 (Flag.bit f)⟩

def has (s : FlagSet α) (f : α) : Bool := s.bits.getLsbD (Flag.bit f)

def insert (s : FlagSet α) (f : α) : FlagSet α := s ∪ single f

def known : FlagSet α := (Flag.all (α := α)).foldl insert ∅

end FlagSet

inductive NodeFlag where
  /-- The call was entered when the trace had used up its node budget. -/
  | overflow
  | opensTrace
  | passesError
  | wrapsError
  /-- The node stands for an elided parent, with its counts. -/
  | droppedParent
  | forced
deriving DecidableEq

inductive MarkerFlag where
  /-- Some call was left out over the node budget. -/
  | overflow
  | submit
  | allMethods
  /-- A call that adds little to its only child is elided. -/
  | dropInterim
  | traceCalls
  | drop
  /-- The trace ended with an error or holds a trace that did. -/
  | error
deriving DecidableEq

instance : Flag NodeFlag where
  title := "NodeFlags"
  all := [.overflow, .opensTrace, .passesError, .wrapsError, .droppedParent, .forced]
  bit
    | .overflow => 0
    | .opensTrace => 1
    | .passesError => 2
    | .wrapsError => 3
    | .droppedParent => 4
    | .forced => 5
  name
    | .overflow => "OVERFLOW"
    | .opensTrace => "BEGIN"
    | .passesError => "EXCEPTION_PASS"
    | .wrapsError => "EXCEPTION_WRAP"
    | .droppedParent => "DROPPED_PARENT"
    | .forced => "FORCE"

instance : Flag MarkerFlag where
  title := "MarkerFlags"
  all := [.overflow, .submit, .allMethods, .dropInterim, .traceCalls, .drop, .error]
  bit
    | .overflow => 0
    | .submit => 1
    | .allMethods => 2
    | .dropInterim => 3
    | .traceCalls => 4
    | .drop => 5
    | .error => 12
  name
    | .overflow => "OVERFLOW"
    | .submit => "SUBMIT"
    | .allMethods => "ALL_METHODS"
    | .dropInterim => "DROP_INTERIM"
    | .traceCalls => "TRACE_CALLS"
    | .drop => "DROP"
    | .error => "ERROR_MARK"

abbrev NodeFlags := FlagSet NodeFlag

abbrev MarkerFlags := FlagSet MarkerFlag

/-- What a closing trace tells the trace around it. -/
def MarkerFlags.inheritable : MarkerFlags := .insert (.single .overflow) .error

namespace FlagSet

variable {α : Type} [Flag α]

@[simp] theorem has_union (s t : FlagSet α) (f : α) : (s ∪ t).has f = (s.has f || t.has f) := by
  simp [has, Union.union]

@[simp] theorem has_inter (s t : FlagSet α) (f : α) : (s ∩ t).has f = (s.has f && t.has f) := by
  simp [has, Inter.inter]

@[simp] theorem has_empty (f : α) : (∅ : FlagSet α).has f = false := by
  simp [has, EmptyCollection.emptyCollection]

end FlagSet

@[simp] theorem NodeFlags.has_single (x y : NodeFlag) :
    (FlagSet.single x : NodeFlags).has y = decide (x = y) := by
  cases x <;> cases y <;> rfl

@[simp] theorem MarkerFlags.has_single (x y : MarkerFlag) :
    (FlagSet.single x : MarkerFlags).has y = decide (x = y) := by
  cases x <;> cases y <;> rfl

end CallTree
