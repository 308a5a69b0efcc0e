import CallTree.Assembler

/-!
The events of an assembler and what they tell the engine.
-/
namespace CallTree

inductive Event where
  | enter (classId methodId signatureId : SymbolId) (time : Nat)
  | exit (time : Nat)
  | fail (error : ErrorChain) (time : Nat)
  | begin (traceId : SymbolId) (clock : Nat) (flags : MarkerFlags)
  | attr (target : AttrTarget) (id : SymbolId) (value : AttrValue)
  | minimumTime (nanos : Nat)
  /-- The innermost trace, or the innermost one of this id, gets flags. -/
  | markTrace (traceId : Option SymbolId) (flags : MarkerFlags)
  | markFrame (flags : NodeFlags)
  | correlate (context : TraceContext)
  | disable
  | enable

inductive Verdict where
  | none
  | dropped
  | submitted (tree : Node)

structure Outcome where
  notices : List Notice := []
  verdict : Verdict := .none

structure Surroundings where
  thresholds : Thresholds
  /-- The trees that somebody still holds, by their handles. -/
  held : Nat → Bool
  handle : Nat

end CallTree
