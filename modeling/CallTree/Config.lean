/-!
Settings of an engine. A `Config` is what is written down; `Thresholds` are the settings that can
be changed while the engine runs.
-/
namespace CallTree

structure Config where
  maxTraceRecords : Nat := 4096
  /-- A call that is not longer than this is merged into its parent. -/
  minMethodTime : Nat := 250000
  minTraceTime : Nat := 50000000
  /-- A trace with this many calls is submitted whatever its length. -/
  minTraceCalls : Nat := 262144
  /-- Calls that add little to their only child are elided in every trace. -/
  dropInterim : Bool := false
  poolCapacity : Nat := 1024
deriving DecidableEq

inductive FileError where
  | missing
  | directory
  | notText
deriving DecidableEq

inductive ConfigError where
  | unreadable (why : FileError)
  /-- The text is not one of the format, or gives a setting a value of the wrong kind. -/
  | malformed
  | tooLarge
  | noBudget
deriving DecidableEq

def ConfigError.reason? : ConfigError → Option String
  | .unreadable _ => none
  | .malformed => none
  | .tooLarge => none
  | .noBudget => some "invalid config: max_trace_records must be > 0"

def Config.validate (c : Config) : Except ConfigError Unit :=
  if c.maxTraceRecords = 0 then .error .noBudget else .ok ()

structure Thresholds where
  maxTraceRecords : Nat
  minMethodTime : Nat
  minTraceTime : Nat
  minTraceCalls : Nat
  dropInterim : Bool
deriving DecidableEq

inductive Adjustment where
  | maxTraceRecords (records : Nat)
  | minMethodTime (nanos : Nat)
  | minTraceTime (nanos : Nat)
  | minTraceCalls (calls : Nat)
  | dropInterim (on : Bool)
deriving DecidableEq

namespace Thresholds

def ofConfig (c : Config) : Thresholds :=
  ⟨c.maxTraceRecords, c.minMethodTime, c.minTraceTime, c.minTraceCalls, c.dropInterim⟩

def toConfig (t : Thresholds) (poolCapacity : Nat) : Config :=
  ⟨t.maxTraceRecords, t.minMethodTime, t.minTraceTime, t.minTraceCalls, t.dropInterim,
    poolCapacity⟩

/-- The thresholds after a change. The node budget does not go below one. -/
def adjust (t : Thresholds) : Adjustment → Thresholds
  | .maxTraceRecords n => { t with maxTraceRecords := max n 1 }
  | .minMethodTime n => { t with minMethodTime := n }
  | .minTraceTime n => { t with minTraceTime := n }
  | .minTraceCalls n => { t with minTraceCalls := n }
  | .dropInterim b => { t with dropInterim := b }

end Thresholds

end CallTree
