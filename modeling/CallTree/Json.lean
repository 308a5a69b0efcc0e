import CallTree.Binary64

/-!
JSON values, and the readers of values of one kind. A reader is given how many more arrays and
objects it may enter, so that the depth of what is read is bounded; what is not read has no bound.
-/
namespace CallTree

inductive Json where
  | null
  | bool (b : Bool)
  | int (n : Int)
  | float (x : Binary64)
  | text (s : String)
  | array (items : List Json)
  | object (fields : List (String × Json))
  /-- A text that has the form of a value and denotes none, such as a number beyond all floats. -/
  | void
deriving Inhabited

namespace Json

def nat (n : Nat) : Json := .int n

def nat? (bound : Nat) : Json → Option Nat
  | .int n => if 0 ≤ n ∧ n < bound then some n.toNat else none
  | _ => none

def word32? (j : Json) : Option Nat := j.nat? (Nat.pow 2 32)

def word64? (j : Json) : Option Nat := j.nat? (Nat.pow 2 64)

def bool? : Json → Option Bool
  | .bool b => some b
  | _ => none

def text? : Json → Option String
  | .text s => some s
  | _ => none

def items? {α : Type} (item : Json → Option α) : Json → Option (List α)
  | .array items => items.mapM item
  | _ => none

def array? {α : Type} (room : Nat) (item : Nat → Json → Option α) : Json → Option (List α)
  | .array items =>
    match room with
    | 0 => none
    | room + 1 => items.mapM (item room)
  | _ => none

def required {α : Type} (read : Json → Option α) (field : Option Json) : Option α :=
  field.bind read

/-- Reads a field that may be missing or null. -/
def optional {α : Type} (read : Json → Option α) : Option Json → Option (Option α)
  | none => some none
  | some .null => some none
  | some j => (read j).map some

def orElse {α : Type} (default : α) (read : Json → Option α) : Option Json → Option α
  | none => some default
  | some j => read j

def valuesOf (key : String) (fields : List (String × Json)) : List Json :=
  (fields.filter (·.1 == key)).map (·.2)

/-- The values of the keys of a record. A key must not come twice; other keys are skipped. An
array gives the values in the order of the keys and may stop early. -/
def record? (keys : List String) : Json → Option (List (Option Json))
  | .object fields => keys.mapM fun key =>
    match valuesOf key fields with
    | [] => some none
    | [value] => some (some value)
    | _ => none
  | .array items =>
    if items.length ≤ keys.length then
      some (items.map some ++ List.replicate (keys.length - items.length) none)
    else none
  | _ => none

end Json

end CallTree
