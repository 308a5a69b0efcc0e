import CallTree.Json
import CallTree.Text.Digits

/-!
The numbers of JSON text. A numeral without fraction and exponent is an integer if it fits 64
bits. Every other one is a float: its leading digits, as far as they fit 64 bits, are rounded and
then scaled by the power of ten.
-/
namespace CallTree.Json

structure Numeral where
  negative : Bool
  whole : List Nat
  fraction : Option (List Nat) := none
  exponent : Option (Bool × List Nat) := none

namespace Numeral

/-- Appends digits to a number as long as it fits 64 bits. Also returns the digits left over. -/
def gather (n : Nat) : List Nat → Nat × List Nat
  | [] => (n, [])
  | d :: ds => if n * 10 + d < Nat.pow 2 64 then gather (n * 10 + d) ds else (n, d :: ds)

def powerOfTen (e : Nat) : Binary64 := .ofNat (Nat.pow 10 e)

/-- Divides by a power of ten, in steps of at most the largest one that is finite. -/
def scaleDown (x : Binary64) (e : Nat) : Binary64 :=
  if e ≤ 308 then x.quotient (powerOfTen e)
  else if x = .zero then x
  else scaleDown (x.quotient (powerOfTen 308)) (e - 308)
termination_by e

def scale (significand : Nat) (e : Int) : Option Binary64 :=
  let x := Binary64.ofNat significand
  if e < 0 then some (scaleDown x e.natAbs)
  else if e ≤ 308 then
    let y := x.product (powerOfTen e.toNat)
    if y.isFinite then some y else none
  else if x = .zero then some x
  else none

/-- The largest exponent that is told apart from a larger one. -/
def exponentLimit : Nat := Nat.pow 2 31 - 1

def floatSize (n : Numeral) : Option Binary64 :=
  let (whole, wholeRest) := gather 0 n.whole
  let fraction := n.fraction.getD []
  let (significand, fractionRest) := gather whole fraction
  let point : Int := wholeRest.length - (fraction.length - fractionRest.length : Nat)
  match n.exponent with
  | none => scale significand point
  | some (down, digits) =>
    let e := Digits.ofDigits 10 digits
    if exponentLimit < e then (if significand ≠ 0 ∧ !down then none else some .zero)
    else scale significand (if down then point - e else point + e)

def value (n : Numeral) : Json :=
  let float : Json := match n.floatSize with
    | none => .void
    | some x => .float (if n.negative then x.neg else x)
  if n.fraction.isSome || n.exponent.isSome then float
  else
    let whole := Digits.ofDigits 10 n.whole
    if n.negative then
      if 0 < whole ∧ whole ≤ Nat.pow 2 63 then .int (-whole) else float
    else if whole < Nat.pow 2 64 then .int whole
    else float

end Numeral

end CallTree.Json
