/-!
Numbers of the IEEE 754 binary64 format, as their bits. Arithmetic goes through exact ratios: a
result is the nearest number of the format, and of two nearest the one with the even significand.
-/
namespace CallTree

/-- The whole number nearest to `num / den`, and of two nearest the even one. -/
def roundDiv (num den : Nat) : Nat :=
  let q := num / den
  let r := num % den
  if 2 * r < den then q else if den < 2 * r then q + 1 else q + q % 2

structure Binary64 where
  bits : BitVec 64
deriving DecidableEq

namespace Binary64

def isNegative (x : Binary64) : Bool := x.bits.getLsbD 63

def exponentBits (x : Binary64) : Nat := x.bits.toNat / Nat.pow 2 52 % Nat.pow 2 11

def isFinite (x : Binary64) : Bool := x.exponentBits != 2047

/-- The size of a finite number as a ratio. The exponent bits count from the smallest number,
whose unit is `2 ^ -1074`. -/
def magnitude (x : Binary64) : Nat × Nat :=
  let fraction := x.bits.toNat % Nat.pow 2 52
  let e := x.exponentBits
  let significand := if e = 0 then fraction else Nat.pow 2 52 + fraction
  (significand * Nat.pow 2 (max e 1 - 1075), Nat.pow 2 (1075 - max e 1))

def infinity : Binary64 := ⟨BitVec.ofNat 64 (2047 * Nat.pow 2 52)⟩

def zero : Binary64 := ⟨0⟩

/-- The number nearest to `num / den`. The significand has 53 bits unless the unit is already the
smallest one; a ratio beyond all finite numbers becomes infinity. -/
def ofRatio (num den : Nat) : Binary64 :=
  let units := num * Nat.pow 2 1074
  let shift := Nat.log2 (units / den) - 52
  let bits := shift * Nat.pow 2 52 + roundDiv units (den * Nat.pow 2 shift)
  ⟨BitVec.ofNat 64 (min bits (2047 * Nat.pow 2 52))⟩

def ofNat (n : Nat) : Binary64 := ofRatio n 1

def neg (x : Binary64) : Binary64 := ⟨x.bits ^^^ BitVec.twoPow 64 63⟩

/-- The product of two finite numbers that are not negative. -/
def product (x y : Binary64) : Binary64 :=
  ofRatio (x.magnitude.1 * y.magnitude.1) (x.magnitude.2 * y.magnitude.2)

/-- The quotient of two finite numbers that are not negative, the second not zero. -/
def quotient (x y : Binary64) : Binary64 :=
  ofRatio (x.magnitude.1 * y.magnitude.2) (x.magnitude.2 * y.magnitude.1)

def percentage (part whole : Nat) : Binary64 :=
  if whole = 0 then zero else product (quotient (ofNat part) (ofNat whole)) (ofNat 100)

end Binary64

end CallTree
