/-!
Positional digits: numbers as digits of a fixed width, and digit characters read in a base.
-/
namespace CallTree.Digits

/-- The value of a digit character. Letters of either case go on from ten. -/
def value? (base : Nat) (c : Char) : Option Nat :=
  let n := c.toNat
  let v := if 48 ≤ n ∧ n ≤ 57 then n - 48
    else if 97 ≤ n ∧ n ≤ 122 then n - 87
    else if 65 ≤ n ∧ n ≤ 90 then n - 55
    else base
  if v < base then some v else none

def ofDigits (base : Nat) (ds : List Nat) : Nat := ds.foldl (fun n d => n * base + d) 0

def read? (base : Nat) (cs : List Char) : Option Nat :=
  if cs.isEmpty then none else (cs.mapM (value? base)).map (ofDigits base)

/-- The last `width` digits of a number, most significant first. -/
def fixed (base : Nat) : Nat → Nat → List Nat
  | 0, _ => []
  | width + 1, n => fixed base width (n / base) ++ [n % base]

@[simp] theorem length_fixed (base width n : Nat) : (fixed base width n).length = width := by
  induction width generalizing n with
  | zero => rfl
  | succ width ih => simp [fixed, ih]

theorem ofDigits_fixed (base width n : Nat) :
    ofDigits base (fixed base width n) = n % Nat.pow base width := by
  induction width generalizing n with
  | zero => exact (Nat.mod_one n).symm
  | succ width ih =>
    have := ih (n / base)
    unfold ofDigits at this ⊢
    have hpow : Nat.pow base (width + 1) = base * Nat.pow base width := Nat.mul_comm _ _
    rw [fixed, List.foldl_append, this, hpow, Nat.mod_mul]
    simp [Nat.mul_comm, Nat.add_comm]

def toChar (d : Nat) : Char := Nat.digitChar d

def hex (width n : Nat) : List Char := (fixed 16 width n).map toChar

end CallTree.Digits
