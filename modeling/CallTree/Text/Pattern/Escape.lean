import CallTree.Text.Blank
import CallTree.Text.Digits

/-!
What is in force at a place of a regular expression, and what a backslash begins there. Letter case
and the classes of characters are known of ASCII only, so they need the mode of single bytes.
-/
namespace CallTree.Text.Pattern

structure Mode where
  /-- The pattern speaks of characters and not of bytes. -/
  unicode : Bool := true
  foldCase : Bool := false
  spaced : Bool := false

def skipRemarks (inComment : Bool) : List Char → List Char
  | [] => []
  | c :: cs =>
    if inComment then skipRemarks (c != '\n') cs
    else if isBlank c then skipRemarks false cs
    else if c == '#' then skipRemarks true cs
    else c :: cs

namespace Mode

def skip (m : Mode) (cs : List Char) : List Char := if m.spaced then skipRemarks false cs else cs

/-- The next character that a hyphen is judged by: blanks are passed over, and of a comment only
its sign. -/
def peek? (m : Mode) (cs : List Char) : Option Char :=
  if m.spaced then
    match cs.dropWhile isBlank with
    | '#' :: cs => (cs.dropWhile isBlank).head?
    | cs => cs.head?
  else cs.head?

/-- Whether a character can be asked for, given whether it was written as a byte: a character must
have no other case, and no byte is half a character. -/
def admits (m : Mode) (c : Char) (byte : Bool) : Bool :=
  if m.unicode then !m.foldCase else !byte || c.toNat ≤ 0x7F

def admitsItem (m : Mode) (c : Char) : Bool :=
  if m.unicode then !m.foldCase else c.toNat ≤ 0x7F

end Mode

inductive Escape where
  | char (c : Char) (byte : Bool)
  | named (negated : Bool)
  | edge (ofWord : Bool)

def hexDigits? (m : Mode) (n : Nat) : Nat → List Char → Option (Nat × List Char)
  | 0, cs => some (n, cs)
  | count + 1, cs =>
    match m.skip cs with
    | [] => none
    | c :: cs => do hexDigits? m (n * 16 + (← Digits.value? 16 c)) count cs

def scalar? (m : Mode) (count : Nat) (cs : List Char) : Option (Escape × List Char) := do
  let (n, cs) ← hexDigits? m 0 count cs
  if n.isValidChar then some (.char (Char.ofNat n) (count == 2), cs) else none

def isMark (c : Char) : Bool := c.toNat ≤ 0x7F && !c.isAlphanum && c != '<' && c != '>'

def escape? (m : Mode) : List Char → Option (Escape × List Char)
  | [] => none
  | 'x' :: cs => scalar? m 2 cs
  | 'u' :: cs => scalar? m 4 cs
  | 'U' :: cs => scalar? m 8 cs
  | 'a' :: cs => some (.char '\x07' false, cs)
  | 't' :: cs => some (.char '\t' false, cs)
  | 'n' :: cs => some (.char '\n' false, cs)
  | 'v' :: cs => some (.char '\x0b' false, cs)
  | 'f' :: cs => some (.char '\x0c' false, cs)
  | 'r' :: cs => some (.char '\r' false, cs)
  | c :: cs =>
    if c ∈ ['d', 's', 'w'] then some (.named false, cs)
    else if c ∈ ['D', 'S', 'W'] then some (.named true, cs)
    else if c ∈ ['A', 'z'] then some (.edge false, cs)
    else if c ∈ ['b', 'B', '<', '>'] then some (.edge true, cs)
    else if isMark c then some (.char c false, cs)
    else none

namespace Escape

def isAdmitted (m : Mode) : Escape → Bool
  | .char c byte => m.admits c byte
  | .named negated => !m.unicode && !negated
  | .edge ofWord => !ofWord || !m.unicode

def isItem (m : Mode) : Escape → Bool
  | .char c _ => m.admitsItem c
  | .named negated => !m.unicode && !negated
  | .edge _ => false

end Escape

end CallTree.Text.Pattern
