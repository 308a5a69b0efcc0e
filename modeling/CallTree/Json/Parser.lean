import CallTree.Json.Numeral

/-!
JSON text. Every reader takes what it reads from the front of the text and returns the rest.
-/
namespace CallTree.Json

abbrev Reader (α : Type) := List Char → Option (α × List Char)

def isSpace (c : Char) : Bool := c == ' ' || c == '\t' || c == '\n' || c == '\r'

def skipSpace (cs : List Char) : List Char := cs.dropWhile isSpace

inductive Unit16 where
  | char (c : Char)
  | code (n : Nat)

def simpleEscape? : Char → Option Char
  | '"' => some '"'
  | '\\' => some '\\'
  | '/' => some '/'
  | 'b' => some (Char.ofNat 8)
  | 'f' => some (Char.ofNat 12)
  | 'n' => some '\n'
  | 'r' => some '\r'
  | 't' => some '\t'
  | _ => none

def units : Reader (List Unit16)
  | [] => none
  | '"' :: cs => some ([], cs)
  | '\\' :: 'u' :: a :: b :: c :: d :: cs => do
    let n ← Digits.read? 16 [a, b, c, d]
    let (us, rest) ← units cs
    return (.code n :: us, rest)
  | '\\' :: e :: cs => do
    let c ← simpleEscape? e
    let (us, rest) ← units cs
    return (.char c :: us, rest)
  | c :: cs =>
    if c.toNat < 0x20 ∨ c = '\\' then none
    else do
      let (us, rest) ← units cs
      return (.char c :: us, rest)

def isHighSurrogate (n : Nat) : Bool := 0xD800 ≤ n && n < 0xDC00

def isLowSurrogate (n : Nat) : Bool := 0xDC00 ≤ n && n < 0xE000

def characters : List Unit16 → Option (List Char)
  | [] => some []
  | .char c :: us => (characters us).map (c :: ·)
  | .code high :: .code low :: us =>
    if isHighSurrogate high then
      if isLowSurrogate low then
        let n := 0x10000 + (high - 0xD800) * 0x400 + (low - 0xDC00)
        (characters us).map (Char.ofNat n :: ·)
      else none
    else if isLowSurrogate high then none
    else (characters (.code low :: us)).map (Char.ofNat high :: ·)
  | .code n :: us =>
    if isHighSurrogate n || isLowSurrogate n then none
    else (characters us).map (Char.ofNat n :: ·)

/-- Reads the rest of a string. It has no value if half of a pair stands alone. -/
def string : Reader (Option String) := fun cs => do
  let (us, rest) ← units cs
  return ((characters us).map String.ofList, rest)

def digits (cs : List Char) : List Nat × List Char :=
  ((cs.takeWhile Char.isDigit).map (·.toNat - 48), cs.dropWhile Char.isDigit)

def someDigits : Reader (List Nat) := fun cs =>
  match digits cs with
  | ([], _) => none
  | r => some r

def wholeDigits : Reader (List Nat) := fun cs => do
  let (ds, rest) ← someDigits cs
  if ds.length > 1 ∧ ds.head? = some 0 then none else some (ds, rest)

def exponentPart : List Char → Option ((Bool × List Nat) × List Char)
  | '+' :: cs => (someDigits cs).map fun (ds, rest) => ((false, ds), rest)
  | '-' :: cs => (someDigits cs).map fun (ds, rest) => ((true, ds), rest)
  | cs => (someDigits cs).map fun (ds, rest) => ((false, ds), rest)

def unsignedNumeral (negative : Bool) : Reader Numeral := fun cs => do
  let (whole, cs) ← wholeDigits cs
  let (fraction, cs) ← match cs with
    | '.' :: cs => (someDigits cs).map fun (ds, rest) => (some ds, rest)
    | _ => some (none, cs)
  let (exponent, cs) ← match cs with
    | 'e' :: cs | 'E' :: cs => (exponentPart cs).map fun (e, rest) => (some e, rest)
    | _ => some (none, cs)
  return ({ negative, whole, fraction, exponent }, cs)

def numeral : Reader Numeral
  | '-' :: cs => unsignedNumeral true cs
  | cs => unsignedNumeral false cs

def word (w : List Char) (j : Json) : Reader Json := fun cs =>
  if w.isPrefixOf cs then some (j, cs.drop w.length) else none

/-- Adds a field to an object. A key without a value leaves the object without one. -/
def addField (key : Option String) (value : Json) : Json → Json
  | .object fields =>
    match key with
    | some key => .object ((key, value) :: fields)
    | none => .void
  | j => j

def addItem (item : Json) : Json → Json
  | .array items => .array (item :: items)
  | j => j

mutual

def value (fuel : Nat) (cs : List Char) : Option (Json × List Char) :=
  match fuel with
  | 0 => none
  | fuel + 1 =>
    match skipSpace cs with
    | 'n' :: cs => word "ull".toList .null cs
    | 't' :: cs => word "rue".toList (.bool true) cs
    | 'f' :: cs => word "alse".toList (.bool false) cs
    | '"' :: cs => do
      let (s, rest) ← string cs
      return ((s.map .text).getD .void, rest)
    | '[' :: cs =>
      match skipSpace cs with
      | ']' :: rest => some (.array [], rest)
      | cs => items fuel cs
    | '\x7b' :: cs =>
      match skipSpace cs with
      | '\x7d' :: rest => some (.object [], rest)
      | cs => fields fuel cs
    | cs => (numeral cs).map fun (n, rest) => (n.value, rest)

def items (fuel : Nat) (cs : List Char) : Option (Json × List Char) :=
  match fuel with
  | 0 => none
  | fuel + 1 => do
    let (item, cs) ← value fuel cs
    match skipSpace cs with
    | ',' :: cs =>
      let (rest, cs) ← items fuel cs
      return (addItem item rest, cs)
    | ']' :: cs => return (.array [item], cs)
    | _ => none

def fields (fuel : Nat) (cs : List Char) : Option (Json × List Char) :=
  match fuel with
  | 0 => none
  | fuel + 1 =>
    match skipSpace cs with
    | '"' :: cs => do
      let (key, cs) ← string cs
      match skipSpace cs with
      | ':' :: cs =>
        let (item, cs) ← value fuel cs
        match skipSpace cs with
        | ',' :: cs =>
          let (rest, cs) ← fields fuel cs
          return (addField key item rest, cs)
        | '\x7d' :: cs => return (addField key item (.object []), cs)
        | _ => none
      | _ => none
    | _ => none

end

/-- Reads a text that is one value with nothing but white space around it. Every second call takes
a character from the text, which bounds their number. -/
def parse? (cs : List Char) : Option Json := do
  let (j, rest) ← value (2 * cs.length + 2) cs
  if (skipSpace rest).isEmpty then some j else none

end CallTree.Json
