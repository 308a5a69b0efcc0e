import CallTree.Binary64
import CallTree.Text.Digits
import CallTree.Toml

/-!
The smallest parts of TOML text: blanks and line ends, strings, keys, numbers and times. A reader
takes what it reads from the front of the text and returns the rest.
-/
namespace CallTree.Toml

abbrev Reader (α : Type) := List Char → Option (α × List Char)

def isSpace (c : Char) : Bool := c == ' ' || c == '\t'

def skipSpace (cs : List Char) : List Char := cs.dropWhile isSpace

/-- A character that may stand in a comment: no control character but the tab. -/
def isPlain (c : Char) : Bool :=
  let n := c.toNat
  n == 9 || (0x20 ≤ n && n ≤ 0x7E) || 0x80 ≤ n

def newline : List Char → Option (List Char)
  | '\n' :: cs => some cs
  | '\r' :: '\n' :: cs => some cs
  | _ => none

def skipComment : List Char → List Char
  | '#' :: cs => cs.dropWhile isPlain
  | cs => cs

def lineEnd (cs : List Char) : Option (List Char) :=
  match skipComment (skipSpace cs) with
  | [] => some []
  | cs => newline cs

def skipLines (inComment : Bool) : List Char → List Char
  | [] => []
  | '\n' :: cs => skipLines false cs
  | '\r' :: '\n' :: cs => skipLines false cs
  | c :: cs =>
    if inComment then (if isPlain c then skipLines true cs else c :: cs)
    else if isSpace c then skipLines false cs
    else if c == '#' then skipLines true cs
    else c :: cs

/-! ### Strings -/

def scalar? (n : Nat) : Option Char :=
  if n < 0xD800 ∨ (0xE000 ≤ n ∧ n < 0x110000) then some (Char.ofNat n) else none

def simpleEscape? : Char → Option Char
  | 'b' => some (Char.ofNat 8)
  | 't' => some '\t'
  | 'n' => some '\n'
  | 'f' => some (Char.ofNat 12)
  | 'r' => some '\r'
  | '"' => some '"'
  | '\\' => some '\\'
  | _ => none

def escape : Reader Char
  | 'u' :: cs => do
    if cs.length < 4 then none
    let c ← (Digits.read? 16 (cs.take 4)).bind scalar?
    return (c, cs.drop 4)
  | 'U' :: cs => do
    if cs.length < 8 then none
    let c ← (Digits.read? 16 (cs.take 8)).bind scalar?
    return (c, cs.drop 8)
  | e :: cs => (simpleEscape? e).map fun c => (c, cs)
  | [] => none

def basicString (fuel : Nat) (cs : List Char) : Option (List Char × List Char) :=
  match fuel, cs with
  | 0, _ => none
  | _, [] => none
  | _, '"' :: cs => some ([], cs)
  | fuel + 1, '\\' :: cs => do
    let (c, cs) ← escape cs
    let (s, cs) ← basicString fuel cs
    return (c :: s, cs)
  | fuel + 1, c :: cs =>
    if isPlain c then (basicString fuel cs).map fun (s, cs) => (c :: s, cs) else none

def literalString : Reader (List Char)
  | [] => none
  | '\'' :: cs => some ([], cs)
  | c :: cs =>
    if isPlain c then (literalString cs).map fun (s, cs) => (c :: s, cs) else none

def continuation (cs : List Char) : Option (List Char) :=
  (newline (skipSpace cs)).map skipBlankLines
where
  skipBlankLines : List Char → List Char
    | '\r' :: '\n' :: cs => skipBlankLines cs
    | c :: cs => if c == ' ' || c == '\t' || c == '\n' then skipBlankLines cs else c :: cs
    | [] => []

/-- Reads the rest of a string of several lines. At most two quotes may come before the three that
end it. Escapes count if the quote is the double one. -/
def longString (quote : Char) (fuel : Nat) (cs : List Char) :
    Option (List Char × List Char) :=
  match fuel with
  | 0 => none
  | fuel + 1 =>
    let more (front : List Char) (cs : List Char) : Option (List Char × List Char) :=
      (longString quote fuel cs).map fun (s, cs) => (front ++ s, cs)
    match cs with
    | [] => none
    | c :: rest =>
      if c = quote then
        match (c :: rest).takeWhile (· == quote) with
        | [_] => more [quote] rest
        | [_, _] => more [quote, quote] (rest.drop 1)
        | run =>
          let length := min run.length 5
          some (List.replicate (length - 3) quote, rest.drop (length - 1))
      else if c = '\\' ∧ quote = '"' then
        match continuation rest with
        | some cs => more [] cs
        | none => (escape rest).bind fun (c, cs) => more [c] cs
      else
        match newline (c :: rest) with
        | some cs => more ['\n'] cs
        | none => if isPlain c then more [c] rest else none

/-- A line end right after the opening quotes does not count. -/
def longBody (quote : Char) (cs : List Char) : Option (List Char × List Char) :=
  let cs := (newline cs).getD cs
  longString quote (cs.length + 1) cs

/-! ### Keys -/

def isBare (c : Char) : Bool :=
  c.isAlphanum || c == '_' || c == '-'

def keyPart : Reader String
  | '"' :: cs => (basicString (cs.length + 1) cs).map fun (s, cs) => (String.ofList s, cs)
  | '\'' :: cs => (literalString cs).map fun (s, cs) => (String.ofList s, cs)
  | cs =>
    let word := cs.takeWhile isBare
    if word.isEmpty then none else some (String.ofList word, cs.dropWhile isBare)

def keyParts (fuel : Nat) (cs : List Char) : Option (List String × List Char) :=
  match fuel with
  | 0 => none
  | fuel + 1 => do
    let (part, cs) ← keyPart (skipSpace cs)
    match skipSpace cs with
    | '.' :: cs => (keyParts fuel cs).map fun (parts, cs) => (part :: parts, cs)
    | cs => some ([part], cs)

/-- The number of levels that a key or a value may not reach. -/
def depthLimit : Nat := 80

def key (cs : List Char) : Option ((List String × String) × List Char) := do
  let (parts, cs) ← keyParts (cs.length + 1) cs
  let last ← parts.getLast?
  if parts.length < depthLimit then some ((parts.dropLast, last), cs) else none

/-! ### Numbers -/

/-- The digits at the front of a text, where a single underscore may stand between two. -/
def digitRun (isDigit : Char → Bool) : List Char → List Char × List Char
  | [] => ([], [])
  | '_' :: c :: cs =>
    if isDigit c then
      let (ds, rest) := digitRun isDigit cs
      (c :: ds, rest)
    else ([], '_' :: c :: cs)
  | c :: cs =>
    if isDigit c then
      let (ds, rest) := digitRun isDigit cs
      (c :: ds, rest)
    else ([], c :: cs)

def digits (isDigit : Char → Bool) : Reader (List Char)
  | [] => none
  | c :: cs => if isDigit c then some (digitRun isDigit (c :: cs)) else none

def wholeDigits : Reader (List Char)
  | '0' :: cs => some (['0'], cs)
  | cs => digits Char.isDigit cs

def sign : List Char → Bool × List Char
  | '+' :: cs => (false, cs)
  | '-' :: cs => (true, cs)
  | cs => (false, cs)

def decimal (ds : List Char) : Nat := Nat.ofDigitChars 10 ds 0

def integer? (n : Int) : Option Int :=
  if -(Nat.pow 2 63) ≤ n ∧ n < Nat.pow 2 63 then some n else none

def based (base : Nat) (cs : List Char) : Option (Int × List Char) := do
  let (ds, cs) ← digits (fun c => (Digits.value? base c).isSome) cs
  let n ← Digits.read? base ds
  let n ← integer? n
  return (n, cs)

def integer : Reader Int
  | '0' :: 'x' :: cs => based 16 cs
  | '0' :: 'o' :: cs => based 8 cs
  | '0' :: 'b' :: cs => based 2 cs
  | cs => do
    let (negative, cs) := sign cs
    let (ds, cs) ← wholeDigits cs
    let n : Int := decimal ds
    let n ← integer? (if negative then -n else n)
    return (n, cs)

def word (w : String) (cs : List Char) : Option (List Char) :=
  if w.toList.isPrefixOf cs then some (cs.drop w.length) else none

def exponent : List Char → Option (Int × List Char)
  | 'e' :: cs | 'E' :: cs => do
    let (negative, cs) := sign cs
    let (ds, cs) ← digits Char.isDigit cs
    let n : Int := decimal ds
    return (if negative then -n else n, cs)
  | _ => none

def overflows (ds : List Char) (e : Int) : Bool :=
  let n := decimal ds
  if n = 0 ∨ e < -400 - ds.length then false
  else if 400 < e then true
  else !(Binary64.ofRatio (n * Nat.pow 10 e.toNat) (Nat.pow 10 (-e).toNat)).isFinite

/-- Takes a float. A positive one must not be beyond all floats. -/
def float (cs : List Char) : Option (List Char) :=
  let (negative, cs) := sign cs
  match wholeDigits cs with
  | none => (word "inf" cs).orElse fun _ => word "nan" cs
  | some (whole, cs) => do
    let (fraction, scale, rest) ← match cs with
      | '.' :: cs => do
        let (fraction, cs) ← digits Char.isDigit cs
        match exponent cs with
        | some (e, cs) => some (fraction, e, cs)
        | none => some (fraction, 0, cs)
      | cs => (exponent cs).map fun (e, cs) => ([], e, cs)
    if !negative && overflows (whole ++ fraction) (scale - fraction.length) then none
    else some rest

/-! ### Times -/

def fixedNumber (width : Nat) (cs : List Char) : Option (Nat × List Char) :=
  let ds := cs.take width
  if ds.length = width ∧ ds.all Char.isDigit then some (decimal ds, cs.drop width) else none

def within (low high : Nat) (cs : List Char) : Option (Nat × List Char) :=
  (fixedNumber 2 cs).filter fun (n, _) => low ≤ n && n ≤ high

def one (c : Char) : List Char → Option (List Char)
  | [] => none
  | d :: cs => if d = c then some cs else none

def daysIn (year month : Nat) : Nat :=
  if month = 2 then
    if year % 4 = 0 ∧ (year % 100 ≠ 0 ∨ year % 400 = 0) then 29 else 28
  else if month = 4 ∨ month = 6 ∨ month = 9 ∨ month = 11 then 30
  else 31

def date (cs : List Char) : Option (List Char) := do
  let (year, cs) ← fixedNumber 4 cs
  let (month, cs) ← (one '-' cs).bind (within 1 12)
  let (day, cs) ← (one '-' cs).bind (within 1 31)
  if day ≤ daysIn year month then some cs else none

def timeOfDay (cs : List Char) : Option (List Char) := do
  let (_, cs) ← within 0 23 cs
  let (_, cs) ← (one ':' cs).bind (within 0 59)
  let (_, cs) ← (one ':' cs).bind (within 0 60)
  match cs with
  | '.' :: d :: rest => if d.isDigit then some (rest.dropWhile Char.isDigit) else some cs
  | _ => some cs

def skipOffset (cs : List Char) : List Char :=
  match cs with
  | 'Z' :: rest | 'z' :: rest => rest
  | '+' :: rest | '-' :: rest =>
    let offset := do
      let (_, rest) ← within 0 23 rest
      let (_, rest) ← (one ':' rest).bind (within 0 59)
      return rest
    offset.getD cs
  | _ => cs

def time (cs : List Char) : Option (List Char) :=
  match date cs with
  | none => timeOfDay cs
  | some rest =>
    match rest with
    | 'T' :: cs | 't' :: cs | ' ' :: cs => some (((timeOfDay cs).map skipOffset).getD rest)
    | _ => some rest

end CallTree.Toml
