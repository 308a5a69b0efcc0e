import CallTree.Flag
import CallTree.Text.Blank
import CallTree.Text.Digits
import CallTree.Text.Split

/-!
The text of a flag set: the names of its flags, lowest bit first, then the bits without a name in
hexadecimal, with a bar between any two. Reading takes the words in any order and adds them up.
-/
namespace CallTree.FlagSet

variable {α : Type} [Flag α]

def hexWord (n : Nat) : List Char := '0' :: 'x' :: Nat.toDigits 16 n

def words (s : FlagSet α) : List (List Char) :=
  let named := (Flag.all.filter s.has).map fun f : α => (Flag.name f).toList
  let rest := s \ known
  if rest.isEmpty then named else named ++ [hexWord rest.toNat]

def toChars (s : FlagSet α) : List Char := Text.join " | ".toList s.words

def toText (s : FlagSet α) : String := String.ofList s.toChars

def describe (s : FlagSet α) : String :=
  let inner := if s.isEmpty then "0x0" else s.toText
  Flag.title α ++ "(" ++ inner ++ ")"

/-- Reads hexadecimal digits of at most 32 bits; a plus sign may precede them. -/
def hexBits? (cs : List Char) : Option Nat :=
  let ds := match cs with
    | '+' :: ds => ds
    | ds => ds
  (Digits.read? 16 ds).filter (· < Nat.pow 2 32)

def ofWord? (cs : List Char) : Option (FlagSet α) :=
  match cs with
  | '0' :: 'x' :: ds => (hexBits? ds).map ofNat
  | _ => (Flag.all.find? fun f : α => (Flag.name f).toList == cs).map single

def ofChars? (cs : List Char) : Option (FlagSet α) :=
  if (Text.trim cs).isEmpty then some ∅
  else ((Text.splitOn '|' cs).mapM fun p => ofWord? (Text.trim p)).map (·.foldl (· ∪ ·) ∅)

def ofText? (s : String) : Option (FlagSet α) := ofChars? s.toList

end CallTree.FlagSet
