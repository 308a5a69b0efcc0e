import CallTree.Flag.Text
import CallTree.Node

/-!
Trees as indented text, one line for each node, parents first.
-/
namespace CallTree

/-- A ratio with three decimal places, a half going to the even last digit. -/
def thousandths (num den : Nat) : String :=
  let n := roundDiv (num * 1000) den
  Nat.repr (n / 1000) ++ "." ++ String.ofList ((Digits.fixed 10 3 n).map Digits.toChar)

/-- Nanoseconds as milliseconds. The ratio is a binary64 number before it is written out. -/
def milliseconds (nanos : Nat) : String :=
  let ms := (Binary64.ofNat nanos).quotient (.ofNat 1000000)
  thousandths ms.magnitude.1 ms.magnitude.2

namespace Frame

def summary (symbols : SymbolResolver) (f : Frame) : String :=
  let name := symbols.name
  let marker := match f.marker with
    | none => ""
    | some m => " <" ++ name m.traceId ++ ">"
  let flags := if f.flags.isEmpty then "" else " " ++ f.flags.describe
  let error := match f.error with
    | none => ""
    | some e => " !" ++ name e.error.classId ++ ": " ++ e.error.message
  milliseconds f.duration ++ "ms calls=" ++ Nat.repr f.calls ++ " errors=" ++ Nat.repr f.errors ++
    " " ++ name f.classId ++ "." ++ name f.methodId ++ marker ++ flags ++ error

end Frame

namespace Node

def indent (depth : Nat) : String := String.ofList (List.replicate (2 * depth) ' ')

mutual

def lines (symbols : SymbolResolver) (depth : Nat) : Node → List String
  | ⟨_, frame, children⟩ =>
    (indent depth ++ frame.summary symbols) :: childLines symbols (depth + 1) children

def childLines (symbols : SymbolResolver) (depth : Nat) : List Node → List String
  | [] => []
  | n :: ns => n.lines symbols depth ++ childLines symbols depth ns

end

def render (symbols : SymbolResolver) (n : Node) : String :=
  String.join ((n.lines symbols 0).map (· ++ "\n"))

end Node

end CallTree
