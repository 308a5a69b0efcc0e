import CallTree.Text.Pattern.Escape

/-!
Classes of a regular expression: characters, ranges and other classes in brackets, and what two
rows of them have in common, what only one or what exactly one of them has.
-/
namespace CallTree.Text.Pattern

/-- How deep several things nest that stand side by side. A single one adds nothing. -/
def sideBySide : List Nat → Nat
  | [] => 0
  | [n] => n
  | ns => ns.foldl max 0 + 1

structure ClassPart where
  nesting : Nat := 0
  /-- The bytes beyond ASCII are in it: all or none of them are. -/
  wide : Bool := false

inductive SetOperator where
  | intersection
  | difference
  | symmetricDifference

def SetOperator.apply (op : SetOperator) (l r : ClassPart) : ClassPart where
  nesting := max l.nesting r.nesting + 1
  wide :=
    match op with
    | .intersection => l.wide && r.wide
    | .difference => l.wide && !r.wide
    | .symmetricDifference => l.wide != r.wide

def setOperator? : List Char → Option (SetOperator × List Char)
  | '&' :: '&' :: cs => some (.intersection, cs)
  | '-' :: '-' :: cs => some (.difference, cs)
  | '~' :: '~' :: cs => some (.symmetricDifference, cs)
  | _ => none

structure OpenClass where
  negated : Bool
  /-- A hyphen or a first closing bracket stands for itself. -/
  atStart : Bool := true
  left : Option (ClassPart × SetOperator) := none
  items : List ClassPart := []

namespace OpenClass

def read (m : Mode) (cs : List Char) : OpenClass × List Char :=
  match m.skip cs with
  | '^' :: cs => (⟨true, true, none, []⟩, cs)
  | cs => (⟨false, true, none, []⟩, cs)

def add (k : OpenClass) (item : ClassPart) : OpenClass :=
  { k with atStart := false, items := item :: k.items }

def part (k : OpenClass) : ClassPart :=
  let items : ClassPart := ⟨sideBySide (k.items.map (·.nesting)), k.items.any (·.wide)⟩
  match k.left with
  | none => items
  | some (left, op) => op.apply left items

def operate (k : OpenClass) (op : SetOperator) : OpenClass :=
  { k with atStart := false, left := some (k.part, op), items := [] }

/-- The class, unless it has bytes that are half a character. -/
def close? (k : OpenClass) (m : Mode) : Option ClassPart :=
  let part := k.part
  let wide := part.wide != k.negated
  if wide && !m.unicode then none else some ⟨part.nesting + 1, wide⟩

end OpenClass

def classNames : List (List Char) :=
  ["alnum".toList, "alpha".toList, "ascii".toList, "blank".toList, "cntrl".toList, "digit".toList,
    "graph".toList, "lower".toList, "print".toList, "punct".toList, "space".toList, "upper".toList,
    "word".toList, "xdigit".toList]

def namedClass? (cs : List Char) : Option (Bool × List Char) :=
  let named (negated : Bool) (cs : List Char) : Option (Bool × List Char) :=
    let name := cs.takeWhile (· != ':')
    match cs.drop name.length with
    | ':' :: ']' :: rest => if name ∈ classNames then some (negated, rest) else none
    | _ => none
  match cs with
  | ':' :: '^' :: cs => named true cs
  | ':' :: cs => named false cs
  | _ => none

def classItem? (m : Mode) : List Char → Option (Escape × List Char)
  | [] => none
  | '\\' :: cs => escape? m cs
  | c :: cs => some (.char c false, cs)

def classRange? (m : Mode) (cs : List Char) : Option (List Char) := do
  let (first, cs) ← classItem? m cs
  let single : Option (List Char) := if first.isItem m then some cs else none
  match m.skip cs with
  | '-' :: after =>
    if m.peek? after ∈ [some ']', some '-'] then single
    else
      let (last, cs) ← classItem? m (m.skip after)
      match first, last with
      | .char a _, .char b _ =>
        if a ≤ b && m.admitsItem a && m.admitsItem b then some cs else none
      | _, _ => none
  | _ => single

def classRest? (m : Mode) (fuel : Nat) (k : OpenClass) (cs : List Char) :
    Option (ClassPart × List Char) :=
  match fuel with
  | 0 => none
  | fuel + 1 =>
    match m.skip cs with
    | [] => none
    | c :: rest =>
      if k.atStart && (c == '-' || c == ']' && k.items.isEmpty) then
        if m.admitsItem c then classRest? m fuel { k.add {} with atStart := c == '-' } rest
        else none
      else if c == ']' then (k.close? m).map (·, rest)
      else if c == '[' then
        match namedClass? rest with
        | some (negated, rest) =>
          if m.admitsItem c then classRest? m fuel (k.add ⟨0, negated⟩) rest else none
        | none =>
          let (inner, rest) := OpenClass.read m rest
          (classRest? m fuel inner rest).bind fun (part, rest) =>
            classRest? m fuel (k.add part) rest
      else match setOperator? (c :: rest) with
        | some (op, rest) => classRest? m fuel (k.operate op) rest
        | none => (classRange? m (c :: rest)).bind (classRest? m fuel (k.add {}))

def class? (m : Mode) (cs : List Char) : Option (ClassPart × List Char) :=
  let (k, rest) := OpenClass.read m cs
  classRest? m (cs.length + 1) k rest

end CallTree.Text.Pattern
