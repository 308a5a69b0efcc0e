import CallTree.Text.Alphanumeric
import CallTree.Text.Pattern.Class

/-!
Regular expressions, only so far as to tell whether a text is one. No counted repetitions are
admitted, and no class is known by a Unicode property.
-/
namespace CallTree.Text

namespace Pattern

inductive Opening where
  | flags (m : Mode)
  | group (m : Mode) (name : Option (List Char))

/-- Whether a character may stand in the name of a group. No name begins with a numeral or a mark
other than the underscore. -/
def isNameChar (isFirst : Bool) (c : Char) : Bool :=
  c == '_' || if isFirst then isAlphabetic c
    else c == '.' || c == '[' || c == ']' || isAlphanumeric c

def groupName? (cs : List Char) : Option (List Char × List Char) :=
  let name := cs.takeWhile (· != '>')
  match name, cs.drop name.length with
  | c :: more, _ :: rest =>
    if isNameChar true c && more.all (isNameChar false) then some (name, rest) else none
  | _, _ => none

def Mode.set (m : Mode) (flags : List Char) : Mode :=
  let on := flags.takeWhile (· != '-')
  let off := flags.dropWhile (· != '-')
  let value (flag : Char) (before : Bool) : Bool :=
    flag ∈ on || (before && flag ∉ off)
  ⟨value 'u' m.unicode, value 'i' m.foldCase, value 'x' m.spaced⟩

/-- Whether flags are all known and different, with something after a hyphen. -/
def areFlags (flags : List Char) : Bool :=
  flags.all ("imsUuRx-".toList.contains ·) && flags.eraseDups.length == flags.length &&
    flags.getLast? != some '-'

def opening? (m : Mode) (cs : List Char) : Option (Opening × List Char) :=
  let named (cs : List Char) : Option (Opening × List Char) :=
    (groupName? cs).map fun (name, cs) => (.group m (some name), cs)
  match m.skip cs with
  | '?' :: 'P' :: '<' :: cs => named cs
  | '?' :: '<' :: cs => named cs
  | '?' :: cs =>
    let flags := cs.takeWhile fun c => c != ':' && c != ')'
    if !areFlags flags then none
    else match cs.drop flags.length with
      | ':' :: cs => some (.group (m.set flags) none, cs)
      | ')' :: cs => if flags.isEmpty then none else some (.flags (m.set flags), cs)
      | _ => none
  | cs => some (.group m none, cs)

structure Item where
  nesting : Nat := 0
  repeatable : Bool := true

/-- The inside of a group: the alternatives that are complete, and the items of the last one, the
last item first. -/
structure Branches where
  complete : List Nat := []
  items : List Item := []

namespace Branches

def add (b : Branches) (item : Item) : Branches := { b with items := item :: b.items }

def lastNesting (b : Branches) : Nat := sideBySide (b.items.map (·.nesting))

def next (b : Branches) : Branches := ⟨b.lastNesting :: b.complete, []⟩

def nesting (b : Branches) : Nat := sideBySide (b.lastNesting :: b.complete)

def repeat? (b : Branches) : Option Branches :=
  match b.items with
  | ⟨n, true⟩ :: items => some { b with items := ⟨n + 1, true⟩ :: items }
  | _ => none

end Branches

structure Scan where
  mode : Mode := {}
  names : List (List Char) := []
  branches : Branches := {}
  /-- What stands before the open groups, and the mode that it is in, from the inside out. -/
  outer : List (Mode × Branches) := []

namespace Scan

def add (s : Scan) (item : Item) : Scan := { s with branches := s.branches.add item }

def enter? (s : Scan) : Opening → Option Scan
  | .flags m => some { s.add ⟨0, false⟩ with mode := m }
  | .group m name =>
    if name.any s.names.contains then none
    else some ⟨m, name.toList ++ s.names, {}, (s.mode, s.branches) :: s.outer⟩

def leave? (s : Scan) : Option Scan :=
  match s.outer with
  | [] => none
  | (mode, branches) :: outer =>
    some { s with mode, branches := branches.add ⟨s.branches.nesting + 1, true⟩, outer }

def nestingLimit : Nat := 250

def isComplete (s : Scan) : Bool := s.outer.isEmpty && s.branches.nesting ≤ nestingLimit

/-- Reads the next item, bracket or operator. A question mark after a repetition belongs to it. -/
def step? (s : Scan) (c : Char) (rest : List Char) : Option (Scan × List Char) :=
  let item (isAdmitted : Bool) (rest : List Char) : Option (Scan × List Char) :=
    if isAdmitted then some (s.add {}, rest) else none
  match c with
  | '(' => do
    let (opening, rest) ← opening? s.mode rest
    return (← s.enter? opening, rest)
  | ')' => s.leave?.map (·, rest)
  | '|' => some ({ s with branches := s.branches.next }, rest)
  | '[' => (class? s.mode rest).map fun (part, rest) => (s.add ⟨part.nesting, true⟩, rest)
  | '\\' => (escape? s.mode rest).bind fun (e, rest) => item (e.isAdmitted s.mode) rest
  | '\x7b' => none
  | '.' => item s.mode.unicode rest
  | '^' => item true rest
  | '$' => item true rest
  | c =>
    if c ∈ ['*', '+', '?'] then do
      let branches ← s.branches.repeat?
      return ({ s with branches }, if rest.head? = some '?' then rest.tail else rest)
    else item (s.mode.admits c false) rest

def isCompletedBy (fuel : Nat) (s : Scan) (cs : List Char) : Bool :=
  match fuel with
  | 0 => false
  | fuel + 1 =>
    match s.mode.skip cs with
    | [] => s.isComplete
    | c :: rest => (s.step? c rest).any fun (s, rest) => isCompletedBy fuel s rest

end Scan

end Pattern

def isPattern (cs : List Char) : Bool := Pattern.Scan.isCompletedBy (cs.length + 1) {} cs

end CallTree.Text
