import CallTree.Keyed

/-!
TOML documents: tables of scalars, arrays and tables, and how keys and headers add to them. A
table remembers how it came about, since that decides who may add to it later.
-/
namespace CallTree.Toml

/-- A value without parts. What a float or a time says is not kept. -/
inductive Scalar where
  | text (s : String)
  | integer (n : Int)
  | boolean (b : Bool)
  | float
  | time

inductive Origin where
  | header
  | path
  | dotted
  /-- Written in braces; nothing can be added. -/
  | inline
deriving DecidableEq

inductive Item where
  | scalar (s : Scalar)
  | array (items : List Item)
  | table (origin : Origin) (entries : List (String × Item))
  | tables (items : List (List (String × Item)))

abbrev Entries := List (String × Item)

namespace Entries

def put (es : Entries) (key : String) (item : Item) : Entries := Keyed.put key item es

def add (key : String) (item : Item) (es : Entries) : Option Entries :=
  if (es.lookup key).isSome then none else some (es ++ [(key, item)])

def changeLast (change : Entries → Option Entries) (tables : List Entries) :
    Option (List Entries) :=
  match tables.reverse with
  | [] => none
  | last :: before => (change last).map fun t => before.reverse ++ [t]

/-- Adds an item under a dotted key. The tables that the key passes through must not have headers
of their own, and the last of them must be the work of dotted keys alone. -/
def insert (key : String) (item : Item) : List String → Entries → Option Entries
  | [], es => es.add key item
  | k :: ks, es =>
    match es.lookup k with
    | none => (insert key item ks []).map fun t => es ++ [(k, .table .dotted t)]
    | some (.table .dotted t) =>
      (insert key item ks t).map fun t => es.put k (.table .dotted t)
    | some (.table .path t) =>
      if ks.isEmpty then none
      else (insert key item ks t).map fun t => es.put k (.table .path t)
    | some (.tables ts) =>
      if ks.isEmpty then none
      else (changeLast (insert key item ks) ts).map fun ts => es.put k (.tables ts)
    | _ => none

def changeAt (change : Entries → Option Entries) : List String → Entries → Option Entries
  | [], es => change es
  | k :: ks, es =>
    match es.lookup k with
    | none => (changeAt change ks []).map fun t => es ++ [(k, .table .path t)]
    | some (.table .inline _) => none
    | some (.table origin t) =>
      (changeAt change ks t).map fun t => es.put k (.table origin t)
    | some (.tables ts) =>
      (changeLast (changeAt change ks) ts).map fun ts => es.put k (.tables ts)
    | _ => none

/-- Opens the table of a header. It may be there if only other headers went through it. -/
def openTable (key : String) (es : Entries) : Option Entries :=
  match es.lookup key with
  | none => some (es ++ [(key, .table .header [])])
  | some (.table .path t) => some (es.put key (.table .header t))
  | _ => none

def openNext (key : String) (es : Entries) : Option Entries :=
  match es.lookup key with
  | none => some (es ++ [(key, .tables [[]])])
  | some (.tables ts) => some (es.put key (.tables (ts ++ [[]])))
  | _ => none

end Entries

end CallTree.Toml
