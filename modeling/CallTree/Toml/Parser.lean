import CallTree.Toml.Lexer

/-!
Whole TOML documents. A line gives an item to the table of the last header, opens a table or is
empty but for a comment.
-/
namespace CallTree.Toml

def number (cs : List Char) : Option (Scalar × List Char) :=
  match time cs with
  | some cs => some (.time, cs)
  | none =>
    match float cs with
    | some cs => some (.float, cs)
    | none => (integer cs).map fun (n, cs) => (.integer n, cs)

def scalar (cs : List Char) : Option (Scalar × List Char) :=
  let text (r : Option (List Char × List Char)) : Option (Scalar × List Char) :=
    r.map fun (s, cs) => (.text (String.ofList s), cs)
  match cs with
  | '"' :: '"' :: '"' :: cs => text (longBody '"' cs)
  | '"' :: cs => text (basicString (cs.length + 1) cs)
  | '\'' :: '\'' :: '\'' :: cs => text (longBody '\'' cs)
  | '\'' :: cs => text (literalString cs)
  | 't' :: _ => (word "true" cs).map fun cs => (.boolean true, cs)
  | 'f' :: _ => (word "false" cs).map fun cs => (.boolean false, cs)
  | 'i' :: _ => (word "inf" cs).map fun cs => (.float, cs)
  | 'n' :: _ => (word "nan" cs).map fun cs => (.float, cs)
  | cs => number cs

mutual

/-- Reads a value. `room` is the number of arrays and tables that it may be nested in. -/
def value (fuel room : Nat) (cs : List Char) : Option (Item × List Char) :=
  match fuel with
  | 0 => none
  | fuel + 1 =>
    match cs with
    | '[' :: cs =>
      match room with
      | 0 => none
      | room + 1 =>
        match skipLines false cs with
        | ']' :: cs => some (.array [], cs)
        | cs => (items fuel room cs).map fun (is, cs) => (.array is, cs)
    | '\x7b' :: cs =>
      match room with
      | 0 => none
      | room + 1 =>
        match skipSpace cs with
        | '\x7d' :: cs => some (.table .inline [], cs)
        | cs => (fields fuel room [] cs).map fun (es, cs) => (.table .inline es, cs)
    | cs => (scalar cs).map fun (s, cs) => (.scalar s, cs)

def items (fuel room : Nat) (cs : List Char) : Option (List Item × List Char) :=
  match fuel with
  | 0 => none
  | fuel + 1 => do
    let (item, cs) ← value fuel room cs
    match skipLines false cs with
    | ']' :: cs => return ([item], cs)
    | ',' :: cs =>
      match skipLines false cs with
      | ']' :: cs => return ([item], cs)
      | cs =>
        let (rest, cs) ← items fuel room cs
        return (item :: rest, cs)
    | _ => none

def fields (fuel room : Nat) (es : Entries) (cs : List Char) : Option (Entries × List Char) :=
  match fuel with
  | 0 => none
  | fuel + 1 => do
    let ((path, last), cs) ← key cs
    let cs ← one '=' cs
    let (item, cs) ← value fuel room (skipSpace cs)
    let es ← es.insert last item path
    match skipSpace cs with
    | '\x7d' :: cs => return (es, cs)
    | ',' :: cs => fields fuel room es cs
    | _ => none

end

structure Document where
  root : Entries := []
  header : List String := []

namespace Document

def insert (d : Document) (path : List String) (last : String) (item : Item) :
    Option Document :=
  (d.root.changeAt (·.insert last item path) d.header).map fun root => { d with root }

def openWith (d : Document) (act : String → Entries → Option Entries) (path : List String)
    (last : String) : Option Document :=
  (d.root.changeAt (act last) path).map fun root => { root, header := path ++ [last] }

def line (d : Document) (cs : List Char) : Option (Document × List Char) :=
  match cs with
  | '[' :: '[' :: cs => do
    let ((path, last), cs) ← key cs
    let cs ← (one ']' cs).bind (one ']')
    let cs ← lineEnd cs
    let d ← d.openWith (fun key es => es.openNext key) path last
    return (d, cs)
  | '[' :: cs => do
    let ((path, last), cs) ← key cs
    let cs ← one ']' cs
    let cs ← lineEnd cs
    let d ← d.openWith (fun key es => es.openTable key) path last
    return (d, cs)
  | cs => do
    let ((path, last), cs) ← key cs
    let cs ← one '=' cs
    let cs := skipSpace cs
    let (item, cs) ← value (2 * cs.length + 2) (depthLimit - 1) cs
    let cs ← lineEnd cs
    let d ← d.insert path last item
    return (d, cs)

def lines (fuel : Nat) (d : Document) (cs : List Char) : Option Document :=
  match fuel with
  | 0 => none
  | fuel + 1 =>
    match skipSpace cs with
    | [] => some d
    | '#' :: cs => (lineEnd ('#' :: cs)).bind (lines fuel d)
    | '\n' :: cs => lines fuel d cs
    | '\r' :: cs => (one '\n' cs).bind (lines fuel d)
    | cs => (line d cs).bind fun (d, cs) => lines fuel d cs

end Document

def skipMark : List Char → List Char
  | '\uFEFF' :: cs => cs
  | cs => cs

def parse? (cs : List Char) : Option Entries :=
  (Document.lines (cs.length + 1) {} (skipMark cs)).map (·.root)

end CallTree.Toml
