import CallTree.Notice
import CallTree.Text.Alphanumeric
import CallTree.Text.Blank
import CallTree.Text.Bytes
import CallTree.Text.Digits
import CallTree.Text.Pattern
import CallTree.Text.Split

/-!
Directives of a log filter: `level`, `target`, `target=level` and `target[span{field=value}]=level`,
where the parts in brackets and the target may be missing. A directive without a level asks for
everything.
-/
namespace CallTree

structure Directive where
  target : List Char := []
  span : Option (List Char) := none
  /-- The field that it asks for, and whether that has to have a certain value. -/
  field : Option (List Char × Bool) := none
  level : Option Level := some .trace
deriving DecidableEq

inductive DirectiveError where
  | form
  | level
  | value
deriving DecidableEq

def DirectiveError.message : DirectiveError → String
  | .form => "invalid filter directive"
  | .level =>
    "error parsing level filter: expected one of \"off\", \"error\", \"warn\", \"info\", " ++
      "\"debug\", \"trace\", or a number 0-5"
  | .value => "invalid field filter"

namespace Directive

/-- The names of the levels. The place of a level in the list is its number. -/
def levels : List (List Char × Option Level) :=
  [("off".toList, none), ("error".toList, some .error), ("warn".toList, some .warn),
    ("info".toList, some .info), ("debug".toList, some .debug), ("trace".toList, some .trace)]

def skipPlus : List Char → List Char
  | '+' :: cs => cs
  | cs => cs

def level? (cs : List Char) : Option (Option Level) :=
  match (Digits.read? 10 (skipPlus cs)).bind (levels[·]?) with
  | some (_, level) => some level
  | none => levels.lookup (cs.map Char.toLower)

def ofLevel (d : Directive) (cs : List Char) : Except DirectiveError Directive :=
  if cs.isEmpty then .ok d
  else match level? cs with
    | some level => .ok { d with level }
    | none => .error .level

def isNumber (cs : List Char) : Bool :=
  let digits (cs : List Char) : Bool := cs.all Char.isDigit
  let mantissa (cs : List Char) : Bool :=
    match Text.splitOn '.' cs with
    | [whole] => !whole.isEmpty && digits whole
    | [whole, fraction] =>
      !(whole.isEmpty && fraction.isEmpty) && digits whole && digits fraction
    | _ => false
  let exponent : List Char → Bool
    | '+' :: cs => !cs.isEmpty && digits cs
    | '-' :: cs => !cs.isEmpty && digits cs
    | cs => !cs.isEmpty && digits cs
  let lower := cs.map Char.toLower
  if ["inf".toList, "infinity".toList, "nan".toList].contains lower then true
  else match Text.splitOn 'e' lower with
    | [m] => mantissa m
    | [m, e] => mantissa m && exponent e
    | _ => false

def ofField (d : Directive) (cs : List Char) : Except DirectiveError Directive :=
  match Text.splitOn '=' cs with
  | name :: value :: _ =>
    if Text.isPattern value || isNumber (skipPlus value) then
      .ok { d with field := some (name, true) }
    else .error .value
  | _ => if cs.isEmpty then .error .form else .ok { d with field := some (cs, false) }

/-- Reads what follows the brackets. Places count from the first character that is not blank, and
the parts between them are cut from the whole text. -/
def afterBrackets (text : List Char) (d : Directive) (place : Nat) :
    List Char → Except DirectiveError Directive
  | [] => .ok d
  | '=' :: _ => d.ofLevel (Text.dropBytes (place + 1) text)
  | _ => .error .form

def inBrackets (text : List Char) (d : Directive) (place : Nat) (cs : List Char) :
    Except DirectiveError Directive :=
  let name := cs.takeWhile fun c => c != ']' && c != '\x7b'
  let nameEnd := place + Text.byteSize name
  let span := Text.cut place nameEnd text
  match cs.drop name.length with
  | ']' :: rest => afterBrackets text { d with span := some span } (nameEnd + 1) rest
  | '\x7b' :: rest =>
    let field := rest.takeWhile (· != '\x7d')
    let fieldEnd := nameEnd + 1 + Text.byteSize field
    let d := { d with span := if span.isEmpty then none else some span }
    match rest.drop field.length with
    | _ :: rest => do
      let d ← d.ofField (Text.cut (nameEnd + 1) fieldEnd text)
      match rest with
      | ']' :: rest => afterBrackets text d (fieldEnd + 2) rest
      | _ => .error .form
    | [] => .error .form
  | _ => .error .form

def isFirst (c : Char) : Bool := c == '-' || c == ':' || c == '_' || Text.isAlphanumeric c

/-- Reads a directive. A single word that is no level is a target. -/
def ofChars (text : List Char) : Except DirectiveError Directive :=
  let cs := Text.trim text
  let word := cs.takeWhile fun c => c != '=' && c != '['
  let wordEnd := Text.byteSize word
  let target := Text.cut 0 wordEnd text
  match cs with
  | [] => .error .form
  | '[' :: rest => inBrackets text {} 1 rest
  | first :: _ =>
    if !isFirst first then .error .form
    else match cs.drop word.length with
      | '=' :: _ => ({ target } : Directive).ofLevel (Text.dropBytes (wordEnd + 1) text)
      | _ :: rest => inBrackets text { target } (wordEnd + 1) rest
      | [] =>
        match level? text with
        | some level => .ok { level }
        | none => .ok { target := text }

/-- Whether the directive speaks of rows of a target that have certain fields. One that asks for a
span, or for the value of a field, speaks of none. -/
def concerns (d : Directive) (target : List Char) (hasField : List Char → Bool) : Bool :=
  d.span.isNone && d.target.isPrefixOf target && d.field.all fun (name, valued) =>
    !valued && hasField name

/-- Whether a directive counts more than an earlier one that speaks of the same rows: the longer
target does, then the one with a field, then the later name of a field, then the later
directive. -/
def outranks (d earlier : Directive) : Bool :=
  if d.target.length ≠ earlier.target.length then earlier.target.length < d.target.length
  else match earlier.field, d.field with
    | none, _ => true
    | some _, none => false
    | some (old, _), some (new, _) => !new.lex old

end Directive

end CallTree
