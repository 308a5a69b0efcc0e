import CallTree.Notice.Directive

/-!
Which notices are shown. A filter is a list of directives. Of those that concern a notice the most
specific one decides; a notice that none concerns is not shown.
-/
namespace CallTree

abbrev LogFilter := List Directive

namespace LogFilter

def deciding? (f : LogFilter) (target : List Char) (hasField : List Char → Bool) :
    Option Directive :=
  (f.filter (·.concerns target hasField)).foldl
    (fun best d =>
      match best with
      | none => some d
      | some b => if d.outranks b then some d else some b) none

def allowsLevel (f : LogFilter) (target : List Char) (hasField : List Char → Bool)
    (level : Level) : Bool :=
  ((f.deciding? target hasField).bind (·.level)).any fun most => level.rank ≤ most.rank

/-- Whether a notice is shown. The notice of a single call is not even made unless calls are asked
for, which is found out before its fields are known. -/
def allows (f : LogFilter) (n : Notice) : Bool :=
  let r := n.row
  let target := r.target.toList
  let hasField (name : List Char) : Bool :=
    name == "message".toList || r.fields.any (·.1.toList == name)
  f.allowsLevel target hasField r.level &&
    (!n.isCall || f.allowsLevel target (fun _ => true) r.level)

def withBase (f : LogFilter) (level : Level) : LogFilter := f ++ [{ level := some level }]

def parts (s : String) : List (List Char) := (Text.splitOn ',' s.toList).filter (!·.isEmpty)

def ofText? (s : String) : Option LogFilter :=
  (parts s).mapM fun p => (Directive.ofChars p).toOption

def ofTextLossy (s : String) : LogFilter :=
  (parts s).filterMap fun p => (Directive.ofChars p).toOption

def complaints (s : String) : List String :=
  (parts s).filterMap fun p =>
    match Directive.ofChars p with
    | .ok _ => none
    | .error e => some ("ignoring `" ++ String.ofList p ++ "`: " ++ e.message)

end LogFilter

structure Log where
  filter : Option LogFilter := none

namespace Log

def install (l : Log) (f : LogFilter) : Log × Bool :=
  match l.filter with
  | none => (⟨some f⟩, true)
  | some _ => (l, false)

def init (l : Log) (environment : String) (debug : Bool) : Log :=
  (l.install ((LogFilter.ofTextLossy environment).withBase (if debug then .trace else .warn))).1

def tryInit (l : Log) (directives : String) : Log × Bool :=
  match LogFilter.ofText? directives with
  | none => (l, false)
  | some f => l.install f

def shows (l : Log) (n : Notice) : Bool := l.filter.any (·.allows n)

end Log

end CallTree
