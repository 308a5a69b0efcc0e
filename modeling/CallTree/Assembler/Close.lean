import CallTree.Assembler.Event

/-!
What happens to a call when it closes. Its trace, if it opened one, is submitted or dropped; its
node is kept below its parent, replaced by its only child, or discarded; its calls and errors are
added to its parent in any case.
-/
namespace CallTree.Assembler

/-- Forgets an error that only passed through from the last child, and notes one that wraps it. -/
def dedupError (n : Node) : Node :=
  match n.frame.error with
  | none => n
  | some own =>
    let inner := n.lastChild?.bind (·.findError)
    if ErrorChain.same (some own) inner then
      n.mapFrame fun f => { f with error := none }.mark (.single .passesError)
    else if inner.any own.isCausedBy then n.mapFrame (·.mark (.single .wrapsError))
    else n

/-- Drops the placeholder above the innermost open call. -/
def resync (held : Nat → Bool) (pool : Pool) (top : Node) : List Node → Node × List Node × Pool
  | [] => (top, [], pool)
  | parent :: rest =>
    if top.isBusy then (top, parent :: rest, pool)
    else resync held (pool.release held top) parent rest

def resynced (held : Nat → Bool) (a : Assembler) : Assembler :=
  let (top, ancestors, pool) := resync held a.pool a.top a.ancestors
  { a with top, ancestors, pool }

structure Settled where
  node : Node
  ancestors : List Node
  verdict : Verdict
  notices : List Notice := []

def Settled.isSubmitted (s : Settled) : Bool :=
  match s.verdict with
  | .submitted _ => true
  | _ => false

/-- Decides on the trace that a closed call opened. The trace around it takes over what is
inheritable of its flags either way. -/
def settle (env : Surroundings) (n : Node) (ancestors : List Node) : Settled :=
  match n.frame.marker with
  | none => ⟨n, ancestors, .none, []⟩
  | some marker =>
    let failed := n.frame.error.isSome || n.frame.flags.has .passesError
    let submit :=
      marker.shouldSubmit n.frame.duration n.frame.calls env.thresholds.minTraceCalls
    let marker := if submit && failed then marker.mark (.single .error) else marker
    let closed := n.mapFrame fun f => { f with marker := some marker }
    let around :=
      (updateMarker (fun _ => true) (·.inherit marker.flags) ancestors).getD ancestors
    if submit then
      let tree := { closed with handle := some env.handle }
      ⟨tree, around, .submitted tree, []⟩
    else
      ⟨closed, around, .dropped,
        [.traceDropped marker.traceId n.frame.duration n.frame.calls]⟩

inductive Fate where
  | discard
  /-- It goes to the sinks only. -/
  | leave
  /-- It was worth keeping but came over the node budget. -/
  | reject
  | attach
  /-- Its only child takes its place. -/
  | elide (child : Node)
deriving Inhabited

def isRetained (t : Thresholds) (f : Frame) (traceFlags : MarkerFlags) : Bool :=
  t.minMethodTime < f.duration || 0 < f.errors || f.flags.has .forced ||
    traceFlags.has .allMethods

def substitute? (t : Thresholds) (n : Node) (traceFlags : MarkerFlags) : Option Node :=
  if traceFlags.has .dropInterim && n.isInterim then
    n.lastChild?.filter fun child =>
      !child.isTraceRoot && n.frame.duration - child.frame.duration < t.minMethodTime
  else none

def fate (t : Thresholds) (traceFlags : MarkerFlags) (parentInTrace submitted : Bool)
    (n : Node) : Fate :=
  let f := n.frame
  if parentInTrace && isRetained t f traceFlags then
    if f.flags.has .overflow then (if submitted then .leave else .reject)
    else if submitted then .attach
    else match substitute? t n traceFlags with
      | some child => .elide child
      | none => .attach
  else if submitted then .leave
  else .discard

/-- A child that takes the place of its parent, with the counts of the parent. A node that
somebody holds is left as it is and a copy takes the place. -/
def promote (held : Nat → Bool) (parent child : Node) : Node :=
  let copy := if Pool.isHeld held child then { child with handle := none } else child
  copy.mapFrame fun f => (f.countsFrom parent.frame).mark (.single .droppedParent)

def rollUp (f : Frame) (parent : Node) : Node :=
  parent.mapFrame fun p => { p with calls := p.calls + f.calls, errors := p.errors + f.errors }

def carryOut (held : Nat → Bool) (a : Assembler) (n : Node) : Fate → Assembler
  | .discard =>
    let (top, pool) := a.pool.cleanInPlace held n
    { a with top, pool, nodeCount := a.nodeCount - n.size }
  | .leave =>
    let nodeCount := a.nodeCount - n.size
    match a.ancestors with
    | [] =>
      let (top, pool) := a.pool.acquire
      { a with top, pool, nodeCount }
    | parent :: rest => { a with top := parent, ancestors := rest, nodeCount }
  | .reject =>
    let nodeCount := a.nodeCount - n.size
    match a.ancestors with
    | [] => { a with nodeCount }
    | parent :: rest =>
      { a with top := parent, ancestors := rest, nodeCount, pool := a.pool.release held n }
  | .attach =>
    match a.ancestors with
    | [] => a
    | parent :: rest => { a with top := parent.addChild n, ancestors := rest }
  | .elide child =>
    match a.ancestors with
    | [] => a
    | parent :: rest =>
      { a with
        top := parent.addChild (promote held n child)
        ancestors := rest
        nodeCount := a.nodeCount - 1
        pool := a.pool.release held { n with children := [] } }

def compact (env : Surroundings) (a : Assembler) : Assembler × Outcome :=
  let n := dedupError a.top
  let traceFlags := ((nearest? (n :: a.ancestors)).map (·.flags)).getD ∅
  let parentInTrace := a.ancestors.any (·.isTraceRoot)
  let settled := settle env n a.ancestors
  let fate := fate env.thresholds traceFlags parentInTrace settled.isSubmitted n
  let around :=
    if parentInTrace && n.frame.flags.has .overflow then
      (updateMarker (fun _ => true) (·.mark (.single .overflow)) settled.ancestors).getD
        settled.ancestors
    else settled.ancestors
  let around := around.modifyHead (rollUp n.frame)
  let a := carryOut env.held { a with top := n, ancestors := around } settled.node fate
  let a := if parentInTrace then a else { a with nodeCount := 0 }
  (a, { notices := settled.notices, verdict := settled.verdict })

def close (env : Surroundings) (time : Nat) (error : Option ErrorChain) (a : Assembler) :
    Except Rejection (Assembler × Outcome) :=
  let (top, ancestors, pool) := resync env.held a.pool a.top a.ancestors
  match top.frame.startTime with
  | none => .error .noOpenFrame
  | some start =>
    let top := match error with
      | none => top
      | some e => top.mapFrame fun f => { f with error := some e, errors := f.errors + 1 }
    let top := top.mapFrame fun f => { f with duration := time - start }
    let a := { a with top, ancestors, pool }
    let f := top.frame
    let logged :=
      if a.tracesCalls then [.exited f.classId f.methodId f.duration f.errors] else []
    let (a, outcome) := compact env a
    .ok (a, { outcome with notices := logged ++ outcome.notices })

end CallTree.Assembler
