import CallTree.Assembler.Close

/-!
One step of an assembler. An event that cannot be acted upon changes nothing and is reported; a
disabled assembler takes notice of nothing but being enabled.
-/
namespace CallTree.Assembler

/-- Opens a trace on the top slot. A trace inside another one inherits its threshold and flags;
an outermost one starts the count of nodes again. -/
def openTrace (t : Thresholds) (traceId : SymbolId) (clock : Nat) (flags : MarkerFlags)
    (a : Assembler) : Except Rejection Assembler :=
  match a.top.frame.marker with
  | some existing => .error (.markerAlreadySet existing.traceId traceId)
  | none =>
    let outer := nearest? a.ancestors
    let marker := match outer with
      | some outer => Marker.nested traceId clock outer
      | none => { traceId, clock, minimumTime := t.minTraceTime }
    let marker := marker.mark flags
    let marker := if t.dropInterim then marker.mark (.single .dropInterim) else marker
    let nodeCount := match outer with
      | some _ => a.nodeCount
      | none => if a.top.isBusy then 1 else 0
    .ok { a with
      top := a.top.mapFrame fun f =>
        { f with marker := some marker }.mark (.single .opensTrace)
      nodeCount }

def push (a : Assembler) : Assembler :=
  if a.top.isBusy then
    let (top, pool) := a.pool.acquire
    { a with top, ancestors := a.top :: a.ancestors, pool }
  else a

def enter (t : Thresholds) (classId methodId signatureId : SymbolId) (time : Nat)
    (a : Assembler) : Assembler × Outcome :=
  let a := a.push
  let inTrace := 0 < a.nodeCount || a.top.isTraceRoot
  let nodeCount := if inTrace then a.nodeCount + 1 else a.nodeCount
  let entered (f : Frame) : Frame :=
    { f with classId, methodId, signatureId, startTime := some time, calls := f.calls + 1 }
  let top := a.top.mapFrame entered
  let top :=
    if inTrace && t.maxTraceRecords < nodeCount then top.mapFrame (·.mark (.single .overflow))
    else top
  let a := { a with top, nodeCount }
  (a, { notices :=
    if a.tracesCalls then [.entered classId methodId a.ancestors.length time] else [] })

def mapMarker (p : Marker → Bool) (g : Marker → Marker) (a : Assembler) : Assembler :=
  ((updateMarker p g a.slots).map a.withSlots).getD a

/-- The answer of an enabled assembler to an event. A return looks for its call before it can be
refused. -/
def handle (env : Surroundings) (a : Assembler) : Event → Assembler × Outcome
  | .enter classId methodId signatureId time =>
    a.enter env.thresholds classId methodId signatureId time
  | .exit time =>
    match a.close env time none with
    | .ok r => r
    | .error why => (a.resynced env.held, { notices := [.returnIgnored time why] })
  | .fail error time =>
    match a.close env time (some error) with
    | .ok r => r
    | .error why => (a.resynced env.held, { notices := [.errorIgnored time why] })
  | .begin traceId clock flags =>
    match a.openTrace env.thresholds traceId clock flags with
    | .ok a => (a, {})
    | .error why =>
      let f := a.top.frame
      (a, { notices := [.beginIgnored traceId f.classId f.methodId why] })
  | .attr target id value =>
    match a.updateFrame target.isMet (·.setAttr id value) with
    | some a => (a, {})
    | none => (a, { notices := [.attributeDropped id target .noMatchingFrame] })
  | .minimumTime nanos =>
    (a.mapMarker (fun _ => true) ({ · with minimumTime := nanos }), {})
  | .markTrace traceId flags =>
    (a.mapMarker (fun m => traceId.all (m.traceId == ·)) (·.mark flags), {})
  | .markFrame flags => ((a.updateFrame (fun _ => true) (·.mark flags)).getD a, {})
  | .correlate context =>
    (a.mapMarker (fun _ => true) ({ · with context := some context }), {})
  | .disable => ({ a with enabled := false }, {})
  | .enable => (a, {})

def step (env : Surroundings) (a : Assembler) (e : Event) : Assembler × Outcome :=
  if a.enabled then a.handle env e
  else match e with
    | .enable => ({ a with enabled := true }, {})
    | _ => (a, {})

end CallTree.Assembler
