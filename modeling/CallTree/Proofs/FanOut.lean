import CallTree.Proofs.Delivery
import CallTree.Proofs.Transparency

/-!
How an engine deals with its sinks. Every tree goes to each registration that stands, once and in
their order, whatever the sinks before it make of it, and the counters say what came of all calls.
Nothing is assumed of the sinks.
-/
namespace CallTree

variable {σ : Type}

/-! ### Operations and calls -/

structure Sinks (σ : Type) where
  accept : Node → SinkId → σ → Reply × σ
  close : SinkId → σ → Reply × σ

structure SinkCall where
  sink : SinkId
  tree? : Option Node
  response : Response

/-- The same sinks, with a record of their calls beside their state. -/
def Sinks.recorded (sinks : Sinks σ) : Sinks (σ × List SinkCall) where
  accept tree id s :=
    let r := sinks.accept tree id s.1
    (r.1, r.2, s.2 ++ [⟨id, some tree, r.1.response⟩])
  close id s :=
    let r := sinks.close id s.1
    (r.1, r.2, s.2 ++ [⟨id, none, r.1.response⟩])

inductive Operation where
  | addSink (id : SinkId)
  | removeSink (id : SinkId)
  | submit (tree : Node)
  /-- An assembler of the engine has come to a verdict. -/
  | heed (verdict : Verdict)
  | shutdown

namespace Operation

def tree? : Operation → Option Node
  | .submit tree => some tree
  | .heed (.submitted tree) => some tree
  | _ => none

def isSubmit : Operation → Bool
  | .submit _ => true
  | _ => false

def isSubmitted : Operation → Bool
  | .heed (.submitted _) => true
  | _ => false

def isDropped : Operation → Bool
  | .heed .dropped => true
  | _ => false

def ends (id : SinkId) : Operation → Bool
  | .removeSink id' => id' == id
  | .shutdown => true
  | _ => false

/-- The sinks of the registrations that no later operation has ended, in their order. -/
def standing : List Operation → List SinkId
  | [] => []
  | .addSink id :: ops => (if ops.any (ends id) then [] else [id]) ++ standing ops
  | _ :: ops => standing ops

end Operation

namespace Engine

structure Result (σ : Type) where
  engine : Engine
  answer : Bool
  state : σ

def operate (sinks : Sinks σ) (e : Engine) (s : σ) : Operation → Result σ
  | .addSink id => ⟨(e.addSink id).1, false, s⟩
  | .removeSink id => ⟨(e.removeSink id).1, (e.removeSink id).2, s⟩
  | .submit tree | .heed (.submitted tree) =>
    let r := e.submit (sinks.accept tree) s
    ⟨r.engine, r.accepted, r.state⟩
  | .heed .dropped => ⟨e.recordDropped, false, s⟩
  | .heed .none => ⟨e, false, s⟩
  | .shutdown =>
    let r := e.shutdown sinks.close s
    ⟨r.1, false, r.2.2⟩

def run (sinks : Sinks σ) : Engine → σ → List Operation → Engine × σ
  | e, s, [] => (e, s)
  | e, s, op :: ops => run sinks (e.operate sinks s op).engine (e.operate sinks s op).state ops

structure Deal where
  op : Operation
  answer : Bool
  calls : List SinkCall

def deal (sinks : Sinks σ) (e : Engine) (s : σ) (op : Operation) : Deal where
  op := op
  answer := (e.operate sinks s op).answer
  calls := (e.operate sinks.recorded (s, []) op).state.2

def deals (sinks : Sinks σ) : Engine → σ → List Operation → List Deal
  | _, _, [] => []
  | e, s, op :: ops =>
    e.deal sinks s op ::
      deals sinks (e.operate sinks s op).engine (e.operate sinks s op).state ops

def Deal.isLost (d : Deal) : Bool :=
  d.op.tree?.isSome && !d.calls.any (·.response = .accepted)

end Engine

/-! ### Asking all sinks -/

theorem length_askAll (ask : SinkId → σ → Reply × σ) (ids : List SinkId) (s : σ) :
    (askAll ask ids s).1.length = ids.length := by
  induction ids generalizing s with
  | nil => rfl
  | cons id ids ih => rw [askAll, List.length_cons, List.length_cons, ih]

theorem askAll_recorded (ask : SinkId → σ → Reply × σ)
    (ask' : SinkId → σ × List SinkCall → Reply × (σ × List SinkCall)) (tree? : Option Node)
    (hask : ∀ id s log, ask' id (s, log) =
      ((ask id s).1, (ask id s).2, log ++ [⟨id, tree?, (ask id s).1.response⟩]))
    (ids : List SinkId) (s : σ) (log : List SinkCall) :
    askAll ask' ids (s, log) = ((askAll ask ids s).1, (askAll ask ids s).2,
      log ++ List.zipWith (⟨·, tree?, ·.response⟩) ids (askAll ask ids s).1) := by
  induction ids generalizing s log with
  | nil => simp [askAll]
  | cons id ids ih =>
    rw [askAll, hask]
    simp only [ih]
    simp [askAll]

theorem map_zipWith_call (tree? : Option Node) {ids : List SinkId} {replies : List Reply}
    (h : replies.length = ids.length) :
    (List.zipWith (⟨·, tree?, ·.response⟩) ids replies : List SinkCall).map
        (fun call => (call.sink, call.tree?)) = ids.map (·, tree?) ∧
      (List.zipWith (⟨·, tree?, ·.response⟩) ids replies : List SinkCall).map (·.response) =
        replies.map (·.response) := by
  induction ids generalizing replies with
  | nil => simpa using h
  | cons id ids ih =>
    cases replies with
    | nil => cases h
    | cons reply replies =>
      obtain ⟨hcalls, hresponses⟩ := ih (Nat.succ.inj h)
      simp [hcalls, hresponses]

theorem any_response (calls : List SinkCall) {replies : List Reply}
    (h : calls.map (·.response) = replies.map (·.response)) (r : Response) :
    replies.any (·.response = r) = calls.any (·.response = r) := by
  have hany := congrArg (List.any · (· = r)) h
  simpa [List.any_map, Function.comp_def] using hany.symm

theorem countP_response (calls : List SinkCall) {replies : List Reply}
    (h : calls.map (·.response) = replies.map (·.response)) (r : Response) :
    replies.countP (·.response = r) = calls.countP (·.response = r) := by
  have hcount := congrArg (List.countP (· = r)) h
  simpa [List.countP_map, Function.comp_def] using hcount.symm

/-! ### One operation -/

namespace Engine

variable (sinks : Sinks σ) (e : Engine) (s : σ) {op : Operation}

/-- What an operation makes of the registrations `before`, of the counters and of its calls. -/
structure Handles (before : Engine) (after : Engine) (d : Deal) : Prop where
  sinks : after.sinks = before.sinks.filter (!d.op.ends ·) ++
    match d.op with
    | .addSink id => [id]
    | _ => []
  counters : after.counters = {
    submitted := before.counters.submitted + d.op.tree?.isSome.toNat
    dropped := before.counters.dropped + d.op.isDropped.toNat
    undelivered := before.counters.undelivered + d.isLost.toNat
    sinkPanics := before.counters.sinkPanics + d.calls.countP (·.response = .panicked) }

theorem operate_of_tree {tree : Node} (h : op.tree? = some tree) :
    e.operate sinks s op = ⟨(e.submit (sinks.accept tree) s).engine,
      (e.submit (sinks.accept tree) s).accepted, (e.submit (sinks.accept tree) s).state⟩ := by
  cases op with
  | submit => rw [← Option.some.inj h, operate]
  | heed verdict =>
    cases verdict with
    | submitted => rw [← Option.some.inj h, operate]
    | _ => cases h
  | _ => cases h

theorem calls_of_tree {tree : Node} (h : op.tree? = some tree) :
    (e.deal sinks s op).calls = List.zipWith (⟨·, some tree, ·.response⟩) e.sinks
      (askAll (sinks.accept tree) e.sinks s).1 := by
  have hrecorded := askAll_recorded (sinks.accept tree) (sinks.recorded.accept tree) (some tree)
    (fun _ _ _ => rfl) e.sinks s []
  show (e.operate sinks.recorded (s, []) op).state.2 = _
  rw [operate_of_tree _ _ _ h, submit]
  simp only [hrecorded, List.nil_append]

theorem calls_of_shutdown :
    (e.deal sinks s .shutdown).calls = List.zipWith (⟨·, none, ·.response⟩) e.sinks
      (askAll sinks.close e.sinks s).1 := by
  have hrecorded := askAll_recorded sinks.close sinks.recorded.close none
    (fun _ _ _ => rfl) e.sinks s []
  show (e.operate sinks.recorded (s, []) .shutdown).state.2 = _
  rw [operate, shutdown]
  simp only [hrecorded, List.nil_append]

theorem calls_of_quiet (htree : op.tree? = none) (hshutdown : op ≠ .shutdown) :
    (e.deal sinks s op).calls = [] := by
  cases op with
  | submit => cases htree
  | heed verdict =>
    cases verdict with
    | submitted => cases htree
    | _ => rfl
  | shutdown => exact absurd rfl hshutdown
  | _ => rfl

theorem deal_of_tree {tree : Node} (h : op.tree? = some tree) :
    (e.deal sinks s op).calls.map (fun call => (call.sink, call.tree?)) =
        e.sinks.map (·, some tree) ∧
      (e.deal sinks s op).answer = (e.deal sinks s op).calls.any (·.response = .accepted) := by
  obtain ⟨hcalls, hresponses⟩ := map_zipWith_call (some tree)
    (length_askAll (sinks.accept tree) e.sinks s)
  rw [← calls_of_tree sinks e s h] at hcalls hresponses
  refine ⟨hcalls, ?_⟩
  show (e.operate sinks s op).answer = _
  rw [operate_of_tree _ _ _ h, ← any_response _ hresponses]
  rfl

theorem deal_of_shutdown :
    (e.deal sinks s .shutdown).calls.map (fun call => (call.sink, call.tree?)) =
      e.sinks.map (·, none) := by
  rw [calls_of_shutdown]
  exact (map_zipWith_call none (length_askAll sinks.close e.sinks s)).1

theorem isLost_of_tree {tree : Node} (h : op.tree? = some tree) :
    (e.deal sinks s op).isLost = !(e.deal sinks s op).answer := by
  rw [(deal_of_tree sinks e s h).2]
  have htree : (e.deal sinks s op).op.tree? = some tree := h
  simp [Deal.isLost, htree]

theorem counters_of_tree (op : Operation) {tree : Node} (h : op.tree? = some tree) :
    (e.operate sinks s op).engine.sinks = e.sinks ∧
    (e.operate sinks s op).engine.counters = {
      submitted := e.counters.submitted + 1
      dropped := e.counters.dropped
      undelivered := e.counters.undelivered + (e.deal sinks s op).isLost.toNat
      sinkPanics := e.counters.sinkPanics +
        (e.deal sinks s op).calls.countP (·.response = .panicked) } := by
  obtain ⟨-, hresponses⟩ := map_zipWith_call (some tree)
    (length_askAll (sinks.accept tree) e.sinks s)
  rw [← calls_of_tree sinks e s h] at hresponses
  have hpanics := countP_response _ hresponses .panicked
  have hanswer : (e.deal sinks s op).answer = (e.operate sinks s op).answer := rfl
  rw [isLost_of_tree _ _ _ h, ← hpanics, hanswer, operate_of_tree _ _ _ h]
  refine ⟨rfl, ?_⟩
  simp only [submit, Reply.panics]
  cases ((askAll (sinks.accept tree) e.sinks s).1.any (·.response = .accepted)) <;> rfl

theorem handles_operate (op : Operation) :
    Handles e (e.operate sinks s op).engine (e.deal sinks s op) := by
  cases op with
  | addSink id => exact ⟨by simp [operate, deal, addSink, Operation.ends], rfl⟩
  | removeSink id =>
    refine ⟨?_, rfl⟩
    have hkept : (· != id) = fun x => !Operation.ends x (.removeSink id) := by
      funext x
      rw [Operation.ends, bne, BEq.comm]
    simp [operate, deal, removeSink, hkept]
  | submit tree =>
    obtain ⟨hsinks, hcounters⟩ := counters_of_tree sinks e s (.submit tree) rfl
    exact ⟨by simp [hsinks, deal, Operation.ends], hcounters⟩
  | heed verdict =>
    cases verdict with
    | none => exact ⟨by simp [operate, deal, Operation.ends], rfl⟩
    | dropped => exact ⟨by simp [operate, deal, Operation.ends, recordDropped], rfl⟩
    | submitted tree =>
      obtain ⟨hsinks, hcounters⟩ := counters_of_tree sinks e s (.heed (.submitted tree)) rfl
      exact ⟨by simp [hsinks, deal, Operation.ends], hcounters⟩
  | shutdown =>
    obtain ⟨-, hresponses⟩ := map_zipWith_call none (length_askAll sinks.close e.sinks s)
    rw [← calls_of_shutdown sinks e s] at hresponses
    have hpanics := countP_response _ hresponses .panicked
    refine ⟨by simp [operate, deal, Operation.ends, shutdown], ?_⟩
    rw [← hpanics]
    rfl

/-! ### All operations -/

theorem sinks_of_run (ops : List Operation) : (e.run sinks s ops).1.sinks =
    e.sinks.filter (fun id => !ops.any (·.ends id)) ++ Operation.standing ops := by
  induction ops generalizing e s with
  | nil => simp [run, Operation.standing]
  | cons op ops ih =>
    have hop : (e.deal sinks s op).op = op := rfl
    rw [run, ih, (handles_operate sinks e s op).sinks, hop, List.filter_append, List.filter_filter,
      List.append_assoc]
    congr 1
    · simp [Bool.and_comm]
    · cases op with
      | addSink id =>
        rw [Operation.standing, List.filter_singleton]
        cases ops.any (Operation.ends id) <;> rfl
      | _ => rfl

theorem isSome_tree? (op : Operation) :
    op.tree?.isSome.toNat = op.isSubmit.toNat + op.isSubmitted.toNat := by
  cases op with
  | heed verdict => cases verdict <;> rfl
  | _ => rfl

theorem counters_of_run (ops : List Operation) : (e.run sinks s ops).1.counters = {
    submitted := e.counters.submitted + (ops.countP (·.isSubmit) + ops.countP (·.isSubmitted))
    dropped := e.counters.dropped + ops.countP (·.isDropped)
    undelivered := e.counters.undelivered + (e.deals sinks s ops).countP (·.isLost)
    sinkPanics := e.counters.sinkPanics +
      ((e.deals sinks s ops).flatMap (·.calls)).countP (·.response = .panicked) } := by
  induction ops generalizing e s with
  | nil => rfl
  | cons op ops ih =>
    have hop : (e.deal sinks s op).op = op := rfl
    rw [run, ih, (handles_operate sinks e s op).counters, hop, isSome_tree?, deals]
    simp only [Session.countP_cons_toNat, List.flatMap_cons, List.countP_append, Counters.mk.injEq]
    omega

end Engine

/-! ### The operations of a session -/

namespace Session

def asSinks : Sinks Session := ⟨accept, closeSink⟩

def sinkNamed? (s : Session) (name : String) : Option SinkId :=
  (s.sinkId? name).filter fun id => s.sinks[id]?.isSome

def heeds? (s : Session) (e : EngineId) (event : Event) : Option Operation :=
  (s.member?.filter (·.engine = e)).bind fun m => (s.engine? e).map fun engine =>
    .heed (m.assembler.step (s.surroundings engine) event).2.verdict

/-- What a command does with engine `e`, if that has to do with its sinks. -/
def operation? (s : Session) (e : EngineId) : Command → Option Operation
  | .addSink tracer sink =>
    if (s.tracers.lookup tracer).map (·.engine) = some e then (s.sinkNamed? sink).map .addSink
    else none
  | .removeSink tracer sink =>
    if (s.tracers.lookup tracer).map (·.engine) = some e then (s.sinkNamed? sink).map .removeSink
    else none
  | .submit tracer text =>
    if (s.tracers.lookup tracer).map (·.engine) = some e then
      (Node.ofText? text).map fun tree => .submit { tree with handle := some s.nextTree }
    else none
  | .shutdown tracer =>
    if (s.tracers.lookup tracer).map (·.engine) = some e then some .shutdown else none
  | .event event => s.heeds? e event
  | .fail error time => (s.errors.lookup error).bind fun error => s.heeds? e (.fail error time)
  | _ => none

variable {s : Session} {e : EngineId} {engine : Engine}

theorem withEngine_eq (h : s.engine? e = some engine) {tracer : String}
    (hhandle : (s.tracers.lookup tracer).map (·.engine) = some e)
    (act : EngineId → Engine → Session × Answer) : s.withEngine tracer act = act e engine := by
  obtain ⟨t, ht, rfl⟩ := Option.map_eq_some_iff.mp hhandle
  simp only [withEngine, ht, h]

theorem withSink_eq {name : String} {id : SinkId} (h : s.sinkNamed? name = some id)
    (act : SinkId → SinkBehaviour → Session × Answer) :
    ∃ behaviour, s.withSink name act = act id behaviour := by
  obtain ⟨hid, hthere⟩ := Option.filter_eq_some_iff.mp h
  obtain ⟨sink, hsink⟩ := Option.isSome_iff_exists.mp hthere
  exact ⟨sink.behaviour, by simp only [withSink, hid, hsink]⟩

theorem submit_operates (h : s.engine? e = some engine) (tree : Node) (op : Operation)
    (hop : op.tree? = some { tree with handle := some s.nextTree }) :
    let r := engine.operate asSinks { s with nextTree := s.nextTree + 1 } op
    (s.submit e tree).1.engine? e = some r.engine ∧ (s.submit e tree).2 = r.answer := by
  intro r
  have huse := askAll_keeps SameUse.refl (fun h h' => SameUse.trans h h')
    (sameUse_accept { tree with handle := some s.nextTree }) engine.sinks
    { s with nextTree := s.nextTree + 1 }
  have hr := Engine.operate_of_tree asSinks engine { s with nextTree := s.nextTree + 1 } hop
  simp only [r, hr, submit, h]
  exact ⟨engine?_setEngine ((huse.engine? e).trans h) _, rfl⟩

theorem setAssembler_sameSinks (s : Session) (a : Assembler) :
    (s.setAssembler a).sinks = s.sinks ∧ (s.setAssembler a).nextTree = s.nextTree := by
  unfold setAssembler
  split <;> exact ⟨rfl, rfl⟩

theorem closeSink_engines (id : SinkId) (s : Session) : (closeSink id s).2.engines = s.engines := by
  unfold closeSink
  split <;> rfl

theorem heed_operates (h : s.engine? e = some engine) {verdict : Verdict}
    (hhandle : ∀ tree, verdict = .submitted tree → tree.handle = some s.nextTree) :
    (s.heed e engine verdict).engine? e = some (engine.operate asSinks
      { s with nextTree := s.nextTree + 1 } (.heed verdict)).engine := by
  cases verdict with
  | none => exact h
  | dropped => exact engine?_setEngine h _
  | submitted tree =>
    refine (submit_operates h tree _ ?_).1
    rw [← hhandle tree rfl]
    cases tree
    rfl

theorem event_operates (h : s.engine? e = some engine) {event : Event} {op : Operation}
    (hop : s.heeds? e event = some op) : ∃ s₀ : Session, s₀.sinks = s.sinks ∧
      (s.event event).engine? e = some (engine.operate asSinks s₀ op).engine := by
  obtain ⟨m, hfilter, hop⟩ := Option.bind_eq_some_iff.mp hop
  obtain ⟨hm, hengine⟩ := Option.filter_eq_some_iff.mp hfilter
  obtain rfl : m.engine = e := of_decide_eq_true hengine
  simp only [h, Option.map_some, Option.some.injEq] at hop
  subst hop
  have hnumber {tree : Node} : (m.assembler.step (s.surroundings engine) event).2.verdict =
      .submitted tree → tree.handle = some s.nextTree := handle_of_step
  rw [event_eq hm h]
  generalize m.assembler.step (s.surroundings engine) event = r at hnumber
  obtain ⟨hsinks, hnext⟩ := setAssembler_sameSinks s r.1
  refine ⟨_, ?_, heed_operates ((engine?_taken s r.1 r.2.notices m.engine).trans h) fun tree ht =>
    (hnumber ht).trans (congrArg some hnext.symm)⟩
  exact hsinks

theorem execute_operates (h : s.engine? e = some engine) {c : Command} {op : Operation}
    (hop : s.operation? e c = some op) : ∃ s₀ : Session, s₀.sinks = s.sinks ∧
      (s.execute c).1.engine? e = some (engine.operate asSinks s₀ op).engine ∧
      ∀ b, (s.execute c).2 = .bool b → b = (engine.operate asSinks s₀ op).answer := by
  cases c with
  | addSink tracer sink =>
    obtain ⟨hhandle, hop⟩ := Option.ite_none_right_eq_some.mp hop
    obtain ⟨id, hid, rfl⟩ := Option.map_eq_some_iff.mp hop
    obtain ⟨_, hsink⟩ := withSink_eq hid _
    refine ⟨s, rfl, ?_, ?_⟩ <;> rw [execute, withEngine_eq h hhandle, hsink]
    · exact engine?_setEngine h _
    · exact fun b hb => by cases hb
  | removeSink tracer sink =>
    obtain ⟨hhandle, hop⟩ := Option.ite_none_right_eq_some.mp hop
    obtain ⟨id, hid, rfl⟩ := Option.map_eq_some_iff.mp hop
    obtain ⟨_, hsink⟩ := withSink_eq hid _
    refine ⟨s, rfl, ?_, ?_⟩ <;> rw [execute, withEngine_eq h hhandle, hsink]
    · exact engine?_setEngine h _
    · exact fun b hb => (Answer.bool.inj hb).symm
  | submit tracer text =>
    obtain ⟨hhandle, hop⟩ := Option.ite_none_right_eq_some.mp hop
    obtain ⟨tree, htree, rfl⟩ := Option.map_eq_some_iff.mp hop
    obtain ⟨hengine, haccepted⟩ := submit_operates h tree (.submit _) rfl
    refine ⟨{ s with nextTree := s.nextTree + 1 }, rfl, ?_, ?_⟩ <;>
      rw [execute, withEngine_eq h hhandle, withTree, htree]
    · exact hengine
    · exact fun b hb => (Answer.bool.inj hb).symm.trans haccepted
  | shutdown tracer =>
    obtain ⟨hhandle, hop⟩ := Option.ite_none_right_eq_some.mp hop
    obtain rfl := Option.some.inj hop
    have hclosed := askAll_keeps (R := fun s s' : Session => s'.engines = s.engines) (fun _ => rfl)
      (fun h h' => h'.trans h) closeSink_engines engine.sinks s
    refine ⟨s, rfl, ?_, ?_⟩ <;> rw [execute, withEngine_eq h hhandle]
    · exact engine?_setEngine ((congrArg (·[e]?) hclosed).trans h) _
    · exact fun b hb => by cases hb
  | event event =>
    obtain ⟨s₀, hsinks, hevent⟩ := event_operates h hop
    exact ⟨s₀, hsinks, hevent, fun b hb => by cases hb⟩
  | fail name time =>
    obtain ⟨error, herror, hop⟩ := Option.bind_eq_some_iff.mp hop
    obtain ⟨s₀, hsinks, hevent⟩ := event_operates h hop
    refine ⟨s₀, hsinks, ?_, ?_⟩ <;> simp only [execute, herror]
    · exact hevent
    · exact fun b hb => by cases hb
  | _ => cases hop

end Session

/-- What an operation brings about when these registrations stand. -/
structure Engine.Deal.Reaches (d : Deal) (standing : List SinkId) : Prop where
  tree : ∀ tree, d.op.tree? = some tree →
    d.calls.map (fun call => (call.sink, call.tree?)) = standing.map (·, some tree) ∧
      d.answer = d.calls.any (·.response = .accepted)
  shutdown : d.op = .shutdown →
    d.calls.map (fun call => (call.sink, call.tree?)) = standing.map (·, none)
  quiet : d.op.tree? = none → d.op ≠ .shutdown → d.calls = []
  removed : ∀ id, d.op = .removeSink id → d.answer = standing.contains id

namespace Engine

theorem removeSink_answer (e : Engine) (id : SinkId) :
    (e.removeSink id).2 = e.sinks.contains id := by
  rw [removeSink, Bool.eq_iff_iff, bne_iff_ne, Ne, List.length_filter_eq_length_iff,
    List.contains_iff_mem]
  simp

theorem reaches_deal (sinks : Sinks σ) (e : Engine) (s : σ) (op : Operation) :
    (e.deal sinks s op).Reaches e.sinks where
  tree _ h := deal_of_tree sinks e s h
  shutdown h := by
    obtain rfl : op = .shutdown := h
    exact deal_of_shutdown sinks e s
  quiet htree hshutdown := calls_of_quiet sinks e s htree hshutdown
  removed id h := by
    obtain rfl : op = .removeSink id := h
    exact e.removeSink_answer id

end Engine

/-- The registrations are those that no later operation has ended, a tree goes to each of them once
and in order, and the counters say what came of all calls. What commands and events do with the
engines of a session are such operations. -/
theorem fan_out_accounted :
    (∀ {σ : Type} (sinks : Sinks σ) (c : Config) (s : σ) (ops : List Operation),
      let e := Engine.ofConfig c
      let deals := e.deals sinks s ops
      let r := e.run sinks s ops
      r.1.counters = {
        submitted := ops.countP (·.isSubmit) + ops.countP (·.isSubmitted)
        dropped := ops.countP (·.isDropped)
        undelivered := deals.countP (·.isLost)
        sinkPanics := (deals.flatMap (·.calls)).countP (·.response = .panicked) } ∧
      ∀ op, (r.1.deal sinks r.2 op).Reaches (Operation.standing ops)) ∧
    ∀ (s : Session) (e : EngineId) (engine : Engine) (command : Command) (op : Operation),
      s.engine? e = some engine → s.operation? e command = some op → ∃ s₀ : Session,
        s₀.sinks = s.sinks ∧
        (s.execute command).1.engine? e = some (engine.operate Session.asSinks s₀ op).engine ∧
        ∀ b, (s.execute command).2 = .bool b →
          b = (engine.operate Session.asSinks s₀ op).answer := by
  constructor
  · intro σ sinks c s ops e deals r
    have hnone : e.counters = {} := rfl
    have hstanding : r.1.sinks = Operation.standing ops := e.sinks_of_run sinks s ops
    refine ⟨?_, fun op => hstanding ▸ r.1.reaches_deal sinks r.2 op⟩
    simpa only [hnone, Nat.zero_add] using e.counters_of_run sinks s ops
  · exact fun s e engine command op h hop => Session.execute_operates h hop

def mixedSinks : Sinks Unit where
  accept _ id _ := (⟨if id = 0 then .accepted else if id = 1 then .refused else .panicked, []⟩, ())
  close id _ := (⟨if id ≤ 1 then .accepted else .panicked, []⟩, ())

/-- A sink that panics stands before and after one that accepts, until that one is removed. -/
def mixedUse (tree : Node) : List Operation :=
  [.addSink 2, .addSink 0, .addSink 1, .addSink 2, .submit tree, .removeSink 0,
    .heed (.submitted tree), .heed .dropped]

theorem fan_out_accounted_of_mixedUse :
    let r := (Engine.ofConfig {}).run mixedSinks () (mixedUse {})
    let d := r.1.deal mixedSinks r.2 (.submit {})
    let s := Session.start {} true
    r.1.counters = { submitted := 2, dropped := 1, undelivered := 1, sinkPanics := 4 } ∧
    d.calls.map (·.sink) = [2, 1, 2] ∧
    d.answer = false ∧
    ((s.execute (.shutdown "t")).1.engine? 0).map (·.sinks) = some [] := by
  intro r d s
  obtain ⟨hengines, hsessions⟩ := fan_out_accounted
  obtain ⟨hcounters, hreaches⟩ := hengines mixedSinks {} () (mixedUse {})
  obtain ⟨hcalls, hanswer⟩ := (hreaches (.submit {})).tree {} rfl
  refine ⟨hcounters.trans (by decide), ?_, hanswer.trans (by decide), ?_⟩
  · have hsinks := congrArg (List.map Prod.fst) hcalls
    rwa [List.map_map] at hsinks
  · obtain ⟨s₀, -, hengine, -⟩ := hsessions s 0 _ (.shutdown "t") .shutdown rfl (by rfl)
    rw [hengine]
    rfl

end CallTree
