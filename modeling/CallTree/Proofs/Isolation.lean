import CallTree.Proofs.LocalUse
import Mathlib.Algebra.BigOperators.Group.Finset.Piecewise
import Mathlib.Algebra.GroupWithZero.Nat

/-!
Assemblers of one engine that take turns, on one thread or on several. Each does what it would do
if the others had no turns, and the engine counts the traces of all of them.
-/
namespace CallTree

/-! ### Turns -/

/-- Who takes an event: the assembler of a name, or that of the thread, used through a handle. -/
inductive Seat where
  | named (name : String)
  | own (tracer : String)

structure Turn where
  thread : Nat
  seat : Seat
  event : Event

/-- An assembler: one with a name, or one that a thread has of its own. -/
inductive Place where
  | named (name : String)
  | own (thread : Nat)
deriving DecidableEq

namespace Turn

def place (t : Turn) : Place :=
  match t.seat with
  | .named name => .named name
  | .own _ => .own t.thread

def commands (t : Turn) : List Command :=
  match t.seat with
  | .named name => [.use name, .event t.event]
  | .own tracer => [.useLocal tracer [.event t.event]]

end Turn

def Verdict.counts : Verdict → Nat × Nat
  | .none => (0, 0)
  | .dropped => (0, 1)
  | .submitted _ => (1, 0)

def Engine.settings (engine : Engine) : Thresholds × Nat := (engine.thresholds, engine.poolCapacity)

namespace Session

def tables (s : Session) : List LocalTable := s.table :: s.waiting

def exchange (s : Session) : Nat → Session
  | 0 => s
  | i + 1 =>
    match s.waiting[i]? with
    | none => s
    | some table => { s with table, waiting := s.waiting.set i s.table }

def turn (s : Session) (t : Turn) : Session :=
  ((s.exchange t.thread).runAll t.commands).1.exchange t.thread

def turns (s : Session) : List Turn → Session
  | [] => s
  | t :: ts => (s.turn t).turns ts

/-- The session in which the event of a turn meets its assembler. -/
def arrive? (s : Session) (t : Turn) : Option Session :=
  match t.seat with
  | .named name => some ((s.exchange t.thread).next (.use name))
  | .own tracer => (s.tracers.lookup tracer).bind fun handle =>
    ((s.exchange t.thread).enterLocal handle.engine).map ({ · with localTracer := tracer })

/-- The events of the turns as they meet their assemblers. -/
def moments (s : Session) : List Turn → List (Place × Moment)
  | [] => []
  | t :: ts => (((s.arrive? t).bind (·.moment? t.event)).map (t.place, ·)).toList ++
    (s.turn t).moments ts

/-- The assembler of engine `e` at a place. A thread makes its own when it first uses it. -/
def assemblerAt (s : Session) (e : EngineId) : Place → Option Assembler
  | .named name => ((s.assemblers.lookup name).filter (·.engine = e)).map (·.assembler)
  | .own i => some ((s.tables[i]?.bind (·.assembler? e)).getD (s.freshAssembler e))

def traceCounts (s : Session) (e : EngineId) : Nat × Nat :=
  ((s.engine? e).map fun engine => (engine.counters.submitted, engine.counters.dropped)).getD (0, 0)

def engineAt? (s : Session) : Seat → Option EngineId
  | .named name => (s.assemblers.lookup name).map (·.engine)
  | .own tracer => (s.tracers.lookup tracer).map (·.engine)

structure Seats (s : Session) (e : EngineId) (t : Turn) : Prop where
  thread : t.thread < s.tables.length
  engine : s.engineAt? t.seat = some e

def Idle (s : Session) : Prop := ∀ table ∈ s.tables, table.inUse = none

/-! ### Threads -/

variable {s s' s'' : Session} {e : EngineId}

theorem tables_exchange (s : Session) {i : Nat} (hi : i < s.tables.length) :
    s.tables[i]? = some (s.exchange i).table ∧
    ∀ s' : Session, s'.waiting = (s.exchange i).waiting →
      (s'.exchange i).tables = s.tables.set i s'.table := by
  cases i with
  | zero => exact ⟨rfl, fun s' h => congrArg (s'.table :: ·) h⟩
  | succ i =>
    have hlt : i < s.waiting.length := Nat.lt_of_succ_lt_succ hi
    have hexchange : s.exchange (i + 1) =
        { s with table := s.waiting[i], waiting := s.waiting.set i s.table } := by
      simp [exchange, hlt]
    refine ⟨by rw [hexchange]; exact List.getElem?_eq_getElem hlt, fun s' h => ?_⟩
    rw [hexchange] at h
    have hthere : s'.waiting[i]? = some s.table := by
      rw [h]
      simp [hlt]
    simp only [exchange, hthere, tables, List.set_cons_succ]
    rw [h, List.set_set]

theorem exchange_keeps (s : Session) (i : Nat) :
    (s.exchange i).engines = s.engines ∧ (s.exchange i).tracers = s.tracers ∧
      (s.exchange i).assemblers = s.assemblers := by
  cases i with
  | zero => exact ⟨rfl, rfl, rfl⟩
  | succ i =>
    simp only [exchange]
    split <;> exact ⟨rfl, rfl, rfl⟩

/-! ### What an event leaves alone -/

/-- The sessions have the same handles, settings and assemblers, apart from the one in use. -/
structure Leaves (e : EngineId) (s s' : Session) : Prop where
  tracers : s'.tracers = s.tracers
  waiting : s'.waiting = s.waiting
  current : s'.current = s.current
  settings : (s'.engine? e).map (·.settings) = (s.engine? e).map (·.settings)
  inUse : s'.table.inUse = s.table.inUse
  named : ∀ name, (s.table.inUse = none → name ≠ s.current) →
    s'.assemblers.lookup name = s.assemblers.lookup name
  own : s.hasTracers e → s.table.inUse = none → s'.ownAssembler e = s.ownAssembler e

theorem Leaves.refl (e : EngineId) (s : Session) : Leaves e s s :=
  ⟨rfl, rfl, rfl, rfl, rfl, fun _ _ => rfl, fun _ _ => rfl⟩

theorem Leaves.hasTracers (h : Leaves e s s') (i : EngineId) :
    s'.hasTracers i = s.hasTracers i := by
  rw [Session.hasTracers, Session.hasTracers, h.tracers]

theorem Leaves.trans (h : Leaves e s s') (h' : Leaves e s' s'') : Leaves e s s'' where
  tracers := h'.tracers.trans h.tracers
  waiting := h'.waiting.trans h.waiting
  current := h'.current.trans h.current
  settings := h'.settings.trans h.settings
  inUse := h'.inUse.trans h.inUse
  named name hname := by
    refine (h'.named name fun hfree => ?_).trans (h.named name hname)
    rw [h.current]
    exact hname (h.inUse.symm.trans hfree)
  own hhandle hfree :=
    (h'.own ((h.hasTracers e).trans hhandle) (h.inUse.trans hfree)).trans (h.own hhandle hfree)

theorem freshAssembler_congr
    (h : (s'.engine? e).map (·.settings) = (s.engine? e).map (·.settings)) :
    s'.freshAssembler e = s.freshAssembler e := by
  have hcapacity := congrArg (Option.map Prod.snd) h
  rw [Option.map_map, Option.map_map] at hcapacity
  exact congrArg (fun capacity : Option Nat => Assembler.new (capacity.getD 0)) hcapacity

theorem leaves_of_table (htracers : s'.tracers = s.tracers) (hwaiting : s'.waiting = s.waiting)
    (hcurrent : s'.current = s.current)
    (hsettings : (s'.engine? e).map (·.settings) = (s.engine? e).map (·.settings))
    (hassemblers : s'.assemblers = s.assemblers) (htable : s'.table = s.table) :
    Leaves e s s' where
  tracers := htracers
  waiting := hwaiting
  current := hcurrent
  settings := hsettings
  inUse := by rw [htable]
  named _ _ := by rw [hassemblers]
  own _ _ := by rw [ownAssembler, ownAssembler, htable, freshAssembler_congr hsettings]

theorem leaves_enterLocal {i : EngineId} (h : s.enterLocal i = some s') :
    Leaves e s s'.leaveLocal := by
  have huse := sameUse_enterLocal h
  have hentry := assembler?_enterLocal h e
  unfold enterLocal at h
  obtain ⟨table, htable, rfl⟩ := Option.map_eq_some_iff.mp h
  refine ⟨rfl, rfl, rfl, rfl, huse.inUse, fun _ _ => rfl, fun hhandle _ => ?_⟩
  show (table.assembler? e).getD (s.freshAssembler e) = _
  rw [show table.assembler? e = _ from hentry]
  split
  · rfl
  case isFalse hmiss =>
    split
    case isTrue hi =>
      rw [LocalTable.has_eq, ← hi] at hmiss
      rw [ownAssembler, Option.not_isSome_iff_eq_none.mp hmiss, hi]
      rfl
    case isFalse => rfl

theorem leaves_accept (tree : Node) (id : SinkId) (s : Session) :
    Leaves e s (accept tree id s).2 := by
  unfold accept
  split
  case h_1 => exact .refl e s
  case h_2 sink _ =>
    dsimp only
    split
    case h_2 => split <;> exact leaves_of_table rfl rfl rfl rfl rfl rfl
    case h_7 =>
      split
      case h_1 => exact leaves_of_table rfl rfl rfl rfl rfl rfl
      case h_2 s' hs' =>
        obtain ⟨i, -, hentered⟩ := Option.bind_eq_some_iff.mp hs'
        exact (leaves_enterLocal hentered).trans (leaves_of_table rfl rfl rfl rfl rfl rfl)
    all_goals exact leaves_of_table rfl rfl rfl rfl rfl rfl

theorem settings_setEngine {engine engine' : Engine} (h : s.engine? e = some engine)
    (hsettings : engine'.settings = engine.settings) :
    ((s.setEngine e engine').engine? e).map (·.settings) = (s.engine? e).map (·.settings) := by
  rw [engine?_setEngine h, h, Option.map_some, Option.map_some, hsettings]

theorem leaves_heed {engine : Engine} (h : s.engine? e = some engine) (v : Verdict) :
    Leaves e s (s.heed e engine v) := by
  cases v with
  | none => exact .refl e s
  | dropped => exact leaves_of_table rfl rfl rfl (settings_setEngine h rfl) rfl rfl
  | submitted tree =>
    have hask := askAll_keeps (Leaves.refl e) (fun h h' => Leaves.trans h h')
      (leaves_accept { tree with handle := some s.nextTree }) engine.sinks
      { s with nextTree := s.nextTree + 1 }
    have huse := askAll_keeps SameUse.refl (fun h h' => SameUse.trans h h')
      (sameUse_accept { tree with handle := some s.nextTree }) engine.sinks
      { s with nextTree := s.nextTree + 1 }
    have hnumbered : Leaves e s { s with nextTree := s.nextTree + 1 } :=
      leaves_of_table rfl rfl rfl rfl rfl rfl
    simp only [heed, submit, h]
    exact (hnumbered.trans hask).trans (leaves_of_table rfl rfl rfl
      (settings_setEngine ((huse.engine? e).trans h) rfl) rfl rfl)

theorem leaves_setAssembler (s : Session) (a : Assembler) : Leaves e s (s.setAssembler a) := by
  cases hinUse : s.table.inUse with
  | some i =>
    simp only [setAssembler, hinUse]
    exact ⟨rfl, rfl, rfl, rfl, rfl, fun _ _ => rfl, fun _ hfree => by cases hinUse.symm.trans hfree⟩
  | none =>
    simp only [setAssembler, hinUse]
    refine ⟨rfl, rfl, rfl, rfl, rfl, fun name hname => ?_, fun _ _ => rfl⟩
    have hlookup := lookup_map
      (g := fun x : String × Member =>
        (x.1, if x.1 = s.current then { x.2 with assembler := a } else x.2))
      (fun _ => rfl) s.assemblers name
    simpa [hname hinUse] using hlookup

theorem leaves_event {m : Member} {engine : Engine} (hm : s.member? = some m)
    (he : s.engine? m.engine = some engine) (event : Event) :
    Leaves m.engine s (s.event event) := by
  rw [event_eq hm he]
  generalize m.assembler.step (s.surroundings engine) event = r
  have hset : Leaves m.engine s ((s.setAssembler r.1).tell r.2.notices) :=
    (leaves_setAssembler s r.1).trans (leaves_of_table rfl rfl rfl rfl rfl rfl)
  exact hset.trans (leaves_heed ((engine?_taken s r.1 r.2.notices m.engine).trans he) _)

/-! ### One turn -/

theorem freshAssembler_exchange (s : Session) (i : Nat) (e : EngineId) :
    (s.exchange i).freshAssembler e = s.freshAssembler e := by
  rw [freshAssembler, engine?, (exchange_keeps s i).1]
  rfl

theorem assemblerAt_own (s : Session) (e : EngineId) {i : Nat} (hi : i < s.tables.length) :
    s.assemblerAt e (.own i) = some ((s.exchange i).ownAssembler e) := by
  rw [assemblerAt, (tables_exchange s hi).1, ownAssembler, freshAssembler_exchange]
  rfl

theorem assemblerAt_back {i : Nat} (hi : i < s.tables.length)
    (hwaiting : s'.waiting = (s.exchange i).waiting)
    (hsettings : (s'.engine? e).map (·.settings) = (s.engine? e).map (·.settings)) (j : Nat) :
    (s'.exchange i).assemblerAt e (.own j) =
      if j = i then some (s'.ownAssembler e) else s.assemblerAt e (.own j) := by
  have htables := (tables_exchange s hi).2 s' hwaiting
  have hfresh := freshAssembler_congr hsettings
  rw [assemblerAt, htables, freshAssembler_exchange, hfresh]
  split
  case isTrue hj =>
    rw [hj, List.getElem?_set_self hi, Option.bind_some, ownAssembler, hfresh]
  case isFalse hj => rw [List.getElem?_set_ne (Ne.symm hj), assemblerAt]

/-- Nothing but the assemblers of engine `e` and its counts may have changed. -/
structure SameSetting (e : EngineId) (s s' : Session) : Prop where
  threads : s'.tables.length = s.tables.length
  idle : s.Idle → s'.Idle
  tracers : s'.tracers = s.tracers
  settings : (s'.engine? e).map (·.settings) = (s.engine? e).map (·.settings)
  engines : ∀ name, (s'.assemblers.lookup name).map (·.engine) =
    (s.assemblers.lookup name).map (·.engine)

/-- The assembler at place `p`, if it is a thread's own, is not given up for want of handles. -/
def Stays (s : Session) (e : EngineId) (p : Place) : Prop := ∀ i, p = .own i → s.hasTracers e

/-- What a turn does: its event meets the assembler at its place, and nothing else does. -/
structure Turned (s : Session) (e : EngineId) (engine : Engine) (t : Turn) (o : Moment) : Prop where
  met : (s.arrive? t).bind (·.moment? t.event) = some o
  given : o.given = (t.event, engine.thresholds)
  before : s.assemblerAt e t.place = some o.before
  after : (s.turn t).assemblerAt e t.place = some o.after
  others : ∀ p, s.Stays e p → p ≠ t.place → (s.turn t).assemblerAt e p = s.assemblerAt e p
  same : SameSetting e s (s.turn t)
  counts : (s.turn t).traceCounts e = s.traceCounts e + o.outcome.verdict.counts

variable {engine : Engine} {m : Member}

theorem free_of_idle (hidle : s.Idle) {i : Nat} (hi : i < s.tables.length) :
    (s.exchange i).table.inUse = none :=
  hidle _ (List.mem_of_getElem? (tables_exchange s hi).1)

theorem engine?_exchange (s : Session) (i : Nat) (e : EngineId) :
    (s.exchange i).engine? e = s.engine? e := congrArg (·[e]?) (exchange_keeps s i).1

theorem assemblerAt_named (s : Session) (i : Nat) (e : EngineId) (name : String) :
    (s.exchange i).assemblerAt e (.named name) = s.assemblerAt e (.named name) := by
  rw [assemblerAt, assemblerAt, (exchange_keeps s i).2.2]

theorem sameSetting_back {i : Nat} (hi : i < s.tables.length)
    (hwaiting : s'.waiting = (s.exchange i).waiting) (hfree : s'.table.inUse = none)
    (htracers : s'.tracers = s.tracers)
    (hsettings : (s'.engine? e).map (·.settings) = (s.engine? e).map (·.settings))
    (hengines : ∀ name, (s'.assemblers.lookup name).map (·.engine) =
      (s.assemblers.lookup name).map (·.engine)) :
    SameSetting e s (s'.exchange i) := by
  obtain ⟨-, hkept, hassemblers⟩ := exchange_keeps s' i
  have htables := (tables_exchange s hi).2 s' hwaiting
  refine ⟨?_, fun hidle table htable => ?_, hkept.trans htracers, ?_, fun name => ?_⟩
  · rw [htables, List.length_set]
  · rw [htables] at htable
    rcases List.mem_or_eq_of_mem_set htable with htable | rfl
    · exact hidle table htable
    · exact hfree
  · rw [engine?_exchange, hsettings]
  · rw [hassemblers, hengines]

theorem lookup_event (hm : s.member? = some m) (he : s.engine? m.engine = some engine)
    (event : Event) (hfree : s.table.inUse = none) :
    (s.event event).assemblers.lookup s.current = some { m with
      assembler := (m.assembler.step (s.surroundings engine) event).1 } := by
  have hleaves := leaves_event hm he event
  have hmember := (took_event hm he event).member
  rwa [member?, hleaves.inUse, hfree, hleaves.current] at hmember

theorem engines_event (hm : s.member? = some m) (he : s.engine? m.engine = some engine)
    (event : Event) (name : String) :
    ((s.event event).assemblers.lookup name).map (·.engine) =
      (s.assemblers.lookup name).map (·.engine) := by
  by_cases hname : s.table.inUse = none → name ≠ s.current
  · rw [(leaves_event hm he event).named name hname]
  · obtain ⟨hfree, hcurrent⟩ := Classical.not_imp.mp hname
    obtain rfl := not_not.mp hcurrent
    rw [lookup_event hm he event hfree]
    rw [member?, hfree] at hm
    rw [show s.assemblers.lookup s.current = some m from hm]
    rfl

def afterEvent (s : Session) (event : Event) (table : LocalTable) : Session :=
  { s.event event with table, notices := [], reports := [] }

/-- The event of a turn meets the assembler that is in use in session `s₁`, and leaves the running
thread with `table`. -/
structure Meets (s : Session) (e : EngineId) (t : Turn) (s₁ : Session) (m : Member)
    (table : LocalTable) : Prop where
  arrive : s.arrive? t = some s₁
  member : s₁.member? = some m
  engine : m.engine = e
  engines : s₁.engines = s.engines
  tracers : s₁.tracers = s.tracers
  waiting : s₁.waiting = (s.exchange t.thread).waiting
  assemblers : s₁.assemblers = s.assemblers
  turn : s.turn t = (s₁.afterEvent t.event table).exchange t.thread
  free : table.inUse = none

theorem counts_verdict (o : Moment) :
    o.outcome.verdict.counts = (o.tree?.isSome.toNat, o.drops.toNat) := by
  rw [Moment.tree?, Moment.drops]
  cases o.outcome.verdict <;> rfl

section meets

variable {t : Turn} {s₁ : Session} {table : LocalTable}

theorem Meets.engine? (h : s.Meets e t s₁ m table) (hengine : s.engine? e = some engine) :
    s₁.engine? m.engine = some engine := by
  rw [Session.engine?, h.engines, h.engine]
  exact hengine

theorem Meets.settings (h : s.Meets e t s₁ m table) (hengine : s.engine? e = some engine) :
    ((s₁.afterEvent t.event table).engine? e).map (·.settings) =
      (s.engine? e).map (·.settings) := by
  obtain rfl := h.engine
  have hengine₁ := h.engine? hengine
  rw [hengine, ← hengine₁]
  exact (leaves_event h.member hengine₁ t.event).settings

theorem Meets.turned (h : s.Meets e t s₁ m table) (hengine : s.engine? e = some engine)
    (ht : s.Seats e t) (hbefore : s.assemblerAt e t.place = some m.assembler)
    (hafter : (s.turn t).assemblerAt e t.place =
      some (m.assembler.step (s₁.surroundings engine) t.event).1)
    (hothers : ∀ p, s.Stays e p → p ≠ t.place →
      (s.turn t).assemblerAt e p = s.assemblerAt e p) :
    ∃ o, s.Turned e engine t o := by
  have hengine₁ := h.engine? hengine
  have htook := took_event h.member hengine₁ t.event
  have hleaves := leaves_event h.member hengine₁ t.event
  refine ⟨⟨⟨s₁.surroundings engine, t.event⟩, m.assembler⟩, ?_, rfl, hbefore, hafter, hothers,
    ?_, ?_⟩
  · rw [h.arrive, Option.bind_some, moment?, h.member, Option.bind_some, hengine₁, Option.map_some]
  · rw [h.turn]
    refine sameSetting_back ht.thread (hleaves.waiting.trans h.waiting) h.free
      (hleaves.tracers.trans h.tracers) (h.settings hengine) fun name => ?_
    rw [← h.assemblers]
    exact engines_event h.member hengine₁ t.event name
  · rw [h.turn]
    obtain ⟨engine', hengine', hsubmitted, hdropped⟩ := htook.engine
    rw [h.engine] at hengine'
    have hthere : ((s₁.afterEvent t.event table).exchange t.thread).engine? e = some engine' :=
      (engine?_exchange _ _ e).trans hengine'
    rw [traceCounts, traceCounts, hthere, hengine, Option.map_some, Option.map_some, hsubmitted,
      hdropped, counts_verdict]
    rfl

theorem Meets.named (h : s.Meets e t s₁ m table) (name : String) :
    (s.turn t).assemblerAt e (.named name) = (((s₁.event t.event).assemblers.lookup name).filter
      (·.engine = e)).map (·.assembler) := by
  rw [h.turn, assemblerAt_named]
  rfl

theorem Meets.own (h : s.Meets e t s₁ m table) (hengine : s.engine? e = some engine)
    (ht : s.Seats e t) (j : Nat) : (s.turn t).assemblerAt e (.own j) =
      if j = t.thread then some ((s₁.afterEvent t.event table).ownAssembler e)
      else s.assemblerAt e (.own j) := by
  have hleaves := leaves_event h.member (h.engine? hengine) t.event
  have hwaiting : (s₁.afterEvent t.event table).waiting = (s.exchange t.thread).waiting :=
    hleaves.waiting.trans h.waiting
  rw [h.turn, assemblerAt_back ht.thread hwaiting (h.settings hengine)]

theorem meets_named (hidle : s.Idle) (hengine : s.engine? e = some engine) (ht : s.Seats e t)
    {name : String} (hseat : t.seat = .named name) :
    ∃ s₁ m, s.Meets e t s₁ m (s₁.event t.event).table ∧ s.assemblers.lookup name = some m ∧
      s₁.table.inUse = none ∧ s₁.current = name ∧
      s₁.ownAssembler e = (s.exchange t.thread).ownAssembler e := by
  obtain ⟨i, seat, event⟩ := t
  obtain rfl : seat = .named name := hseat
  obtain ⟨hengines, htracers, hassemblers⟩ := exchange_keeps s i
  obtain ⟨m, hm, rfl⟩ := Option.map_eq_some_iff.mp ht.engine
  obtain ⟨s₁, hs₁⟩ : ∃ s₁, s₁ = (s.exchange i).next (.use name) := ⟨_, rfl⟩
  have hcurrent : s₁.current = name := by rw [hs₁]; rfl
  have hfree : s₁.table.inUse = none := by rw [hs₁]; exact free_of_idle hidle ht.thread
  have hassemblers₁ : s₁.assemblers = s.assemblers := by rw [hs₁]; exact hassemblers
  have hmember : s₁.member? = some m := by
    rw [member?, hfree, hcurrent]
    exact (congrArg (List.lookup name) hassemblers₁).trans hm
  have hengine₁ : s₁.engine? m.engine = some engine := by
    rw [hs₁]
    exact (engine?_exchange s i m.engine).trans hengine
  refine ⟨s₁, m, ?_, hm, hfree, hcurrent, by rw [hs₁]; rfl⟩
  exact
    { arrive := by rw [hs₁]; rfl
      member := hmember
      engine := rfl
      engines := by rw [hs₁]; exact hengines
      tracers := by rw [hs₁]; exact htracers
      waiting := by rw [hs₁]; rfl
      assemblers := hassemblers₁
      turn := by rw [hs₁]; rfl
      free := (leaves_event hmember hengine₁ event).inUse.trans hfree }

theorem turned_named (hidle : s.Idle) (hengine : s.engine? e = some engine) (ht : s.Seats e t)
    {name : String} (hseat : t.seat = .named name) : ∃ o, s.Turned e engine t o := by
  obtain ⟨s₁, m, hmeets, hm, hfree, hcurrent, hown⟩ := meets_named hidle hengine ht hseat
  have hplace : t.place = .named name := by rw [Turn.place, hseat]
  have hengine₁ := hmeets.engine? hengine
  have hleaves := leaves_event hmeets.member hengine₁ t.event
  rw [hmeets.engine] at hleaves
  refine hmeets.turned hengine ht ?_ ?_ fun p hp hne => ?_
  · simp [hplace, assemblerAt, hm, hmeets.engine]
  · have hlookup := lookup_event hmeets.member hengine₁ t.event hfree
    rw [hcurrent] at hlookup
    rw [hplace, hmeets.named, hlookup]
    simp [hmeets.engine]
  · rw [hplace] at hne
    cases p with
    | named name' =>
      have hname : name' ≠ name := fun h => hne (congrArg Place.named h)
      rw [hmeets.named, hleaves.named name' fun _ => hcurrent ▸ hname, hmeets.assemblers,
        assemblerAt]
    | own j =>
      rw [hmeets.own hengine ht]
      split
      case isTrue hj =>
        rw [hj, assemblerAt_own s e ht.thread, ← hown]
        refine congrArg some (hleaves.own ?_ hfree)
        rw [hasTracers, hmeets.tracers]
        exact hp j rfl
      case isFalse => rfl

theorem meets_own (hidle : s.Idle) (ht : s.Seats e t) {tracer : String}
    (hseat : t.seat = .own tracer) :
    ∃ s₁, s.Meets e t s₁ ⟨tracer, e, (s.exchange t.thread).ownAssembler e⟩
      (s₁.event t.event).table.leave ∧ s₁.table.inUse = some e := by
  obtain ⟨i, seat, event⟩ := t
  obtain rfl : seat = .own tracer := hseat
  obtain ⟨hengines, htracers, hassemblers⟩ := exchange_keeps s i
  obtain ⟨handle, hhandle, rfl⟩ := Option.map_eq_some_iff.mp ht.engine
  obtain ⟨table, henter, hinUse, hentry⟩ :=
    enterLocal_own (s.exchange i) (free_of_idle hidle ht.thread) handle.engine
  obtain ⟨s₁, hs₁⟩ : ∃ s₁, s₁ = { s.exchange i with table, localTracer := tracer } := ⟨_, rfl⟩
  have hinUse₁ : s₁.table.inUse = some handle.engine := by rw [hs₁]; exact hinUse
  refine ⟨s₁, ?_, hinUse₁⟩
  exact
    { arrive := by simp [arrive?, hhandle, henter, hs₁]
      member := by
        rw [member?, hinUse₁, hs₁]
        simp [hentry]
      engine := rfl
      engines := by rw [hs₁]; exact hengines
      tracers := by rw [hs₁]; exact htracers
      waiting := by rw [hs₁]
      assemblers := by rw [hs₁]; exact hassemblers
      turn := by
        have hlookup : (s.exchange i).tracers.lookup tracer = some handle := htracers ▸ hhandle
        rw [hs₁, turn, Turn.commands]
        simp only [runAll, execute, hlookup, henter]
        rfl
      free := rfl }

theorem turned_own (hidle : s.Idle) (hengine : s.engine? e = some engine) (ht : s.Seats e t)
    {tracer : String} (hseat : t.seat = .own tracer) : ∃ o, s.Turned e engine t o := by
  obtain ⟨s₁, hmeets, hinUse⟩ := meets_own hidle ht hseat
  have hplace : t.place = .own t.thread := by rw [Turn.place, hseat]
  have hengine₁ := hmeets.engine? hengine
  have hleaves := leaves_event hmeets.member hengine₁ t.event
  refine hmeets.turned hengine ht (hplace ▸ assemblerAt_own s e ht.thread) ?_ fun p _ hne => ?_
  · have hleft := (took_event hmeets.member hengine₁ t.event).member
    rw [member?, hleaves.inUse, hinUse] at hleft
    obtain ⟨a, ha, hmember⟩ := Option.map_eq_some_iff.mp hleft
    obtain ⟨-, -, rfl⟩ := (Member.mk.injEq ..).mp hmember
    rw [hplace, hmeets.own hengine ht, if_pos rfl, ownAssembler]
    exact congrArg (fun b : Option Assembler => some (b.getD _)) ha
  · rw [hplace] at hne
    cases p with
    | named name =>
      have hinUse' : s₁.table.inUse = none → name ≠ s₁.current := fun hfree => by
        cases hinUse.symm.trans hfree
      rw [hmeets.named, hleaves.named name hinUse', hmeets.assemblers, assemblerAt]
    | own j =>
      have hj : j ≠ t.thread := fun h => hne (congrArg Place.own h)
      rw [hmeets.own hengine ht, if_neg hj]

theorem turned_of_seats (hidle : s.Idle) (hengine : s.engine? e = some engine)
    (ht : s.Seats e t) : ∃ o, s.Turned e engine t o := by
  cases hseat : t.seat with
  | named name => exact turned_named hidle hengine ht hseat
  | own tracer => exact turned_own hidle hengine ht hseat

end meets

/-! ### All turns -/

structure Ready (s : Session) (e : EngineId) (thresholds : Thresholds) (ts : List Turn) : Prop where
  idle : s.Idle
  engine : ∃ engine, s.engine? e = some engine ∧ engine.thresholds = thresholds
  seats : ∀ t ∈ ts, s.Seats e t

variable {thresholds : Thresholds} {t : Turn} {ts : List Turn} {p : Place} {a : Assembler}

theorem SameSetting.seats (h : SameSetting e s s') (ht : s.Seats e t) : s'.Seats e t where
  thread := h.threads ▸ ht.thread
  engine := by
    rw [← ht.engine]
    cases t.seat with
    | named name => exact h.engines name
    | own tracer => rw [engineAt?, engineAt?, h.tracers]

theorem SameSetting.stays (h : SameSetting e s s') (hp : s.Stays e p) : s'.Stays e p := by
  intro i hi
  rw [hasTracers, h.tracers]
  exact hp i hi

theorem Ready.turned (h : s.Ready e thresholds (t :: ts)) : ∃ engine o,
    s.Turned e engine t o ∧ engine.thresholds = thresholds ∧ (s.turn t).Ready e thresholds ts := by
  obtain ⟨engine, hengine, hthresholds⟩ := h.engine
  obtain ⟨o, ho⟩ := turned_of_seats h.idle hengine (h.seats t List.mem_cons_self)
  have hsettings := ho.same.settings
  rw [hengine, Option.map_some] at hsettings
  obtain ⟨engine', hengine', heq⟩ := Option.map_eq_some_iff.mp hsettings
  refine ⟨engine, o, ho, hthresholds, ho.same.idle h.idle, ⟨engine', hengine', ?_⟩,
    fun t' ht' => ?_⟩
  · exact (congrArg Prod.fst heq).trans hthresholds
  · exact ho.same.seats (h.seats t' (List.mem_cons_of_mem t ht'))

theorem Ready.filter (h : s.Ready e thresholds ts) (f : Turn → Bool) :
    s.Ready e thresholds (ts.filter f) :=
  ⟨h.idle, h.engine, fun t ht => h.seats t (List.mem_of_mem_filter ht)⟩

theorem Turned.moments {engine : Engine} {o : Moment} (h : s.Turned e engine t o)
    (ts : List Turn) : s.moments (t :: ts) = (t.place, o) :: (s.turn t).moments ts := by
  rw [Session.moments, h.met]
  rfl

theorem given_moments (h : s.Ready e thresholds ts) :
    (s.moments ts).map (fun x => (x.1, x.2.given)) =
      ts.map fun t => (t.place, t.event, thresholds) := by
  induction ts generalizing s with
  | nil => rfl
  | cons t ts ih =>
    obtain ⟨engine, o, ho, rfl, hrest⟩ := h.turned
    rw [ho.moments, List.map_cons, List.map_cons, ih hrest, ho.given]

theorem trail_moments (h : s.Ready e thresholds ts) (hp : s.Stays e p)
    (ha : s.assemblerAt e p = some a) : ∃ os,
      ((s.moments ts).filter (·.1 = p)).map (·.2) = a.trail os ∧
      (s.turns ts).assemblerAt e p = some (a.after os) ∧
      os.map (·.given) = (ts.filter (·.place = p)).map fun t => (t.event, thresholds) := by
  induction ts generalizing s a with
  | nil => exact ⟨[], rfl, ha, rfl⟩
  | cons t ts ih =>
    obtain ⟨engine, o, ho, rfl, hrest⟩ := h.turned
    rw [ho.moments, List.filter_cons, List.filter_cons, turns]
    by_cases hplace : t.place = p
    · obtain rfl := hplace
      obtain rfl := Option.some.inj (ho.before.symm.trans ha)
      obtain ⟨os, hos, hafter, hgiven⟩ := ih hrest (ho.same.stays hp) ho.after
      refine ⟨o.toOccurrence :: os, ?_, hafter, ?_⟩
      · rw [if_pos (by simp), List.map_cons, hos]
        rfl
      · rw [if_pos (by simp), List.map_cons, List.map_cons, hgiven, ho.given]
    · obtain ⟨os, hos, hafter, hgiven⟩ := ih hrest (ho.same.stays hp)
        ((ho.others p hp (Ne.symm hplace)).trans ha)
      refine ⟨os, ?_, hafter, ?_⟩ <;> rwa [if_neg (by simpa using hplace)]

theorem traceCounts_turns (h : s.Ready e thresholds ts) : (s.turns ts).traceCounts e =
    s.traceCounts e + ((s.moments ts).map (·.2.outcome.verdict.counts)).sum := by
  induction ts generalizing s with
  | nil => rfl
  | cons t ts ih =>
    obtain ⟨engine, o, ho, -, hrest⟩ := h.turned
    rw [turns, ih hrest, ho.counts, ho.moments, List.map_cons, List.sum_cons, add_assoc]

theorem Seats.assemblerAt (h : s.Seats e t) :
    s.Stays e t.place ∧ ∃ a, s.assemblerAt e t.place = some a := by
  have hengine := h.engine
  unfold Turn.place
  cases hseat : t.seat with
  | named name =>
    rw [hseat] at hengine
    obtain ⟨m, hm, rfl⟩ := Option.map_eq_some_iff.mp hengine
    refine ⟨fun i hi => ?_, m.assembler, by simp [Session.assemblerAt, hm]⟩
    cases hi
  | own tracer =>
    rw [hseat] at hengine
    exact ⟨fun i _ => hasTracers_of_lookup hengine, _, rfl⟩

theorem place_of_moments (h : s.Ready e thresholds ts) {x : Place × Moment}
    (hx : x ∈ s.moments ts) : ∃ t ∈ ts, t.place = x.1 := by
  have hgiven := List.mem_map_of_mem (f := fun x : Place × Moment => (x.1, x.2.given)) hx
  rw [given_moments h] at hgiven
  obtain ⟨t, ht, heq⟩ := List.mem_map.mp hgiven
  exact ⟨t, ht, congrArg Prod.fst heq⟩

theorem same_alone (h : s.Ready e thresholds ts)
    (hsound : ∀ p a, s.assemblerAt e p = some a → a.Sound) (ht : t ∈ ts) :
    ((s.moments ts).filter (·.1 = t.place)).map (·.2.gist) =
        (s.moments (ts.filter (·.place = t.place))).map (·.2.gist) ∧
      ((s.turns ts).assemblerAt e t.place).map (·.content) =
        ((s.turns (ts.filter (·.place = t.place))).assemblerAt e t.place).map (·.content) := by
  obtain ⟨hstays, a, ha⟩ := (h.seats t ht).assemblerAt
  have halone := h.filter (·.place = t.place)
  obtain ⟨os, hos, hafter, hgiven⟩ := trail_moments h hstays ha
  obtain ⟨os', hos', hafter', hgiven'⟩ := trail_moments halone hstays ha
  simp only [List.filter_filter, Bool.and_self] at hgiven'
  rw [← hgiven] at hgiven'
  have hall : (s.moments (ts.filter (·.place = t.place))).filter (·.1 = t.place) =
      s.moments (ts.filter (·.place = t.place)) := by
    refine List.filter_eq_self.mpr fun x hx => ?_
    obtain ⟨t', ht', hplace⟩ := place_of_moments halone hx
    rw [← hplace]
    exact (List.mem_filter.mp ht').2
  rw [hall] at hos'
  obtain ⟨hgists, hcontent⟩ := Assembler.gists_same (hsound _ a ha) (hsound _ a ha) rfl hgiven'
  rw [← hos, ← hos', List.map_map, List.map_map] at hgists
  refine ⟨hgists.symm, ?_⟩
  rw [hafter, hafter', Option.map_some, Option.map_some, hcontent]

theorem gists_alone (h : s.Ready e thresholds ts)
    (hsound : ∀ p a, s.assemblerAt e p = some a → a.Sound) (p : Place) :
    ((s.moments ts).filter (·.1 = p)).map (·.2.gist) =
      (s.moments (ts.filter (·.place = p))).map (·.2.gist) := by
  by_cases hp : ∃ t ∈ ts, t.place = p
  · obtain ⟨t, ht, rfl⟩ := hp
    exact (same_alone h hsound ht).1
  · have hnone : ts.filter (·.place = p) = [] := by simpa [List.filter_eq_nil_iff] using hp
    have hnone' : (s.moments ts).filter (·.1 = p) = [] := by
      refine List.filter_eq_nil_iff.mpr fun x hx hplace => ?_
      obtain ⟨t, ht, htx⟩ := place_of_moments h hx
      exact hp ⟨t, ht, htx.trans (of_decide_eq_true hplace)⟩
    rw [hnone, hnone']
    rfl

theorem counts_gist (o : Moment) : o.gist.2.verdict.counts = o.outcome.verdict.counts := by
  rw [Moment.gist, Outcome.content]
  cases o.outcome.verdict <;> rfl

end Session

theorem sum_filter {α β M : Type} [DecidableEq β] [AddCommMonoid M] (f : α → M) (place : α → β)
    (places : Finset β) {l : List α} (hl : ∀ x ∈ l, place x ∈ places) :
    (l.map f).sum = ∑ p ∈ places, ((l.filter (place · = p)).map f).sum := by
  induction l with
  | nil => simp
  | cons x l ih =>
    have hx := hl x List.mem_cons_self
    have hrest := ih fun y hy => hl y (List.mem_cons_of_mem x hy)
    have hcons (p : β) : (((x :: l).filter (place · = p)).map f).sum =
        (if place x = p then f x else 0) + ((l.filter (place · = p)).map f).sum := by
      rw [List.filter_cons]
      by_cases hp : place x = p <;> simp [hp]
    rw [List.map_cons, List.sum_cons, hrest, Finset.sum_congr rfl fun p _ => hcons p,
      Finset.sum_add_distrib, Finset.sum_ite_eq, if_pos hx]

open Session

/-- The assemblers of an engine do not meet. Each one finds every event, leaves every state and
tells every time what it does when the others have no turns, and the counts of the engine are the
sums of what they count then. -/
theorem assemblers_isolated (s : Session) (e : EngineId) (thresholds : Thresholds)
    (turns : List Turn) (places : Finset Place) (hready : s.Ready e thresholds turns)
    (hsound : ∀ p a, s.assemblerAt e p = some a → a.Sound)
    (hplaces : ∀ t ∈ turns, t.place ∈ places) :
    let alone (p : Place) := turns.filter (·.place = p)
    (s.moments turns).map (fun x => (x.1, x.2.given)) =
      turns.map (fun t => (t.place, t.event, thresholds)) ∧
    (∀ p, ((s.moments turns).filter (·.1 = p)).map (·.2.gist) =
      (s.moments (alone p)).map (·.2.gist)) ∧
    (∀ t ∈ turns, ((s.turns turns).assemblerAt e t.place).map (·.content) =
      ((s.turns (alone t.place)).assemblerAt e t.place).map (·.content)) ∧
    ∃ counts : Place → Nat × Nat,
      (∀ p, (s.turns (alone p)).traceCounts e = s.traceCounts e + counts p) ∧
      (s.turns turns).traceCounts e = s.traceCounts e + ∑ p ∈ places, counts p := by
  intro alone
  refine ⟨given_moments hready, gists_alone hready hsound,
    fun t ht => (same_alone hready hsound ht).2, fun p =>
      ((s.moments (alone p)).map (·.2.outcome.verdict.counts)).sum, fun p => ?_, ?_⟩
  · exact traceCounts_turns (hready.filter _)
  · have hthere : ∀ x ∈ s.moments turns, x.1 ∈ places := fun x hx => by
      obtain ⟨t, ht, hplace⟩ := place_of_moments hready hx
      exact hplace ▸ hplaces t ht
    rw [traceCounts_turns hready, sum_filter _ Prod.fst places hthere]
    refine congrArg _ (Finset.sum_congr rfl fun p _ => ?_)
    have hgists := congrArg (List.map (·.2.verdict.counts)) (gists_alone hready hsound p)
    simp only [List.map_map, Function.comp_def, counts_gist] at hgists
    rw [hgists]

def twoThreads : Session :=
  { (start { minTraceTime := 0 } true).next (.assembler "b" "t") with waiting := [{}] }

/-- Two traces that cross on two threads, while the first thread has an exit too much. -/
def crossedTurns : List Turn :=
  [⟨0, .named "a", .enter 1 1 1 0⟩, ⟨1, .own "t", .enter 2 2 2 0⟩, ⟨0, .named "a", .begin 7 0 ∅⟩,
    ⟨1, .own "t", .begin 8 0 ∅⟩, ⟨0, .own "t", .exit 5⟩, ⟨1, .named "a", .exit 300⟩,
    ⟨1, .own "t", .exit 400⟩]

theorem ready_twoThreads :
    twoThreads.Ready 0 (.ofConfig { minTraceTime := 0 }) crossedTurns := by
  have hseats : ∀ t ∈ crossedTurns, t.thread < twoThreads.tables.length ∧
      twoThreads.engineAt? t.seat = some 0 := by decide +kernel
  have hidle : ∀ table ∈ twoThreads.tables, table.inUse = none := by decide +kernel
  exact ⟨hidle, ⟨_, rfl, rfl⟩, fun t ht => ⟨(hseats t ht).1, (hseats t ht).2⟩⟩

theorem sound_twoThreads (p : Place) {a : Assembler} (ha : twoThreads.assemblerAt 0 p = some a) :
    a.Sound := by
  have hnew : a = .new 1024 := by
    cases p with
    | named name =>
      obtain ⟨m, hm, rfl⟩ := Option.map_eq_some_iff.mp ha
      obtain ⟨l, l', hl, -⟩ := List.lookup_eq_some_iff.mp (Option.filter_eq_some_iff.mp hm).1
      have hmem : (name, m) ∈ twoThreads.assemblers := by simp [hl]
      have hall : ∀ x ∈ twoThreads.assemblers, x.2.assembler = .new 1024 := by
        simp [show twoThreads.assemblers =
          [("a", ⟨"t", 0, .new 1024⟩), ("b", ⟨"t", 0, .new 1024⟩)] from rfl]
      exact hall _ hmem
    | own i =>
      have hnone : twoThreads.tables[i]?.bind (·.assembler? 0) = none := by
        match i with
        | 0 | 1 | _ + 2 => rfl
      rw [Session.assemblerAt, hnone] at ha
      exact (Option.some.inj ha).symm
  rw [hnew]
  exact Assembler.sound_new 1024

theorem assemblers_isolated_of_crossedTurns :
    let s := twoThreads
    let alone (p : Place) := crossedTurns.filter (·.place = p)
    (∀ p, ((s.moments crossedTurns).filter (·.1 = p)).map (·.2.gist) =
      (s.moments (alone p)).map (·.2.gist)) ∧
    (s.turns (alone (.named "a"))).traceCounts 0 = (1, 0) ∧
    (s.turns (alone (.own 0))).traceCounts 0 = (0, 0) ∧
    (s.turns (alone (.own 1))).traceCounts 0 = (1, 0) ∧
    (s.turns crossedTurns).traceCounts 0 = (2, 0) := by
  intro s alone
  obtain ⟨-, hgists, -, counts, halone, hall⟩ := assemblers_isolated s 0
    (.ofConfig { minTraceTime := 0 }) crossedTurns {.named "a", .own 0, .own 1} ready_twoThreads
    (fun p a => sound_twoThreads p) (by decide)
  have hnone : s.traceCounts 0 = 0 := by decide +kernel
  have ha : (s.turns (alone (.named "a"))).traceCounts 0 = (1, 0) := by decide +kernel
  have hfirst : (s.turns (alone (.own 0))).traceCounts 0 = (0, 0) := by decide +kernel
  have hsecond : (s.turns (alone (.own 1))).traceCounts 0 = (1, 0) := by decide +kernel
  refine ⟨hgists, ha, hfirst, hsecond, ?_⟩
  simp only [hnone, zero_add] at halone hall
  simp only [hall, ← halone]
  rw [Finset.sum_insert (by decide), Finset.sum_insert (by decide), Finset.sum_singleton, ha,
    hfirst, hsecond]
  rfl

end CallTree
