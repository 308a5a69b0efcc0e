import CallTree.Proofs.Accounting
import CallTree.Proofs.Content
import CallTree.Session.Command

/-!
Pools and sinks do not show in the work of an assembler. Two runs with the same events and settings
show the same at every step, whatever their pools keep and whoever holds the submitted trees. Two
sessions that differ in their pools and sinks give the same answers about the calls, and hand the
same trees to their sinks in the same order.
-/
namespace CallTree

def Occurrence.given (o : Occurrence) : Event × Thresholds := (o.event, o.env.thresholds)

/-- What an assembler answers when it is asked, its pool apart. -/
structure Sight where
  depth : Nat
  nodeCount : Nat
  top : Node
  enabled : Bool
  inAnyTrace : Bool
  isInTrace : SymbolId → Bool
  text : String

/-- What an event shows: the state that it leaves, the notices, those of rejected events among
them, and the content of the tree that it submits. -/
structure Shown where
  after : Sight
  notices : List Notice
  tree? : Option Node
  drops : Bool

namespace Assembler

def sight (a : Assembler) : Sight where
  depth := a.depth
  nodeCount := a.nodeCount
  top := a.top.content
  enabled := a.enabled
  inAnyTrace := a.inAnyTrace
  isInTrace := a.isInTrace
  text := a.describe

theorem content_inAnyTrace (a : Assembler) : a.content.inAnyTrace = a.inAnyTrace := by
  rw [inAnyTrace, content_slots, map_content_nearest]
  rfl

theorem content_isInTrace (a : Assembler) (id : SymbolId) :
    a.content.isInTrace id = a.isInTrace id := by
  have hmarkers : a.content.markers = a.markers := by
    rw [markers, content_slots, List.filterMap_map]
    simp only [Function.comp_def, Node.content_frame]
    rfl
  rw [isInTrace, hmarkers]
  rfl

theorem describe_congr {a b : Assembler} (hdepth : a.depth = b.depth)
    (hcount : a.nodeCount = b.nodeCount) (henabled : a.enabled = b.enabled) :
    a.describe = b.describe := by
  unfold describe
  rw [hdepth, hcount, henabled]

theorem content_describe (a : Assembler) : a.content.describe = a.describe :=
  describe_congr (content_depth a) rfl rfl

theorem content_sight (a : Assembler) : a.content.sight = a.sight := by
  simp only [sight, content_depth, content_inAnyTrace, funext (content_isInTrace a),
    content_describe]
  simp [content]

theorem sight_same {a b : Assembler} (h : a.content = b.content) : a.sight = b.sight := by
  rw [← content_sight, h, content_sight]

end Assembler

def Moment.shown (m : Moment) : Shown where
  after := m.after.sight
  notices := m.outcome.notices
  tree? := m.tree?.map Node.content
  drops := m.drops

namespace Moment

def gist (m : Moment) : Assembler × Outcome := (m.after.content, m.outcome.content)

theorem content_same {o o' : Occurrence} (hgiven : o.given = o'.given) {a a' : Assembler}
    (hcontent : a.content = a'.content) (h : a.Sound) (h' : a'.Sound) :
    (Moment.mk o a).after.content = (Moment.mk o' a').after.content ∧
      (Moment.mk o a).outcome.content = (Moment.mk o' a').outcome.content := by
  obtain ⟨hevent, hthresholds⟩ := Prod.mk.inj hgiven
  have hstep := Assembler.step_same hcontent hthresholds.symm h h' o.event
  rw [after, after, outcome, outcome, ← hevent]
  exact Prod.mk.inj hstep

def showOf (gist : Assembler × Outcome) : Shown where
  after := gist.1.sight
  notices := gist.2.notices
  tree? :=
    match gist.2.verdict with
    | .submitted tree => some tree
    | _ => none
  drops :=
    match gist.2.verdict with
    | .dropped => true
    | _ => false

theorem shown_eq (m : Moment) : m.shown = showOf m.gist := by
  rw [shown, showOf, gist, Assembler.content_sight, tree?, drops, Outcome.content]
  cases m.outcome.verdict <;> rfl

end Moment

namespace Assembler

theorem gists_same {a b : Assembler} {os os' : List Occurrence} (ha : a.Sound) (hb : b.Sound)
    (h : a.content = b.content) (hgiven : os.map (·.given) = os'.map (·.given)) :
    (a.trail os).map Moment.gist = (b.trail os').map Moment.gist ∧
      (a.after os).content = (b.after os').content := by
  induction os generalizing a b os' with
  | nil =>
    rw [List.map_nil] at hgiven
    rw [List.map_eq_nil_iff.mp hgiven.symm]
    exact ⟨rfl, h⟩
  | cons o os ih =>
    rw [List.map_cons] at hgiven
    obtain ⟨o', os'', rfl, ho, hos⟩ := List.map_eq_cons_iff.mp hgiven.symm
    obtain ⟨hstate, houtcome⟩ := Moment.content_same ho.symm h ha hb
    obtain ⟨hgists, hafter⟩ := ih (ha.step o.env o.event) (hb.step o'.env o'.event) hstate hos.symm
    refine ⟨?_, hafter⟩
    rw [trail, trail, List.map_cons, List.map_cons, hgists, Moment.gist, Moment.gist, hstate,
      houtcome]

theorem shown_same {a b : Assembler} {os os' : List Occurrence} (ha : a.Sound) (hb : b.Sound)
    (h : a.content = b.content) (hgiven : os.map (·.given) = os'.map (·.given)) :
    (a.trail os).map Moment.shown = (b.trail os').map Moment.shown := by
  have hgists := congrArg (List.map Moment.showOf) (gists_same ha hb h hgiven).1
  simpa only [List.map_map, Function.comp_def, ← Moment.shown_eq] using hgists

end Assembler

/-! ### Sessions -/

def Notice.isOfSinks : Notice → Bool
  | .sinkRegistered _ => true
  | .acceptPanicked => true
  | .shutdownPanicked => true
  | .engineShutDown _ => true
  | .queueFull _ => true
  | .consumerPanicked => true
  | _ => false

def Engine.account (e : Engine) : Thresholds × Nat × Nat :=
  (e.thresholds, e.counters.submitted, e.counters.dropped)

namespace Session

def told (s : Session) : List Notice := s.notices.filter (!·.isOfSinks)

/-- The sinks may have changed, but nothing that the assembler in use meets. -/
structure Spares (s s' : Session) : Prop where
  tracers : s'.tracers = s.tracers
  engines : s'.engines.map (·.account) = s.engines.map (·.account)
  member? : s'.member? = s.member?
  told : s'.told = s.told

theorem Spares.refl (s : Session) : Spares s s := ⟨rfl, rfl, rfl, rfl⟩

theorem Spares.trans {s s' s'' : Session} (h : Spares s s') (h' : Spares s' s'') : Spares s s'' :=
  ⟨h'.tracers.trans h.tracers, h'.engines.trans h.engines, h'.member?.trans h.member?,
    h'.told.trans h.told⟩

theorem spares_tell (s : Session) {notices : List Notice} (h : ∀ x ∈ notices, x.isOfSinks) :
    Spares s (s.tell notices) where
  tracers := rfl
  engines := rfl
  member? := rfl
  told := by
    have hnone : notices.filter (!·.isOfSinks) = [] := by
      simpa [List.filter_eq_nil_iff] using h
    rw [Session.told, tell, List.filter_append, hnone, List.append_nil]
    rfl

theorem engines_setEngine {s : Session} {e : EngineId} {engine : Engine}
    (h : (s.engines.map (·.account))[e]? = some engine.account) :
    (s.setEngine e engine).engines.map (·.account) = s.engines.map (·.account) := by
  obtain ⟨hlt, heq⟩ := List.getElem?_eq_some_iff.mp h
  rw [setEngine, List.map_set, ← heq]
  exact List.set_getElem_self hlt

theorem spares_setEngine {s : Session} {e : EngineId} {engine : Engine}
    (h : (s.engines.map (·.account))[e]? = some engine.account) :
    Spares s (s.setEngine e engine) := ⟨rfl, engines_setEngine h, rfl, rfl⟩

theorem account_of_engine? {s : Session} {e : EngineId} {engine : Engine}
    (h : s.engine? e = some engine) :
    (s.engines.map (·.account))[e]? = some engine.account := by
  rw [List.getElem?_map, show s.engines[e]? = some engine from h]
  rfl

theorem spares_setSink (s : Session) (id : SinkId) (behaviour : SinkBehaviour) :
    Spares s (s.setSink id behaviour) := ⟨rfl, rfl, rfl, rfl⟩

theorem SameUse.spares {s s' : Session} (h : SameUse s s') (htracers : s'.tracers = s.tracers)
    (hnotices : s'.notices = s.notices) : Spares s s' :=
  ⟨htracers, by rw [h.engines], h.member?, by rw [Session.told, Session.told, hnotices]⟩

theorem enterLocal_keeps {s s' : Session} {e : EngineId} (h : s.enterLocal e = some s') :
    s'.tracers = s.tracers ∧ s'.notices = s.notices := by
  unfold enterLocal at h
  obtain ⟨table, -, rfl⟩ := Option.map_eq_some_iff.mp h
  exact ⟨rfl, rfl⟩

theorem accept_keeps (tree : Node) (id : SinkId) (s : Session) :
    (accept tree id s).2.tracers = s.tracers ∧ (accept tree id s).2.notices = s.notices ∧
      ∀ x ∈ (accept tree id s).1.notices, x.isOfSinks := by
  unfold accept
  split
  case h_1 => exact ⟨rfl, rfl, by simp⟩
  case h_2 sink _ =>
    dsimp only
    split
    case h_2 => split <;> exact ⟨rfl, rfl, by simp⟩
    case h_7 =>
      split
      case h_1 => exact ⟨rfl, rfl, by simp⟩
      case h_2 s' hs' =>
        obtain ⟨e, -, hentered⟩ := Option.bind_eq_some_iff.mp hs'
        obtain ⟨htracers, hnotices⟩ := enterLocal_keeps hentered
        exact ⟨htracers, hnotices, by simp⟩
    case h_8 queue _ =>
      refine ⟨rfl, rfl, ?_⟩
      unfold Queue.offer
      split
      · simp
      · dsimp only
        split
        · simp
        · simp [Notice.isOfSinks]
    all_goals exact ⟨rfl, rfl, by simp⟩

theorem spares_accept (tree : Node) (id : SinkId) (s : Session) :
    Spares s (accept tree id s).2 :=
  (sameUse_accept tree id s).spares (accept_keeps tree id s).1 (accept_keeps tree id s).2.1

theorem spares_closeSink (id : SinkId) (s : Session) : Spares s (closeSink id s).2 := by
  unfold closeSink
  split
  case h_1 => exact spares_setSink s id _
  case h_3 => exact spares_setSink s id _
  all_goals exact .refl s

theorem closeSink_notices (id : SinkId) (s : Session) :
    ∀ x ∈ (closeSink id s).1.notices, x.isOfSinks := by
  unfold closeSink
  split
  case h_3 _ queue _ =>
    dsimp only
    unfold Queue.close
    dsimp only
    split
    · simp
    · dsimp only
      split
      · simp [Notice.isOfSinks]
      · simp
  all_goals simp

end Session

theorem askAll_notices {σ : Type} {ask : SinkId → σ → Reply × σ}
    (hask : ∀ id s, ∀ x ∈ (ask id s).1.notices, x.isOfSinks) (ids : List SinkId) (s : σ) :
    ∀ r ∈ (askAll ask ids s).1, ∀ x ∈ r.notices, x.isOfSinks := by
  induction ids generalizing s with
  | nil => simp [askAll]
  | cons id ids ih =>
    intro r hr
    rcases List.mem_cons.mp hr with rfl | hr
    · exact hask id s
    · exact ih (ask id s).2 r hr

theorem noticesOf_isOfSinks {panic : Notice} (hpanic : panic.isOfSinks) {replies : List Reply}
    (h : ∀ r ∈ replies, ∀ x ∈ r.notices, x.isOfSinks) :
    ∀ x ∈ Reply.noticesOf panic replies, x.isOfSinks := by
  intro x hx
  obtain ⟨r, hr, hxr⟩ := List.mem_flatMap.mp hx
  rcases List.mem_append.mp hxr with hxr | hxr
  · exact h r hr x hxr
  · split at hxr
    · rwa [List.mem_singleton.mp hxr]
    · cases hxr

namespace Session

/-- The sinks may do what they want with a tree: it is counted once, and nothing else changes. -/
theorem spares_submit {s : Session} {e : EngineId} {engine : Engine}
    (h : s.engine? e = some engine) (tree : Node) :
    Spares (s.setEngine e { engine with
      counters := { engine.counters with submitted := engine.counters.submitted + 1 } })
      (s.submit e tree).1 := by
  have hask := askAll_keeps Spares.refl (fun h h' => Spares.trans h h')
    (spares_accept { tree with handle := some s.nextTree }) engine.sinks
    { s with nextTree := s.nextTree + 1 }
  have hsay := askAll_notices
    (fun id t => (accept_keeps { tree with handle := some s.nextTree } id t).2.2) engine.sinks
    { s with nextTree := s.nextTree + 1 }
  unfold submit Engine.submit
  simp only [h]
  generalize askAll _ _ _ = r at hask hsay
  have hcounted (engine' : Engine)
      (h' : engine'.account = (engine.thresholds, engine.counters.submitted + 1,
        engine.counters.dropped)) :
      Spares (s.setEngine e { engine with
        counters := { engine.counters with submitted := engine.counters.submitted + 1 } })
        (r.2.setEngine e engine') := by
    refine ⟨hask.tracers, ?_, hask.member?, hask.told⟩
    rw [setEngine, setEngine, List.map_set, List.map_set, hask.engines, h']
    rfl
  exact (hcounted _ rfl).trans (spares_tell _ (noticesOf_isOfSinks rfl hsay))

/-! ### Commands -/

end Session

def Command.isAboutCalls : Command → Bool
  | .event _ => true
  | .isInTrace _ => true
  | .inAnyTrace => true
  | .isEnabled => true
  | .top => true
  | .describe => true
  | .adjust _ _ => true
  | _ => false

def Command.isAboutSinks : Command → Bool
  | .sink _ _ => true
  | .addSink _ _ => true
  | .removeSink _ _ => true
  | .sinks _ => true
  | .shutdown _ => true
  | .dropSink _ => true
  | .isSinkAlive _ => true
  | .offer _ _ => true
  | .closeSink _ => true
  | .take _ => true
  | .snapshot _ => true
  | .sinkState _ => true
  | _ => false

namespace Session

section keeps

variable {s : Session} {P : Session → Prop}

theorem withEngine_keeps {tracer : String} {act : EngineId → Engine → Session × Answer} (hs : P s)
    (hact : ∀ e engine, s.engine? e = some engine → P (act e engine).1) :
    P (s.withEngine tracer act).1 := by
  unfold withEngine
  split
  · exact hs
  · split
    · exact hs
    · exact hact _ _ ‹_›

theorem withSink_keeps {name : String} {act : SinkId → SinkBehaviour → Session × Answer} (hs : P s)
    (hact : ∀ id behaviour, P (act id behaviour).1) : P (s.withSink name act).1 := by
  unfold withSink
  split
  · exact hs
  · split
    · exact hs
    · exact hact _ _

theorem withTree_keeps {text : String} {act : Node → Session × Answer} (hs : P s)
    (hact : ∀ tree, P (act tree).1) : P (s.withTree text act).1 := by
  unfold withTree
  split
  · exact hs
  · exact hact _

end keeps

theorem spares_execute {s : Session} {c : Command} (hc : c.isAboutSinks) :
    Spares s (s.execute c).1 := by
  cases c with
  | sink name request =>
    rw [execute]
    split
    · exact .refl s
    · exact ⟨rfl, rfl, rfl, rfl⟩
  | addSink tracer sink =>
    rw [execute]
    refine withEngine_keeps (P := Spares s) (.refl s) fun e engine he =>
      withSink_keeps (P := Spares s) (.refl s) fun id _ => ?_
    have hkept : (engine.addSink id).1.account = engine.account := rfl
    refine (spares_setEngine ((account_of_engine? he).trans ?_)).trans (spares_tell _ ?_)
    · rw [hkept]
    · simp [Engine.addSink, Notice.isOfSinks]
  | removeSink tracer sink =>
    rw [execute]
    refine withEngine_keeps (P := Spares s) (.refl s) fun e engine he =>
      withSink_keeps (P := Spares s) (.refl s) fun id _ => ?_
    have hkept : (engine.removeSink id).1.account = engine.account := rfl
    exact spares_setEngine ((account_of_engine? he).trans (by rw [hkept]))
  | sinks tracer =>
    rw [execute]
    exact withEngine_keeps (P := Spares s) (.refl s) fun e engine _ => .refl s
  | shutdown tracer =>
    rw [execute]
    refine withEngine_keeps (P := Spares s) (.refl s) fun e engine he => ?_
    have hclose := askAll_keeps Spares.refl (fun h h' => Spares.trans h h') spares_closeSink
      engine.sinks s
    have hsay := askAll_notices closeSink_notices engine.sinks s
    unfold Engine.shutdown
    generalize askAll _ _ _ = r at hclose hsay
    have hthere : (r.2.engines.map (·.account))[e]? = some engine.account := by
      rw [hclose.engines, account_of_engine? he]
    refine (hclose.trans (spares_setEngine (hthere.trans ?_))).trans (spares_tell _ ?_)
    · rfl
    · intro x hx
      rcases List.mem_append.mp hx with hx | hx
      · exact noticesOf_isOfSinks rfl hsay x hx
      · rw [List.mem_singleton.mp hx]
        rfl
  | dropSink name =>
    rw [execute]
    split
    · exact .refl s
    · exact ⟨rfl, rfl, rfl, rfl⟩
  | isSinkAlive name =>
    rw [execute]
    exact .refl s
  | offer sink text =>
    rw [execute]
    refine withSink_keeps (P := Spares s) (.refl s) fun id _ =>
      withTree_keeps (P := Spares s) (.refl s) fun tree => ?_
    have haccept := spares_accept { tree with handle := some s.nextTree } id
      { s with nextTree := s.nextTree + 1 }
    have hoffer : Spares s (accept { tree with handle := some s.nextTree } id
        { s with nextTree := s.nextTree + 1 }).2 :=
      ⟨haccept.tracers, haccept.engines, haccept.member?, haccept.told⟩
    exact hoffer.trans (spares_tell _ (accept_keeps _ id _).2.2)
  | closeSink sink =>
    rw [execute]
    refine withSink_keeps (P := Spares s) (.refl s) fun id _ => ?_
    exact (spares_closeSink id s).trans (spares_tell _ (closeSink_notices id s))
  | take sink =>
    rw [execute]
    refine withSink_keeps (P := Spares s) (.refl s) fun id behaviour => ?_
    cases behaviour with
    | collect trees closed => exact spares_setSink s id _
    | _ => exact .refl s
  | snapshot sink =>
    rw [execute]
    refine withSink_keeps (P := Spares s) (.refl s) fun id behaviour => ?_
    cases behaviour <;> exact .refl s
  | sinkState sink =>
    rw [execute]
    refine withSink_keeps (P := Spares s) (.refl s) fun id behaviour => ?_
    cases behaviour <;> exact .refl s
  | _ => cases hc

end Session

/-! ### Two sessions side by side -/

def Member.content (m : Member) : Member := { m with assembler := m.assembler.content }

namespace Session

/-- The sessions differ at most in their pools and sinks, as far as the assembler in use goes. -/
structure Beside (s s' : Session) : Prop where
  tracers : s.tracers = s'.tracers
  engines : s.engines.map (·.account) = s'.engines.map (·.account)
  inUse : s.member?.map (·.content) = s'.member?.map (·.content)
  told : s.told = s'.told
  sound : ∀ m, s.member? = some m → m.assembler.Sound
  sound' : ∀ m, s'.member? = some m → m.assembler.Sound

variable {s s' : Session}

theorem Beside.of_spares (h : Beside s s') {t t' : Session} (ht : s.Spares t) (ht' : s'.Spares t') :
    Beside t t' where
  tracers := ht.tracers.trans (h.tracers.trans ht'.tracers.symm)
  engines := ht.engines.trans (h.engines.trans ht'.engines.symm)
  inUse := by rw [ht.member?, ht'.member?, h.inUse]
  told := ht.told.trans (h.told.trans ht'.told.symm)
  sound m hm := h.sound m (ht.member? ▸ hm)
  sound' m hm := h.sound' m (ht'.member? ▸ hm)

theorem Beside.setEngine (h : Beside s s') (e : EngineId) {engine engine' : Engine}
    (haccount : engine.account = engine'.account) :
    Beside (s.setEngine e engine) (s'.setEngine e engine') where
  tracers := h.tracers
  engines := by
    rw [Session.setEngine, Session.setEngine, List.map_set, List.map_set, h.engines, haccount]
  inUse := h.inUse
  told := h.told
  sound := h.sound
  sound' := h.sound'

theorem Beside.member? (h : Beside s s') {m : Member} (hm : s.member? = some m) :
    ∃ m', s'.member? = some m' ∧ m'.tracer = m.tracer ∧ m'.engine = m.engine ∧
      m.assembler.content = m'.assembler.content := by
  have hinUse := h.inUse
  rw [hm, Option.map_some] at hinUse
  obtain ⟨m', hm', hcontent⟩ := Option.map_eq_some_iff.mp hinUse.symm
  obtain ⟨htracer, hengine, hassembler⟩ := Member.mk.inj hcontent
  exact ⟨m', hm', htracer, hengine, hassembler.symm⟩

theorem Beside.engine? (h : Beside s s') (e : EngineId) :
    (s.engine? e).map (·.account) = (s'.engine? e).map (·.account) := by
  rw [Session.engine?, Session.engine?, ← List.getElem?_map, ← List.getElem?_map, h.engines]

theorem setAssembler_keeps (s : Session) (a : Assembler) :
    (s.setAssembler a).tracers = s.tracers ∧ (s.setAssembler a).engines = s.engines ∧
      (s.setAssembler a).notices = s.notices := by
  unfold setAssembler
  split <;> exact ⟨rfl, rfl, rfl⟩

theorem engine?_taken (s : Session) (a : Assembler) (notices : List Notice) (e : EngineId) :
    ((s.setAssembler a).tell notices).engine? e = s.engine? e :=
  congrArg (·[e]?) (setAssembler_keeps s a).2.1

theorem Beside.setAssembler (h : Beside s s') {m m' : Member} (hm : s.member? = some m)
    (hm' : s'.member? = some m') (htracer : m'.tracer = m.tracer) (hengine : m'.engine = m.engine)
    {a a' : Assembler} (ha : a.Sound) (ha' : a'.Sound) (hcontent : a.content = a'.content)
    (notices : List Notice) :
    Beside ((s.setAssembler a).tell notices) ((s'.setAssembler a').tell notices) := by
  obtain ⟨htracers, hengines, hnotices⟩ := setAssembler_keeps s a
  obtain ⟨htracers', hengines', hnotices'⟩ := setAssembler_keeps s' a'
  have hmember := member?_setAssembler hm a
  have hmember' := member?_setAssembler hm' a'
  refine ⟨?_, ?_, ?_, ?_, ?_, ?_⟩
  · exact htracers.trans (h.tracers.trans htracers'.symm)
  · show (s.setAssembler a).engines.map _ = (s'.setAssembler a').engines.map _
    rw [hengines, hengines', h.engines]
  · show (s.setAssembler a).member?.map _ = (s'.setAssembler a').member?.map _
    rw [hmember, hmember']
    simp [Member.content, htracer, hengine, hcontent]
  · have htold := h.told
    simp only [Session.told, tell, hnotices, hnotices', List.filter_append] at htold ⊢
    rw [htold]
  · intro n hn
    obtain rfl := Option.some.inj (hmember.symm.trans hn)
    exact ha
  · intro n hn
    obtain rfl := Option.some.inj (hmember'.symm.trans hn)
    exact ha'

def moment? (s : Session) (e : Event) : Option Moment :=
  s.member?.bind fun m => (s.engine? m.engine).map fun engine =>
    ⟨⟨s.surroundings engine, e⟩, m.assembler⟩

def heed (s : Session) (e : EngineId) (engine : Engine) : Verdict → Session
  | .none => s
  | .dropped => s.setEngine e engine.recordDropped
  | .submitted tree => (s.submit e tree).1

theorem event_eq {s : Session} {m : Member} {engine : Engine} (hm : s.member? = some m)
    (he : s.engine? m.engine = some engine) (e : Event) :
    s.event e = ((s.setAssembler (m.assembler.step (s.surroundings engine) e).1).tell
      (m.assembler.step (s.surroundings engine) e).2.notices).heed m.engine engine
        (m.assembler.step (s.surroundings engine) e).2.verdict := by
  unfold event surroundings
  simp only [hm, he]
  generalize m.assembler.step _ e = r
  cases r.2.verdict <;> rfl

theorem Beside.heed (h : Beside s s') {e : EngineId} {engine engine' : Engine}
    (he : s.engine? e = some engine) (he' : s'.engine? e = some engine')
    (haccount : engine.account = engine'.account) {v v' : Verdict} (hv : v.content = v'.content) :
    Beside (s.heed e engine v) (s'.heed e engine' v') := by
  obtain ⟨hthresholds, hcounts⟩ := Prod.mk.inj haccount
  obtain ⟨hsubmitted, hdropped⟩ := Prod.mk.inj hcounts
  cases v with
  | none =>
    cases v' with
    | none => exact h
    | dropped => cases hv
    | submitted => cases hv
  | dropped =>
    cases v' with
    | none => cases hv
    | dropped =>
      refine h.setEngine e ?_
      simp [Engine.account, Engine.recordDropped, hthresholds, hsubmitted, hdropped]
    | submitted => cases hv
  | submitted tree =>
    cases v' with
    | none => cases hv
    | dropped => cases hv
    | submitted tree' =>
      refine Beside.of_spares (h.setEngine e ?_) (spares_submit he tree) (spares_submit he' tree')
      simp [Engine.account, hthresholds, hsubmitted, hdropped]

theorem Beside.event (h : Beside s s') (e : Event) :
    Beside (s.event e) (s'.event e) ∧
      (s.moment? e).map (·.shown) = (s'.moment? e).map (·.shown) := by
  cases hm : s.member? with
  | none =>
    have hm' : s'.member? = none := by
      simpa [hm] using h.inUse.symm
    simpa [Session.event, moment?, hm, hm'] using h
  | some m =>
    obtain ⟨m', hm', htracer, hengine, hcontent⟩ := h.member? hm
    have haccount := h.engine? m.engine
    cases he : s.engine? m.engine with
    | none =>
      have he' : s'.engine? m'.engine = none := by
        simpa [hengine, he] using haccount.symm
      simpa [Session.event, moment?, hm, hm', he, he'] using h
    | some engine =>
      rw [he, Option.map_some] at haccount
      obtain ⟨engine', he', hsame⟩ := Option.map_eq_some_iff.mp haccount.symm
      rw [← hengine] at he'
      have hgiven : (⟨s.surroundings engine, e⟩ : Occurrence).given =
          (⟨s'.surroundings engine', e⟩ : Occurrence).given :=
        Prod.ext rfl (congrArg Prod.fst hsame).symm
      have hsound := h.sound m hm
      have hsound' := h.sound' m' hm'
      obtain ⟨hstate, houtcome⟩ := Moment.content_same hgiven hcontent hsound hsound'
      obtain ⟨hnotices, hverdict⟩ := Outcome.content_eq_iff.mp houtcome
      rw [Moment.outcome, Moment.outcome] at hnotices
      have hheard := h.setAssembler hm hm' htracer hengine (hsound.step _ e) (hsound'.step _ e)
        hstate
      constructor
      · rw [event_eq hm he, event_eq hm' he', hnotices, ← hengine]
        rw [← hengine] at he
        exact (hheard _).heed ((engine?_taken s _ _ _).trans he)
          ((engine?_taken s' _ _ _).trans he') hsame.symm hverdict
      · rw [moment?, moment?, hm, hm']
        simp only [Option.bind_some, he, he', Option.map_some, Moment.shown_eq, Moment.gist, hstate,
          houtcome]

end Session

def Answer.content : Answer → Answer
  | .node n => .node n.content
  | answer => answer

/-- What a row says of the calls: the answer, the depth, the number of nodes and the top slot, the
traces submitted and dropped so far, and the notices that are not of sinks. -/
structure Gist where
  answer : Answer
  view : Option (Nat × Nat × Node × Option (Nat × Nat))
  notices : List Notice

def View.gist (v : View) : Nat × Nat × Node × Option (Nat × Nat) :=
  (v.depth, v.nodeCount, v.top.content, v.counters.map fun c => (c.submitted, c.dropped))

def Row.gist (row : Row Answer) : Gist :=
  ⟨row.answer.content, row.view.map (·.gist), row.notices.filter (!·.isOfSinks)⟩

def gists : List Command → List (Row Answer) → List Gist
  | c :: cs, row :: rows =>
    if c.isAboutCalls then row.gist :: gists cs rows else gists cs rows
  | _, _ => []

namespace Session

variable {s s' : Session}

def tree? (s : Session) : Command → Option Node
  | .event e => (s.moment? e).bind (·.shown.tree?)
  | _ => none

def next (s : Session) (c : Command) : Session :=
  { (s.execute c).1 with notices := [], reports := [] }

def trees (s : Session) : List Command → List Node
  | [] => []
  | c :: cs => (s.tree? c).toList ++ (s.next c).trees cs

theorem runAll_cons (s : Session) (c : Command) (cs : List Command) :
    (s.runAll (c :: cs)).2 = ⟨(s.execute c).2, (s.execute c).1.view?, (s.execute c).1.notices,
      (s.execute c).1.reports⟩ :: ((s.next c).runAll cs).2 := by
  rw [runAll]
  rfl

theorem Beside.next {c c' : Command} (h : Beside (s.execute c).1 (s'.execute c').1) :
    Beside (s.next c) (s'.next c') :=
  ⟨h.tracers, h.engines, h.inUse, rfl, h.sound, h.sound'⟩

theorem Beside.view? (h : Beside s s') : s.view?.map (·.gist) = s'.view?.map (·.gist) := by
  cases hm : s.member? with
  | none =>
    have hm' : s'.member? = none := by
      simpa [hm] using h.inUse.symm
    rw [Session.view?, Session.view?, hm, hm']
    rfl
  | some m =>
    obtain ⟨m', hm', htracer, -, hcontent⟩ := h.member? hm
    have hsight := Assembler.sight_same hcontent
    have hcounts (e : EngineId) :
        ((s.engine? e).map (·.counters)).map (fun c => (c.submitted, c.dropped)) =
          ((s'.engine? e).map (·.counters)).map fun c => (c.submitted, c.dropped) := by
      simpa [Engine.account, Function.comp_def] using congrArg (Option.map Prod.snd) (h.engine? e)
    rw [Session.view?, Session.view?, hm, hm', Option.map_some, Option.map_some, Option.map_some,
      Option.map_some, View.gist, View.gist, htracer, h.tracers]
    refine congrArg some (Prod.ext (congrArg Sight.depth hsight) (Prod.ext
      (congrArg Sight.nodeCount hsight) (Prod.ext (congrArg Sight.top hsight) ?_)))
    cases s'.tracers.lookup m.tracer with
    | none => rfl
    | some t => exact hcounts t.engine

theorem Beside.ask (h : Beside s s') (question : Assembler → Answer) (answer : Sight → Answer)
    (hq : ∀ a, (question a).content = answer a.sight) :
    Beside (s.ask question).1 (s'.ask question).1 ∧
      (s.ask question).2.content = (s'.ask question).2.content := by
  refine ⟨h, ?_⟩
  unfold Session.ask
  cases hm : s.member? with
  | none =>
    have hm' : s'.member? = none := by
      simpa [hm] using h.inUse.symm
    rw [hm']
  | some m =>
    obtain ⟨m', hm', -, -, hcontent⟩ := h.member? hm
    rw [hm']
    exact (hq m.assembler).trans
      ((congrArg answer (Assembler.sight_same hcontent)).trans (hq m'.assembler).symm)

theorem Beside.execute (h : Beside s s') {c : Command} (hc : c.isAboutCalls) :
    Beside (s.execute c).1 (s'.execute c).1 ∧
      (s.execute c).2.content = (s'.execute c).2.content ∧
      s.tree? c = s'.tree? c := by
  cases c with
  | event e =>
    obtain ⟨hbeside, hshown⟩ := h.event e
    have htree (s : Session) :
        s.tree? (.event e) = ((s.moment? e).map (·.shown)).bind (·.tree?) :=
      Option.bind_map.symm
    rw [Session.execute, Session.execute, htree, htree, hshown]
    exact ⟨hbeside, rfl, rfl⟩
  | isInTrace id =>
    rw [Session.execute, Session.execute]
    obtain ⟨hbeside, hanswer⟩ := h.ask (fun a => .bool (a.isInTrace id))
      (fun v => .bool (v.isInTrace id)) fun _ => rfl
    exact ⟨hbeside, hanswer, rfl⟩
  | inAnyTrace =>
    rw [Session.execute, Session.execute]
    obtain ⟨hbeside, hanswer⟩ := h.ask (fun a => .bool a.inAnyTrace)
      (fun v => .bool v.inAnyTrace) fun _ => rfl
    exact ⟨hbeside, hanswer, rfl⟩
  | isEnabled =>
    rw [Session.execute, Session.execute]
    obtain ⟨hbeside, hanswer⟩ := h.ask (fun a => .bool a.enabled)
      (fun v => .bool v.enabled) fun _ => rfl
    exact ⟨hbeside, hanswer, rfl⟩
  | top =>
    rw [Session.execute, Session.execute]
    obtain ⟨hbeside, hanswer⟩ := h.ask (fun a => .node a.top) (fun v => .node v.top) fun _ => rfl
    exact ⟨hbeside, hanswer, rfl⟩
  | describe =>
    rw [Session.execute, Session.execute]
    obtain ⟨hbeside, hanswer⟩ := h.ask (fun a => .text a.describe) (fun v => .text v.text)
      fun _ => rfl
    exact ⟨hbeside, hanswer, rfl⟩
  | adjust tracer change =>
    rw [Session.execute, Session.execute, withEngine, withEngine, h.tracers]
    cases s'.tracers.lookup tracer with
    | none => exact ⟨h, rfl, rfl⟩
    | some t =>
      have haccount := h.engine? t.engine
      cases he : s.engine? t.engine with
      | none =>
        have he' : s'.engine? t.engine = none := by
          simpa [he] using haccount.symm
        simp only [he, he']
        exact ⟨h, trivial, rfl⟩
      | some engine =>
        rw [he, Option.map_some] at haccount
        obtain ⟨engine', he', hsame⟩ := Option.map_eq_some_iff.mp haccount.symm
        obtain ⟨hthresholds, hcounts⟩ := Prod.mk.inj hsame
        simp only [he, he']
        refine ⟨h.setEngine t.engine (Prod.ext ?_ hcounts.symm), trivial, rfl⟩
        exact congrArg (Thresholds.adjust · change) hthresholds.symm
  | _ => cases hc

theorem Beside.gists (h : Beside s s') (htold : s.told = []) {cs : List Command}
    (hcs : ∀ c ∈ cs, c.isAboutCalls || c.isAboutSinks) :
    CallTree.gists cs (s.runAll cs).2 = CallTree.gists (cs.filter (·.isAboutCalls))
        (s'.runAll (cs.filter (·.isAboutCalls))).2 ∧
      s.trees cs = s'.trees (cs.filter (·.isAboutCalls)) := by
  induction cs generalizing s s' with
  | nil => exact ⟨rfl, rfl⟩
  | cons c cs ih =>
    have hrest : ∀ c ∈ cs, c.isAboutCalls || c.isAboutSinks := by
      intro c hc
      exact hcs c (List.mem_cons_of_mem _ hc)
    cases hc : c.isAboutCalls with
    | true =>
      obtain ⟨hbeside, hanswer, htree⟩ := h.execute hc
      obtain ⟨hgists, htrees⟩ := ih hbeside.next rfl hrest
      have hgist (reports reports' : List Report) :
          (⟨(s.execute c).2, (s.execute c).1.view?, (s.execute c).1.notices, reports⟩ :
            Row Answer).gist =
          (⟨(s'.execute c).2, (s'.execute c).1.view?, (s'.execute c).1.notices, reports'⟩ :
            Row Answer).gist := by
        rw [Row.gist, Row.gist, hanswer, hbeside.view?]
        exact congrArg _ hbeside.told
      rw [List.filter_cons_of_pos hc, runAll_cons, runAll_cons, CallTree.gists, CallTree.gists,
        hgists, trees, trees, htree, htrees, if_pos hc, if_pos hc]
      exact ⟨congrArg (· :: _) (hgist _ _), rfl⟩
    | false =>
      have hsinks : c.isAboutSinks := by
        simpa [hc] using hcs c List.mem_cons_self
      have hspares := spares_execute (s := s) hsinks
      have hbeside : Beside (s.next c) s' := by
        refine ⟨hspares.tracers.trans h.tracers, hspares.engines.trans h.engines, ?_, ?_, ?_,
          h.sound'⟩
        · exact (congrArg _ hspares.member?).trans h.inUse
        · exact htold.symm.trans h.told
        · exact fun m hm => h.sound m (hspares.member?.symm.trans hm)
      have htree : s.tree? c = none := by
        cases c <;> first | rfl | cases hsinks
      have hnot : ¬ c.isAboutCalls := by simp [hc]
      obtain ⟨hgists, htrees⟩ := ih hbeside rfl hrest
      rw [List.filter_cons_of_neg hnot, runAll_cons, CallTree.gists, if_neg hnot, trees, htree]
      exact ⟨hgists, htrees⟩

theorem Beside.refl (h : ∀ m, s.member? = some m → m.assembler.Sound) : Beside s s :=
  ⟨rfl, rfl, rfl, rfl, h, h⟩

theorem Beside.same_gists (h : Beside s s') (htold : s.told = []) {cs cs' : List Command}
    (hcommands : ∀ c ∈ cs ++ cs', c.isAboutCalls || c.isAboutSinks)
    (hcalls : cs.filter (·.isAboutCalls) = cs'.filter (·.isAboutCalls)) :
    CallTree.gists cs (s.runAll cs).2 = CallTree.gists cs' (s'.runAll cs').2 ∧
      s.trees cs = s'.trees cs' := by
  obtain ⟨hgists, htrees⟩ := h.gists htold fun c hc => hcommands c (List.mem_append_left cs' hc)
  obtain ⟨hgists', htrees'⟩ := (Beside.refl h.sound').gists (h.told.symm.trans htold)
    fun c hc => hcommands c (List.mem_append_right cs hc)
  rw [hgists, hgists', htrees, htrees', hcalls]
  exact ⟨rfl, rfl⟩

theorem beside_start {c c' : Config} (h : Thresholds.ofConfig c = Thresholds.ofConfig c')
    (recorder recorder' : Bool) : Beside (start c recorder) (start c' recorder') where
  tracers := rfl
  engines := by
    have haccount (c : Config) (recorder : Bool) :
        (start c recorder).engines.map (·.account) = [(Thresholds.ofConfig c, 0, 0)] := by
      cases recorder <;> rfl
    rw [haccount, haccount, h]
  inUse := rfl
  told := rfl
  sound m hm := by
    obtain rfl := Option.some.inj hm
    exact Assembler.sound_new c.poolCapacity
  sound' m hm := by
    obtain rfl := Option.some.inj hm
    exact Assembler.sound_new c'.poolCapacity

end Session

open Assembler Session

/-- Neither pools nor sinks show in the work of an assembler. -/
theorem pools_and_sinks_unseen :
    (∀ (capacity capacity' : Nat) (os os' : List Occurrence),
      os.map (·.given) = os'.map (·.given) →
      ((new capacity).trail os).map Moment.shown =
        ((new capacity').trail os').map Moment.shown) ∧
    ∀ (c c' : Config) (recorder recorder' : Bool) (cs cs' : List Command),
      Thresholds.ofConfig c = Thresholds.ofConfig c' →
      (∀ k ∈ cs ++ cs', k.isAboutCalls || k.isAboutSinks) →
      cs.filter (·.isAboutCalls) = cs'.filter (·.isAboutCalls) →
      gists cs ((start c recorder).runAll cs).2 =
          gists cs' ((start c' recorder').runAll cs').2 ∧
        (start c recorder).trees cs = (start c' recorder').trees cs' := by
  constructor
  · intro capacity capacity' os os' hgiven
    exact shown_same (sound_new capacity) (sound_new capacity') rfl hgiven
  · intro c c' recorder recorder' cs cs' hthresholds hcommands hcalls
    exact (beside_start hthresholds recorder recorder').same_gists rfl hcommands hcalls

/-- A trace inside another one, with a call that is discarded and an exit too much. -/
def nestedTraces : List Command :=
  [.event (.enter 1 1 1 0), .event (.begin 7 0 ∅), .event (.enter 2 2 2 10),
    .event (.begin 8 0 ∅), .event (.enter 3 3 3 20), .event (.exit 21), .inAnyTrace,
    .event (.exit 100), .top, .event (.exit 300), .event (.exit 400)]

/-- The same, while one sink panics and one keeps what it is handed. -/
def watchedTraces : List Command :=
  [.sink "p" (.respond .panicked), .addSink "t" "p", .sink "k" .collect, .addSink "t" "k"] ++
    nestedTraces ++ [.take "k"]

theorem pools_and_sinks_unseen_of_nestedTraces :
    let c : Config := { minTraceTime := 0, minMethodTime := 5 }
    let c' : Config := { c with poolCapacity := 0 }
    let os := occurrences c [.enter 1 1 1 0, .begin 7 0 ∅, .exit 300]
    let os' := os.map fun o => { o with env := { o.env with held := fun _ => true, handle := 3 } }
    ((new 4).trail os).map Moment.shown = ((new 0).trail os').map Moment.shown ∧
    gists nestedTraces ((start c false).runAll nestedTraces).2 =
      gists watchedTraces ((start c' true).runAll watchedTraces).2 ∧
    (start c false).trees nestedTraces = (start c' true).trees watchedTraces ∧
    ((start c false).trees nestedTraces).length = 2 := by
  intro c c' os os'
  obtain ⟨hruns, hsessions⟩ := pools_and_sinks_unseen
  obtain ⟨hgists, htrees⟩ :=
    hsessions c c' false true nestedTraces watchedTraces rfl (by decide) rfl
  exact ⟨hruns 4 0 os os' rfl, hgists, htrees, by decide +kernel⟩

end CallTree
