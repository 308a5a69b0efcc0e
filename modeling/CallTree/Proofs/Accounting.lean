import CallTree.Proofs.Ledger
import CallTree.Session

/-!
Traces and the counters of an engine. A session sends each event to one assembler and hands on
what its verdict says: a submitted tree is broadcast once and counted once, a dropped trace is
counted once and broadcast to nobody.
-/
namespace CallTree

/-- The sessions use the same assembler, and nothing of it has changed. -/
structure Session.SameUse (s s' : Session) : Prop where
  engines : s'.engines = s.engines
  assemblers : s'.assemblers = s.assemblers
  current : s'.current = s.current
  localTracer : s'.localTracer = s.localTracer
  inUse : s'.table.inUse = s.table.inUse
  table : s.table.inUse.isSome → s'.table = s.table
  nextTree : s'.nextTree = s.nextTree

namespace Session

theorem SameUse.refl (s : Session) : SameUse s s := ⟨rfl, rfl, rfl, rfl, rfl, fun _ => rfl, rfl⟩

theorem SameUse.trans {s s' s'' : Session} (h : SameUse s s') (h' : SameUse s' s'') :
    SameUse s s'' where
  engines := h'.engines.trans h.engines
  assemblers := h'.assemblers.trans h.assemblers
  current := h'.current.trans h.current
  localTracer := h'.localTracer.trans h.localTracer
  inUse := h'.inUse.trans h.inUse
  table hs := (h'.table (by rw [h.inUse]; exact hs)).trans (h.table hs)
  nextTree := h'.nextTree.trans h.nextTree

theorem SameUse.member? {s s' : Session} (h : SameUse s s') : s'.member? = s.member? := by
  unfold Session.member?
  rw [h.inUse, h.assemblers, h.current, h.localTracer]
  cases hs : s.table.inUse with
  | none => rfl
  | some e => rw [h.table (by rw [hs]; rfl)]

theorem SameUse.engine? {s s' : Session} (h : SameUse s s') (e : EngineId) :
    s'.engine? e = s.engine? e := by
  rw [Session.engine?, Session.engine?, h.engines]

theorem sameUse_report (s : Session) (r : Report) : SameUse s (s.report r) :=
  ⟨rfl, rfl, rfl, rfl, rfl, fun _ => rfl, rfl⟩

theorem sameUse_setSink (s : Session) (id : SinkId) (behaviour : SinkBehaviour) :
    SameUse s (s.setSink id behaviour) :=
  ⟨rfl, rfl, rfl, rfl, rfl, fun _ => rfl, rfl⟩

theorem sameUse_enterLocal {s s' : Session} {e : EngineId} (h : s.enterLocal e = some s') :
    SameUse s s'.leaveLocal := by
  unfold enterLocal at h
  obtain ⟨table, htable, rfl⟩ := Option.map_eq_some_iff.mp h
  have hfree : s.table.inUse = none := by
    unfold LocalTable.enter at htable
    cases hs : s.table.inUse with
    | none => rfl
    | some => simp [hs] at htable
  exact ⟨rfl, rfl, rfl, rfl, hfree.symm, fun hs => by simp [hfree] at hs, rfl⟩

theorem sameUse_accept (tree : Node) (id : SinkId) (s : Session) :
    SameUse s (accept tree id s).2 := by
  unfold accept
  split
  case h_1 => exact .refl s
  case h_2 sink _ =>
    dsimp only
    split
    case h_1 =>
      refine SameUse.trans ?_ (sameUse_report _ _)
      exact ⟨rfl, rfl, rfl, rfl, rfl, fun _ => rfl, rfl⟩
    case h_2 trees closed _ =>
      split
      · exact .refl s
      · exact sameUse_setSink s id _
    case h_6 => exact .refl s
    case h_7 tracer _ =>
      split
      case h_1 => exact sameUse_report s _
      case h_2 s' hs' =>
        obtain ⟨e, -, hentered⟩ := Option.bind_eq_some_iff.mp hs'
        exact (sameUse_enterLocal hentered).trans (sameUse_report _ _)
    case h_8 queue _ => exact sameUse_setSink s id _
    all_goals exact sameUse_report s _

end Session

theorem askAll_keeps {σ : Type} {R : σ → σ → Prop} (refl : ∀ s, R s s)
    (trans : ∀ {s s' s''}, R s s' → R s' s'' → R s s'') {ask : SinkId → σ → Reply × σ}
    (hask : ∀ id s, R s (ask id s).2) (ids : List SinkId) (s : σ) : R s (askAll ask ids s).2 := by
  induction ids generalizing s with
  | nil => exact refl s
  | cons id ids ih => exact trans (hask id s) (ih (ask id s).2)

namespace Session

/-- The sinks have seen nothing between the two sessions. -/
structure Unseen (s s' : Session) : Prop where
  sinks : s'.sinks = s.sinks
  recorded : s'.recorded = s.recorded
  reports : s'.reports = s.reports
  nextTree : s'.nextTree = s.nextTree

theorem lookup_map {α β : Type} [BEq α] [LawfulBEq α] {g : α × β → α × β}
    (hg : ∀ p, (g p).1 = p.1) (l : List (α × β)) (i : α) :
    (l.map g).lookup i = (l.lookup i).map fun b => (g (i, b)).2 := by
  induction l with
  | nil => rfl
  | cons p l ih =>
    rw [List.map_cons, List.lookup_cons, List.lookup_cons, hg, ih]
    cases hp : i == p.1 with
    | true => rw [eq_of_beq hp]; rfl
    | false => rfl

theorem assembler?_set (t : LocalTable) (e : EngineId) (a : Assembler) (i : EngineId) :
    (t.set e a).assembler? i = if i = e then (t.assembler? i).map fun _ => a
      else t.assembler? i := by
  refine (lookup_map (fun p => ?_) t.entries i).trans ?_
  · dsimp only
    split <;> rfl
  · dsimp only
    split
    · rfl
    · exact Option.map_id'

theorem member?_setAssembler {s : Session} {m : Member} (h : s.member? = some m) (a : Assembler) :
    (s.setAssembler a).member? = some { m with assembler := a } := by
  unfold member? at h
  cases hs : s.table.inUse with
  | none =>
    simp only [hs] at h
    simp only [member?, setAssembler, hs]
    refine (lookup_map (fun _ => ?_) s.assemblers s.current).trans ?_
    · rfl
    · simp [h]
  | some e =>
    simp only [hs] at h
    obtain ⟨a', ha', rfl⟩ := Option.map_eq_some_iff.mp h
    simp only [member?, setAssembler, hs]
    rw [show (s.table.set e a).inUse = some e from hs]
    simp [assembler?_set, ha']

theorem engine?_setEngine {s : Session} {e : EngineId} {engine : Engine}
    (h : s.engine? e = some engine) (engine' : Engine) :
    (s.setEngine e engine').engine? e = some engine' := by
  unfold engine? setEngine at *
  obtain ⟨hlt, -⟩ := List.getElem?_eq_some_iff.mp h
  simp [hlt]

def surroundings (s : Session) (engine : Engine) : Surroundings where
  thresholds := engine.thresholds
  held := s.heldTrees.contains
  handle := s.nextTree

/-- An event is taken by the assembler in use, and its verdict is counted: a submitted tree is
broadcast once, and otherwise the sinks see nothing. -/
structure Took (s s' : Session) (m : Member) (engine : Engine) (o : Moment) : Prop where
  member : s'.member? = some { m with assembler := o.after }
  engine : ∃ engine', s'.engine? m.engine = some engine' ∧
    engine'.counters.submitted = engine.counters.submitted + o.tree?.isSome.toNat ∧
    engine'.counters.dropped = engine.counters.dropped + o.drops.toNat
  unseen : o.tree? = none → s.Unseen s'
  broadcast : ∀ tree, o.tree? = some tree →
    ∃ s₀, s.Unseen s₀ ∧ s' = (s₀.submit m.engine tree).1 ∧ s'.nextTree = s.nextTree + 1

theorem submit_spec {s : Session} {m : Member} {engine : Engine} (hm : s.member? = some m)
    (hengine : s.engine? m.engine = some engine) (tree : Node) :
    (s.submit m.engine tree).1.member? = some m ∧
    (s.submit m.engine tree).1.nextTree = s.nextTree + 1 ∧
    ∃ engine', (s.submit m.engine tree).1.engine? m.engine = some engine' ∧
      engine'.counters.submitted = engine.counters.submitted + 1 ∧
      engine'.counters.dropped = engine.counters.dropped := by
  have huse := askAll_keeps SameUse.refl (fun h h' => SameUse.trans h h')
    (sameUse_accept { tree with handle := some s.nextTree }) engine.sinks
    { s with nextTree := s.nextTree + 1 }
  unfold submit Engine.submit
  simp only [hengine]
  generalize askAll _ _ _ = r at huse
  refine ⟨?_, huse.nextTree, _, engine?_setEngine ((huse.engine? m.engine).trans hengine) _, rfl,
    rfl⟩
  exact huse.member?.trans hm

theorem event_cases {s : Session} {m : Member} {engine : Engine} (hm : s.member? = some m)
    (hengine : s.engine? m.engine = some engine) {o : Moment}
    (ho : o.env = s.surroundings engine) (ha : o.before = m.assembler) :
    ∃ s₀, s.Unseen s₀ ∧ s₀.member? = some { m with assembler := o.after } ∧
      s₀.engine? m.engine = some engine ∧
      ((o.tree? = none ∧ o.drops = false ∧ s.event o.event = s₀) ∨
        (o.tree? = none ∧ o.drops = true ∧
          s.event o.event = s₀.setEngine m.engine engine.recordDropped) ∨
        ∃ tree, o.tree? = some tree ∧ o.drops = false ∧
          s.event o.event = (s₀.submit m.engine tree).1) := by
  have hstep : m.assembler.step (s.surroundings engine) o.event = (o.after, o.outcome) := by
    rw [← ho, ← ha]
    rfl
  rw [surroundings] at hstep
  -- The state and the notices are taken first, and then the verdict is heeded.
  refine ⟨(s.setAssembler o.after).tell o.outcome.notices, ?_, member?_setAssembler hm o.after,
    ?_, ?_⟩
  · unfold setAssembler
    split <;> exact ⟨rfl, rfl, rfl, rfl⟩
  · unfold setAssembler
    split <;> exact hengine
  · simp only [event, hm, hengine, hstep, Moment.tree?, Moment.drops]
    cases o.outcome.verdict with
    | none => exact .inl ⟨rfl, rfl, rfl⟩
    | dropped => exact .inr (.inl ⟨rfl, rfl, rfl⟩)
    | submitted tree => exact .inr (.inr ⟨tree, rfl, rfl, rfl⟩)

theorem took_event {s : Session} {m : Member} {engine : Engine} (hm : s.member? = some m)
    (hengine : s.engine? m.engine = some engine) (e : Event) :
    s.Took (s.event e) m engine ⟨⟨s.surroundings engine, e⟩, m.assembler⟩ := by
  obtain ⟨o, ho⟩ : ∃ o : Moment, o = ⟨⟨s.surroundings engine, e⟩, m.assembler⟩ := ⟨_, rfl⟩
  have hcases := event_cases hm hengine (o := o) (by rw [ho]) (by rw [ho])
  rw [show o.event = e by rw [ho]] at hcases
  rw [← ho]
  obtain ⟨s₀, hunseen, hmember, hengine₀, ⟨htree, hdrops, hevent⟩ | ⟨htree, hdrops, hevent⟩ |
    ⟨tree, htree, hdrops, hevent⟩⟩ := hcases
  · rw [hevent]
    exact ⟨hmember, ⟨engine, hengine₀, by simp [htree], by simp [hdrops]⟩, fun _ => hunseen,
      fun tree h => by rw [htree] at h; cases h⟩
  · rw [hevent]
    exact ⟨hmember, ⟨_, engine?_setEngine hengine₀ _, by simp [htree, Engine.recordDropped],
      by simp [hdrops, Engine.recordDropped]⟩,
      fun _ => ⟨hunseen.sinks, hunseen.recorded, hunseen.reports, hunseen.nextTree⟩,
      fun tree h => by rw [htree] at h; cases h⟩
  · obtain ⟨hmember', hnext, engine', hengine', hsubmitted, hdropped⟩ :=
      submit_spec hmember hengine₀ tree
    rw [hevent]
    refine ⟨hmember', ⟨engine', hengine', by simp [hsubmitted, htree], by simp [hdropped, hdrops]⟩,
      fun h => absurd (h.symm.trans htree) (by simp), fun tree' h => ?_⟩
    obtain rfl : tree = tree' := Option.some.inj (htree.symm.trans h)
    exact ⟨s₀, hunseen, rfl, hnext.trans (congrArg (· + 1) hunseen.nextTree)⟩

/-- The events as the assembler in use meets them. -/
def occurrences (s : Session) : List Event → List Occurrence
  | [] => []
  | e :: es =>
    ((s.member?.bind fun m => s.engine? m.engine).map fun engine =>
      ⟨s.surroundings engine, e⟩).toList ++ (s.event e).occurrences es

theorem occurrences_cons {s : Session} {m : Member} {engine : Engine} (hm : s.member? = some m)
    (hengine : s.engine? m.engine = some engine) (e : Event) (es : List Event) :
    s.occurrences (e :: es) = ⟨s.surroundings engine, e⟩ :: (s.event e).occurrences es := by
  simp [occurrences, hm, hengine]

theorem countP_cons_toNat {α : Type} (p : α → Bool) (a : α) (l : List α) :
    (a :: l).countP p = (p a).toNat + l.countP p := by
  rw [List.countP_cons, Nat.add_comm]
  cases p a <;> rfl

theorem countP_trail (f : Moment → Bool) (a : Assembler) (o : Occurrence) (os : List Occurrence) :
    (a.trail (o :: os)).countP f =
      (f ⟨o, a⟩).toNat + ((Moment.after ⟨o, a⟩).trail os).countP f :=
  countP_cons_toNat f ⟨o, a⟩ _

theorem counters_of_run {s : Session} {m : Member} {engine : Engine} (hm : s.member? = some m)
    (hengine : s.engine? m.engine = some engine) (es : List Event) :
    (es.foldl event s).member? =
      some { m with assembler := m.assembler.after (s.occurrences es) } ∧
    ∃ engine', (es.foldl event s).engine? m.engine = some engine' ∧
      engine'.counters.submitted = engine.counters.submitted +
        (m.assembler.trail (s.occurrences es)).countP (·.tree?.isSome) ∧
      engine'.counters.dropped = engine.counters.dropped +
        (m.assembler.trail (s.occurrences es)).countP Moment.drops := by
  induction es generalizing s m engine with
  | nil => exact ⟨hm, engine, hengine, rfl, rfl⟩
  | cons e es ih =>
    have htook := took_event hm hengine e
    obtain ⟨engine', hengine', hsubmitted, hdropped⟩ := htook.engine
    obtain ⟨hmember, engine'', hengine'', hsubmitted', hdropped'⟩ := ih htook.member hengine'
    rw [occurrences_cons hm hengine, countP_trail, countP_trail, ← Nat.add_assoc,
      ← Nat.add_assoc, ← hsubmitted, ← hdropped]
    exact ⟨hmember, engine'', hengine'', hsubmitted', hdropped'⟩

end Session

open Assembler Session

/-- Every trace that is opened is held until it ends once: submitted, dropped, or abandoned. The
session broadcasts and counts the submitted ones and counts the dropped ones. -/
theorem traces_accounted (capacity : Nat) :
    (∀ os : List Occurrence,
      (∀ k ≤ os.length,
        Accounted ((new capacity).trail os) k ((new capacity).after (os.take k))) ∧
      (∀ (k : Nat) (m : Moment), ((new capacity).trail os)[k]? = some m →
        m.Accounts ((new capacity).trail os) k) ∧
      ((∀ o ∈ os, ∀ traceId clock flags, o.event ≠ .begin traceId clock flags) →
        ∀ m ∈ (new capacity).trail os, m.tree? = none)) ∧
    ∀ (s : Session) (m : Member) (engine : Engine), s.member? = some m →
      s.engine? m.engine = some engine →
      (∀ e, s.Took (s.event e) m engine ⟨⟨s.surroundings engine, e⟩, m.assembler⟩) ∧
      ∀ es : List Event,
        (es.foldl event s).member? =
          some { m with assembler := m.assembler.after (s.occurrences es) } ∧
        ∃ engine', (es.foldl event s).engine? m.engine = some engine' ∧
          engine'.counters.submitted = engine.counters.submitted +
            (m.assembler.trail (s.occurrences es)).countP (·.tree?.isSome) ∧
          engine'.counters.dropped = engine.counters.dropped +
            (m.assembler.trail (s.occurrences es)).countP Moment.drops := by
  refine ⟨fun os => ⟨fun k hk => accounted_of_trail capacity os hk,
    fun k m hm => accounts_of_trail hm, tree?_of_no_begin⟩, fun s m engine hm hengine => ?_⟩
  exact ⟨took_event hm hengine, counters_of_run hm hengine⟩

/-- A trace that is opened on a call and one that is opened above a discarded call. -/
def lostBegin : List Event :=
  [.enter 1 1 1 0, .begin 7 0 ∅, .enter 2 2 2 10, .exit 12, .begin 8 0 ∅, .exit 300]

def singleUse (c : Config) : Session :=
  { engines := [.ofConfig c], assemblers := [("", ⟨"", 0, new 0⟩)] }

theorem traces_accounted_of_lostBegin :
    let c : Config := { minTraceTime := 0 }
    let ms := (new 0).trail (occurrences c lostBegin)
    (∃ m tree, ms[5]? = some m ∧ m.tree? = some tree ∧ held ms 5 = [4, 1] ∧
      Ends ms 4 5 .abandoned ∧ Ends ms 1 5 .submitted) ∧
    (∀ m ∈ (new 0).trail (occurrences c [.enter 1 1 1 0, .exit 300]), m.tree? = none) ∧
    ∃ engine, (lostBegin.foldl event (singleUse c)).engine? 0 = some engine ∧
      engine.counters.submitted = 1 ∧ engine.counters.dropped = 0 := by
  intro c ms
  obtain ⟨hruns, hsessions⟩ := traces_accounted 0
  obtain ⟨haccounted, haccounts, -⟩ := hruns (occurrences c lostBegin)
  specialize haccounted 6 (Nat.le_refl _)
  obtain ⟨m, hm⟩ : ∃ m, ms[5]? = some m := ⟨_, rfl⟩
  obtain ⟨tree, htree⟩ := Option.isSome_iff_exists.mp
    ((haccounts 5 m hm).submitted.mpr ⟨1, by decide⟩)
  have hends := haccounted.ends 5 (by decide)
  have hquiet : ∀ m ∈ (new 0).trail (occurrences c [.enter 1 1 1 0, .exit 300]), m.tree? = none :=
    (hruns _).2.2 (by simp [occurrences])
  obtain ⟨-, engine, hengine, hsubmitted, hdropped⟩ :=
    (hsessions (singleUse c) _ _ rfl rfl).2 lostBegin
  refine ⟨⟨m, tree, hm, htree, by decide, (hends 4 .abandoned (by decide)).2,
    (hends 1 .submitted (by decide)).2⟩, hquiet, engine, hengine, ?_, ?_⟩
  · rw [hsubmitted]
    decide +kernel
  · rw [hdropped]
    decide +kernel

end CallTree
