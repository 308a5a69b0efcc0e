import CallTree.Proofs.Transparency

/-!
Nothing is left of a call when the outermost one has closed: but for its pool the assembler is as
good as new. Whatever comes next goes as it would with a new assembler of the same engine.
-/
namespace CallTree
open Assembler

theorem Moment.closes_of_depth {m : Moment} (h : m.before.Sound)
    (hdepth : m.after.depth < m.before.depth) : m.kind = .closes := by
  rw [← length_openCalls, ← length_openCalls] at hdepth
  cases hk : m.kind with
  | enters =>
    obtain ⟨_, _, _, _, -, hentered⟩ := Moment.enters_spec h hk
    rw [hentered.openCalls, List.length_cons] at hdepth
    omega
  | closes => rfl
  | begins =>
    obtain ⟨traceId, clock, flags, -, -, hafter⟩ := Moment.begins_spec hk
    have halike := opened_alike m.env.thresholds traceId clock flags m.before
    rw [hafter, ← halike.length_eq] at hdepth
    omega
  | other =>
    have htouched := (Moment.other_spec hk).touches.openCalls
    rw [← htouched.length_eq] at hdepth
    omega

theorem Moment.blank_of_outermost {m : Moment} (h : m.before.Sound) (hbefore : m.before.depth = 1)
    (hafter : m.after.depth = 0) : m.after = { pool := m.after.pool } := by
  have hk : m.kind = .closes := m.closes_of_depth h (by omega)
  obtain ⟨n, outer, hopen, hclosed, -⟩ := step_closes m.env h hk
  have houter : outer = [] := by
    rw [← length_openCalls, hopen, List.length_cons] at hbefore
    exact List.length_eq_zero_iff.mp (by omega)
  have hvacant : m.after.top.isBusy = false := by
    cases hbusy : m.after.top.isBusy with
    | false => rfl
    | true => simp [depth, hbusy] at hafter
  have htop : m.after.top = {} := hclosed.vacant hvacant
  have hancestors : m.after.ancestors = [] := by
    rw [← openCalls_of_vacant hvacant]
    exact List.length_eq_zero_iff.mp ((length_openCalls m.after).trans hafter)
  have hcount : m.after.nodeCount = 0 := by
    rw [houter] at hclosed
    exact hclosed.nodeCount
  have henabled : m.after.enabled = true := hclosed.enabled.trans (close_of_kind hk).1
  generalize m.after = a at *
  cases a
  simp only at htop hancestors hcount henabled
  rw [htop, hancestors, hcount, henabled]

theorem Session.beside_fresh {s : Session} {m : Member} {t : Tracer} {engine : Engine}
    (hm : s.member? = some m) (hown : s.table.inUse = none)
    (ht : s.tracers.lookup m.tracer = some t) (hengine : t.engine = m.engine)
    (he : s.engine? m.engine = some engine) (htold : s.told = []) {pool : Pool}
    (hblank : m.assembler = { pool }) (hsound : m.assembler.Sound) :
    Session.Beside s (s.next (.assembler s.current m.tracer)) := by
  have hnext : (s.execute (.assembler s.current m.tracer)).1 =
      { s with assemblers :=
          Keyed.put s.current ⟨m.tracer, m.engine, s.freshAssembler m.engine⟩ s.assemblers } := by
    rw [Session.execute, Session.withEngine, ht]
    simp only [hengine, he]
  have hmember : (s.next (.assembler s.current m.tracer)).member? =
      some ⟨m.tracer, m.engine, s.freshAssembler m.engine⟩ := by
    rw [Session.next, hnext]
    simp only [Session.member?, hown, Keyed.lookup_put, if_pos]
  refine ⟨?_, ?_, ?_, ?_, ?_, ?_⟩
  · rw [Session.next, hnext]
  · rw [Session.next, hnext]
  · rw [hm, hmember]
    simp only [Option.map_some, Member.content, hblank]
    rfl
  · exact htold
  · intro n hn
    obtain rfl := Option.some.inj (hm.symm.trans hn)
    exact hsound
  · intro n hn
    obtain rfl := Option.some.inj (hmember.symm.trans hn)
    exact sound_new _

open Session

/-- When the only open call has closed, the assembler equals a new one but for its pool, and from
then on it shows what a new one would. -/
theorem fresh_after_outermost {capacity : Nat} {os : List Occurrence} {k : Nat} {m : Moment}
    (hm : ((new capacity).trail os)[k]? = some m) (hbefore : m.before.depth = 1)
    (hafter : m.after.depth = 0) :
    (∀ capacity', m.after = { new capacity' with pool := m.after.pool }) ∧
    (∀ (capacity' : Nat) (rest rest' : List Occurrence),
      rest.map (·.given) = rest'.map (·.given) →
      (m.after.trail rest).map Moment.shown = ((new capacity').trail rest').map Moment.shown) ∧
    ∀ (s : Session) (member : Member) (t : Tracer) (engine : Engine),
      s.member? = some member → member.assembler = m.after → s.table.inUse = none →
      s.tracers.lookup member.tracer = some t → t.engine = member.engine →
      s.engine? member.engine = some engine → s.told = [] →
      ∀ cs : List Command, (∀ c ∈ cs, c.isAboutCalls || c.isAboutSinks) →
        let fresh := s.next (.assembler s.current member.tracer)
        gists cs (s.runAll cs).2 = gists cs (fresh.runAll cs).2 ∧ s.trees cs = fresh.trees cs := by
  have hsound : m.before.Sound := sound_of_trail hm
  have hsound' : m.after.Sound := hsound.step m.env m.event
  have hblank := Moment.blank_of_outermost hsound hbefore hafter
  refine ⟨fun _ => hblank, fun capacity' rest rest' hgiven => ?_, ?_⟩
  · refine shown_same hsound' (sound_new capacity') ?_ hgiven
    rw [hblank]
    rfl
  · intro s member t engine hmember hassembler hown ht hengine he htold cs hcs
    rw [← hassembler] at hblank hsound'
    have hbeside := beside_fresh hmember hown ht hengine he htold hblank hsound'
    refine hbeside.same_gists htold (fun c hc => ?_) rfl
    rcases List.mem_append.mp hc with hc | hc
    · exact hcs c hc
    · exact hcs c hc

/-- A trace with an attribute, an inner trace, a call that fails and one that is discarded. -/
def variedTrace : List Event :=
  [.exit 0, .enter 1 1 1 0, .begin 7 0 ∅, .attr .current 5 (.int 3), .enter 2 2 2 10,
    .begin 8 0 (.single .allMethods), .fail { error := ⟨1, 9, "lost", []⟩ } 100, .enter 3 3 3 110,
    .exit 111, .exit 300]

def resumed (c : Config) (a : Assembler) : Session :=
  { start c true with assemblers := [("a", ⟨"t", 0, a⟩)] }

theorem resumed_spec (c : Config) (a : Assembler) :
    ∃ member, (resumed c a).member? = some member ∧ member.assembler = a ∧ member.tracer = "t" ∧
      member.engine = 0 ∧ (resumed c a).table.inUse = none ∧
      (resumed c a).tracers.lookup "t" = some ⟨0, 0⟩ ∧
      (resumed c a).engine? 0 = some ((Engine.ofConfig c).addSink 0).1 ∧ (resumed c a).told = [] :=
  ⟨⟨"t", 0, a⟩, rfl, rfl, rfl, rfl, rfl, rfl, rfl, rfl⟩

theorem fresh_after_outermost_of_variedTrace :
    let c : Config := { minTraceTime := 0, minMethodTime := 5, poolCapacity := 2 }
    let os := occurrences c variedTrace
    let m : Moment := ⟨os[9], (new 2).after (os.take 9)⟩
    let s := resumed c m.after
    let fresh := s.next (.assembler s.current "t")
    m.before.depth = 1 ∧ m.after.depth = 0 ∧ m.tree?.isSome ∧ m.after.pool.hits = 1 ∧
    m.after = { new 2 with pool := m.after.pool } ∧
    (m.after.trail os).map Moment.shown = ((new 7).trail os).map Moment.shown ∧
    gists nestedTraces (s.runAll nestedTraces).2 =
        gists nestedTraces (fresh.runAll nestedTraces).2 ∧
      s.trees nestedTraces = fresh.trees nestedTraces := by
  intro c os m s fresh
  have hm : ((new 2).trail os)[9]? = some m := moment_of_trail (new 2) (by decide)
  have hbefore : m.before.depth = 1 := by decide +kernel
  have hafter : m.after.depth = 0 := by decide +kernel
  obtain ⟨hblank, hruns, hsessions⟩ := fresh_after_outermost hm hbefore hafter
  obtain ⟨member, hmember, hassembler, htracer, hengine, hown, ht, he, htold⟩ :=
    resumed_spec c m.after
  refine ⟨hbefore, hafter, by decide +kernel, by decide +kernel, hblank 2, hruns 7 os os rfl, ?_⟩
  have hsame := hsessions s member ⟨0, 0⟩ ((Engine.ofConfig c).addSink 0).1 hmember hassembler hown
    (htracer ▸ ht) hengine.symm (hengine ▸ he) htold nestedTraces (by decide)
  rwa [htracer] at hsame

end CallTree
