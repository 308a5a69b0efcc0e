import CallTree.Proofs.Accounting

/-!
Events that an assembler refuses: a second trace on one call, a return without a call, an attribute
without a call to put it on. Such an event is reported once and leaves everything as it was, so a
run without it is the same run.
-/
namespace CallTree

namespace Assembler

/-- The slots among which an attribute looks for its call, the innermost first. -/
def searched (a : Assembler) : List Node := if a.isPlaceholder then a.ancestors else a.slots

def refusal? (a : Assembler) : Event → Option Notice
  | .exit time => if a.depth = 0 then some (.returnIgnored time .noOpenFrame) else none
  | .fail _ time => if a.depth = 0 then some (.errorIgnored time .noOpenFrame) else none
  | .begin traceId _ _ => a.top.frame.marker.map fun m =>
    .beginIgnored traceId a.top.frame.classId a.top.frame.methodId
      (.markerAlreadySet m.traceId traceId)
  | .attr target id _ =>
    if a.searched.any (target.isMet ·.frame) then none
    else some (.attributeDropped id target .noMatchingFrame)
  | _ => none

def refuses (env : Surroundings) (a : Assembler) (e : Event) : Bool :=
  (a.step env e).2.notices.any (·.level = .warn)

theorem level_of_refusal {a : Assembler} {e : Event} {notice : Notice}
    (h : a.refusal? e = some notice) : notice.level = .warn := by
  cases e with
  | exit time =>
    obtain ⟨-, ⟨⟩⟩ := Option.ite_none_right_eq_some.mp h
    rfl
  | fail error time =>
    obtain ⟨-, ⟨⟩⟩ := Option.ite_none_right_eq_some.mp h
    rfl
  | begin traceId clock flags =>
    obtain ⟨m, -, rfl⟩ := Option.map_eq_some_iff.mp h
    rfl
  | attr target id value =>
    obtain ⟨-, ⟨⟩⟩ := Option.ite_none_left_eq_some.mp h
    rfl
  | _ => cases h

/-! ### What is refused -/

theorem updateFirst_eq_none (p : Node → Bool) (g : Node → Node) (ns : List Node) :
    updateFirst p g ns = none ↔ ns.any p = false := by
  induction ns with
  | nil => simp [updateFirst]
  | cons n ns ih =>
    rw [updateFirst, List.any_cons]
    cases hp : p n with
    | true => simp
    | false => simpa using ih

theorem updateFrame_eq_none (a : Assembler) (p : Frame → Bool) (g : Frame → Frame) :
    a.updateFrame p g = none ↔ a.searched.any (p ·.frame) = false := by
  unfold updateFrame searched
  dsimp only
  split <;> rw [Option.map_eq_none_iff, updateFirst_eq_none]

theorem no_calls_of_depth {a : Assembler} (h : a.depth = 0) : a.openCalls = [] :=
  List.length_eq_zero_iff.mp ((length_openCalls a).trans h)

variable {a : Assembler} (env : Surroundings)

/-- A refused event changes nothing. A return may skip a slot before it is refused, but then there
is an open call below that slot. -/
theorem handle_of_refusal {e : Event} {notice : Notice} (h : a.refusal? e = some notice) :
    a.handle env e = (a, { notices := [notice] }) := by
  cases e with
  | exit time =>
    obtain ⟨hdepth, ⟨⟩⟩ := Option.ite_none_right_eq_some.mp h
    have hopen := no_calls_of_depth hdepth
    simp only [handle, close_of_no_calls env time none hopen, resynced_of_no_calls env.held hopen]
  | fail error time =>
    obtain ⟨hdepth, ⟨⟩⟩ := Option.ite_none_right_eq_some.mp h
    have hopen := no_calls_of_depth hdepth
    simp only [handle, close_of_no_calls env time (some error) hopen,
      resynced_of_no_calls env.held hopen]
  | begin traceId clock flags =>
    obtain ⟨m, hm, rfl⟩ := Option.map_eq_some_iff.mp h
    simp only [handle, openTrace, hm]
  | attr target id value =>
    obtain ⟨hnone, ⟨⟩⟩ := Option.ite_none_left_eq_some.mp h
    rw [Bool.not_eq_true] at hnone
    simp only [handle, (updateFrame_eq_none a target.isMet (·.setAttr id value)).mpr hnone]
  | _ => cases h

theorem step_of_refusal {e : Event} (hon : a.enabled) {notice : Notice}
    (h : a.refusal? e = some notice) : a.step env e = (a, { notices := [notice] }) := by
  unfold step
  rw [if_pos hon, handle_of_refusal env h]

/-! ### What is not refused -/

theorem close_quiet (time : Nat) (error : Option ErrorChain) (h : a.Sound) (hdepth : a.depth ≠ 0) :
    ∃ r, a.close env time error = .ok r ∧ r.2.notices.any (·.level = .warn) = false := by
  obtain ⟨n, outer, hopen⟩ := List.exists_cons_of_length_pos
    (Nat.pos_of_ne_zero ((length_openCalls a).symm ▸ hdepth))
  refine ⟨_, close_eq env time error h hopen, ?_⟩
  have hsettled (n : Node) (outer : List Node) :
      (settle env n outer).notices.any (·.level = .warn) = false := by
    unfold settle
    cases n.frame.marker with
    | none => rfl
    | some m => dsimp only; split <;> rfl
  dsimp only
  rw [List.any_append, Bool.or_eq_false_iff]
  refine ⟨?_, hsettled _ _⟩
  split <;> rfl

theorem quiet_of_no_refusal {e : Event} (h : a.Sound) (hnone : a.refusal? e = none) :
    a.refuses env e = false := by
  unfold refuses step
  split
  case isFalse => cases e <;> rfl
  case isTrue hon =>
    cases e with
    | enter classId methodId signatureId time =>
      have hnotices (logged : Bool) (time depth : Nat) :
          (if logged then [Notice.entered classId methodId depth time] else []).any
            (·.level = .warn) = false := by
        cases logged <;> rfl
      exact hnotices _ time _
    | exit time =>
      obtain ⟨r, hclose, hquiet⟩ := close_quiet env time none h fun hdepth => by
        simp [refusal?, hdepth] at hnone
      simpa only [handle, hclose] using hquiet
    | fail error time =>
      obtain ⟨r, hclose, hquiet⟩ := close_quiet env time (some error) h fun hdepth => by
        simp [refusal?, hdepth] at hnone
      simpa only [handle, hclose] using hquiet
    | begin traceId clock flags =>
      have hroot : a.top.isTraceRoot = false := by
        rw [Node.isTraceRoot, Frame.isTraceRoot, Option.map_eq_none_iff.mp hnone]
        rfl
      simp only [handle, openTrace_ok _ _ _ _ hroot, List.any_nil]
    | attr target id value =>
      have hsome : a.updateFrame target.isMet (·.setAttr id value) ≠ none := by
        rw [Ne, updateFrame_eq_none]
        intro hany
        simp [refusal?, hany] at hnone
      obtain ⟨a', ha'⟩ := Option.ne_none_iff_exists'.mp hsome
      simp only [handle, ha', List.any_nil]
    | _ => rfl

theorem refuses_iff {e : Event} (h : a.Sound) (hon : a.enabled) :
    a.refuses env e ↔ (a.refusal? e).isSome := by
  cases hrefusal : a.refusal? e with
  | none => simp [quiet_of_no_refusal env h hrefusal]
  | some notice =>
    rw [refuses, step_of_refusal env hon hrefusal]
    simp [level_of_refusal hrefusal]

theorem refuses_enabled {e : Event} (h : a.refuses env e) : a.enabled := by
  cases hon : a.enabled with
  | true => rfl
  | false => cases e <;> simp [refuses, step, hon] at h

theorem step_of_refuses {e : Event} (hsound : a.Sound) (h : a.refuses env e) : ∃ notice,
    a.refusal? e = some notice ∧ notice.level = .warn ∧
      a.step env e = (a, { notices := [notice] }) := by
  have hon := refuses_enabled env h
  obtain ⟨notice, hnotice⟩ := Option.isSome_iff_exists.mp ((refuses_iff env hsound hon).mp h)
  exact ⟨notice, hnotice, level_of_refusal hnotice, step_of_refusal env hon hnotice⟩

end Assembler

/-! ### Runs without what is refused -/

def Moment.refused (m : Moment) : Bool := m.before.refuses m.env m.event

namespace Assembler

/-- The events that are not refused. -/
def heeded (a : Assembler) (os : List Occurrence) : List Occurrence :=
  ((a.trail os).filter (!·.refused)).map (·.toOccurrence)

theorem heeded_spec {a : Assembler} (h : a.Sound) (os : List Occurrence) :
    a.trail (a.heeded os) = (a.trail os).filter (!·.refused) ∧
      a.after (a.heeded os) = a.after os := by
  unfold heeded
  induction os generalizing a with
  | nil => exact ⟨rfl, rfl⟩
  | cons o os ih =>
    obtain ⟨htrail, hafter⟩ := ih (h.step o.env o.event)
    rw [trail, after]
    cases hrefused : Moment.refused ⟨o, a⟩ with
    | true =>
      obtain ⟨notice, -, -, hstep⟩ := step_of_refuses o.env h hrefused
      rw [hstep] at htrail hafter ⊢
      rw [List.filter_cons_of_neg (by simp [hrefused])]
      exact ⟨htrail, hafter⟩
    | false =>
      rw [List.filter_cons_of_pos (by simp [hrefused])]
      exact ⟨congrArg _ htrail, hafter⟩

end Assembler

namespace Session

theorem event_of_refusal {s : Session} {m : Member} {engine : Engine} (hm : s.member? = some m)
    (hengine : s.engine? m.engine = some engine) {e : Event} {notice : Notice}
    (hstep : m.assembler.step (s.surroundings engine) e =
      (m.assembler, { notices := [notice] })) :
    (s.event e).member? = some m ∧ (s.event e).engines = s.engines ∧
      (s.event e).sinks = s.sinks ∧ (s.event e).nextTree = s.nextTree ∧
      (s.event e).notices = s.notices ++ [notice] := by
  have hevent : s.event e = (s.setAssembler m.assembler).tell [notice] := by
    rw [surroundings] at hstep
    simp only [event, hm, hengine, hstep]
  rw [hevent]
  refine ⟨member?_setAssembler hm m.assembler, ?_⟩
  unfold setAssembler
  split <;> exact ⟨rfl, rfl, rfl, rfl⟩

end Session

open Assembler Session

/-- In every state of a run a begin is refused just when the top slot has a trace, a return when
there is no open call, an attribute when none of the slots that it may go to is the right one, and
no other event. A refused event has one warning, leaves the assembler and the engines as they
were, and may be left out of the run. -/
theorem refused_without_trace (capacity : Nat) (os : List Occurrence) :
    let a := (new capacity).after os
    (∀ env, a.enabled →
      (∀ traceId clock flags,
        a.refuses env (.begin traceId clock flags) ↔ a.top.isTraceRoot) ∧
      (∀ time, a.refuses env (.exit time) ↔ a.depth = 0) ∧
      (∀ error time, a.refuses env (.fail error time) ↔ a.depth = 0) ∧
      (∀ target id value, a.refuses env (.attr target id value) ↔
        ∀ n ∈ a.searched, target.isMet n.frame = false) ∧
      ∀ e, a.refusal? e = none → a.refuses env e = false) ∧
    (∀ env e, a.refuses env e → ∃ notice, a.refusal? e = some notice ∧ notice.level = .warn ∧
      a.step env e = (a, { notices := [notice] })) ∧
    (∀ (s : Session) (tracer : String) (e : EngineId) (engine : Engine),
      s.member? = some ⟨tracer, e, a⟩ → s.engine? e = some engine →
      ∀ event, a.refuses (s.surroundings engine) event →
        (s.event event).member? = s.member? ∧ (s.event event).engines = s.engines ∧
          (s.event event).sinks = s.sinks ∧ (s.event event).nextTree = s.nextTree ∧
          ∃ notice, notice.level = .warn ∧ (s.event event).notices = s.notices ++ [notice]) ∧
    (new capacity).trail ((new capacity).heeded os) =
      ((new capacity).trail os).filter (!·.refused) ∧
    (new capacity).after ((new capacity).heeded os) = a := by
  intro a
  have hsound : a.Sound := (sound_new capacity).after os
  obtain ⟨htrail, hafter⟩ := heeded_spec (sound_new capacity) os
  refine ⟨fun env hon => ⟨?_, ?_, ?_, ?_, ?_⟩, fun env e => step_of_refuses env hsound, ?_, htrail,
    hafter⟩
  · intro traceId clock flags
    rw [refuses_iff env hsound hon, refusal?, Option.isSome_map]
    rfl
  · intro time
    rw [refuses_iff env hsound hon, refusal?]
    split <;> simp_all
  · intro error time
    rw [refuses_iff env hsound hon, refusal?]
    split <;> simp_all
  · intro target id value
    rw [refuses_iff env hsound hon, refusal?]
    split <;> simp_all
  · intro e
    exact quiet_of_no_refusal env hsound
  · intro s tracer e engine hm hengine event hrefused
    obtain ⟨notice, -, hlevel, hstep⟩ := step_of_refuses _ hsound hrefused
    obtain ⟨hmember, hengines, hsinks, hnext, hnotices⟩ := event_of_refusal hm hengine hstep
    exact ⟨hmember.trans hm.symm, hengines, hsinks, hnext, notice, hlevel, hnotices⟩

/-- A call with a return too many, a trace too many and an attribute for a trace that is not there.
After the inner call the top slot only keeps its place. -/
def misuse : List Event :=
  [.exit 1, .enter 1 1 1 2, .begin 7 0 ∅, .begin 8 0 ∅, .enter 2 2 2 3, .exit 4,
    .attr (.trace 8) 1 (.int 5), .attr .current 1 (.int 6)]

theorem refused_without_trace_of_misuse :
    let c : Config := {}
    let os := occurrences c misuse
    let a := (new 2).after os
    let s : Session := { engines := [.ofConfig c], assemblers := [("", ⟨"", 0, a⟩)] }
    let wrong : Event := .attr (.trace 8) 2 (.int 0)
    ((new 2).trail os).map (·.refused) = [true, false, false, true, false, false, true, false] ∧
      ((new 2).heeded os).map (·.event.time?) = [some 2, none, some 3, some 4, none] ∧
      (new 2).after ((new 2).heeded os) = a ∧ a.refuses (s.surroundings (.ofConfig c)) wrong ∧
      (s.event wrong).engines = s.engines ∧
      ∃ notice, notice.level = .warn ∧ (s.event wrong).notices = [notice] := by
  intro c os a s wrong
  obtain ⟨hrefused, -, hsession, -, hafter⟩ := refused_without_trace 2 os
  have hon : a.enabled := by decide +kernel
  have hwrong : a.refuses (s.surroundings (.ofConfig c)) wrong :=
    ((hrefused _ hon).2.2.2.1 (.trace 8) 2 (.int 0)).mpr (by decide +kernel)
  obtain ⟨-, hengines, -, -, hnotices⟩ := hsession s "" 0 (.ofConfig c) rfl rfl wrong hwrong
  exact ⟨by decide +kernel, by decide +kernel, hafter, hwrong, hengines, hnotices⟩

end CallTree
