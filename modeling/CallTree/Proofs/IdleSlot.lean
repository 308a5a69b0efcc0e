import CallTree.Proofs.Handover
import CallTree.Proofs.SideBySide

/-!
Without an open call the top slot is the one that the next call will take. Attributes and flags for
the current call are written there and stay until that call is entered, whatever happens in between.
-/
namespace CallTree
open Assembler Session

namespace Event

def annotates : Event → Bool
  | .attr .current _ _ => true
  | .markFrame _ => true
  | _ => false

def isAttr : Event → Bool
  | .attr .. => true
  | _ => false

variable (e : Event) (f : Frame)

theorem rewrite_eq : e.rewrite f = { f with
    flags := (e.rewrite f).flags, attributes := (e.rewrite f).attributes } := by
  cases e <;> rfl

theorem rewrite_isBusy : (e.rewrite f).isBusy = f.isBusy := by
  rw [rewrite_eq]
  rfl

theorem rewrite_mark (flags : NodeFlags) : e.rewrite (f.mark flags) = (e.rewrite f).mark flags := by
  cases e with
  | markFrame flags' =>
    simp only [rewrite, Frame.mark, FlagSet.union_assoc, FlagSet.union_comm flags]
  | _ => rfl

theorem rewrite_setAttr {e : Event} (he : ¬e.isAttr) (id : SymbolId) (value : AttrValue) :
    e.rewrite (f.setAttr id value) = (e.rewrite f).setAttr id value := by
  cases e with
  | attr => exact absurd rfl he
  | _ => rfl

end Event

namespace Assembler

/-- No call is open, and no trace waits for the next one. -/
structure Idle (a : Assembler) : Prop where
  depth : a.depth = 0
  untraced : a.top.isTraceRoot = false

def annotated (a : Assembler) (e : Event) : Assembler := { a with top := a.top.mapFrame e.rewrite }

variable {a : Assembler} {e : Event} (env : Surroundings)

theorem not_placeholder (hopen : a.openCalls = []) : a.isPlaceholder = false := by
  cases ht : a.top.isBusy with
  | true => simp [isPlaceholder, ht]
  | false =>
    rw [openCalls_of_vacant ht] at hopen
    simp [isPlaceholder, hopen]

theorem updateFrame_top (hplace : a.isPlaceholder = false) {p : Frame → Bool} (hp : p a.top.frame)
    (g : Frame → Frame) : a.updateFrame p g = some { a with top := a.top.mapFrame g } := by
  simp [updateFrame, hplace, slots, updateFirst, hp, withSlots]

theorem step_of_annotates (hon : a.enabled) (hplace : a.isPlaceholder = false) (he : e.annotates) :
    a.step env e = (a.annotated e, {}) := by
  unfold step
  rw [if_pos hon]
  cases e with
  | attr target id value =>
    cases target with
    | current =>
      rw [handle, updateFrame_top hplace rfl]
      rfl
    | anyTrace | trace => cases he
  | markFrame flags =>
    rw [handle, updateFrame_top hplace rfl]
    rfl
  | _ => cases he

/-! ### Annotating commutes with what happens meanwhile -/

theorem map_annotated {g : Frame → Frame} (hg : ∀ f, e.rewrite (g f) = g (e.rewrite f))
    (nodeCount : Nat) : { a.annotated e with top := (a.annotated e).top.mapFrame g, nodeCount } =
      ({ a with top := a.top.mapFrame g, nodeCount } : Assembler).annotated e := by
  simp only [annotated, Node.mapFrame, hg]

theorem annotated_opened (t : Thresholds) (traceId : SymbolId) (clock : Nat)
    (flags : MarkerFlags) : (a.annotated e).opened t traceId clock flags =
      (a.opened t traceId clock flags).annotated e := by
  have hbusy : (a.annotated e).top.isBusy = a.top.isBusy := e.rewrite_isBusy _
  unfold opened
  rw [hbusy]
  refine map_annotated (fun f => ?_) _
  rw [e.rewrite_mark]
  cases e <;> rfl

section NoCalls

variable (hopen : a.openCalls = [])
include hopen

theorem alone_of_no_calls : a.top.isBusy = false ∧ a.ancestors = [] := by
  cases ht : a.top.isBusy with
  | true =>
    rw [openCalls_of_busy ht] at hopen
    cases hopen
  | false => exact ⟨rfl, (openCalls_of_vacant ht).symm.trans hopen⟩

theorem enter_of_no_calls (t : Thresholds) (classId methodId signatureId : SymbolId)
    (time : Nat) :
    let inTrace := 0 < a.nodeCount || a.top.isTraceRoot
    let nodeCount := if inTrace then a.nodeCount + 1 else a.nodeCount
    let taken (f : Frame) : Frame :=
      { f with classId, methodId, signatureId, startTime := some time, calls := f.calls + 1 }
    a.enter t classId methodId signatureId time =
      ({ a with
        top := a.top.mapFrame fun f =>
          if inTrace && t.maxTraceRecords < nodeCount then (taken f).mark (.single .overflow)
          else taken f
        nodeCount },
      { notices := if a.top.frame.marker.any (·.flags.has .traceCalls) then
        [.entered classId methodId 0 time] else [] }) := by
  obtain ⟨ht, hnil⟩ := alone_of_no_calls hopen
  intro inTrace nodeCount taken
  have hpush : a.push = a := if_neg (by simp [ht])
  have hfirst (n : Node) : nearest? [n] = n.frame.marker := by
    rw [nearest_cons]
    cases n.frame.marker <;> rfl
  unfold enter
  rw [hpush]
  simp only [tracesCalls, slots, hnil, hfirst]
  by_cases hover : inTrace && t.maxTraceRecords < nodeCount
  · rw [if_pos hover]
    simp only [hover]
    rfl
  · rw [if_neg hover]
    simp only [hover]
    rfl

theorem mapMarker_of_no_calls (p : Marker → Bool) (g : Marker → Marker) : a.mapMarker p g =
    if a.top.frame.marker.any p then { a with top := a.top.mapMarker g } else a := by
  obtain ⟨-, hnil⟩ := alone_of_no_calls hopen
  simp only [mapMarker, updateMarker, slots, hnil, updateFirst, Option.map_none]
  split
  · simp only [Option.map_some, withSlots, Option.getD_some]
    rw [← hnil]
    rfl
  · rfl

theorem annotated_no_calls (e : Event) : (a.annotated e).openCalls = [] := by
  obtain ⟨ht, hnil⟩ := alone_of_no_calls hopen
  have ht' : (a.annotated e).top.isBusy = false := (e.rewrite_isBusy _).trans ht
  rw [openCalls_of_vacant ht']
  exact hnil

theorem annotated_enter (t : Thresholds) (classId methodId signatureId : SymbolId) (time : Nat) :
    (a.annotated e).enter t classId methodId signatureId time =
      ((a.enter t classId methodId signatureId time).1.annotated e,
        (a.enter t classId methodId signatureId time).2) := by
  have hmarker : (a.annotated e).top.frame.marker = a.top.frame.marker := e.rewrite_marker _
  have hroot : (a.annotated e).top.isTraceRoot = a.top.isTraceRoot :=
    congrArg Option.isSome hmarker
  have htaken (full : Bool) (f : Frame) :
      let taken (f : Frame) : Frame :=
        { f with classId, methodId, signatureId, startTime := some time, calls := f.calls + 1 }
      e.rewrite (if full then (taken f).mark (.single .overflow) else taken f) =
        if full then (taken (e.rewrite f)).mark (.single .overflow) else taken (e.rewrite f) := by
    cases full with
    | true =>
      refine (e.rewrite_mark _ _).trans ?_
      cases e <;> rfl
    | false => cases e <;> rfl
  rw [enter_of_no_calls hopen, enter_of_no_calls (annotated_no_calls hopen e), hroot, hmarker]
  exact Prod.ext (map_annotated (htaken _) _) rfl

theorem annotated_mapMarker (p : Marker → Bool) (g : Marker → Marker) :
    (a.annotated e).mapMarker p g = (a.mapMarker p g).annotated e := by
  have hmarker : (a.annotated e).top.frame.marker = a.top.frame.marker := e.rewrite_marker _
  rw [mapMarker_of_no_calls hopen, mapMarker_of_no_calls (annotated_no_calls hopen e), hmarker]
  split
  · refine map_annotated (fun f => ?_) a.nodeCount
    cases e <;> rfl
  · rfl

theorem updateFrame_of_unmet {p : Frame → Bool} (hp : p a.top.frame = false)
    (g : Frame → Frame) : a.updateFrame p g = none := by
  rw [updateFrame_eq_none, searched, not_placeholder hopen, slots, (alone_of_no_calls hopen).2]
  simpa using hp

/-- Without an open call an event meets the annotated slot as it meets the slot itself. Two
attributes may have the same id, so their order counts. -/
theorem annotated_step {e' : Event} (hattr : e'.isAttr → ¬e.isAttr) :
    (a.annotated e).step env e' = ((a.step env e').1.annotated e, (a.step env e').2) := by
  have hopen' := annotated_no_calls hopen e
  have hmarker : (a.annotated e).top.frame.marker = a.top.frame.marker := e.rewrite_marker _
  have hplace := not_placeholder hopen
  have hplace' := not_placeholder hopen'
  unfold step
  rw [show (a.annotated e).enabled = a.enabled from rfl]
  cases hon : a.enabled with
  | false => cases e' <;> rfl
  | true =>
    simp only [↓reduceIte]
    cases e' with
    | enter classId methodId signatureId time => exact annotated_enter hopen ..
    | exit | fail =>
      simp only [handle, close_of_no_calls _ _ _ hopen, close_of_no_calls _ _ _ hopen',
        resynced_of_no_calls _ hopen, resynced_of_no_calls _ hopen']
    | begin traceId clock flags =>
      cases hm : a.top.frame.marker with
      | some m =>
        have hids : (a.annotated e).top.frame.classId = a.top.frame.classId ∧
            (a.annotated e).top.frame.methodId = a.top.frame.methodId := by
          cases e <;> exact ⟨rfl, rfl⟩
        simp only [handle, openTrace, hmarker, hm, hids]
      | none =>
        have hroot : a.top.isTraceRoot = false := congrArg Option.isSome hm
        have hroot' : (a.annotated e).top.isTraceRoot = false :=
          congrArg Option.isSome (hmarker.trans hm)
        simp only [handle, openTrace_ok _ _ _ _ hroot, openTrace_ok _ _ _ _ hroot',
          annotated_opened]
    | attr target id value =>
      have hmet : target.isMet (a.annotated e).top.frame = target.isMet a.top.frame := by
        cases target <;> simp only [AttrTarget.isMet, Frame.isTraceRoot, Frame.traceId, hmarker]
      have hset (f : Frame) := e.rewrite_setAttr f (hattr rfl) id value
      cases hp : target.isMet a.top.frame with
      | true =>
        rw [handle, handle, updateFrame_top hplace hp, updateFrame_top hplace' (hmet.trans hp)]
        exact Prod.ext (map_annotated hset a.nodeCount) rfl
      | false =>
        rw [handle, handle, updateFrame_of_unmet hopen hp,
          updateFrame_of_unmet hopen' (hmet.trans hp)]
    | markFrame flags =>
      rw [handle, handle, updateFrame_top hplace rfl, updateFrame_top hplace' rfl]
      exact Prod.ext (map_annotated (e.rewrite_mark · flags) a.nodeCount) rfl
    | minimumTime | markTrace | correlate => exact Prod.ext (annotated_mapMarker hopen _ _) rfl
    | disable | enable => rfl

theorem no_calls_step {e' : Event} (hk : a.kind e' ≠ .enters) :
    (a.step env e').1.openCalls = [] := by
  cases hkind : a.kind e' with
  | enters => exact absurd hkind hk
  | closes =>
    have hdepth := (close_of_kind hkind).2.1
    rw [← length_openCalls, hopen] at hdepth
    exact absurd hdepth (Nat.lt_irrefl 0)
  | begins =>
    obtain ⟨traceId, clock, flags, -, -, hstep, -⟩ := step_begins env hkind
    rw [hstep, opened_openCalls_of_vacant _ _ _ _ (alone_of_no_calls hopen).1]
    exact hopen
  | other =>
    have hcalls := (step_other env hkind).1.touches.openCalls
    rw [hopen] at hcalls
    exact List.forall₂_nil_left_iff.mp hcalls

theorem annotated_moment {o : Occurrence} (hattr : o.event.isAttr → ¬e.isAttr) :
    Moment.after ⟨o, a.annotated e⟩ = (Moment.after ⟨o, a⟩).annotated e ∧
      Moment.tree? ⟨o, a.annotated e⟩ = Moment.tree? ⟨o, a⟩ := by
  have hstep := annotated_step o.env hopen hattr
  simp only [Moment.after, Moment.tree?, Moment.outcome, hstep, and_self]

theorem annotated_run {pre : List Occurrence} (hpre : ∀ m ∈ a.trail pre, m.kind ≠ .enters)
    (hattr : ∀ p ∈ pre, p.event.isAttr → ¬e.isAttr) : (a.after pre).openCalls = [] ∧
      (a.annotated e).after pre = (a.after pre).annotated e ∧
      submitted ((a.annotated e).trail pre) = submitted (a.trail pre) := by
  induction pre generalizing a with
  | nil => exact ⟨hopen, rfl, rfl⟩
  | cons o pre ih =>
    obtain ⟨hk, hpre⟩ := List.forall_mem_cons.mp hpre
    obtain ⟨ho, hattr⟩ := List.forall_mem_cons.mp hattr
    obtain ⟨hstep, htree⟩ := annotated_moment hopen ho
    obtain ⟨hnone, hafter, htrees⟩ := ih (no_calls_step o.env hopen hk) hpre hattr
    refine ⟨hnone, ?_, ?_⟩
    · calc (a.annotated e).after (o :: pre)
        _ = (Moment.after ⟨o, a.annotated e⟩).after pre := rfl
        _ = ((Moment.after ⟨o, a⟩).annotated e).after pre := by rw [hstep]
        _ = (a.after (o :: pre)).annotated e := hafter
    · rw [submitted_cons, submitted_cons, htree, hstep]
      exact congrArg _ htrees

theorem submitted_of_no_calls (hsound : a.Sound) {rest : List Occurrence}
    (hrest : ∀ m ∈ a.trail rest, m.kind ≠ .enters) : submitted (a.trail rest) = [] := by
  induction rest generalizing a with
  | nil => rfl
  | cons o rest ih =>
    obtain ⟨hk, hrest⟩ := List.forall_mem_cons.mp hrest
    have hnone : Moment.tree? ⟨o, a⟩ = none := by
      by_contra htree
      obtain ⟨tree, htree⟩ := Option.ne_none_iff_exists'.mp htree
      have hdepth := (close_of_kind (Moment.closes_of_tree hsound htree)).2.1
      rw [← length_openCalls, hopen] at hdepth
      exact Nat.lt_irrefl 0 hdepth
    rw [submitted_cons, hnone, Option.toList_none, List.nil_append]
    exact ih (no_calls_step o.env hopen hk) (hsound.step o.env o.event) hrest

end NoCalls

theorem submitted_append (a : Assembler) (os os' : List Occurrence) :
    submitted (a.trail (os ++ os')) =
      submitted (a.trail os) ++ submitted ((a.after os).trail os') := by
  rw [submitted, trail_append, List.filterMap_append]
  rfl

theorem submitted_annotates {w : Occurrence} (hon : a.enabled) (hplace : a.isPlaceholder = false)
    (hw : w.event.annotates) (rest : List Occurrence) :
    submitted (a.trail (w :: rest)) = submitted ((a.annotated w.event).trail rest) := by
  have hstep := step_of_annotates w.env hon hplace hw
  rw [submitted_cons]
  simp only [Moment.tree?, Moment.outcome, Moment.after, hstep]
  rfl

end Assembler

/-- Without an open call an attribute for a trace is refused, and one for the current call is not:
it is put on the slot of the next call, as flags for the current call are. Nothing is submitted
before that call is entered, and then all is as if it had been put on the call afterwards. -/
theorem annotation_waits_for_call (capacity : Nat) (os : List Occurrence)
    (hidle : ((new capacity).after os).Idle) :
    let a := (new capacity).after os
    (∀ env target id value, a.enabled → target ≠ .current →
      a.refuses env (.attr target id value)) ∧
    (∀ rest, (∀ m ∈ a.trail rest, m.kind ≠ .enters) → submitted (a.trail rest) = []) ∧
    ∀ w : Occurrence, w.event.annotates →
      (a.enabled = false → a.step w.env w.event = (a, {})) ∧
      (a.enabled → a.step w.env w.event =
        ({ a with top := a.top.mapFrame w.event.rewrite }, {}) ∧
        ∀ pre o rest, (∀ m ∈ a.trail pre, m.kind ≠ .enters) →
          (∀ p ∈ pre, p.event.isAttr → ¬w.event.isAttr) → (a.after pre).kind o.event = .enters →
          submitted (a.trail (w :: (pre ++ o :: rest))) =
            submitted (a.trail (pre ++ o :: w :: rest))) := by
  intro a
  have hsound : a.Sound := (sound_new capacity).after os
  have hopen : a.openCalls = [] := no_calls_of_depth hidle.depth
  refine ⟨fun env target id value hon htarget => ?_, fun rest hrest =>
    submitted_of_no_calls hopen hsound hrest, fun w hw => ⟨fun hoff => ?_, fun hon => ?_⟩⟩
  · obtain ⟨-, hnil⟩ := alone_of_no_calls hopen
    have hroot : a.top.frame.isTraceRoot = false := hidle.untraced
    have hnone : a.searched.any (target.isMet ·.frame) = false := by
      rw [searched, not_placeholder hopen, slots, hnil]
      cases target <;> simp [AttrTarget.isMet, hroot] at htarget ⊢
    rw [refuses_iff env hsound hon, refusal?, hnone]
    rfl
  · unfold step
    rw [if_neg (by simp [hoff])]
    cases he : w.event with
    | enable =>
      rw [he] at hw
      cases hw
    | _ => rfl
  · have hplace := not_placeholder hopen
    refine ⟨step_of_annotates w.env hon hplace hw, fun pre o rest hpre hattr hk => ?_⟩
    obtain ⟨hnone, hafter, htrees⟩ := annotated_run (e := w.event) hopen hpre hattr
    obtain ⟨hon', classId, methodId, signatureId, time, he⟩ := enter_of_kind hk
    obtain ⟨hstep, htree⟩ := annotated_moment (e := w.event) (o := o) hnone
      (by simp [he, Event.isAttr])
    obtain ⟨_, _, _, _, -, hentered⟩ :=
      Moment.enters_spec (m := ⟨o, a.after pre⟩) (hsound.after pre) hk
    have hplace' : (Moment.after ⟨o, a.after pre⟩).isPlaceholder = false := by
      simp [isPlaceholder, hentered.busy]
    calc submitted (a.trail (w :: (pre ++ o :: rest)))
      _ = submitted ((a.annotated w.event).trail (pre ++ o :: rest)) :=
        submitted_annotates hon hplace hw _
      _ = submitted (a.trail pre) ++
          submitted (((a.after pre).annotated w.event).trail (o :: rest)) := by
        rw [submitted_append, hafter, htrees]
      _ = submitted (a.trail pre) ++ submitted ((a.after pre).trail (o :: w :: rest)) := by
        rw [submitted_cons, submitted_cons, hstep, htree,
          submitted_annotates (hentered.enabled.trans hon') hplace' hw]
      _ = submitted (a.trail (pre ++ o :: w :: rest)) := (submitted_append a pre _).symm

def servedCall : List Event :=
  [.enter 1 1 1 0, .begin 7 0 ∅, .enter 2 2 2 10, .exit 15, .exit 300]

/-- An attribute after one trace, with no call open, is found on the call of the next one. -/
theorem annotation_waits_for_call_of_servedCall :
    let c : Config := { minTraceTime := 0 }
    let a := (new 2).after (occurrences c servedCall)
    let wait := occurrences c [.markFrame (.single .forced), .begin 8 0 ∅]
    let w : Occurrence := ⟨⟨.ofConfig c, fun _ => false, 1⟩, .attr .current 5 (.int 3)⟩
    let o : Occurrence := { w with event := .enter 3 3 3 400 }
    let rest := occurrences c [.exit 900]
    a.Idle ∧ a.refuses w.env (.attr .anyTrace 5 (.int 3)) ∧
      submitted (a.trail (w :: (wait ++ o :: rest))) =
        submitted (a.trail (wait ++ o :: w :: rest)) ∧
      (submitted (a.trail (w :: (wait ++ o :: rest)))).map (·.frame.attributes) =
        [[(5, .int 3)]] := by
  intro c a wait w o rest
  have hidle : a.Idle := ⟨by decide +kernel, by decide +kernel⟩
  have hon : a.enabled := by decide +kernel
  obtain ⟨htraces, -, hwrite⟩ := annotation_waits_for_call 2 (occurrences c servedCall) hidle
  obtain ⟨-, htrees⟩ := (hwrite w rfl).2 hon
  refine ⟨hidle, htraces w.env .anyTrace 5 (.int 3) hon (by decide),
    htrees wait o rest (by decide +kernel) (by simp [wait, occurrences, Event.isAttr])
      (by decide +kernel), by decide +kernel⟩

/-- With no call open neither an attribute nor a flag for the current call is without effect. -/
theorem idle_annotations_submitted :
    let c : Config := { minTraceTime := 0 }
    let later : List Event := [.enter 1 1 1 0, .begin 7 0 ∅, .exit 300]
    let trees (es : List Event) := (submitted ((new 0).trail (occurrences c es))).map fun tree =>
      (tree.frame.attributes, tree.frame.flags.has .forced)
    (new 0).Idle ∧
      (∀ env, (new 0).refuses env (.attr .current 5 (.int 3)) = false) ∧
      trees later = [([], false)] ∧
      trees ([.attr .current 5 (.int 3), .markFrame (.single .forced)] ++ later) =
        [([(5, .int 3)], true)] := by
  intro c later trees
  exact ⟨⟨rfl, rfl⟩, fun env => rfl, by decide +kernel, by decide +kernel⟩

end CallTree
