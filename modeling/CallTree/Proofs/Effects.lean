import CallTree.Proofs.Closing

/-!
What an event comes to in a sound state: a call is entered or closed, a trace is opened, or the
slots are at most touched. Soundness is kept in every case.
-/
namespace CallTree

def Event.time? : Event → Option Nat
  | .enter _ _ _ time => some time
  | .exit time => some time
  | .fail _ time => some time
  | _ => none

def Event.time (e : Event) : Nat := e.time?.getD 0

def Event.error? : Event → Option ErrorChain
  | .fail error _ => some error
  | _ => none

def Event.remark : Event → Marker → Marker
  | .minimumTime nanos, m => { m with minimumTime := nanos }
  | .markTrace _ flags, m => m.mark flags
  | .correlate context, m => { m with context := some context }
  | _, m => m

def Event.rewrite : Event → Frame → Frame
  | .attr _ id value, f => f.setAttr id value
  | .markFrame flags, f => f.mark flags
  | _, f => f

inductive Kind where
  | enters
  | closes
  | begins
  /-- A refused event, or one that concerns traces, flags and attributes only. -/
  | other
deriving DecidableEq

namespace Assembler

def kind (a : Assembler) (e : Event) : Kind :=
  if a.enabled then
    match e with
    | .enter .. => .enters
    | .exit _ => if 0 < a.depth then .closes else .other
    | .fail _ _ => if 0 < a.depth then .closes else .other
    | .begin .. => if a.top.isTraceRoot then .other else .begins
    | _ => .other
  else .other

theorem enter_of_kind {a : Assembler} {e : Event} (hk : a.kind e = .enters) : a.enabled ∧
    ∃ classId methodId signatureId time, e = .enter classId methodId signatureId time := by
  cases e <;> grind [kind]

theorem close_of_kind {a : Assembler} {e : Event} (hk : a.kind e = .closes) : a.enabled ∧
    0 < a.depth ∧ ∃ time, e = .exit time ∨ ∃ error, e = .fail error time := by
  cases e <;> grind [kind]

theorem begin_of_kind {a : Assembler} {e : Event} (hk : a.kind e = .begins) : a.enabled ∧
    a.top.isTraceRoot = false ∧ ∃ traceId clock flags, e = .begin traceId clock flags := by
  cases e <;> grind [kind]

theorem time?_of_kind {a : Assembler} {e : Event} (h : a.kind e = .enters ∨ a.kind e = .closes) :
    e.time? = some e.time := by
  rcases h with h | h
  · obtain ⟨-, _, _, _, _, rfl⟩ := enter_of_kind h
    rfl
  · obtain ⟨-, -, _, rfl | ⟨_, rfl⟩⟩ := close_of_kind h <;> rfl

/-- The same open calls, with at most their traces, flags and attributes changed. -/
structure Touches (a a' : Assembler) : Prop where
  slots : AllTouched a.slots a'.slots
  placeholder : a.isPlaceholder → a'.top = a.top
  nodeCount : a'.nodeCount = a.nodeCount
  pool : a'.pool = a.pool

variable {a a' : Assembler}

theorem Touches.refl (a : Assembler) : Touches a a :=
  ⟨AllTouched.refl a.slots, fun _ => rfl, rfl, rfl⟩

theorem Touches.top (h : Touches a a') : a.top.Touched a'.top :=
  (List.forall₂_cons.mp h.slots).1

theorem Touches.ancestors (h : Touches a a') : AllTouched a.ancestors a'.ancestors :=
  (List.forall₂_cons.mp h.slots).2

theorem Touches.openCalls (h : Touches a a') : AllTouched a.openCalls a'.openCalls := by
  unfold Assembler.openCalls
  rw [h.top.isBusy]
  split
  · exact h.slots
  · exact h.ancestors

theorem Touches.awaited_isTraceRoot (h : Touches a a') :
    a'.awaited.isTraceRoot = a.awaited.isTraceRoot := by
  have hroot : a'.top.frame.isTraceRoot = a.top.frame.isTraceRoot := h.top.isTraceRoot
  simp only [awaited, h.top.isBusy]
  split
  · rfl
  · exact hroot

theorem Touches.isPlaceholder (h : Touches a a') : a'.isPlaceholder = a.isPlaceholder := by
  have hempty : a'.ancestors.isEmpty = a.ancestors.isEmpty := by
    have hlength := h.ancestors.length_eq
    cases ha : a.ancestors <;> cases ha' : a'.ancestors <;> simp_all
  unfold Assembler.isPlaceholder
  rw [h.top.isBusy, h.top.isTraceRoot, hempty]

theorem Touches.sound (h : Touches a a') (hs : a.Sound) : a'.Sound where
  busy := h.ancestors.isBusy hs.busy
  vacant ht := by
    have heq := h.top.eq
    rw [hs.vacant (h.top.isBusy ▸ ht)] at heq
    exact heq
  placeholder hp := by
    rw [h.isPlaceholder] at hp
    rw [h.placeholder hp, hs.placeholder hp]
  clean := h.pool ▸ hs.clean

theorem touches_withSlots {ns : List Node} (h : AllTouched a.slots ns)
    (hp : a.isPlaceholder → ns.head? = some a.top) : Touches a (a.withSlots ns) := by
  cases h with
  | cons hn hns =>
    exact ⟨.cons hn hns, fun hplace => Option.some.inj (hp hplace), rfl, rfl⟩

theorem touches_mapMarker {p : Marker → Bool} {g : Marker → Marker}
    (hg : ∀ m : Marker, m.Grows (g m)) (a : Assembler) : Touches a (a.mapMarker p g) := by
  unfold mapMarker
  cases h : updateMarker p g a.slots with
  | none => exact .refl a
  | some ns =>
    refine touches_withSlots (updateFirst_forall₂ .refl (touched_mapMarker hg) h) fun hplace => ?_
    have hm : a.top.frame.marker = none := by
      simp only [isPlaceholder, Bool.and_eq_true, Bool.not_eq_true'] at hplace
      exact Option.isSome_eq_false_iff.mp hplace.2 |> Option.isNone_iff_eq_none.mp
    unfold updateMarker slots updateFirst at h
    simp only [hm, Option.any_none, Bool.false_eq_true, ↓reduceIte, Option.map_eq_some_iff] at h
    obtain ⟨ns', -, rfl⟩ := h
    rfl

theorem touches_updateFrame {p : Frame → Bool} {g : Frame → Frame}
    (hg : ∀ n : Node, n.Touched (n.mapFrame g)) (h : a.updateFrame p g = some a') :
    Touches a a' := by
  unfold updateFrame at h
  dsimp only at h
  split at h
  case isTrue hp =>
    obtain ⟨ns, hns, rfl⟩ := Option.map_eq_some_iff.mp h
    exact ⟨.cons (.refl a.top) (updateFirst_forall₂ .refl hg hns), fun _ => rfl, rfl, rfl⟩
  case isFalse hp =>
    obtain ⟨ns, hns, rfl⟩ := Option.map_eq_some_iff.mp h
    exact touches_withSlots (updateFirst_forall₂ .refl hg hns) fun h => absurd h hp

theorem touched_mark (n : Node) (flags : NodeFlags) : n.Touched (n.mapFrame (·.mark flags)) :=
  ⟨⟨rfl, rfl, rfl⟩, fun x hx => by simp [Node.mapFrame, Frame.mark, hx], relGrows_refl _⟩

theorem touched_setAttr (n : Node) (id : SymbolId) (value : AttrValue) :
    n.Touched (n.mapFrame (·.setAttr id value)) :=
  ⟨⟨rfl, rfl, rfl⟩, fun _ h => h, relGrows_refl _⟩

/-- What becomes of a state by an event that neither enters nor closes a call nor opens a trace. -/
inductive Retouches (e : Event) (a : Assembler) : Assembler → Prop
  | idle : Retouches e a a
  | switch (on : Bool) : Retouches e a { a with enabled := on }
  | marker (p : Marker → Bool) : Retouches e a (a.mapMarker p e.remark)
  | frame (p : Frame → Bool) {a' : Assembler} (h : a.updateFrame p e.rewrite = some a') :
    Retouches e a a'

theorem Retouches.touches {e : Event} (h : Retouches e a a') : Touches a a' := by
  cases h with
  | idle => exact .refl a
  | switch on => exact ⟨AllTouched.refl a.slots, fun _ => rfl, rfl, rfl⟩
  | marker p =>
    refine touches_mapMarker (fun m => ?_) a
    cases e with
    | minimumTime nanos => exact m.grows_minimumTime nanos
    | markTrace traceId flags => exact m.grows_mark flags
    | correlate context => exact m.grows_context context
    | _ => exact .refl m
  | frame p h =>
    refine touches_updateFrame (fun n => ?_) h
    cases e with
    | attr target id value => exact touched_setAttr n id value
    | markFrame flags => exact touched_mark n flags
    | _ => exact ⟨⟨rfl, rfl, rfl⟩, fun _ h => h, relGrows_refl _⟩

theorem Retouches.forall₂ {Q : Node → Node → Prop} (hQ : ∀ n, Q n n)
    {e : Event} (hmarker : ∀ n : Node, Q n (n.mapMarker e.remark))
    (hframe : ∀ n : Node, Q n (n.mapFrame e.rewrite)) (h : Retouches e a a') :
    List.Forall₂ Q a.slots a'.slots := by
  have hsame (ns : List Node) : List.Forall₂ Q ns ns := List.forall₂_same.mpr fun n _ => hQ n
  cases h with
  | idle => exact hsame _
  | switch on => exact hsame _
  | marker p =>
    unfold mapMarker
    cases heq : updateMarker p e.remark a.slots with
    | none => exact hsame _
    | some ns =>
      have hns := updateFirst_forall₂ hQ hmarker heq
      cases ns with
      | nil => cases hns
      | cons n ns => exact hns
  | frame p h =>
    unfold updateFrame at h
    dsimp only at h
    split at h
    case isTrue =>
      obtain ⟨ns, hns, rfl⟩ := Option.map_eq_some_iff.mp h
      exact .cons (hQ _) (updateFirst_forall₂ hQ hframe hns)
    case isFalse =>
      obtain ⟨ns, hns, rfl⟩ := Option.map_eq_some_iff.mp h
      have hslots := updateFirst_forall₂ hQ hframe hns
      cases ns with
      | nil => cases hslots
      | cons n ns => exact hslots

def newMarker (t : Thresholds) (traceId : SymbolId) (clock : Nat) (flags : MarkerFlags)
    (outer : Option Marker) : Marker :=
  let marker := match outer with
    | some outer => Marker.nested traceId clock outer
    | none => { traceId, clock, minimumTime := t.minTraceTime }
  let marker := marker.mark flags
  if t.dropInterim then marker.mark (.single .dropInterim) else marker

theorem newMarker_ids (t : Thresholds) (traceId : SymbolId) (clock : Nat) (flags : MarkerFlags)
    (outer : Option Marker) : (newMarker t traceId clock flags outer).traceId = traceId ∧
      (newMarker t traceId clock flags outer).clock = clock := by
  unfold newMarker
  cases outer <;> dsimp only <;> split <;> exact ⟨rfl, rfl⟩

def opened (t : Thresholds) (traceId : SymbolId) (clock : Nat) (flags : MarkerFlags)
    (a : Assembler) : Assembler :=
  let outer := nearest? a.ancestors
  { a with
    top := a.top.mapFrame fun f =>
      { f with marker := some (newMarker t traceId clock flags outer) }.mark (.single .opensTrace)
    nodeCount := if outer.isSome then a.nodeCount else if a.top.isBusy then 1 else 0 }

theorem opened_isBusy {t : Thresholds} {traceId : SymbolId} {clock : Nat} {flags : MarkerFlags} :
    (a.opened t traceId clock flags).top.isBusy = a.top.isBusy := rfl

theorem opened_openCalls_of_busy (t : Thresholds) (traceId : SymbolId) (clock : Nat)
    (flags : MarkerFlags) (h : a.top.isBusy) :
    (a.opened t traceId clock flags).openCalls =
      (a.opened t traceId clock flags).top :: a.ancestors :=
  openCalls_of_busy (opened_isBusy.trans h)

theorem opened_openCalls_of_vacant (t : Thresholds) (traceId : SymbolId) (clock : Nat)
    (flags : MarkerFlags) (h : a.top.isBusy = false) :
    (a.opened t traceId clock flags).openCalls = a.openCalls := by
  rw [openCalls_of_vacant h, openCalls_of_vacant (opened_isBusy.trans h)]
  rfl

theorem opened_alike (t : Thresholds) (traceId : SymbolId) (clock : Nat) (flags : MarkerFlags)
    (a : Assembler) :
    List.Forall₂ Node.Alike a.openCalls (a.opened t traceId clock flags).openCalls := by
  have hsame : List.Forall₂ Node.Alike a.ancestors a.ancestors := (AllTouched.refl _).alike
  unfold Assembler.openCalls
  rw [opened_isBusy]
  split
  · exact .cons ⟨rfl, rfl, rfl⟩ hsame
  · exact hsame

theorem openTrace_ok (t : Thresholds) (traceId : SymbolId) (clock : Nat) (flags : MarkerFlags)
    (h : a.top.isTraceRoot = false) :
    a.openTrace t traceId clock flags = .ok (a.opened t traceId clock flags) := by
  have hm : a.top.frame.marker = none := by
    unfold Node.isTraceRoot Frame.isTraceRoot at h
    simpa using h
  unfold openTrace opened
  simp only [hm]
  cases nearest? a.ancestors <;> rfl

theorem openTrace_error (t : Thresholds) (traceId : SymbolId) (clock : Nat) (flags : MarkerFlags)
    (h : a.top.isTraceRoot) :
    ∃ why, a.openTrace t traceId clock flags = .error why := by
  obtain ⟨m, hm⟩ := Option.isSome_iff_exists.mp h
  exact ⟨_, by unfold openTrace; simp only [hm]; rfl⟩

theorem Sound.opened (h : a.Sound) (t : Thresholds) (traceId : SymbolId) (clock : Nat)
    (flags : MarkerFlags) : (a.opened t traceId clock flags).Sound where
  busy := h.busy
  vacant ht := by
    have hv := h.vacant ht
    generalize htop : a.top = n at hv
    unfold Assembler.opened
    rw [htop, hv]
    rfl
  placeholder hp := by
    simp [isPlaceholder, Assembler.opened, Node.isTraceRoot, Frame.isTraceRoot, Node.mapFrame,
      Frame.mark] at hp
  clean := h.clean

/-! ### The four kinds -/

variable (env : Surroundings) {e : Event}

theorem step_enters (h : a.Sound) (hk : a.kind e = .enters) :
    ∃ classId methodId signatureId time, e = .enter classId methodId signatureId time ∧
      Entered env.thresholds classId methodId signatureId time a (a.step env e).1 ∧
      (a.step env e).2.verdict = .none := by
  obtain ⟨hon, classId, methodId, signatureId, time, rfl⟩ := enter_of_kind hk
  have hstep : a.step env (.enter classId methodId signatureId time) =
      a.enter env.thresholds classId methodId signatureId time := if_pos hon
  rw [hstep]
  exact ⟨_, _, _, _, rfl, enter_entered h _ _ _ _ _, rfl⟩

theorem step_of_close (hk : a.kind e = .closes) {r : Assembler × Outcome}
    (h : a.close env e.time e.error? = .ok r) : a.step env e = r := by
  obtain ⟨hon, -, time, rfl | ⟨error, rfl⟩⟩ := close_of_kind hk
  · simp only [Event.time, Event.time?, Event.error?, Option.getD_some] at h
    simp [step, hon, handle, h]
  · simp only [Event.time, Event.time?, Event.error?, Option.getD_some] at h
    simp [step, hon, handle, h]

theorem step_closes (h : a.Sound) (hk : a.kind e = .closes) :
    ∃ n outer, a.openCalls = n :: outer ∧
      Closed env (finish e.time e.error? n) outer a (a.step env e).1 ∧
      (a.step env e).2.verdict = (settle env (finish e.time e.error? n) outer).verdict := by
  obtain ⟨-, hdepth, -⟩ := close_of_kind hk
  rw [← length_openCalls] at hdepth
  obtain ⟨n, outer, hopen⟩ := List.exists_cons_of_length_pos hdepth
  obtain ⟨a', outcome, hclose, hclosed, hverdict⟩ := close_closed env e.time e.error? h hopen
  rw [step_of_close env hk hclose]
  exact ⟨n, outer, hopen, hclosed, hverdict⟩

theorem step_begins (hk : a.kind e = .begins) :
    ∃ traceId clock flags, e = .begin traceId clock flags ∧ a.top.isTraceRoot = false ∧
      (a.step env e).1 = a.opened env.thresholds traceId clock flags ∧
      (a.step env e).2.verdict = .none := by
  obtain ⟨hon, hroot, traceId, clock, flags, rfl⟩ := begin_of_kind hk
  refine ⟨traceId, clock, flags, rfl, hroot, ?_⟩
  simp [step, hon, handle, openTrace_ok _ _ _ _ hroot]

theorem step_other (hk : a.kind e = .other) :
    Retouches e a (a.step env e).1 ∧ (a.step env e).2.verdict = .none := by
  unfold kind at hk
  unfold step
  split at hk
  case isFalse hoff =>
    rw [if_neg hoff]
    cases e with
    | enable => exact ⟨.switch true, rfl⟩
    | _ => exact ⟨.idle, rfl⟩
  case isTrue hon =>
    rw [if_pos hon]
    have hnone (hd : ¬0 < a.depth) : a.openCalls = [] := by
      rw [← length_openCalls] at hd
      exact List.length_eq_zero_iff.mp (by omega)
    cases e with
    | enter => cases hk
    | exit time =>
      have hd : ¬0 < a.depth := fun hd => by simp [hd] at hk
      simp only [handle, close_of_no_calls env time none (hnone hd),
        resynced_of_no_calls env.held (hnone hd)]
      exact ⟨.idle, trivial⟩
    | fail error time =>
      have hd : ¬0 < a.depth := fun hd => by simp [hd] at hk
      simp only [handle, close_of_no_calls env time (some error) (hnone hd),
        resynced_of_no_calls env.held (hnone hd)]
      exact ⟨.idle, trivial⟩
    | begin traceId clock flags =>
      have hr : a.top.isTraceRoot := by
        by_contra hr
        simp [hr] at hk
      obtain ⟨why, herr⟩ := openTrace_error env.thresholds traceId clock flags hr
      simp only [handle, herr]
      exact ⟨.idle, trivial⟩
    | attr target id value =>
      rw [handle]
      split
      case h_1 a' h => exact ⟨.frame target.isMet h, rfl⟩
      case h_2 => exact ⟨.idle, rfl⟩
    | minimumTime nanos => exact ⟨.marker fun _ => true, rfl⟩
    | markTrace traceId flags => exact ⟨.marker fun m => traceId.all (m.traceId == ·), rfl⟩
    | markFrame flags =>
      refine ⟨?_, rfl⟩
      rw [handle]
      cases h : a.updateFrame (fun _ => true) (·.mark flags) with
      | none => exact .idle
      | some a' => exact .frame (fun _ => true) h
    | correlate context => exact ⟨.marker fun _ => true, rfl⟩
    | disable => exact ⟨.switch false, rfl⟩
    | enable => exact ⟨.idle, rfl⟩

theorem Sound.step (h : a.Sound) (e : Event) : (a.step env e).1.Sound := by
  cases hk : a.kind e with
  | enters =>
    obtain ⟨_, _, _, _, -, hentered, -⟩ := step_enters env h hk
    exact hentered.sound
  | closes =>
    obtain ⟨_, _, -, hclosed, -⟩ := step_closes env h hk
    exact hclosed.sound
  | begins =>
    obtain ⟨_, _, _, -, -, hstep, -⟩ := step_begins env hk
    rw [hstep]
    exact h.opened _ _ _ _
  | other => exact (step_other env hk).1.touches.sound h

end Assembler

end CallTree
