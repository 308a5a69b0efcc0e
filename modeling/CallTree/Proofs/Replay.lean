import CallTree.Proofs.Call
import CallTree.Proofs.Depiction
import CallTree.Proofs.PlainTraces

/-!
Replaying the events of nested calls submits the trees that the recursion over the calls gives. An
open call is compared with what the recursion has of it so far; flags that only report what was
left out or failed play no part in a decision.
-/
namespace CallTree
open Assembler

/-! ### Alike so far -/

structure Marker.Like (m s : Marker) : Prop where
  record : { m with flags := ∅ } = { s with flags := ∅ }
  flags : ∀ x, x ≠ .overflow → x ≠ .error → m.flags.has x = s.flags.has x

def Frame.core (f : Frame) : Frame :=
  { f with
    flags := ∅
    error := none
    attributes := []
    marker := none }

/-- An open call and what the recursion has of it so far. -/
structure Node.Like (n s : Node) : Prop where
  core : n.frame.core = s.frame.core
  marker : Option.Rel Marker.Like n.frame.marker s.frame.marker
  plain : n.Plain
  overflow : n.frame.flags.has .overflow = false
  forced : n.frame.flags.has .forced = false
  children : n.children.map Node.bare = s.children.map Node.bare

theorem Marker.Like.mark {m s : Marker} (h : m.Like s) {flags : MarkerFlags}
    (hflags : ∀ x, x ≠ .overflow → x ≠ .error → flags.has x = false) : (m.mark flags).Like s := by
  refine ⟨h.record, fun x hx hx' => ?_⟩
  simp [Marker.mark, h.flags x hx hx', hflags x hx hx']

theorem Marker.Like.inherit {m s : Marker} (h : m.Like s) (inner : MarkerFlags) :
    (m.inherit inner).Like s := by
  refine h.mark fun x hx hx' => ?_
  simp [MarkerFlags.inheritable, FlagSet.insert, Ne.symm hx, Ne.symm hx']

theorem Marker.Like.minimumTime {m s : Marker} (h : m.Like s) :
    m.minimumTime = s.minimumTime := by
  have hrecord := h.record
  rw [Marker.mk.injEq] at hrecord
  exact hrecord.2.2.1

theorem Marker.Like.shouldSubmit {m s : Marker} (h : m.Like s) (duration calls minCalls : Nat) :
    m.shouldSubmit duration calls minCalls = s.shouldSubmit duration calls minCalls := by
  rw [Marker.shouldSubmit, Marker.shouldSubmit, h.minimumTime, h.flags .submit (by simp) (by simp),
    h.flags .drop (by simp) (by simp)]

theorem newMarker_like {t : Thresholds} (ht : t.dropInterim = false) (traceId : SymbolId)
    (clock : Nat) (flags : MarkerFlags) {outer outer' : Option Marker}
    (h : Option.Rel Marker.Like outer outer') :
    (newMarker t traceId clock flags outer).Like (newMarker t traceId clock flags outer') := by
  unfold newMarker
  simp only [ht, Bool.false_eq_true, ↓reduceIte]
  cases h with
  | none => exact ⟨rfl, fun _ _ _ => rfl⟩
  | @some m s h =>
    refine ⟨by simp [Marker.mark, Marker.nested, h.minimumTime], fun x hx hx' => ?_⟩
    simp [Marker.mark, Marker.nested, h.flags x hx hx']

theorem Frame.bare_eq (f : Frame) :
    f.bare = { f.core with marker := f.marker.map ({ · with flags := ∅ }) } := rfl

theorem Node.Like.bare {n s : Node} (h : n.Like s) : n.bare = s.bare := by
  have hmarker : n.frame.marker.map ({ · with flags := ∅ }) =
      s.frame.marker.map ({ · with flags := ∅ }) := rel_map h.marker fun _ _ hm => hm.record
  rw [Node.bare_eq, Node.bare_eq, Frame.bare_eq, Frame.bare_eq, h.core, h.children, hmarker]

abbrev AllLike : List Node → List Node → Prop := List.Forall₂ Node.Like

theorem AllLike.nearest {ns ss : List Node} (h : AllLike ns ss) :
    Option.Rel Marker.Like (nearest? ns) (nearest? ss) :=
  nearest_rel (List.Forall₂.imp (fun _ _ hn => hn.marker) h)

theorem AllLike.any_isTraceRoot {ns ss : List Node} (h : AllLike ns ss) :
    ns.any (·.isTraceRoot) = (nearest? ss).isSome := by
  rw [Assembler.any_isTraceRoot, rel_isSome h.nearest]

theorem AllLike.plain {ns ss : List Node} (h : AllLike ns ss) : AllPlain ns := by
  induction h with
  | nil => simp [AllPlain]
  | cons hn _ ih => exact allPlain_cons.mpr ⟨hn.plain, ih⟩

theorem AllLike.transfer {ns ns' ss : List Node} (h : AllLike ns ss)
    (hns : List.Forall₂ (fun n n' => ∀ s, n.Like s → n'.Like s) ns ns') : AllLike ns' ss := by
  induction hns generalizing ss with
  | nil => exact h
  | cons hn _ ih =>
    cases h with
    | cons hlike hrest => exact .cons (hn _ hlike) (ih hrest)

theorem like_mapMarker {g : Marker → Marker} (hg : ∀ m s : Marker, m.Like s → (g m).Like s)
    (hplain : ∀ m : Marker, m.Plain → (g m).Plain) (n s : Node) (h : n.Like s) :
    (n.mapMarker g).Like s := by
  exact ⟨h.core, rel_changed h.marker hg, plain_mapMarker hplain n h.plain, h.overflow, h.forced,
    h.children⟩

theorem settle_like (env : Surroundings) (n : Node) {outer ss : List Node}
    (h : AllLike outer ss) : AllLike (settle env n outer).ancestors ss := by
  have hinherit (flags : MarkerFlags) : AllLike (adjustNearest (·.inherit flags) outer) ss := by
    refine h.transfer (adjustNearest_forall₂ (fun _ _ hn => hn) (fun n => ?_) outer)
    exact like_mapMarker (fun _ _ hm => hm.inherit flags) (fun _ hm => hm.inherit flags) n
  unfold settle
  cases n.frame.marker with
  | none => exact h
  | some m =>
    dsimp only
    split <;> exact hinherit _

/-! ### A call that closes -/

def Node.finished (time : Nat) (failed : Bool) (s : Node) : Node :=
  { s with
    frame := { s.frame with
      duration := time - s.frame.startTime.getD 0
      errors := s.frame.errors + if failed then 1 else 0 } }

variable {m : Moment} {s : Node} {ss : List Node}

theorem closing_like (h : m.innermost.Like s) :
    m.closing.Like (s.finished m.event.time m.event.error?.isSome) := by
  obtain ⟨error, flags, heq, hflags⟩ := finish_eq m.event.time m.event.error? m.innermost
  have hcore := h.core
  simp only [Frame.core, Frame.mk.injEq] at hcore
  rw [Moment.closing, heq]
  refine ⟨?_, h.marker, h.plain, ?_, ?_, h.children⟩
  · simp only [Frame.core, Node.finished, hcore]
  · exact (hflags .overflow (by simp) (by simp)).trans h.overflow
  · exact (hflags .forced (by simp) (by simp)).trans h.forced

theorem Node.Like.shouldSubmit {n s : Node} (h : n.Like s) (t : Thresholds) :
    n.frame.marker.any (·.shouldSubmit n.frame.duration n.frame.calls t.minTraceCalls) =
      s.frame.marker.any (·.shouldSubmit s.frame.duration s.frame.calls t.minTraceCalls) := by
  have hcore := h.core
  simp only [Frame.core, Frame.mk.injEq] at hcore
  simp only [hcore]
  exact rel_any h.marker fun _ _ hm => hm.shouldSubmit _ _ _

theorem settle_bare (env : Surroundings) (n : Node) (outer : List Node) :
    (settle env n outer).node.bare = n.bare := by
  have hmarker : (settle env n outer).node.frame.marker.map ({ · with flags := ∅ }) =
      n.frame.marker.map ({ · with flags := ∅ }) := by
    unfold settle
    cases hm : n.frame.marker with
    | none => simp [hm]
    | some marker =>
      dsimp only
      split <;> split <;> rfl
  rw [Node.bare_eq, Node.bare_eq, settle_children, settle_frame, Frame.bare_eq, Frame.bare_eq,
    ← hmarker]
  rfl

theorem tree?_of_closes (hcloses : m.Closes) : m.tree? =
    if m.closing.frame.marker.any (·.shouldSubmit m.closing.frame.duration m.closing.frame.calls
      m.env.thresholds.minTraceCalls) then some m.settled.node else none := by
  rw [Moment.tree?, hcloses.verdict, Moment.settled, settle]
  cases m.closing.frame.marker with
  | none => rfl
  | some marker =>
    simp only [Option.any_some]
    cases marker.shouldSubmit m.closing.frame.duration m.closing.frame.calls
      m.env.thresholds.minTraceCalls <;> rfl

def Node.retains (t : Thresholds) (ss : List Node) (s : Node) : Bool :=
  (nearest? ss).isSome && (t.minMethodTime < s.frame.duration || 0 < s.frame.errors ||
    (nearest? (s :: ss)).any (·.flags.has .allMethods))

theorem fate_like (h : m.closing.Like s) (houter : AllLike m.outer ss) :
    m.fate = if s.retains m.env.thresholds ss then .attach
      else if m.settled.isSubmitted then .leave
      else .discard := by
  have hall : AllLike (m.closing :: m.outer) (s :: ss) := .cons h houter
  have hcore := h.core
  simp only [Frame.core, Frame.mk.injEq] at hcore
  have hflags : (traceFlags (m.closing :: m.outer)).has .allMethods =
      (nearest? (s :: ss)).any (·.flags.has .allMethods) := by
    rw [← rel_any hall.nearest fun _ _ hm => hm.flags .allMethods (by simp) (by simp), traceFlags]
    cases nearest? (m.closing :: m.outer) with
    | none => exact FlagSet.has_empty _
    | some marker => rfl
  have hretained : isRetained m.env.thresholds m.closing.frame
      (traceFlags (m.closing :: m.outer)) =
      (m.env.thresholds.minMethodTime < s.frame.duration || 0 < s.frame.errors ||
        (nearest? (s :: ss)).any (·.flags.has .allMethods)) := by
    rw [isRetained, h.forced, hflags, Bool.or_false]
    simp only [hcore]
  rw [Moment.fate, fateOf_plain hall.plain h.overflow, houter.any_isTraceRoot, hretained]
  rfl

def Node.absorb (t : Thresholds) (ss : List Node) (s p : Node) : Node :=
  { p with
    frame := { p.frame with
      calls := p.frame.calls + s.frame.calls
      errors := p.frame.errors + s.frame.errors }
    children := p.children ++ if s.retains t ss then [s] else [] }

theorem parent_like (h : m.closing.Like s) (houter : AllLike m.outer ss) {q p : Node}
    (hq : q.Like p) : (m.parent q).Like (s.absorb m.env.thresholds ss p) := by
  have hroll : (rollUp m.closing.frame q).Like { p with
      frame := { p.frame with
        calls := p.frame.calls + s.frame.calls
        errors := p.frame.errors + s.frame.errors } } := by
    have hcore := h.core
    have hcore' := hq.core
    simp only [Frame.core, Frame.mk.injEq] at hcore hcore'
    refine ⟨?_, hq.marker, hq.plain, hq.overflow, hq.forced, hq.children⟩
    simp only [Frame.core, rollUp, Node.mapFrame, hcore, hcore']
  rw [m.parent_eq, fate_like h houter, Node.absorb]
  split
  · refine ⟨hroll.core, hroll.marker, hroll.plain, hroll.overflow, hroll.forced, ?_⟩
    have hnode : m.settled.node.bare = s.bare := (settle_bare _ _ _).trans h.bare
    simp only [keep, Node.addChild, List.map_append, List.map_cons, List.map_nil, hnode]
    rw [hroll.children]
  · rw [List.append_nil]
    split <;> exact hroll

theorem around_like (h : m.closing.Like s) (houter : AllLike m.outer ss) :
    AllLike m.around ss := by
  rw [Moment.around, around, h.overflow, Bool.and_false, if_neg (by simp)]
  exact settle_like _ _ houter

/-! ### One event -/

/-- An assembler between two events of a replay; the recursion has `ss` of its open calls. -/
structure Ready (a : Assembler) (ss : List Node) : Prop where
  sound : a.Sound
  enabled : a.enabled
  awaited : a.awaited = {}
  calls : AllLike a.openCalls ss

variable {t : Thresholds}

def Visit.entered (v : Visit) (marker : Option Marker) : Node :=
  { frame := {
      classId := v.classId
      methodId := v.methodId
      signatureId := v.signatureId
      startTime := some v.start
      calls := 1
      marker } }

theorem tree?_of_open (h : m.before.Sound) (hk : m.kind ≠ .closes) : m.tree? = none := by
  cases htree : m.tree? with
  | none => rfl
  | some tree => exact absurd (Moment.closes_of_tree h htree) hk

theorem Ready.enter {v : Visit}
    (hevent : m.event = .enter v.classId v.methodId v.signatureId v.start)
    (hm : m.env.thresholds = t) (h : Ready m.before ss)
    (hbudget : m.before.nodeCount + 1 ≤ t.maxTraceRecords) :
    Ready m.after (v.entered none :: ss) ∧ m.after.top.isBusy ∧
      m.after.nodeCount ≤ m.before.nodeCount + 1 ∧ m.tree? = none := by
  have hk : m.kind = .enters := by simp [Moment.kind, Assembler.kind, h.enabled, hevent]
  obtain ⟨_, _, _, _, hevent', hentered⟩ := Moment.enters_spec h.sound hk
  rw [hevent] at hevent'
  cases hevent'
  have harrival : m.before.arrival m.env.thresholds v.classId v.methodId v.signatureId v.start =
      (v.entered none).frame := by
    have hover : ¬m.env.thresholds.maxTraceRecords < m.before.nodeCount + 1 := by
      rw [hm]
      omega
    simp [arrival, h.awaited, hover, Visit.entered]
  refine ⟨⟨hentered.sound, hentered.enabled.trans h.enabled, awaited_of_busy hentered.busy, ?_⟩,
    hentered.busy, ?_, tree?_of_open h.sound (by simp [hk])⟩
  · rw [hentered.openCalls, harrival]
    refine .cons ⟨rfl, .none, ?_, ?_, ?_, rfl⟩ h.calls
    · simp [Node.Plain, Visit.entered]
    · exact FlagSet.has_empty _
    · exact FlagSet.has_empty _
  · rw [hentered.nodeCount]
    split <;> omega

theorem Ready.begin {v : Visit} {o : Opening}
    (hevent : m.event = .begin o.traceId o.clock o.flags)
    (hm : m.env.thresholds = t) (hplain : m.toOccurrence.Plain)
    (h : Ready m.before (v.entered none :: ss)) (hbusy : m.before.top.isBusy) :
    Ready m.after
        (v.entered (some (newMarker t o.traceId o.clock o.flags (nearest? ss))) :: ss) ∧
      m.after.nodeCount ≤ max m.before.nodeCount 1 ∧ m.tree? = none := by
  have hcalls := h.calls
  rw [openCalls_of_busy hbusy] at hcalls
  obtain ⟨htop, hancestors⟩ := List.forall₂_cons.mp hcalls
  change AllLike m.before.ancestors ss at hancestors
  have hroot : m.before.top.isTraceRoot = false := (rel_isSome htop.marker).symm
  have hk : m.kind = .begins := by simp [Moment.kind, Assembler.kind, h.enabled, hevent, hroot]
  obtain ⟨_, _, _, hevent', -, hafter⟩ := Moment.begins_spec hk
  rw [hevent] at hevent'
  cases hevent'
  have hflags := hplain.flags
  rw [hevent] at hflags
  have ht := hplain.threshold
  have htree := tree?_of_open h.sound (show m.kind ≠ .closes by simp [hk])
  rw [hafter, hm] at *
  refine ⟨⟨h.sound.opened t _ _ _, h.enabled, awaited_of_busy hbusy, ?_⟩, ?_, htree⟩
  · rw [opened_openCalls_of_busy t _ _ _ hbusy]
    refine .cons ⟨htop.core, ?_, ?_, ?_, ?_, htop.children⟩ hancestors
    · exact .some (newMarker_like ht _ _ _ hancestors.nearest)
    · intro marker hmarker
      rw [← Option.some.inj hmarker]
      exact newMarker_plain ht _ _ hflags fun m hm => nearest_plain hancestors.plain hm
    · simp [opened, Node.mapFrame, Frame.mark, htop.overflow]
    · simp [opened, Node.mapFrame, Frame.mark, htop.forced]
  · unfold opened
    dsimp only
    split <;> omega

/-! ### A whole replay -/

/-- What a stretch of a replay comes to: `ss` and `trees` are what the recursion has of the open
calls and of the submitted trees. -/
structure Replayed (a : Assembler) (os : List Occurrence) (ss : List Node) (count : Nat)
    (trees : List Node) : Prop where
  ready : Ready (a.after os) ss
  nodeCount : (a.after os).nodeCount ≤ a.nodeCount + count
  trees : ((a.trail os).filterMap (·.tree?)).map Node.bare = trees.map Node.bare

variable {a : Assembler} {os os' : List Occurrence}

theorem Replayed.append {ss' trees trees' : List Node} {count count' : Nat}
    (h : Replayed a os ss count trees) (h' : Replayed (a.after os) os' ss' count' trees') :
    Replayed a (os ++ os') ss' (count + count') (trees ++ trees') := by
  have hcount := h.nodeCount
  have hcount' := h'.nodeCount
  refine ⟨?_, ?_, ?_⟩
  · rw [after_append]
    exact h'.ready
  · rw [after_append]
    omega
  · rw [trail_append, List.filterMap_append, List.map_append, List.map_append, h.trees, h'.trees]

theorem replayed_nil (h : Ready a ss) : Replayed a [] ss 0 [] := ⟨h, Nat.le_refl _, rfl⟩

theorem replayed_leave {m : Moment} {v : Visit} {s s' : Node} (hevent : m.event = v.leave)
    (hm : m.env.thresholds = t) (h : Ready m.before (s :: ss))
    (hs : s.finished v.leave.time v.leave.error?.isSome = s') :
    Replayed m.before [m.toOccurrence] (ss.modifyHead (s'.absorb t ss)) 0
      (if s'.frame.marker.any (·.shouldSubmit s'.frame.duration s'.frame.calls t.minTraceCalls)
        then [s'] else []) := by
  have hdepth : 0 < m.before.depth := by
    rw [← length_openCalls, h.calls.length_eq]
    exact Nat.succ_pos _
  have hk : m.kind = .closes := by
    cases herror : v.error <;>
      simp [Moment.kind, Assembler.kind, h.enabled, hevent, Visit.leave, herror, hdepth]
  have hcloses := Moment.closes_spec h.sound hk
  have hcalls := h.calls
  rw [hcloses.before] at hcalls
  obtain ⟨hinnermost, houter⟩ := List.forall₂_cons.mp hcalls
  have hclosing : m.closing.Like s' := by
    rw [← hs, ← hevent]
    exact closing_like hinnermost
  have hcount : m.after.nodeCount ≤ m.before.nodeCount := by
    rw [hcloses.nodeCount]
    split
    · cases m.fate <;> simp [remaining]
    · exact Nat.zero_le _
  refine ⟨⟨h.sound.step _ _, hcloses.enabled.trans h.enabled, hcloses.awaited, ?_⟩, hcount, ?_⟩
  · show AllLike m.after.openCalls _
    rw [hcloses.after]
    have haround := around_like hclosing houter
    generalize m.around = around at haround
    cases haround with
    | nil => exact .nil
    | cons hq hqs =>
      have hparent := parent_like hclosing houter hq
      rw [hm] at hparent
      exact .cons hparent hqs
  · show ([m].filterMap (·.tree?)).map Node.bare = _
    have hnode : m.settled.node.bare = s'.bare := (settle_bare _ _ _).trans hclosing.bare
    have htree := tree?_of_closes hcloses
    rw [hm, hclosing.shouldSubmit t] at htree
    split at htree
    case isTrue hsubmit => simp [htree, hsubmit, hnode]
    case isFalse hsubmit => simp [htree, hsubmit]

theorem Replayed.arrive (v : Visit) (h : Ready a ss) (hevents : os.map (·.event) = v.arrive)
    (hos : ∀ o ∈ os, o.Plain ∧ o.env.thresholds = t)
    (hbudget : a.nodeCount + 1 ≤ t.maxTraceRecords) :
    Replayed a os (v.entered (v.marker t (nearest? ss)) :: ss) 1 [] := by
  obtain ⟨o, os', rfl, hevent, hevents'⟩ := List.map_eq_cons_iff.mp hevents
  obtain ⟨hready, hbusy, hcount, htree⟩ :=
    Ready.enter (m := ⟨o, a⟩) hevent (hos o (by simp)).2 h hbudget
  unfold Visit.marker
  cases htrace : v.trace with
  | none =>
    rw [htrace] at hevents'
    cases List.map_eq_nil_iff.mp hevents'
    exact ⟨hready, hcount, by simp [trail, htree]⟩
  | some opening =>
    rw [htrace] at hevents'
    obtain ⟨o', os', rfl, hevent', hnil⟩ := List.map_eq_cons_iff.mp hevents'
    cases List.map_eq_nil_iff.mp hnil
    obtain ⟨hplain, ht⟩ := hos o' (by simp)
    obtain ⟨hready', hcount', htree'⟩ :=
      Ready.begin (m := ⟨o', (a.step o.env o.event).1⟩) hevent' ht hplain hready hbusy
    -- Outside every trace the entry is not counted, and the count starts with the trace.
    refine ⟨hready', ?_, by simp [trail, htree, htree']⟩
    simp only [Moment.after] at hcount hcount'
    simp only [Assembler.after]
    omega

theorem finished_eq (outer : Option Marker) (v : Visit) (inner : List Call) :
    Node.finished v.leave.time v.leave.error?.isSome
      (Call.feed t (v.innerTrace t outer) inner (v.entered (v.marker t outer))) =
      Call.tree t outer ⟨v, inner⟩ := by
  have htime : v.leave.time = v.stop := by unfold Visit.leave; cases v.error <;> rfl
  have herror : v.leave.error?.isSome = v.error.isSome := by
    unfold Visit.leave; cases v.error <;> rfl
  rw [htime, herror]
  simp [Node.finished, Call.feed, Visit.entered, Call.tree, Visit.duration]

theorem absorb_tree (c : Call) (p : Node) :
    (c.tree t (nearest? ss)).absorb t ss p = Call.feed t (nearest? ss) [c] p := by
  obtain ⟨v, inner⟩ := c
  have hretains : (Call.tree t (nearest? ss) ⟨v, inner⟩).retains t ss =
      ((nearest? ss).isSome && Call.isRetained t (nearest? ss) ⟨v, inner⟩) := by
    rw [Node.retains, nearest_cons]
    rfl
  rw [Node.absorb, hretains]
  simp [Call.feed, Call.kept, Call.tree, Call.sizes, Call.size, Call.failuresOf, Call.failures]

mutual

theorem replayed_call (c : Call) {a : Assembler} {os : List Occurrence} {ss : List Node}
    (h : Ready a ss) (hevents : os.map (·.event) = c.events)
    (hos : ∀ o ∈ os, o.Plain ∧ o.env.thresholds = t)
    (hbudget : a.nodeCount + c.size ≤ t.maxTraceRecords) :
    Replayed a os (ss.modifyHead (Call.feed t (nearest? ss) [c])) c.size
      (c.submissions t (nearest? ss)) := by
  obtain ⟨v, inner⟩ := c
  rw [Call.size] at hbudget
  rw [Call.events] at hevents
  obtain ⟨os₁, os', rfl, harrive, hrest⟩ := List.map_eq_append_iff.mp hevents
  obtain ⟨os₂, os₃, rfl, hinner, hleave⟩ := List.map_eq_append_iff.mp hrest
  obtain ⟨o, os', rfl, hevent, hnil⟩ := List.map_eq_cons_iff.mp hleave
  cases List.map_eq_nil_iff.mp hnil
  have h₁ := Replayed.arrive v h harrive (fun o ho => hos o (by simp [ho])) (by omega)
  have hcount := h₁.nodeCount
  -- The inner calls meet the same open calls with this one on top, and are in its trace.
  have h₂ := replayed_calls inner h₁.ready hinner (fun o ho => hos o (by simp [ho])) (by omega)
  rw [nearest_cons] at h₂
  have h₃ := replayed_leave (m := ⟨o, _⟩) hevent (hos o (by simp)).2 h₂.ready
    (finished_eq (nearest? ss) v inner)
  rw [funext (absorb_tree (t := t) ⟨v, inner⟩)] at h₃
  exact h₁.append (h₂.append h₃)

theorem replayed_calls (cs : List Call) {a : Assembler} {os : List Occurrence} {ss : List Node}
    (h : Ready a ss) (hevents : os.map (·.event) = Call.eventsOf cs)
    (hos : ∀ o ∈ os, o.Plain ∧ o.env.thresholds = t)
    (hbudget : a.nodeCount + Call.sizes cs ≤ t.maxTraceRecords) :
    Replayed a os (ss.modifyHead (Call.feed t (nearest? ss) cs)) (Call.sizes cs)
      (Call.submissionsOf t (nearest? ss) cs) := by
  cases cs with
  | nil =>
    cases List.map_eq_nil_iff.mp hevents
    have hfeed : Call.feed t (nearest? ss) [] = id := funext (Call.feed_nil t (nearest? ss))
    rw [hfeed, List.modifyHead_id]
    exact replayed_nil h
  | cons c cs =>
    rw [Call.sizes] at hbudget
    rw [Call.eventsOf] at hevents
    obtain ⟨os₁, os₂, rfl, hevents₁, hevents₂⟩ := List.map_eq_append_iff.mp hevents
    have h₁ := replayed_call c h hevents₁ (fun o ho => hos o (by simp [ho])) (by omega)
    have hcount := h₁.nodeCount
    have h₂ := replayed_calls cs h₁.ready hevents₂ (fun o ho => hos o (by simp [ho])) (by omega)
    rw [Call.nearest_feed, List.modifyHead_modifyHead] at h₂
    have hfeed : Call.feed t (nearest? ss) (c :: cs) =
        Call.feed t (nearest? ss) cs ∘ Call.feed t (nearest? ss) [c] :=
      funext (Call.feed_cons t (nearest? ss) c cs)
    rw [hfeed]
    exact h₁.append h₂

end

/-- The events are those of the calls, under constant thresholds, and nobody asks for calls to be
elided. -/
structure Replays (t : Thresholds) (cs : List Call) (os : List Occurrence) : Prop where
  events : os.map (·.event) = Call.eventsOf cs
  thresholds : ∀ o ∈ os, o.env.thresholds = t
  plain : ∀ o ∈ os, o.Plain

theorem replays_occurrences {c : Config} (hdrop : c.dropInterim = false) {cs : List Call}
    (hflags : ∀ e ∈ Call.eventsOf cs, e.markerFlags.has .dropInterim = false) :
    Replays (.ofConfig c) cs (occurrences c (Call.eventsOf cs)) where
  events := by
    rw [occurrences, List.map_map]
    exact List.map_id _
  thresholds o ho := by
    obtain ⟨e, -, rfl⟩ := List.mem_map.mp ho
    rfl
  plain o ho := by
    obtain ⟨e, he, rfl⟩ := List.mem_map.mp ho
    exact ⟨hdrop, hflags e he⟩

theorem ready_new (capacity : Nat) : Ready (new capacity) [] :=
  ⟨sound_new capacity, rfl, rfl, .nil⟩

/-- A replay of nested calls within the budget submits the trees that the recursion over the calls
gives, in the same order. -/
theorem replay_submits (capacity : Nat) {cs : List Call} (h : Replays t cs os)
    (hbudget : Call.sizes cs ≤ t.maxTraceRecords) :
    (((new capacity).trail os).filterMap (·.tree?)).map Node.bare =
      (Call.submissionsOf t none cs).map Node.bare := by
  have hcount : (new capacity).nodeCount = 0 := rfl
  have hreplayed := replayed_calls cs (ready_new capacity) h.events
    (fun o ho => ⟨h.plain o ho, h.thresholds o ho⟩) (by omega)
  exact hreplayed.trees

/-- A trace around a short call with an error below it, and around a trace of its own. -/
def requestCalls : List Call := [{
  visit := {
    classId := 2, methodId := 3, signatureId := 4, start := 10, stop := 90
    trace := some ⟨1, 0, .single .submit⟩ }
  inner := [
    { visit := { classId := 2, methodId := 5, signatureId := 4, start := 11, stop := 13 }
      inner := [{ visit := {
        classId := 2, methodId := 6, signatureId := 4, start := 11, stop := 12
        error := some ⟨⟨7, 8, "", []⟩, []⟩ } }] },
    { visit := { classId := 2, methodId := 9, signatureId := 4, start := 14, stop := 15 } },
    { visit := {
        classId := 2, methodId := 9, signatureId := 4, start := 20, stop := 80
        trace := some ⟨10, 0, ∅⟩ } }] }]

theorem replay_submits_of_requestCalls :
    let t : Thresholds := .ofConfig { minMethodTime := 5 }
    let os := occurrences { minMethodTime := 5 } (Call.eventsOf requestCalls)
    Replays t requestCalls os ∧ Call.sizes requestCalls ≤ t.maxTraceRecords ∧
      (Call.submissionsOf t none requestCalls).map Node.size = [1, 4] ∧
      (((new 0).trail os).filterMap (·.tree?)).map Node.bare =
        (Call.submissionsOf t none requestCalls).map Node.bare := by
  have hreplays : Replays _ requestCalls (occurrences { minMethodTime := 5 } _) :=
    replays_occurrences rfl (by decide)
  exact ⟨hreplays, by decide, by decide, replay_submits 0 hreplays (by decide)⟩

end CallTree
