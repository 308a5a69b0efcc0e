import CallTree.Proofs.FlagTally
import CallTree.Proofs.Placement
import CallTree.Proofs.Refusal
import CallTree.Proofs.Replay

/-!
Two runs of the same events under thresholds that differ in what is kept of the calls, not in what
is submitted. The same calls are open with the same records, whatever is kept below them, and the
same traces are submitted.
-/
namespace CallTree

namespace FlagSet

variable {α : Type}

theorem union_comm (s t : FlagSet α) : s ∪ t = t ∪ s := congrArg mk (BitVec.or_comm s.bits t.bits)

@[simp] theorem union_self (s : FlagSet α) : s ∪ s = s := congrArg mk BitVec.or_self

end FlagSet

/-! ### Traces that elide calls -/

def MarkerFlags.eliding (on : Bool) : MarkerFlags := if on then .single .dropInterim else ∅

theorem MarkerFlags.has_eliding (on : Bool) {x : MarkerFlag} (hx : x ≠ .dropInterim) :
    (eliding on).has x = false := by
  cases on with
  | false => exact FlagSet.has_empty x
  | true => simp [eliding, Ne.symm hx]

theorem MarkerFlags.inter_inheritable (on : Bool) (s : MarkerFlags) :
    (s ∪ eliding on) ∩ inheritable = s ∩ inheritable := by
  have hdisjoint : (eliding on).bits &&& inheritable.bits = 0#32 := by cases on <;> rfl
  refine congrArg FlagSet.mk (BitVec.eq_of_getLsbD_eq fun j _ => ?_)
  have hbit := congrArg (·.getLsbD j) hdisjoint
  simp only [BitVec.getLsbD_and, BitVec.getLsbD_zero] at hbit
  show ((s.bits ||| (eliding on).bits) &&& inheritable.bits).getLsbD j =
    (s.bits &&& inheritable.bits).getLsbD j
  rw [BitVec.getLsbD_and, BitVec.getLsbD_and, BitVec.getLsbD_or, Bool.and_or_distrib_right, hbit,
    Bool.or_false]

namespace Marker

def eliding (on : Bool) (m : Marker) : Marker := m.mark (MarkerFlags.eliding on)

variable (on : Bool) (m : Marker)

theorem mark_empty : m.mark ∅ = m := by
  rw [mark, FlagSet.union_empty]

theorem eliding_mark (flags : MarkerFlags) :
    (m.eliding on).mark flags = (m.mark flags).eliding on := by
  simp only [eliding, mark, FlagSet.union_assoc, FlagSet.union_comm flags]

theorem eliding_eliding : (m.eliding on).eliding on = m.eliding on := by
  simp [eliding, mark, FlagSet.union_assoc]

theorem eliding_inherit (inner : MarkerFlags) :
    (m.eliding on).inherit (inner ∪ MarkerFlags.eliding on) = (m.inherit inner).eliding on := by
  rw [inherit, MarkerFlags.inter_inheritable, eliding_mark, inherit]

theorem has_eliding {x : MarkerFlag} (hx : x ≠ .dropInterim) :
    (m.eliding on).flags.has x = m.flags.has x := by
  simp [eliding, mark, MarkerFlags.has_eliding on hx]

theorem eliding_shouldSubmit (duration calls minCalls : Nat) :
    (m.eliding on).shouldSubmit duration calls minCalls =
      m.shouldSubmit duration calls minCalls := by
  rw [shouldSubmit, shouldSubmit, has_eliding on m (by simp), has_eliding on m (by simp)]
  rfl

end Marker

def Frame.eliding (on : Bool) (f : Frame) : Frame :=
  { f with marker := f.marker.map (·.eliding on) }

/-- Thresholds that agree on which traces are opened, and later submitted, and under the first of
which no trace elides calls. -/
structure Thresholds.Agree (t t' : Thresholds) : Prop where
  minTraceTime : t'.minTraceTime = t.minTraceTime
  minTraceCalls : t'.minTraceCalls = t.minTraceCalls
  dropInterim : t.dropInterim = false

namespace Assembler

theorem newMarker_eliding {t t' : Thresholds} (h : t.Agree t') (traceId : SymbolId) (clock : Nat)
    (flags : MarkerFlags) (outer : Option Marker) :
    newMarker t' traceId clock flags (outer.map (·.eliding t'.dropInterim)) =
      (newMarker t traceId clock flags outer).eliding t'.dropInterim := by
  have hlast (m : Marker) :
      (if t'.dropInterim then m.mark (.single .dropInterim) else m) = m.eliding t'.dropInterim := by
    rw [Marker.eliding, MarkerFlags.eliding]
    split
    · rfl
    · exact m.mark_empty.symm
  unfold newMarker
  dsimp only
  rw [hlast, h.dropInterim, if_neg (by simp)]
  cases outer with
  | none => rw [Option.map_none, h.minTraceTime]
  | some o =>
    have hnested : Marker.nested traceId clock (o.eliding t'.dropInterim) =
        (Marker.nested traceId clock o).eliding t'.dropInterim := rfl
    dsimp only [Option.map_some]
    rw [hnested, Marker.eliding_mark, Marker.eliding_eliding]

/-! ### Open calls in pairs -/

/-- An open call in two runs. What is kept below it is related by `R`. -/
structure Paired (on : Bool) (R : List Node → List Node → Prop) (n n' : Node) : Prop where
  frame : n'.frame = n.frame.eliding on
  children : R n.children n'.children

/-- The slot of the next call and the open calls, the innermost first. -/
def spots (a : Assembler) : List Node := { frame := a.awaited } :: a.openCalls

structure InStep (on : Bool) (R : List Node → List Node → Prop) (a b : Assembler) : Prop where
  enabled : a.enabled = b.enabled
  spots : List.Forall₂ (Paired on R) a.spots b.spots

variable {on : Bool} {R : List Node → List Node → Prop} {n n' : Node} {ns ns' : List Node}
  {a b : Assembler}

theorem Paired.marker (h : Paired on R n n') :
    n'.frame.marker = n.frame.marker.map (·.eliding on) := by
  rw [h.frame]
  rfl

theorem Paired.isTraceRoot (h : Paired on R n n') : n'.isTraceRoot = n.isTraceRoot := by
  rw [Node.isTraceRoot, Frame.isTraceRoot, h.marker, Option.isSome_map]
  rfl

theorem Paired.mapFrame {g : Frame → Frame} (hg : ∀ f : Frame, g (f.eliding on) = (g f).eliding on)
    (h : Paired on R n n') : Paired on R (n.mapFrame g) (n'.mapFrame g) := by
  refine ⟨?_, h.children⟩
  rw [Node.mapFrame, Node.mapFrame, h.frame, hg]

theorem Paired.mapMarker {g g' : Marker → Marker}
    (hg : ∀ m : Marker, g' (m.eliding on) = (g m).eliding on) (h : Paired on R n n') :
    Paired on R (n.mapMarker g) (n'.mapMarker g') := by
  refine ⟨?_, h.children⟩
  simp [Node.mapMarker, Node.mapFrame, Frame.eliding, h.frame, Function.comp_def, hg]

theorem nearest_paired (h : List.Forall₂ (Paired on R) ns ns') :
    nearest? ns' = (nearest? ns).map (·.eliding on) := by
  induction h with
  | nil => rfl
  | @cons n n' ns ns' hn _ ih =>
    rw [nearest_cons, nearest_cons, ih, hn.marker]
    cases n.frame.marker <;> rfl

theorem any_isTraceRoot_paired (h : List.Forall₂ (Paired on R) ns ns') :
    ns'.any (·.isTraceRoot) = ns.any (·.isTraceRoot) := by
  rw [any_isTraceRoot, any_isTraceRoot, nearest_paired h, Option.isSome_map]

theorem updateFirst_paired {Q : Node → Node → Prop} {p : Node → Bool} {g g' : Node → Node}
    (hp : ∀ n n', Q n n' → p n' = p n) (hg : ∀ n n', Q n n' → Q (g n) (g' n'))
    (h : List.Forall₂ Q ns ns') :
    List.Forall₂ Q ((updateFirst p g ns).getD ns) ((updateFirst p g' ns').getD ns') := by
  induction h with
  | nil => exact .nil
  | @cons n n' ns ns' hn hns ih =>
    rw [updateFirst_cons, updateFirst_cons, hp n n' hn]
    split
    · exact .cons (hg n n' hn) hns
    · exact .cons hn ih

theorem adjustNearest_paired {g g' : Marker → Marker}
    (hg : ∀ m : Marker, g' (m.eliding on) = (g m).eliding on)
    (h : List.Forall₂ (Paired on R) ns ns') :
    List.Forall₂ (Paired on R) (adjustNearest g ns) (adjustNearest g' ns') := by
  refine updateFirst_paired (fun n n' hn => ?_) (fun n n' hn => hn.mapMarker hg) h
  rw [hn.marker]
  cases n.frame.marker <;> rfl

/-! ### Events on the slots -/

/-- Changes the first open call that satisfies `p`. The slot of the next call counts only if it has
a trace or if there is no open call. -/
def changeFrame (p : Frame → Bool) (g : Frame → Frame) : List Node → List Node
  | [] => []
  | n :: ns =>
    let change (ns : List Node) := (updateFirst (p ·.frame) (·.mapFrame g) ns).getD ns
    if !ns.isEmpty && !n.isTraceRoot then n :: change ns else change (n :: ns)

def changeMarker (p : Marker → Bool) (g : Marker → Marker) (ns : List Node) : List Node :=
  (updateMarker p g ns).getD ns

theorem changeFrame_paired {p : Frame → Bool} {g : Frame → Frame}
    (hp : ∀ f : Frame, p (f.eliding on) = p f)
    (hg : ∀ f : Frame, g (f.eliding on) = (g f).eliding on)
    (h : List.Forall₂ (Paired on R) ns ns') :
    List.Forall₂ (Paired on R) (changeFrame p g ns) (changeFrame p g ns') := by
  have hchange {ns ns' : List Node} (h : List.Forall₂ (Paired on R) ns ns') :
      List.Forall₂ (Paired on R) ((updateFirst (p ·.frame) (·.mapFrame g) ns).getD ns)
        ((updateFirst (p ·.frame) (·.mapFrame g) ns').getD ns') :=
    updateFirst_paired (fun n n' hn => by rw [hn.frame, hp]) (fun n n' hn => hn.mapFrame hg) h
  cases h with
  | nil => exact .nil
  | @cons n n' ns ns' hn hns =>
    have hempty : ns'.isEmpty = ns.isEmpty := by cases hns <;> rfl
    simp only [changeFrame, hn.isTraceRoot, hempty]
    split
    · exact .cons hn (hchange hns)
    · exact hchange (.cons hn hns)

theorem changeMarker_paired {p : Marker → Bool} {g : Marker → Marker}
    (hp : ∀ m : Marker, p (m.eliding on) = p m)
    (hg : ∀ m : Marker, g (m.eliding on) = (g m).eliding on)
    (h : List.Forall₂ (Paired on R) ns ns') :
    List.Forall₂ (Paired on R) (changeMarker p g ns) (changeMarker p g ns') := by
  refine updateFirst_paired (fun n n' hn => ?_) (fun n n' hn => hn.mapMarker hg) h
  rw [hn.marker, Option.any_map]
  exact congrArg (n.frame.marker.any ·) (funext hp)

theorem spots_of_busy (h : a.top.isBusy) : a.spots = {} :: a.slots := by
  rw [spots, awaited_of_busy h, openCalls_of_busy h]
  rfl

theorem spots_of_vacant (h : a.top.isBusy = false) :
    a.spots = { frame := a.top.frame } :: a.ancestors := by
  rw [spots, openCalls_of_vacant h, awaited, if_neg (by simp [h])]

theorem mapMarker_spots (p : Marker → Bool) (g : Marker → Marker) (a : Assembler) :
    (a.mapMarker p g).spots = changeMarker p g a.spots := by
  have hmap : a.mapMarker p g = a.withSlots (changeMarker p g a.slots) := by
    rw [mapMarker, changeMarker]
    cases updateMarker p g a.slots <;> rfl
  have hcons (n : Node) (ns : List Node) : changeMarker p g (n :: ns) =
      if n.frame.marker.any p then n.mapMarker g :: ns else n :: changeMarker p g ns :=
    updateFirst_cons _ _ n ns
  have hblank (ns : List Node) : changeMarker p g ({} :: ns) = {} :: changeMarker p g ns :=
    hcons {} ns
  rw [hmap]
  cases ht : a.top.isBusy with
  | true =>
    rw [spots_of_busy ht, hblank, slots, hcons]
    split <;> exact spots_of_busy ht
  | false =>
    rw [spots_of_vacant ht, slots, hcons, hcons]
    dsimp only
    split <;> exact spots_of_vacant ht

theorem updateFrame_spots {p : Frame → Bool} {g : Frame → Frame}
    (hg : ∀ f : Frame, (g f).isBusy = f.isBusy) (a : Assembler) :
    ((a.updateFrame p g).getD a).spots = changeFrame p g a.spots := by
  have hcons (n : Node) (ns : List Node) :=
    updateFirst_cons (p ·.frame) (·.mapFrame g) n ns
  have hslots : (((updateFirst (p ·.frame) (·.mapFrame g) a.slots).map a.withSlots).getD a) =
      a.withSlots ((updateFirst (p ·.frame) (·.mapFrame g) a.slots).getD a.slots) := by
    cases updateFirst (p ·.frame) (·.mapFrame g) a.slots <;> rfl
  unfold updateFrame
  dsimp only
  cases ht : a.top.isBusy with
  | true =>
    have hblank : changeFrame p g ({} :: a.slots) =
        {} :: (updateFirst (p ·.frame) (·.mapFrame g) a.slots).getD a.slots := rfl
    rw [if_neg (by simp [isPlaceholder, ht]), hslots, spots_of_busy ht, hblank, slots, hcons]
    split
    · exact spots_of_busy ((hg _).trans ht)
    · exact spots_of_busy ht
  | false =>
    have hroot : ({ frame := a.top.frame } : Node).isTraceRoot = a.top.isTraceRoot := rfl
    rw [spots_of_vacant ht]
    by_cases hplace : a.isPlaceholder
    · have hskip : changeFrame p g ({ frame := a.top.frame } :: a.ancestors) =
          { frame := a.top.frame } ::
            (updateFirst (p ·.frame) (·.mapFrame g) a.ancestors).getD a.ancestors :=
        if_pos (by simpa [isPlaceholder, ht, hroot] using hplace)
      rw [if_pos hplace, hskip]
      cases updateFirst (p ·.frame) (·.mapFrame g) a.ancestors <;> exact spots_of_vacant ht
    · have hall : changeFrame p g ({ frame := a.top.frame } :: a.ancestors) =
          (updateFirst (p ·.frame) (·.mapFrame g) ({ frame := a.top.frame } :: a.ancestors)).getD
            ({ frame := a.top.frame } :: a.ancestors) :=
        if_neg (by simpa [isPlaceholder, ht, hroot] using hplace)
      rw [if_neg hplace, hslots, hall, slots, hcons, hcons]
      dsimp only
      split
      · exact spots_of_vacant ((hg _).trans ht)
      · exact spots_of_vacant ht

def changeSpots (e : Event) (ns : List Node) : List Node :=
  match e with
  | .attr target _ _ => changeFrame target.isMet e.rewrite ns
  | .markFrame _ => changeFrame (fun _ => true) e.rewrite ns
  | .minimumTime _ => changeMarker (fun _ => true) e.remark ns
  | .markTrace traceId _ => changeMarker (fun m => traceId.all (m.traceId == ·)) e.remark ns
  | .correlate _ => changeMarker (fun _ => true) e.remark ns
  | _ => ns

theorem changeSpots_paired (e : Event) (h : List.Forall₂ (Paired on R) ns ns') :
    List.Forall₂ (Paired on R) (changeSpots e ns) (changeSpots e ns') := by
  cases e with
  | attr target id value =>
    refine changeFrame_paired (fun f => ?_) (fun f => rfl) h
    cases target with
    | current => rfl
    | anyTrace => simp [AttrTarget.isMet, Frame.isTraceRoot, Frame.eliding]
    | trace id =>
      simp only [AttrTarget.isMet, Frame.isTraceRoot, Frame.traceId, Frame.eliding]
      cases f.marker <;> rfl
  | markFrame flags => exact changeFrame_paired (p := fun _ => true) (fun _ => rfl) (fun _ => rfl) h
  | minimumTime nanos => exact changeMarker_paired (fun m => rfl) (fun m => rfl) h
  | markTrace traceId flags =>
    exact changeMarker_paired (fun m => rfl) (fun m => m.eliding_mark on flags) h
  | correlate context => exact changeMarker_paired (fun m => rfl) (fun m => rfl) h
  | _ => exact h

variable {m m' : Moment}

theorem spots_of_other (hk : m.kind = .other) : m.after.spots =
    if m.before.enabled then changeSpots m.event m.before.spots else m.before.spots := by
  obtain ⟨⟨env, e⟩, a⟩ := m
  simp only [Moment.kind, kind] at hk
  simp only [Moment.after, step]
  cases hon : a.enabled with
  | false => cases e <;> rfl
  | true =>
    rw [hon, if_pos rfl] at hk
    simp only [↓reduceIte]
    have hrefused {e : Event} {notice : Notice} (h : a.refusal? e = some notice) :
        (a.handle env e).1.spots = a.spots := by
      rw [handle_of_refusal env h]
    cases e with
    | enter => cases hk
    | exit time =>
      refine hrefused (if_pos ?_)
      by_contra hdepth
      simp [Nat.pos_of_ne_zero hdepth] at hk
    | fail error time =>
      refine hrefused (if_pos ?_)
      by_contra hdepth
      simp [Nat.pos_of_ne_zero hdepth] at hk
    | begin traceId clock flags =>
      have hroot : a.top.isTraceRoot := by
        by_contra hroot
        simp [hroot] at hk
      obtain ⟨marker, hmarker⟩ := Option.isSome_iff_exists.mp hroot
      exact hrefused (Option.map_eq_some_iff.mpr ⟨marker, hmarker, rfl⟩)
    | attr target id value =>
      rw [handle]
      refine Eq.trans ?_ (updateFrame_spots (g := (·.setAttr id value)) (fun _ => rfl) a)
      cases a.updateFrame target.isMet (·.setAttr id value) <;> rfl
    | markFrame flags => exact updateFrame_spots (g := (·.mark flags)) (fun _ => rfl) a
    | minimumTime | markTrace | correlate => exact mapMarker_spots _ _ a
    | disable | enable => rfl

/-! ### Entering a call and opening a trace -/

theorem InStep.openCalls (h : InStep on R a b) :
    List.Forall₂ (Paired on R) a.openCalls b.openCalls :=
  (List.forall₂_cons.mp h.spots).2

theorem InStep.awaited (h : InStep on R a b) : b.awaited = a.awaited.eliding on :=
  (List.forall₂_cons.mp h.spots).1.frame

theorem InStep.depth (h : InStep on R a b) : a.depth = b.depth := by
  rw [← length_openCalls, ← length_openCalls, h.openCalls.length_eq]

theorem InStep.slots (h : InStep on R a b) (hbusy : a.top.isBusy = b.top.isBusy) :
    b.top.frame = a.top.frame.eliding on ∧
      List.Forall₂ (Paired on R) a.ancestors b.ancestors := by
  have hspots := h.spots
  cases ht : a.top.isBusy with
  | true =>
    rw [spots_of_busy ht, spots_of_busy (hbusy ▸ ht)] at hspots
    obtain ⟨-, hslots⟩ := List.forall₂_cons.mp hspots
    exact ⟨(List.forall₂_cons.mp hslots).1.frame, (List.forall₂_cons.mp hslots).2⟩
  | false =>
    rw [spots_of_vacant ht, spots_of_vacant (hbusy ▸ ht)] at hspots
    exact ⟨(List.forall₂_cons.mp hspots).1.frame, (List.forall₂_cons.mp hspots).2⟩

theorem paired_blank (hnil : R [] []) : Paired on R {} {} := ⟨rfl, hnil⟩

theorem arrival_of_room {t : Thresholds} (h : a.nodeCount < t.maxTraceRecords)
    (classId methodId signatureId : SymbolId) (time : Nat) :
    a.arrival t classId methodId signatureId time =
      { a.awaited with classId, methodId, signatureId, startTime := some time, calls := 1 } := by
  rw [arrival]
  exact if_neg (by simp; omega)

end Assembler

open Assembler

variable {on : Bool} {R : List Node → List Node → Prop} {m m' : Moment}

def Event.isEnter : Event → Bool
  | .enter .. => true
  | _ => false

def Event.isBegin : Event → Bool
  | .begin .. => true
  | _ => false

structure Moment.Matches (on : Bool) (R : List Node → List Node → Prop) (m m' : Moment) :
    Prop where
  before : InStep on R m.before m'.before
  sound : m.before.Sound
  sound' : m'.before.Sound
  event : m.event = m'.event
  agree : m.env.thresholds.Agree m'.env.thresholds
  elides : m'.env.thresholds.dropInterim = on
  room : m.event.isEnter → m.before.nodeCount < m.env.thresholds.maxTraceRecords
  room' : m.event.isEnter → m'.before.nodeCount < m'.env.thresholds.maxTraceRecords
  /-- A trace is opened on an open call in both runs, or ahead of one. -/
  busy : m.event.isBegin → m.before.enabled → m.before.top.isBusy = m'.before.top.isBusy

namespace Moment.Matches

variable (h : m.Matches on R m')
include h

theorem kind : m.kind = m'.kind := by
  have hdepth := h.before.depth
  have hbusy := h.busy
  simp only [Moment.kind, Assembler.kind, ← h.event, ← h.before.enabled, ← hdepth]
  split
  case isFalse => rfl
  case isTrue hon =>
    cases he : m.event with
    | begin traceId clock flags =>
      rw [he] at hbusy
      have hroot : m'.before.top.isTraceRoot = m.before.top.isTraceRoot := by
        rw [Node.isTraceRoot, (h.before.slots (hbusy rfl hon)).1]
        exact Option.isSome_map
      simp only [hroot]
    | _ => rfl

theorem enter (hk : m.kind = .enters) (hnil : R [] []) :
    List.Forall₂ (Paired on R) m.after.spots m'.after.spots := by
  obtain ⟨classId, methodId, signatureId, time, he, hentered⟩ := Moment.enters_spec h.sound hk
  obtain ⟨_, _, _, _, he', hentered'⟩ := Moment.enters_spec h.sound' (h.kind ▸ hk)
  have hroom := h.room
  have hroom' := h.room'
  rw [he] at hroom hroom'
  rw [← h.event, he] at he'
  cases he'
  rw [spots, spots, awaited_of_busy hentered.busy, awaited_of_busy hentered'.busy,
    hentered.openCalls, hentered'.openCalls, arrival_of_room (hroom rfl),
    arrival_of_room (hroom' rfl), h.before.awaited]
  exact .cons (paired_blank hnil) (.cons ⟨rfl, hnil⟩ h.before.openCalls)

theorem begin (hk : m.kind = .begins) :
    List.Forall₂ (Paired on R) m.after.spots m'.after.spots := by
  obtain ⟨traceId, clock, flags, he, -, hafter⟩ := Moment.begins_spec hk
  obtain ⟨_, _, _, he', -, hafter'⟩ := Moment.begins_spec (h.kind ▸ hk)
  have hbusy := h.busy
  rw [he] at hbusy
  specialize hbusy rfl (begin_of_kind hk).1
  rw [← h.event, he] at he'
  cases he'
  obtain ⟨htop, hancestors⟩ := h.before.slots hbusy
  have hmarker := newMarker_eliding h.agree traceId clock flags (nearest? m.before.ancestors)
  rw [h.elides, ← nearest_paired hancestors] at hmarker
  have hopened : (m'.before.opened m'.env.thresholds traceId clock flags).top.frame =
      (m.before.opened m.env.thresholds traceId clock flags).top.frame.eliding on := by
    simp only [opened, Node.mapFrame, htop, hmarker]
    rfl
  have hspots := h.before.spots
  rw [hafter, hafter']
  cases ht : m.before.top.isBusy with
  | true =>
    have ht' : m'.before.top.isBusy := hbusy ▸ ht
    rw [spots_of_busy ht, spots_of_busy ht'] at hspots
    obtain ⟨hblank, hslots⟩ := List.forall₂_cons.mp hspots
    rw [spots_of_busy (opened_isBusy.trans ht), spots_of_busy (opened_isBusy.trans ht')]
    exact .cons hblank (.cons ⟨hopened, (List.forall₂_cons.mp hslots).1.children⟩ hancestors)
  | false =>
    have ht' : m'.before.top.isBusy = false := hbusy ▸ ht
    rw [spots_of_vacant ht, spots_of_vacant ht'] at hspots
    rw [spots_of_vacant (opened_isBusy.trans ht), spots_of_vacant (opened_isBusy.trans ht')]
    exact .cons ⟨hopened, (List.forall₂_cons.mp hspots).1.children⟩ hancestors

end Moment.Matches

/-! ### A call that closes -/

/-- The same record of a call, apart from what became of its error: an error that the last child
leads to is passed on, and not kept. -/
structure Frame.Echoes (f f' : Frame) : Prop where
  record : f' = { f with flags := f'.flags, error := f'.error }
  flags : ∀ x, x ≠ .passesError → x ≠ .wrapsError → f'.flags.has x = f.flags.has x
  failed : (f'.error.isSome || f'.flags.has .passesError) =
    (f.error.isSome || f.flags.has .passesError)

namespace Assembler

theorem dedup_failed (n : Node) :
    ((dedupError n).frame.error.isSome || (dedupError n).frame.flags.has .passesError) =
      (n.frame.error.isSome || n.frame.flags.has .passesError) := by
  cases h : n.frame.error with
  | none => simp [dedupError, h]
  | some own =>
    simp only [dedupError, h]
    split
    · simp [Node.mapFrame, Frame.mark]
    · split <;> simp [Node.mapFrame, Frame.mark, h]

theorem dedupError_of_leaf {n : Node} (h : n.children = []) : dedupError n = n := by
  have hlast : n.lastChild? = none := by rw [Node.lastChild?, h, List.getLast?_nil]
  rw [dedupError, hlast]
  cases n.frame.error <;> rfl

theorem dedup_echoes {n n' : Node} (h : n'.frame = n.frame.eliding on) :
    ((dedupError n).frame.eliding on).Echoes (dedupError n').frame := by
  obtain ⟨error, flags, heq, hflags⟩ := dedupError_eq n
  obtain ⟨error', flags', heq', hflags'⟩ := dedupError_eq n'
  refine ⟨?_, fun x hx hx' => ?_, ?_⟩
  · rw [heq, heq', h]
    rfl
  · rw [heq', hflags' x hx hx', h, heq]
    exact (hflags x hx hx').symm
  · rw [dedup_failed, h]
    exact (dedup_failed n).symm

end Assembler

def Moment.ended (m : Moment) : Node := Assembler.ended m.event.time m.event.error? m.innermost

theorem Moment.closing_eq (m : Moment) : m.closing = dedupError m.ended := rfl

theorem Moment.ended_children (m : Moment) : m.ended.children = m.innermost.children := by
  rw [Moment.ended]
  cases m.event.error? <;> rfl

structure Moment.Alongside (on : Bool) (R : List Node → List Node → Prop) (m m' : Moment) :
    Prop where
  ended : Paired on R m.ended m'.ended
  outer : List.Forall₂ (Paired on R) m.outer m'.outer
  thresholds : m.env.thresholds.Agree m'.env.thresholds

theorem Moment.Matches.alongside (h : m.Matches on R m') (hk : m.kind = .closes) :
    m.Alongside on R m' := by
  have hcalls := h.before.openCalls
  rw [(Moment.closes_spec h.sound hk).before,
    (Moment.closes_spec h.sound' (h.kind ▸ hk)).before] at hcalls
  obtain ⟨hinner, houter⟩ := List.forall₂_cons.mp hcalls
  refine ⟨⟨?_, ?_⟩, houter, h.agree⟩
  · rw [Moment.ended, Moment.ended, h.event]
    cases m'.event.error? <;> simp only [Assembler.ended, Node.mapFrame, hinner.frame] <;> rfl
  · rw [m.ended_children, m'.ended_children]
    exact hinner.children

namespace Moment.Alongside

variable (h : m.Alongside on R m')
include h

theorem frame : (m.closing.frame.eliding on).Echoes m'.closing.frame := by
  rw [m.closing_eq, m'.closing_eq]
  exact dedup_echoes h.ended.frame

theorem record : m'.closing.frame = { m.closing.frame.eliding on with
    flags := m'.closing.frame.flags, error := m'.closing.frame.error } := h.frame.record

theorem flags {x : NodeFlag} (hpasses : x ≠ .passesError) (hwraps : x ≠ .wrapsError) :
    m'.closing.frame.flags.has x = m.closing.frame.flags.has x := h.frame.flags x hpasses hwraps

theorem marker : m'.closing.frame.marker = m.closing.frame.marker.map (·.eliding on) := by
  rw [h.record]
  rfl

theorem isTraceRoot : m'.outer.any (·.isTraceRoot) = m.outer.any (·.isTraceRoot) :=
  any_isTraceRoot_paired h.outer

theorem has_traceFlags {x : MarkerFlag} (hx : x ≠ .dropInterim) :
    (traceFlags (m'.closing :: m'.outer)).has x = (traceFlags (m.closing :: m.outer)).has x := by
  have hnearest : nearest? (m'.closing :: m'.outer) =
      (nearest? (m.closing :: m.outer)).map (·.eliding on) := by
    rw [nearest_cons, nearest_cons, nearest_paired h.outer, h.marker]
    cases m.closing.frame.marker <;> rfl
  rw [traceFlags, traceFlags, hnearest]
  cases nearest? (m.closing :: m.outer) with
  | none => rfl
  | some marker => exact marker.has_eliding on hx

theorem retained (t : Thresholds) :
    isRetained t m'.closing.frame (traceFlags (m'.closing :: m'.outer)) =
      isRetained t m.closing.frame (traceFlags (m.closing :: m.outer)) := by
  rw [isRetained, isRetained, h.has_traceFlags (x := .allMethods) (by simp),
    h.flags (x := .forced) (by simp) (by simp), h.record]
  rfl

theorem satisfied : m'.satisfied = m.satisfied := by
  rw [Moment.satisfied, Moment.satisfied, h.marker, Option.any_map, h.thresholds.minTraceCalls]
  refine congrArg (m.closing.frame.marker.any ·) (funext fun marker => ?_)
  rw [Marker.eliding_shouldSubmit, h.record]
  rfl

theorem isSubmitted : m'.settled.isSubmitted = m.settled.isSubmitted := by
  have hsatisfied (m : Moment) : m.settled.isSubmitted = m.satisfied := by
    rw [Settled.isSubmitted, Moment.settled, settle_verdict, Moment.satisfied]
    cases m.closing.frame.marker with
    | none => rfl
    | some marker =>
      rw [Option.any_some]
      dsimp only
      cases marker.shouldSubmit m.closing.frame.duration m.closing.frame.calls
        m.env.thresholds.minTraceCalls <;> rfl
  rw [hsatisfied, hsatisfied, h.satisfied]

theorem settled_marker : m'.settled.node.frame.marker =
    m.settled.node.frame.marker.map (·.eliding on) := by
  have hfailed : (m'.closing.frame.error.isSome || m'.closing.frame.flags.has .passesError) =
    (m.closing.frame.error.isSome || m.closing.frame.flags.has .passesError) := h.frame.failed
  rw [CallTree.settled_marker, CallTree.settled_marker, h.marker, h.satisfied, hfailed]
  cases m.closing.frame.marker with
  | none => rfl
  | some marker =>
    dsimp only [Option.map_some]
    split
    · rw [Marker.eliding_mark]
    · rfl

theorem settled_frame : (m.settled.node.frame.eliding on).Echoes m'.settled.node.frame := by
  have hmarker := h.settled_marker
  rw [Moment.settled, Moment.settled] at hmarker ⊢
  rw [settle_frame m.env, settle_frame m'.env, hmarker]
  refine ⟨?_, fun x hx hx' => h.flags hx hx', h.frame.failed⟩
  rw [h.record]
  rfl

theorem settled_leaf (hleaf : m.settled.node.children = [])
    (hleaf' : m'.settled.node.children = []) :
    m'.settled.node.frame = m.settled.node.frame.eliding on := by
  have hmarker := h.settled_marker
  rw [Moment.settled, settle_children, closing_children, ← Moment.ended_children] at hleaf hleaf'
  rw [Moment.settled, Moment.settled] at hmarker ⊢
  rw [settle_frame m.env, settle_frame m'.env, hmarker, m.closing_eq, m'.closing_eq,
    dedupError_of_leaf hleaf, dedupError_of_leaf hleaf', h.ended.frame]
  rfl

theorem settled_children : R m.settled.node.children m'.settled.node.children := by
  rw [Moment.settled, Moment.settled, settle_children, settle_children, closing_children,
    closing_children, ← Moment.ended_children, ← Moment.ended_children]
  exact h.ended.children

theorem around : List.Forall₂ (Paired on R) m.around m'.around := by
  have hsettled : List.Forall₂ (Paired on R) m.settled.ancestors m'.settled.ancestors := by
    have hmarker := h.settled_marker
    rw [Moment.settled, Moment.settled] at hmarker ⊢
    rw [settle_ancestors, settle_ancestors, hmarker]
    cases (settle m.env m.closing m.outer).node.frame.marker with
    | none => exact h.outer
    | some inner => exact adjustNearest_paired (fun m => m.eliding_inherit on inner.flags) h.outer
  rw [Moment.around, Moment.around, Assembler.around, Assembler.around, h.isTraceRoot,
    h.flags (x := .overflow) (by simp) (by simp)]
  split
  · exact adjustNearest_paired (fun m => m.eliding_mark on _) hsettled
  · exact hsettled

end Moment.Alongside

def Moment.kept (m : Moment) : List Node :=
  match m.fate with
  | .attach => [m.settled.node]
  | .elide child => [promote m.env.held m.settled.node child]
  | _ => []

theorem Moment.parent_children (m : Moment) (q : Node) :
    (m.parent q).children = q.children ++ m.kept := by
  rw [m.parent_eq, Moment.kept]
  cases m.fate <;> simp [keep, Node.addChild, rollUp, Node.mapFrame]

theorem Moment.kept_plain (m : Moment)
    (hplain : (traceFlags (m.closing :: m.outer)).has .dropInterim = false) :
    m.kept = if m.outer.any (·.isTraceRoot) &&
      isRetained m.env.thresholds m.closing.frame (traceFlags (m.closing :: m.outer)) &&
      !m.closing.frame.flags.has .overflow then [m.settled.node] else [] := by
  have hnone : substitute? m.env.thresholds m.closing (traceFlags (m.closing :: m.outer)) = none :=
    if_neg (by simp [hplain])
  rw [Moment.kept, Moment.fate, fateOf, Assembler.fate, hnone]
  dsimp only
  cases m.outer.any (·.isTraceRoot) && isRetained m.env.thresholds m.closing.frame
    (traceFlags (m.closing :: m.outer)) <;>
  cases m.closing.frame.flags.has .overflow <;>
  cases (settle m.env m.closing m.outer).isSubmitted <;> rfl

namespace Moment.Matches

variable (h : m.Matches on R m')
include h

theorem close (hk : m.kind = .closes) (hnil : R [] [])
    (hkept : ∀ cs cs', R cs cs' → R (cs ++ m.kept) (cs' ++ m'.kept)) :
    List.Forall₂ (Paired on R) m.after.spots m'.after.spots := by
  have halong := h.alongside hk
  have hcloses := Moment.closes_spec h.sound hk
  have hcloses' := Moment.closes_spec h.sound' (h.kind ▸ hk)
  have haround := halong.around
  rw [spots, spots, hcloses.awaited, hcloses'.awaited, hcloses.after, hcloses'.after]
  generalize m.around = ns, m'.around = ns' at haround
  refine .cons (paired_blank hnil) ?_
  cases haround with
  | nil => exact .nil
  | @cons q q' qs qs' hq hqs =>
    refine .cons ⟨?_, ?_⟩ hqs
    · rw [m.parent_frame, m'.parent_frame, rollUp, rollUp, Node.mapFrame, Node.mapFrame, hq.frame,
        halong.record]
      rfl
    · rw [m.parent_children, m'.parent_children]
      exact hkept _ _ hq.children

theorem next (hnil : R [] []) (hkept : m.kind = .closes → m.Alongside on R m' →
      ∀ cs cs', R cs cs' → R (cs ++ m.kept) (cs' ++ m'.kept)) :
    InStep on R m.after m'.after where
  enabled := by
    rw [Moment.after, Moment.after, step_enabled h.sound, step_enabled h.sound', h.event,
      h.before.enabled]
  spots := by
    cases hk : m.kind with
    | enters => exact h.enter hk hnil
    | closes => exact h.close hk hnil (hkept hk (h.alongside hk))
    | begins => exact h.begin hk
    | other =>
      rw [spots_of_other hk, spots_of_other (h.kind ▸ hk), ← h.event, ← h.before.enabled]
      split
      · exact changeSpots_paired m.event h.before.spots
      · exact h.before.spots

theorem trees {Q : Node → Node → Prop}
    (hQ : m.Alongside on R m' → Q m.settled.node m'.settled.node) :
    Option.Rel Q m.tree? m'.tree? := by
  by_cases hk : m.kind = .closes
  · have halong := h.alongside hk
    have htree := tree?_of_closes (Moment.closes_spec h.sound hk)
    have htree' := tree?_of_closes (Moment.closes_spec h.sound' (h.kind ▸ hk))
    rw [← Moment.satisfied] at htree htree'
    rw [htree, htree', halong.satisfied]
    cases m.satisfied with
    | true => exact .some (hQ halong)
    | false => exact .none
  · rw [tree?_of_open h.sound hk, tree?_of_open h.sound' (h.kind ▸ hk)]
    exact .none

end Moment.Matches

/-! ### Whole runs -/

structure Runs (t t' : Thresholds) (os os' : List Occurrence) : Prop where
  events : os.map (·.event) = os'.map (·.event)
  thresholds : ∀ o ∈ os, o.env.thresholds = t
  thresholds' : ∀ o ∈ os', o.env.thresholds = t'
  agree : t.Agree t'
  room : os.countP (·.event.isEnter) ≤ t.maxTraceRecords
  room' : os.countP (·.event.isEnter) ≤ t'.maxTraceRecords

variable {t t' : Thresholds} {os os' : List Occurrence} {capacity capacity' k : Nat}

theorem both_induction (hsame : os.map (·.event) = os'.map (·.event))
    {P : Assembler → Assembler → Prop} (start : P (new capacity) (new capacity'))
    (next : ∀ (k : Nat) (m m' : Moment), ((new capacity).trail os)[k]? = some m →
      ((new capacity').trail os')[k]? = some m' → P m.before m'.before → P m.after m'.after)
    (hk : k ≤ os.length) :
    P ((new capacity).after (os.take k)) ((new capacity').after (os'.take k)) := by
  induction k with
  | zero => exact start
  | succ k ih =>
    have hm := moment_of_trail (new capacity) hk
    have hm' := moment_of_trail (new capacity') (show k < os'.length from
      (length_of_same hsame).symm ▸ hk)
    rw [← after_of_trail hm, ← after_of_trail hm']
    exact next k _ _ hm hm' (ih (Nat.le_of_succ_le hk))

theorem Moment.nodeCount_le (hs : m.before.Sound) : m.after.nodeCount ≤
    max m.before.nodeCount m.before.depth + m.event.isEnter.toNat := by
  cases hk : m.kind with
  | enters =>
    obtain ⟨_, _, _, _, hevent, hentered⟩ := Moment.enters_spec hs hk
    rw [hentered.nodeCount, hevent]
    show _ ≤ _ + 1
    split <;> omega
  | closes =>
    have hle : remaining m.before.nodeCount m.closing m.fate ≤ m.before.nodeCount := by
      cases m.fate <;> simp [remaining]
    rw [(Moment.closes_spec hs hk).nodeCount]
    split <;> omega
  | begins =>
    obtain ⟨_, _, _, -, -, hafter⟩ := Moment.begins_spec hk
    have hdepth : m.before.top.isBusy → 0 < m.before.depth := fun hbusy => by simp [depth, hbusy]
    rw [hafter, opened]
    dsimp only
    split
    · omega
    · split
      case isTrue hbusy =>
        have hpos := hdepth hbusy
        omega
      case isFalse => omega
  | other =>
    rw [(Moment.other_spec hk).touches.nodeCount]
    omega

theorem Moment.depth_le (hs : m.before.Sound) :
    m.after.depth ≤ m.before.depth + m.event.isEnter.toNat := by
  rw [← length_openCalls, ← length_openCalls]
  cases hk : m.kind with
  | enters =>
    obtain ⟨_, _, _, _, hevent, hentered⟩ := Moment.enters_spec hs hk
    rw [hentered.openCalls, hevent]
    exact Nat.le_refl _
  | closes =>
    have hcloses := Moment.closes_spec hs hk
    rw [hcloses.after, hcloses.before, List.length_modifyHead, ← m.around_touched.length_eq,
      List.length_cons]
    omega
  | begins =>
    obtain ⟨_, _, _, -, -, hafter⟩ := Moment.begins_spec hk
    rw [hafter, ← (opened_alike _ _ _ _ _).length_eq]
    omega
  | other =>
    rw [← (Moment.other_spec hk).touches.openCalls.length_eq]
    omega

theorem nodeCount_le (capacity : Nat) (os : List Occurrence) {k : Nat} (hk : k ≤ os.length) :
    ((new capacity).after (os.take k)).nodeCount ≤ (os.take k).countP (·.event.isEnter) := by
  suffices h : max ((new capacity).after (os.take k)).nodeCount
      ((new capacity).after (os.take k)).depth ≤ (os.take k).countP (·.event.isEnter) by omega
  refine trail_induction capacity os (k := k)
    (P := fun k a => max a.nodeCount a.depth ≤ (os.take k).countP (·.event.isEnter))
    (Nat.zero_le _) (fun k m hm hsound h => ?_) hk
  have hcount : (os.take (k + 1)).countP (·.event.isEnter) =
      (os.take k).countP (·.event.isEnter) + m.event.isEnter.toNat := by
    rw [List.take_add_one, occurrence_of_trail hm, List.countP_append]
    cases he : m.event.isEnter <;> simp [he]
  have hnodes := Moment.nodeCount_le hsound
  have hdepth := Moment.depth_le hsound
  omega

theorem room_of_enter (hroom : os.countP (·.event.isEnter) ≤ t.maxTraceRecords)
    (hm : ((new capacity).trail os)[k]? = some m) (henter : m.event.isEnter) :
    m.before.nodeCount < t.maxTraceRecords := by
  obtain ⟨hk, hbefore⟩ := before_of_trail hm
  have hnodes := nodeCount_le capacity os (Nat.le_of_lt hk)
  have hlater : 0 < (os.drop k).countP (·.event.isEnter) := by
    have hhead := occurrence_of_trail hm
    rw [← List.head?_drop] at hhead
    obtain ⟨rest, hrest⟩ := List.head?_eq_some_iff.mp hhead
    rw [hrest]
    exact List.countP_pos_iff.mpr ⟨m.toOccurrence, List.mem_cons_self, henter⟩
  have hsplit := congrArg (List.countP (·.event.isEnter)) (List.take_append_drop k os)
  rw [List.countP_append] at hsplit
  rw [hbefore]
  omega

theorem Runs.countP (h : Runs t t' os os') :
    os'.countP (·.event.isEnter) = os.countP (·.event.isEnter) := by
  have hmap (os : List Occurrence) :
      os.countP (·.event.isEnter) = (os.map (·.event)).countP Event.isEnter := by
    rw [List.countP_map]
    rfl
  rw [hmap, hmap, h.events]

theorem Runs.matches (h : Runs t t' os os')
    (hm : ((new capacity).trail os)[k]? = some m) (hm' : ((new capacity').trail os')[k]? = some m')
    (hbefore : InStep t'.dropInterim R m.before m'.before)
    (hbusy : m.event.isBegin → m.before.enabled → m.before.top.isBusy = m'.before.top.isBusy) :
    m.Matches t'.dropInterim R m' := by
  have ho := occurrence_of_trail hm
  have ho' := occurrence_of_trail hm'
  have hevent : m.event = m'.event := by
    have heq := congrArg (·[k]?) h.events
    simpa [ho, ho'] using heq
  have ht := h.thresholds _ (List.mem_of_getElem? ho)
  have ht' := h.thresholds' _ (List.mem_of_getElem? ho')
  refine ⟨hbefore, sound_of_trail hm, sound_of_trail hm', hevent, ?_, congrArg _ ht', ?_, ?_, hbusy⟩
  · rw [ht, ht']
    exact h.agree
  · rw [ht]
    exact room_of_enter h.room hm
  · rw [ht', hevent]
    exact room_of_enter (h.countP ▸ h.room') hm'

theorem thresholds_occurrences (c : Config) (es : List Event) :
    ∀ o ∈ occurrences c es, o.env.thresholds = .ofConfig c := by
  intro o ho
  obtain ⟨e, -, rfl⟩ := List.mem_map.mp ho
  rfl

theorem inStep_new (hnil : R [] []) : InStep on R (new capacity) (new capacity') :=
  ⟨rfl, .cons (paired_blank hnil) .nil⟩

theorem Runs.flags (h : Runs t t' os os')
    (hflags : ∀ o ∈ os, o.event.markerFlags.has .dropInterim = false) :
    ∀ o ∈ os', o.event.markerFlags.has .dropInterim = false := by
  intro o' ho'
  have hmem : o'.event ∈ os.map (·.event) := h.events ▸ List.mem_map_of_mem ho'
  obtain ⟨o, ho, hevent⟩ := List.mem_map.mp hmem
  rw [← hevent]
  exact hflags o ho

theorem traceFlags_closing (hos : ∀ o ∈ os, o.Plain)
    (hm : ((new capacity).trail os)[k]? = some m) (hk : m.kind = .closes) :
    (traceFlags (m.closing :: m.outer)).has .dropInterim = false := by
  obtain ⟨hlt, hbefore⟩ := before_of_trail hm
  have hcalls := (plainTraces_of_trail capacity hos (Nat.le_of_lt hlt)).calls
  rw [← hbefore, (Moment.closes_spec (sound_of_trail hm) hk).before] at hcalls
  rw [traceFlags, nearest_closing]
  exact traceFlags_plain hcalls

end CallTree
