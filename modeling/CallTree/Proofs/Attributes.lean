import CallTree.Proofs.Counts
import CallTree.Proofs.IdleSlot

/-!
The attributes of a call. An attribute goes to the innermost open call that its target names, and a
node of a submitted tree has what was written to its call while that was open, whatever became of
the slots, the nodes and the calls around it.
-/
namespace CallTree

namespace Keyed

variable {κ α : Type} [DecidableEq κ]

/-- What is left of values that were written under keys one after the other. -/
structure Written (ws entries : List (κ × α)) : Prop where
  unique : (entries.map (·.1)).Nodup
  order : entries.map (·.1) = (ws.map (·.1)).eraseDups
  last : ∀ key, entries.lookup key = ws.reverse.lookup key

theorem written_nil : Written ([] : List (κ × α)) [] := ⟨.nil, rfl, fun _ => rfl⟩

theorem Written.put {ws entries : List (κ × α)} (h : Written ws entries) (key : κ) (value : α) :
    Written (ws ++ [(key, value)]) (put key value entries) := by
  have hmem : key ∈ entries.map (·.1) ↔ key ∈ ws.map (·.1) := by
    rw [h.order, List.mem_eraseDups]
  refine ⟨?_, ?_, fun k => ?_⟩
  · rw [keys_put]
    split
    case isTrue => exact h.unique
    case isFalse hnew =>
      exact List.nodup_append.mpr ⟨h.unique, List.pairwise_singleton _ key,
        fun k hk k' hk' heq => hnew (List.mem_singleton.mp hk' ▸ heq ▸ hk)⟩
  · rw [keys_put, List.map_append, List.map_singleton, List.eraseDups_append, ← h.order]
    by_cases hold : key ∈ ws.map (·.1)
    · rw [if_pos (hmem.mpr hold)]
      simp [List.removeAll, hold]
    · rw [if_neg (mt hmem.mp hold)]
      simp [List.removeAll, hold, List.eraseDups_cons]
  · rw [lookup_put, h.last, List.reverse_append, List.reverse_singleton, List.singleton_append,
      List.lookup_cons]
    by_cases hk : k = key
    · simp [hk]
    · have hb : (k == key) = false := by simpa using hk
      rw [if_neg hk, hb]

theorem Written.ne_nil {ws entries : List (κ × α)} (h : Written ws entries) (hws : ws ≠ []) :
    entries ≠ [] := by
  rintro rfl
  obtain ⟨w, ws, rfl⟩ := List.exists_cons_of_ne_nil hws
  have horder := h.order
  rw [List.map_cons, List.eraseDups_cons] at horder
  cases horder

end Keyed

open Assembler

/-! ### Where an attribute goes -/

def Event.opens? : Event → Option SymbolId
  | .begin traceId _ _ => some traceId
  | _ => none

def AttrTarget.names (ms : List Moment) (target : AttrTarget) (c : OpenCall) : Bool :=
  match target with
  | .current => true
  | .anyTrace => c.begun.isSome
  | .trace id => c.begun.any fun b => ms[b]?.any (·.event.opens? == some id)

/-- What event `j` writes to the call that event `i` entered, if that is the innermost open call
which the target names. -/
def write? (ms : List Moment) (i j : Nat) : Option (SymbolId × AttrValue) :=
  match ms[j]? with
  | none => none
  | some m =>
    match m.event with
    | .attr target id value =>
      let receiver? := (register (ms.take j)).calls.find? (target.names ms)
      if m.before.enabled && receiver?.map (·.entered) = some i then some (id, value) else none
    | _ => none

/-- What was written to a call from its entry to its close. -/
def written (ms : List Moment) (s : Span) : List (SymbolId × AttrValue) :=
  (List.range' s.entered (s.closed - s.entered)).filterMap (write? ms s.entered)

variable {ms : List Moment} {i j k : Nat} {m : Moment}

theorem written_succ (hik : i ≤ k) :
    written ms ⟨i, k + 1⟩ = written ms ⟨i, k⟩ ++ (write? ms i k).toList := by
  have hlength : k + 1 - i = k - i + 1 := by omega
  have hlast : i + (k - i) = k := by omega
  rw [written, hlength, List.range'_1_concat, List.filterMap_append, hlast]
  cases h : write? ms i k <;> simp [written, h]

theorem written_idle (hnone : write? ms i k = none) :
    written ms ⟨i, k + 1⟩ = written ms ⟨i, k⟩ := by
  by_cases hik : i ≤ k
  · rw [written_succ hik, hnone, Option.toList_none, List.append_nil]
  · have hlength : k + 1 - i = k - i := by omega
    rw [written, hlength]
    rfl

theorem names_eq {c : OpenCall} {n : Node} (h : Carries ms c n) (target : AttrTarget) :
    target.isMet n.frame = target.names ms c := by
  cases target with
  | current => rfl
  | anyTrace => exact rel_isSome h
  | trace id =>
    obtain ⟨entered, begun, kept⟩ := c
    simp only [AttrTarget.isMet, AttrTarget.names, Frame.isTraceRoot, Frame.traceId]
    rw [Carries] at h
    generalize n.frame.marker = marker at h
    cases h with
    | none => rfl
    | some hmarks =>
      obtain ⟨m, flags, hm, -, hevent⟩ := hmarks
      simp [hm, hevent, Event.opens?]

theorem updateFirst_eq_modify (p : Node → Bool) (g : Node → Node) (ns : List Node) :
    (updateFirst p g ns).getD ns = ns.modify (ns.findIdx p) g := by
  induction ns with
  | nil => rfl
  | cons n ns ih =>
    rw [updateFirst_cons, List.findIdx_cons]
    cases hp : p n with
    | true => rfl
    | false => simpa using ih

theorem findIdx_of_calls {cs : List OpenCall} {ns : List Node} (h : List.Forall₂ (Carries ms) cs ns)
    (target : AttrTarget) : ns.findIdx (target.isMet ·.frame) = cs.findIdx (target.names ms) := by
  induction h with
  | nil => rfl
  | cons hc _ ih => rw [List.findIdx_cons, List.findIdx_cons, names_eq hc, ih]

/-! ### One event -/

/-- An attribute comes while a call is open and no trace waits for the next one. -/
def Moment.Addressed (m : Moment) : Prop :=
  m.event.isAttr → m.before.enabled → 0 < m.before.depth ∧ m.before.awaited.isTraceRoot = false

theorem spots_of_attr {cs : List OpenCall}
    (hcalls : List.Forall₂ (Carries ms) cs m.before.openCalls) (h : m.Addressed)
    (hon : m.before.enabled) {target : AttrTarget} {id : SymbolId} {value : AttrValue}
    (hevent : m.event = .attr target id value) :
    m.after.awaited = m.before.awaited ∧
      m.after.openCalls = m.before.openCalls.modify (cs.findIdx (target.names ms))
        (·.mapFrame (·.setAttr id value)) := by
  obtain ⟨hdepth, hwaiting⟩ := h (by rw [hevent]; rfl) hon
  have hk : m.kind = .other := by simp [Moment.kind, kind, hon, hevent]
  have hspots := spots_of_other hk
  have hempty : m.before.openCalls.isEmpty = false := by
    rw [← length_openCalls] at hdepth
    exact List.isEmpty_eq_false_iff.mpr (List.ne_nil_of_length_pos hdepth)
  have hroot : ({ frame := m.before.awaited } : Node).isTraceRoot = false := hwaiting
  rw [if_pos hon, hevent, changeSpots, spots, spots, changeFrame, hempty, hroot] at hspots
  simp only [Bool.not_false, Bool.and_self, ↓reduceIte] at hspots
  rw [updateFirst_eq_modify, findIdx_of_calls hcalls] at hspots
  obtain ⟨hawaited, hcalls⟩ := List.cons.inj hspots
  exact ⟨congrArg Node.frame hawaited, hcalls⟩

def attributesOf (ns : List Node) : List Attributes := ns.map (·.frame.attributes)

theorem attributesOf_eq {ns ns' : List Node}
    (h : List.Forall₂ (fun n n' => n'.frame.attributes = n.frame.attributes) ns ns') :
    attributesOf ns' = attributesOf ns := by
  induction h with
  | nil => rfl
  | cons hn _ ih =>
    simp only [attributesOf, List.map_cons, hn] at ih ⊢
    rw [ih]

theorem attributesOf_spots {a a' : Assembler} (hbusy : a'.top.isBusy = a.top.isBusy)
    (h : attributesOf a'.slots = attributesOf a.slots) :
    attributesOf a'.spots = attributesOf a.spots := by
  cases ht : a.top.isBusy with
  | true =>
    rw [spots_of_busy ht, spots_of_busy (hbusy.trans ht)]
    exact congrArg (List.cons []) h
  | false =>
    rw [spots_of_vacant ht, spots_of_vacant (hbusy.trans ht)]
    exact h

theorem attributes_of_begins (hk : m.kind = .begins) :
    attributesOf m.after.spots = attributesOf m.before.spots := by
  obtain ⟨traceId, clock, flags, -, -, hafter⟩ := Moment.begins_spec hk
  rw [hafter]
  exact attributesOf_spots opened_isBusy rfl

theorem attributes_of_other (hk : m.kind = .other)
    (hevent : m.before.enabled → ∀ target id value, m.event ≠ .attr target id value) :
    attributesOf m.after.spots = attributesOf m.before.spots := by
  cases hon : m.before.enabled with
  | false => rw [spots_of_other hk, if_neg (by simp [hon])]
  | true =>
    have hother := Moment.other_spec hk
    refine attributesOf_spots hother.touches.top.isBusy (attributesOf_eq ?_)
    refine hother.forall₂ (fun _ => rfl) (fun _ => rfl) fun n => ?_
    cases he : m.event with
    | attr target id value => exact absurd he (hevent hon target id value)
    | _ => rfl

theorem attributes_of_around (m : Moment) : attributesOf m.around = attributesOf m.outer := by
  have hadjust (g : Marker → Marker) (ns : List Node) :
      attributesOf (adjustNearest g ns) = attributesOf ns :=
    attributesOf_eq (adjustNearest_forall₂
      (Q := fun n n' => n'.frame.attributes = n.frame.attributes) (fun _ => rfl) (fun _ => rfl) ns)
  have hsettled : attributesOf m.settled.ancestors = attributesOf m.outer := by
    rw [Moment.settled, settle_ancestors]
    cases (settle m.env m.closing m.outer).node.frame.marker with
    | none => rfl
    | some inner => exact hadjust _ _
  rw [Moment.around, Assembler.around]
  split
  · exact (hadjust _ _).trans hsettled
  · exact hsettled

theorem attributes_of_closes (hsound : m.before.Sound) (hk : m.kind = .closes) :
    m.after.awaited.attributes = [] ∧
      attributesOf m.after.openCalls = (attributesOf m.before.openCalls).tail := by
  have hcloses := Moment.closes_spec hsound hk
  rw [hcloses.awaited, hcloses.after, hcloses.before]
  refine ⟨rfl, Eq.trans ?_ (attributes_of_around m)⟩
  cases m.around with
  | nil => rfl
  | cons q qs =>
    have hparent : (m.parent q).frame.attributes = q.frame.attributes := by
      rw [m.parent_frame]
      rfl
    rw [List.modifyHead_cons, attributesOf, List.map_cons, hparent]
    rfl

/-! ### A run -/

/-- Each open call has what was written to it, and the slot of the next one has nothing. -/
structure Holding (ms : List Moment) (k : Nat) (a : Assembler) : Prop where
  awaited : a.awaited.attributes = []
  calls : List.Forall₂ (fun i => Keyed.Written (written ms ⟨i, k⟩)) (stack (ms.take k))
    (attributesOf a.openCalls)

theorem write?_of_idle (hm : ms[k]? = some m)
    (hevent : m.before.enabled → ∀ target id value, m.event ≠ .attr target id value) (i : Nat) :
    write? ms i k = none := by
  unfold write?
  simp only [hm]
  split
  case h_1 target id value he =>
    cases hon : m.before.enabled with
    | false => simp
    | true => exact absurd he (hevent hon target id value)
  case h_2 => rfl

theorem written_first {cs : List OpenCall} {ns : List Node} {p : OpenCall → Bool}
    {F : Nat → List (SymbolId × AttrValue)} (id : SymbolId) (value : AttrValue)
    (hsorted : (cs.map (·.entered)).Pairwise (· > ·))
    (h : List.Forall₂ (fun c n => Keyed.Written (F c.entered) n.frame.attributes) cs ns) :
    List.Forall₂ (fun c n => Keyed.Written (F c.entered ++
        if (cs.find? p).map (·.entered) = some c.entered then [(id, value)] else [])
      n.frame.attributes) cs (ns.modify (cs.findIdx p) (·.mapFrame (·.setAttr id value))) := by
  induction h with
  | nil => exact .nil
  | @cons c n cs ns hc hcs ih =>
    obtain ⟨hlt, hsorted⟩ := List.pairwise_cons.mp hsorted
    have hlater : ∀ c' ∈ cs, c'.entered < c.entered :=
      fun c' hc' => hlt _ (List.mem_map_of_mem hc')
    rw [List.findIdx_cons, List.find?_cons]
    cases hp : p c with
    | true =>
      refine .cons ?_ (((List.forall₂_and_left _ _).mpr ⟨hlater, hcs⟩).imp fun c' n' hc' => ?_)
      · simpa [Node.mapFrame, Frame.setAttr] using hc.put id value
      · have hne : ¬c.entered = c'.entered := by omega
        simpa [hne] using hc'.2
    | false =>
      refine .cons ?_ (ih hsorted)
      rw [if_neg, List.append_nil]
      · exact hc
      · intro hsome
        obtain ⟨c', hc', heq⟩ := Option.map_eq_some_iff.mp hsome
        have hlt := hlater c' (List.mem_of_find?_eq_some hc')
        omega

variable {capacity : Nat} {os : List Occurrence}

theorem Holding.write (hm : ((new capacity).trail os)[k]? = some m) (haddressed : m.Addressed)
    (hon : m.before.enabled) {target : AttrTarget} {id : SymbolId} {value : AttrValue}
    (hevent : m.event = .attr target id value)
    (h : Holding ((new capacity).trail os) k m.before) :
    Holding ((new capacity).trail os) (k + 1) m.after := by
  generalize hms : (new capacity).trail os = ms at hm h ⊢
  have hk : m.kind = .other := by simp [Moment.kind, kind, hon, hevent]
  have hcarries := (traced_of_moment (hms ▸ hm)).calls
  rw [hms] at hcarries
  obtain ⟨hawaited, hcalls⟩ := spots_of_attr hcarries haddressed hon hevent
  refine ⟨hawaited ▸ h.awaited, ?_⟩
  rw [stack_succ hm, hk, hcalls]
  obtain ⟨hsorted, hlt⟩ := stack_sorted ms k
  have hwrite (i : Nat) : (write? ms i k).toList =
      if ((register (ms.take k)).calls.find? (target.names ms)).map (·.entered) = some i
      then [(id, value)] else [] := by
    simp only [write?, hm, hevent, hon, Bool.true_and]
    split <;> simp_all
  have hbefore := h.calls
  rw [stack, attributesOf, List.forall₂_map_left_iff, List.forall₂_map_right_iff] at hbefore ⊢
  have hfirst := written_first (F := fun i => written ms ⟨i, k⟩) (p := target.names ms) id value
    hsorted hbefore
  have hentered : ∀ c ∈ (register (ms.take k)).calls, c.entered ≤ k :=
    fun c hc => Nat.le_of_lt (hlt _ (List.mem_map_of_mem hc))
  refine ((List.forall₂_and_left _ _).mpr ⟨hentered, hfirst⟩).imp fun c n hc => ?_
  rw [written_succ hc.1, hwrite]
  exact hc.2

theorem Holding.idle (hm : ms[k]? = some m) (hsound : m.before.Sound)
    (hevent : m.before.enabled → ∀ target id value, m.event ≠ .attr target id value)
    (h : Holding ms k m.before) : Holding ms (k + 1) m.after := by
  have hcalls := h.calls.imp fun i as hi =>
    (written_idle (write?_of_idle hm hevent i)).symm ▸ hi
  have hopen (hspots : attributesOf m.after.spots = attributesOf m.before.spots) :
      m.after.awaited.attributes = [] ∧
        attributesOf m.after.openCalls = attributesOf m.before.openCalls := by
    obtain ⟨hawaited, hcalls⟩ := List.cons.inj hspots
    exact ⟨hawaited.trans h.awaited, hcalls⟩
  cases hk : m.kind with
  | enters =>
    obtain ⟨classId, methodId, signatureId, time, -, hentered⟩ := Moment.enters_spec hsound hk
    obtain ⟨flags, harrival⟩ :=
      arrival_eq hsound m.env.thresholds classId methodId signatureId time
    refine ⟨by rw [awaited_of_busy hentered.busy], ?_⟩
    rw [stack_succ hm, hk, hentered.openCalls, harrival, h.awaited]
    refine .cons ?_ hcalls
    rw [written_idle (write?_of_idle hm hevent k), written, Nat.sub_self]
    exact Keyed.written_nil
  | closes =>
    obtain ⟨hawaited, hafter⟩ := attributes_of_closes hsound hk
    refine ⟨hawaited, ?_⟩
    rw [stack_succ hm, hk, hafter]
    generalize attributesOf m.before.openCalls = as at hcalls
    generalize stack (ms.take k) = is at hcalls
    cases hcalls with
    | nil => exact .nil
    | cons _ hrest => exact hrest
  | begins =>
    obtain ⟨hawaited, hafter⟩ := hopen (attributes_of_begins hk)
    refine ⟨hawaited, ?_⟩
    rw [stack_succ hm, hk, hafter]
    exact hcalls
  | other =>
    obtain ⟨hawaited, hafter⟩ := hopen (attributes_of_other hk hevent)
    refine ⟨hawaited, ?_⟩
    rw [stack_succ hm, hk, hafter]
    exact hcalls

theorem Holding.next (hm : ((new capacity).trail os)[k]? = some m) (haddressed : m.Addressed)
    (h : Holding ((new capacity).trail os) k m.before) :
    Holding ((new capacity).trail os) (k + 1) m.after := by
  by_cases hattr : m.before.enabled ∧ ∃ target id value, m.event = .attr target id value
  · obtain ⟨hon, target, id, value, hevent⟩ := hattr
    exact h.write hm haddressed hon hevent
  · exact h.idle hm (sound_of_trail hm)
      fun hon target id value hevent => hattr ⟨hon, target, id, value, hevent⟩

theorem holding_of_trail (haddressed : ∀ m ∈ (new capacity).trail os, m.Addressed)
    (hk : k ≤ os.length) :
    Holding ((new capacity).trail os) k ((new capacity).after (os.take k)) :=
  trail_induction capacity os (P := Holding ((new capacity).trail os)) ⟨rfl, .nil⟩
    (fun _ m hm _ h => h.next hm (haddressed m (List.mem_of_getElem? hm))) hk

theorem written_closing (haddressed : ∀ m ∈ (new capacity).trail os, m.Addressed) {s : Span}
    (hs : s.IsCall ((new capacity).trail os))
    (hm : ((new capacity).trail os)[s.closed]? = some m) :
    Keyed.Written (written ((new capacity).trail os) s) m.closing.frame.attributes := by
  obtain ⟨m', hm', hk, hhead⟩ := hs
  obtain rfl : m = m' := Option.some.inj (hm.symm.trans hm')
  obtain ⟨hlt, hbefore⟩ := before_of_trail hm
  have hcalls := (holding_of_trail haddressed (Nat.le_of_lt hlt)).calls
  obtain ⟨is, his⟩ := List.head?_eq_some_iff.mp hhead
  rw [← hbefore, (Moment.closes_spec (sound_of_trail hm) hk).before, his] at hcalls
  obtain ⟨error, flags, hframe⟩ := closing_frame m
  rw [hframe]
  exact (List.forall₂_cons.mp hcalls).1

/-- What a node of a submitted tree says of its call, its attributes among it. -/
structure Noted (ms : List Moment) (own outer : Span) (f : Frame) : Prop where
  records : Records ms own outer f
  attributes : Keyed.Written (written ms own) f.attributes

theorem noted_settled (haddressed : ∀ m ∈ (new capacity).trail os, m.Addressed) {s : Span}
    (hs : s.IsCall ((new capacity).trail os))
    (hm : ((new capacity).trail os)[s.closed]? = some m) :
    Noted ((new capacity).trail os) s s m.settled.node.frame := by
  refine ⟨records_settled hs hm, ?_⟩
  rw [Moment.settled, settle_frame]
  exact written_closing haddressed hs hm

theorem justifies_noted (haddressed : ∀ m ∈ (new capacity).trail os, m.Addressed) :
    Justifies ((new capacity).trail os) (Noted ((new capacity).trail os)) where
  attach _ _ hs hm _ := noted_settled haddressed hs hm
  elide _ _ _ hs hm hfate _ _ hentered hclosed h :=
    ⟨(justifies_records capacity os).elide _ _ _ hs hm hfate _ _ hentered hclosed h.records,
      h.attributes⟩

theorem attributes_of_elide {child : Node} (h : m.fate = .elide child) :
    m.closing.frame.attributes = [] := by
  obtain ⟨-, flags, hsub⟩ := substitute_of_elide h
  unfold substitute? at hsub
  split at hsub
  case isTrue hinterim =>
    simp only [Node.isInterim, Bool.and_eq_true, List.isEmpty_iff] at hinterim
    exact hinterim.2.1.1.2
  case isFalse => cases hsub

/-- An attribute goes to the innermost open call that its target names and changes nothing else.
Each node of a submitted tree has what was written to its call from its entry to its close: every
id once, in the order of the first writes, with the value of the last one. A call to which an
attribute was written does not give way to its child. -/
theorem attributes_written (capacity : Nat) (os : List Occurrence)
    (haddressed : ∀ m ∈ (new capacity).trail os, m.Addressed) :
    let ms := (new capacity).trail os
    (∀ j m target id value, ms[j]? = some m → m.event = .attr target id value →
      (m.before.enabled = false → m.after = m.before) ∧
      (m.before.enabled →
        let calls := (register (ms.take j)).calls
        List.Forall₂ (fun c n => n.frame.EnteredAt ms c.entered) calls m.before.openCalls ∧
        List.Forall₂ (Carries ms) calls m.before.openCalls ∧
        m.after.awaited = m.before.awaited ∧
        m.after.openCalls = m.before.openCalls.modify (calls.findIdx (target.names ms))
          (·.mapFrame (·.setAttr id value)))) ∧
    (∀ k m tree, ms[k]? = some m → m.tree? = some tree →
      ∃ t : SpanTree, t.own.closed = k ∧ t.outer = t.own ∧ t.Depicts (Noted ms) ms tree) ∧
    ∀ s m, Span.IsCall ms s → ms[s.closed]? = some m → written ms s ≠ [] →
      ∀ child, m.fate ≠ .elide child := by
  intro ms
  refine ⟨fun j m target id value hm hevent => ⟨fun hoff => ?_, fun hon => ?_⟩,
    fun k m tree hm ht => ?_, fun s m hs hm hwritten child hfate => ?_⟩
  · simp [Moment.after, step, hoff, hevent]
  · have hcarries := (traced_of_moment hm).calls
    have hentered := (agrees_of_moment hm).calls.imp fun c n h => h.entered
    exact ⟨hentered, hcarries,
      spots_of_attr hcarries (haddressed m (List.mem_of_getElem? hm)) hon hevent⟩
  · obtain ⟨c, cs, -, hdepicts⟩ := depicts_of_submitted (justifies_noted haddressed)
      (fun _ _ hs hm _ => noted_settled haddressed hs hm) hm ht
    exact ⟨_, rfl, rfl, hdepicts⟩
  · exact (written_closing haddressed hs hm).ne_nil hwritten (attributes_of_elide hfate)

/-- Attributes for calls around a discarded one, for two traces, one of them twice under one id. -/
def notedCalls : List Occurrence :=
  occurrences { minTraceTime := 0, minMethodTime := 5, dropInterim := true }
    [.enter 1 1 1 0, .begin 7 0 ∅, .attr .current 1 (.int 1), .enter 2 2 2 10, .begin 8 0 ∅,
      .enter 3 3 3 11, .enter 4 4 4 12, .exit 90, .enter 5 5 5 91, .exit 92,
      .attr .current 2 (.int 2), .attr .anyTrace 3 (.int 3), .attr (.trace 7) 4 (.int 4),
      .attr (.trace 7) 1 (.int 5), .exit 93, .exit 101, .exit 900]

theorem attributes_written_of_notedCalls :
    let ms := (new 0).trail notedCalls
    (∀ m ∈ ms, m.Addressed) ∧
      (∀ m, ms[14]? = some m → ∀ child, m.fate ≠ .elide child) ∧
      written ms ⟨0, 16⟩ = [(1, .int 1), (4, .int 4), (1, .int 5)] ∧
      ∃ m tree, ms[16]? = some m ∧ m.tree? = some tree ∧
        (∃ t : SpanTree, t.own.closed = 16 ∧ t.outer = t.own ∧ t.Depicts (Noted ms) ms tree) ∧
        (tree.preorder []).map (·.2.frame.attributes) =
          [[(1, .int 5), (4, .int 4)], [(3, .int 3)], [(2, .int 2)], []] := by
  intro ms
  have haddressed : ∀ m ∈ ms, m.Addressed := by
    unfold Moment.Addressed
    decide +kernel
  obtain ⟨-, htrees, hplaces⟩ := attributes_written 0 notedCalls haddressed
  refine ⟨haddressed, fun m hm => ?_, by decide +kernel, ?_⟩
  · have hkind : (ms[14]?.map (·.kind)) = some .closes := by decide +kernel
    rw [hm] at hkind
    exact hplaces ⟨5, 14⟩ m ⟨m, hm, Option.some.inj hkind, by decide +kernel⟩ hm
      (by decide +kernel)
  · have hattributes : (ms[16]?.bind (·.tree?)).map (fun tree =>
        (tree.preorder []).map (·.2.frame.attributes)) =
          some [[(1, .int 5), (4, .int 4)], [(3, .int 3)], [(2, .int 2)], []] := by
      decide +kernel
    obtain ⟨tree, htree, hattributes⟩ := Option.map_eq_some_iff.mp hattributes
    obtain ⟨m, hm, ht⟩ := Option.bind_eq_some_iff.mp htree
    exact ⟨m, tree, hm, ht, htrees 16 m tree hm ht, hattributes⟩

end CallTree
