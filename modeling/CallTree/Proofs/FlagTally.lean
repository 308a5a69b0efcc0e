import CallTree.Proofs.Ledger

/-!
Where the flags of a trace come from: from the trace around it and the event that opened it, from
the events that mark it, and from the calls and traces that close right inside it. Up to its close
a trace has the union of these and no other flag.
-/
namespace CallTree

namespace FlagSet

variable {α : Type}

/-- Whether bit `j` is set, also one that no flag names. -/
def holds (s : FlagSet α) (j : Nat) : Bool := s.bits.getLsbD j

@[simp] theorem holds_union (s t : FlagSet α) (j : Nat) :
    (s ∪ t).holds j = (s.holds j || t.holds j) := by
  simp [holds, Union.union]

@[simp] theorem holds_inter (s t : FlagSet α) (j : Nat) :
    (s ∩ t).holds j = (s.holds j && t.holds j) := by
  simp [holds, Inter.inter]

@[simp] theorem holds_empty (j : Nat) : (∅ : FlagSet α).holds j = false := by
  simp [holds, EmptyCollection.emptyCollection]

theorem union_assoc (s t u : FlagSet α) : s ∪ t ∪ u = s ∪ (t ∪ u) :=
  congrArg mk (BitVec.or_assoc s.bits t.bits u.bits)

@[simp] theorem union_empty (s : FlagSet α) : s ∪ ∅ = s := congrArg mk BitVec.or_zero

@[simp] theorem empty_union (s : FlagSet α) : ∅ ∪ s = s := congrArg mk BitVec.zero_or

theorem has_eq_holds [Flag α] (s : FlagSet α) (f : α) : s.has f = s.holds (Flag.bit f) := rfl

end FlagSet

theorem MarkerFlags.holds_single (f : MarkerFlag) (j : Nat) :
    (FlagSet.single f : MarkerFlags).holds j ↔ j = Flag.bit f := by
  have hbit : Flag.bit f < 32 := by cases f <;> decide
  simp only [FlagSet.holds, FlagSet.single, BitVec.getLsbD_twoPow, Bool.and_eq_true,
    decide_eq_true_eq, hbit, true_and]
  exact eq_comm

theorem MarkerFlags.holds_inheritable (j : Nat) : MarkerFlags.inheritable.holds j ↔
    j = Flag.bit MarkerFlag.overflow ∨ j = Flag.bit MarkerFlag.error := by
  rw [inheritable, FlagSet.insert, FlagSet.holds_union, Bool.or_eq_true, holds_single, holds_single]

open Assembler

variable {ms : List Moment} {k : Nat} {m : Moment}

/-! ### Where flags come from -/

def Register.around? (r : Register) : Option Nat := r.calls.tail.findSome? (·.begun)

/-- Of the traces `bs`, this is the innermost one or the innermost one of an id. -/
structure Resolves (ms : List Moment) (bs : List Nat) (traceId : Option SymbolId) (b : Nat) :
    Prop where
  mem : b ∈ bs
  named : ∀ id ∈ traceId, OpensAs ms id b
  latest : ∀ b' ∈ bs, (∀ id ∈ traceId, OpensAs ms id b') → b' ≤ b

inductive Gives (ms : List Moment) (b : Nat) : Nat → MarkerFlags → Prop
  | enclosing {m : Moment} {outer : Marker} (hm : ms[b]? = some m) (hk : m.kind = .begins)
    (houter : nearest? m.before.ancestors = some outer) : Gives ms b b outer.flags
  | passed {m : Moment} {traceId : SymbolId} {clock : Nat} {flags : MarkerFlags}
    (hm : ms[b]? = some m) (hk : m.kind = .begins) (hevent : m.event = .begin traceId clock flags) :
    Gives ms b b flags
  | configured {m : Moment} (hm : ms[b]? = some m) (hk : m.kind = .begins)
    (hdrop : m.env.thresholds.dropInterim) : Gives ms b b (.single .dropInterim)
  | marked {i : Nat} {m : Moment} {traceId : Option SymbolId} {flags : MarkerFlags}
    (hm : ms[i]? = some m) (hon : m.before.enabled) (hevent : m.event = .markTrace traceId flags)
    (hb : Resolves ms (held ms i) traceId b) : Gives ms b i flags
  /-- A trace closes right inside this one, submitted or not. -/
  | inherited {i : Nat} {m : Moment} {inner : Marker} (hm : ms[i]? = some m) (hk : m.kind = .closes)
    (hb : (register (ms.take i)).around? = some b)
    (hinner : m.settled.node.frame.marker = some inner) :
    Gives ms b i (inner.flags ∩ MarkerFlags.inheritable)
  /-- A call over the node budget closes right inside this trace. -/
  | overflowed {i : Nat} {m : Moment} (hm : ms[i]? = some m) (hk : m.kind = .closes)
    (hb : (register (ms.take i)).around? = some b)
    (hflag : m.closing.frame.flags.has .overflow) : Gives ms b i (.single .overflow)
  /-- The trace itself is submitted, and its call failed. -/
  | failed {i : Nat} {m : Moment} (hm : ms[i]? = some m) (hended : (b, .submitted) ∈ endedAt ms i)
    (herror : m.closing.frame.error.isSome ∨ m.closing.frame.flags.has .passesError) :
    Gives ms b i (.single .error)

def Given (ms : List Moment) (k b j : Nat) : Prop := ∃ i < k, ∃ s, Gives ms b i s ∧ s.holds j

/-- The flags are the union of all that was given to the trace before event `k`. -/
def Flagged (ms : List Moment) (k b : Nat) (flags : MarkerFlags) : Prop :=
  ∀ j, flags.holds j ↔ Given ms k b j

theorem Given.mono {b j k' : Nat} (h : Given ms k b j) (hk : k ≤ k') : Given ms k' b j := by
  obtain ⟨i, hi, s, hs⟩ := h
  exact ⟨i, Nat.lt_of_lt_of_le hi hk, s, hs⟩

theorem given_succ {b j : Nat} :
    Given ms (k + 1) b j ↔ Given ms k b j ∨ ∃ s, Gives ms b k s ∧ s.holds j := by
  constructor
  · rintro ⟨i, hi, s, hs⟩
    rcases Nat.lt_succ_iff_lt_or_eq.mp hi with hi | rfl
    · exact .inl ⟨i, hi, s, hs⟩
    · exact .inr ⟨s, hs⟩
  · rintro (h | ⟨s, hs⟩)
    · exact h.mono (Nat.le_succ k)
    · exact ⟨k, Nat.lt_succ_self k, s, hs⟩

theorem Flagged.next {b : Nat} {flags flags' : MarkerFlags} (h : Flagged ms k b flags)
    (hnext : ∀ j, flags'.holds j ↔ flags.holds j ∨ ∃ s, Gives ms b k s ∧ s.holds j) :
    Flagged ms (k + 1) b flags' := by
  intro j
  rw [hnext, h j, given_succ]

theorem Flagged.idle {b : Nat} {flags : MarkerFlags} (h : Flagged ms k b flags)
    (hidle : ∀ s, ¬Gives ms b k s) : Flagged ms (k + 1) b flags := by
  refine h.next fun j => ?_
  constructor
  · exact .inl
  · rintro (h | ⟨s, hs, -⟩)
    · exact h
    · exact absurd hs (hidle s)

theorem kind_of_ended {b : Nat} {way : Ending} (hm : ms[k]? = some m)
    (h : (b, way) ∈ endedAt ms k) : m.kind = .closes := by
  obtain ⟨m', c, cs, hm', hk, -⟩ := mem_endedAt h
  rwa [Option.some.inj (hm.symm.trans hm')]

theorem gives_of_begins (hm : ms[k]? = some m) (hk : m.kind = .begins) {b : Nat} {s : MarkerFlags}
    (h : Gives ms b k s) : b = k ∧
      ((∃ outer, nearest? m.before.ancestors = some outer ∧ s = outer.flags) ∨
        (∃ traceId clock, m.event = .begin traceId clock s) ∨
          m.env.thresholds.dropInterim ∧ s = .single .dropInterim) := by
  obtain ⟨-, -, traceId, clock, flags, hbegin⟩ := begin_of_kind hk
  cases h with
  | enclosing hm' _ houter =>
    obtain rfl := Option.some.inj (hm.symm.trans hm')
    exact ⟨rfl, .inl ⟨_, houter, rfl⟩⟩
  | passed hm' _ hevent =>
    obtain rfl := Option.some.inj (hm.symm.trans hm')
    exact ⟨rfl, .inr (.inl ⟨_, _, hevent⟩)⟩
  | configured hm' _ hdrop =>
    obtain rfl := Option.some.inj (hm.symm.trans hm')
    exact ⟨rfl, .inr (.inr ⟨hdrop, rfl⟩)⟩
  | marked hm' _ hevent =>
    obtain rfl := Option.some.inj (hm.symm.trans hm')
    rw [hbegin] at hevent
    cases hevent
  | inherited hm' hk' | overflowed hm' hk' =>
    obtain rfl := Option.some.inj (hm.symm.trans hm')
    rw [hk] at hk'
    cases hk'
  | failed hm' hended =>
    rw [kind_of_ended hm hended] at hk
    cases hk

theorem gives_of_closes (hm : ms[k]? = some m) (hk : m.kind = .closes) {b : Nat} {s : MarkerFlags}
    (h : Gives ms b k s) :
    (register (ms.take k)).around? = some b ∧
      ((∃ inner, m.settled.node.frame.marker = some inner ∧
          s = inner.flags ∩ MarkerFlags.inheritable) ∨
        m.closing.frame.flags.has .overflow ∧ s = .single .overflow) ∨
    (b, .submitted) ∈ endedAt ms k ∧
      (m.closing.frame.error.isSome ∨ m.closing.frame.flags.has .passesError) ∧
      s = .single .error := by
  obtain ⟨-, -, time, hclose⟩ := close_of_kind hk
  cases h with
  | enclosing hm' hk' | passed hm' hk' | configured hm' hk' =>
    obtain rfl := Option.some.inj (hm.symm.trans hm')
    rw [hk] at hk'
    cases hk'
  | marked hm' _ hevent =>
    obtain rfl := Option.some.inj (hm.symm.trans hm')
    rcases hclose with hclose | ⟨error, hclose⟩ <;> rw [hclose] at hevent <;> cases hevent
  | inherited hm' _ hb hinner =>
    obtain rfl := Option.some.inj (hm.symm.trans hm')
    exact .inl ⟨hb, .inl ⟨_, hinner, rfl⟩⟩
  | overflowed hm' _ hb hflag =>
    obtain rfl := Option.some.inj (hm.symm.trans hm')
    exact .inl ⟨hb, .inr ⟨hflag, rfl⟩⟩
  | failed hm' hended herror =>
    obtain rfl := Option.some.inj (hm.symm.trans hm')
    exact .inr ⟨hended, herror, rfl⟩

theorem gives_of_other (hm : ms[k]? = some m) (hk : m.kind ≠ .begins) (hk' : m.kind ≠ .closes)
    {b : Nat} {s : MarkerFlags} (h : Gives ms b k s) :
    ∃ traceId, m.before.enabled ∧ m.event = .markTrace traceId s ∧
      Resolves ms (held ms k) traceId b := by
  cases h with
  | enclosing hm' h | passed hm' h | configured hm' h =>
    obtain rfl := Option.some.inj (hm.symm.trans hm')
    exact absurd h hk
  | marked hm' hon hevent hb =>
    obtain rfl := Option.some.inj (hm.symm.trans hm')
    exact ⟨_, hon, hevent, hb⟩
  | inherited hm' h | overflowed hm' h =>
    obtain rfl := Option.some.inj (hm.symm.trans hm')
    exact absurd h hk'
  | failed hm' hended => exact absurd (kind_of_ended hm hended) hk'

/-! ### The markers after each kind of event -/

theorem Assembler.Entered.markers {t : Thresholds} {classId methodId signatureId : SymbolId}
    {time : Nat} {a a' : Assembler} (hsound : a.Sound)
    (h : Entered t classId methodId signatureId time a a') : a'.markers = a.markers := by
  obtain ⟨flags, harrival⟩ := arrival_eq hsound t classId methodId signatureId time
  rw [markers_eq, markers_eq, awaited_of_busy h.busy, h.openCalls, harrival]
  cases a.awaited.marker <;> simp

theorem opened_markers {a : Assembler} (hroot : a.top.isTraceRoot = false) (t : Thresholds)
    (traceId : SymbolId) (clock : Nat) (flags : MarkerFlags) :
    (a.opened t traceId clock flags).markers =
      newMarker t traceId clock flags (nearest? a.ancestors) :: a.markers := by
  have hnone : a.top.frame.marker = none := by
    simpa [Node.isTraceRoot, Frame.isTraceRoot] using hroot
  simp [Assembler.markers, slots, opened, Node.mapFrame, Frame.mark, hnone]

theorem filterMap_same {ns ns' : List Node}
    (h : List.Forall₂ (fun n n' => n'.frame.marker = n.frame.marker) ns ns') :
    ns'.filterMap (·.frame.marker) = ns.filterMap (·.frame.marker) := by
  induction h with
  | nil => rfl
  | cons hn _ ih => rw [List.filterMap_cons, List.filterMap_cons, hn, ih]

theorem updateFrame_markers {p : Frame → Bool} {g : Frame → Frame}
    (hg : ∀ f, (g f).marker = f.marker) {a a' : Assembler} (h : a.updateFrame p g = some a') :
    a'.markers = a.markers := by
  have hsame {ns ns' : List Node}
      (hns : updateFirst (p ·.frame) (·.mapFrame g) ns = some ns') :
      List.Forall₂ (fun n n' => n'.frame.marker = n.frame.marker) ns ns' :=
    updateFirst_forall₂ (Q := fun n n' => n'.frame.marker = n.frame.marker) (fun _ => rfl)
      (fun n => hg n.frame) hns
  unfold updateFrame at h
  dsimp only at h
  split at h
  · obtain ⟨ns, hns, rfl⟩ := Option.map_eq_some_iff.mp h
    exact filterMap_same (.cons rfl (hsame hns))
  · obtain ⟨ns, hns, rfl⟩ := Option.map_eq_some_iff.mp h
    have hslots := hsame hns
    cases ns with
    | nil => cases hslots
    | cons => exact filterMap_same hslots

theorem Event.rewrite_marker (e : Event) (f : Frame) : (e.rewrite f).marker = f.marker := by
  cases e <;> rfl

theorem remark_flags {e : Event} (he : ∀ traceId flags, e ≠ .markTrace traceId flags)
    (marker : Marker) : (e.remark marker).flags = marker.flags := by
  cases e with
  | markTrace traceId flags => exact absurd rfl (he traceId flags)
  | _ => rfl

theorem map_modify {α β : Type} {f : α → β} {g : α → α} (h : ∀ a, f (g a) = f a) (l : List α)
    (i : Nat) : (l.modify i g).map f = l.map f := by
  induction l generalizing i with
  | nil => simp
  | cons a l ih =>
    cases i with
    | zero => simp [h]
    | succ i => simp [ih]

theorem Assembler.Retouches.flags {e : Event} {a a' : Assembler} (h : Retouches e a a')
    (he : ∀ traceId flags, e ≠ .markTrace traceId flags) :
    a'.markers.map (·.flags) = a.markers.map (·.flags) := by
  cases h with
  | idle => rfl
  | switch on => rfl
  | marker p => rw [mapMarker_markers, map_modify (remark_flags he)]
  | frame p h => rw [updateFrame_markers e.rewrite_marker h]

theorem Moment.other_flags (hk : m.kind = .other)
    (hevent : ∀ traceId flags, m.before.enabled → m.event ≠ .markTrace traceId flags) :
    m.after.markers.map (·.flags) = m.before.markers.map (·.flags) := by
  by_cases hon : m.before.enabled
  · exact (Moment.other_spec hk).flags fun traceId flags => hevent traceId flags hon
  · cases he : m.event with
    | markTrace => simp [Moment.after, step, hon, he]
    | _ => exact (Moment.other_spec hk).flags (by simp [he])

/-- What a closing call tells the trace around it. -/
def Moment.told (m : Moment) : MarkerFlags :=
  ((m.settled.node.frame.marker.map (·.flags ∩ MarkerFlags.inheritable)).getD ∅) ∪
    if m.closing.frame.flags.has .overflow then .single .overflow else ∅

theorem adjustNearest_markers (g : Marker → Marker) (ns : List Node) :
    (adjustNearest g ns).filterMap (·.frame.marker) =
      (ns.filterMap (·.frame.marker)).modifyHead g := by
  rw [adjustNearest, updateMarker_markers]
  cases ns.filterMap (·.frame.marker) with
  | nil => rfl
  | cons marker markers => simp [List.findIdx_cons]

theorem settle_ancestors (env : Surroundings) (n : Node) (outer : List Node) :
    (settle env n outer).ancestors = match (settle env n outer).node.frame.marker with
      | none => outer
      | some inner => adjustNearest (·.inherit inner.flags) outer := by
  unfold settle
  cases h : n.frame.marker with
  | none => simp [h]
  | some marker =>
    dsimp only
    split <;> rfl

theorem map_modifyHead {g : Marker → Marker} {flags : MarkerFlags}
    (hg : ∀ marker : Marker, (g marker).flags = marker.flags ∪ flags) (markers : List Marker) :
    (markers.modifyHead g).map (·.flags) = (markers.map (·.flags)).modifyHead (· ∪ flags) := by
  cases markers with
  | nil => rfl
  | cons marker markers => simp [hg]

theorem modifyHead_empty (l : List MarkerFlags) : l.modifyHead (· ∪ ∅) = l := by
  cases l <;> simp

theorem Moment.Closes.flags (h : m.Closes) : m.after.markers.map (·.flags) =
    ((m.outer.filterMap (·.frame.marker)).map (·.flags)).modifyHead (· ∪ m.told) := by
  have hparent : (m.around.modifyHead m.parent).filterMap (·.frame.marker) =
      m.around.filterMap (·.frame.marker) := by
    cases m.around with
    | nil => rfl
    | cons q qs =>
      rw [List.modifyHead_cons, List.filterMap_cons, List.filterMap_cons, m.parent_frame]
      rfl
  have hsettled : (m.settled.ancestors.filterMap (·.frame.marker)).map (·.flags) =
      ((m.outer.filterMap (·.frame.marker)).map (·.flags)).modifyHead (· ∪
        (m.settled.node.frame.marker.map (·.flags ∩ MarkerFlags.inheritable)).getD ∅) := by
    rw [Moment.settled, settle_ancestors]
    cases (settle m.env m.closing m.outer).node.frame.marker with
    | none => exact (modifyHead_empty _).symm
    | some inner =>
      rw [adjustNearest_markers, map_modifyHead fun _ => rfl]
      rfl
  rw [markers_eq, h.awaited, h.after, hparent, Option.toList_none, List.nil_append, Moment.around,
    Assembler.around]
  unfold Moment.told
  split
  case isTrue hover =>
    obtain ⟨-, hflag⟩ := Bool.and_eq_true_iff.mp hover
    rw [adjustNearest_markers, map_modifyHead fun _ => rfl, ← Moment.settled, hsettled,
      if_pos hflag, List.modifyHead_modifyHead]
    simp [Function.comp_def, FlagSet.union_assoc]
  case isFalse hover =>
    rw [← Moment.settled, hsettled]
    by_cases hflag : m.closing.frame.flags.has .overflow
    · have hnone : (m.outer.filterMap (·.frame.marker)).head? = none := by
        rw [List.head?_filterMap]
        simpa [hflag, any_isTraceRoot, nearest?] using hover
      rw [List.head?_eq_none_iff.mp hnone]
      rfl
    · rw [if_neg hflag, FlagSet.union_empty]

/-! ### The flags of the traces that are held -/

def Tallies (ms : List Moment) (k : Nat) (a : Assembler) : Prop :=
  List.Forall₂ (Flagged ms k) (held ms k) (a.markers.map (·.flags))

variable {capacity : Nat} {os : List Occurrence}

theorem held_of_open (hm : ((new capacity).trail os)[k]? = some m) (hk : m.kind ≠ .closes) :
    held ((new capacity).trail os) (k + 1) = if m.kind = .begins then
      k :: held ((new capacity).trail os) k else held ((new capacity).trail os) k := by
  have hsucc := held_succ hm
  rwa [Register.ended_of_open hk] at hsucc

theorem sorted_of_moment (hm : ((new capacity).trail os)[k]? = some m) :
    (held ((new capacity).trail os) k).Pairwise (· > ·) ∧
      (held ((new capacity).trail os) (k + 1)).Pairwise (· > ·) :=
  ⟨(held_sorted (Nat.le_of_lt (before_of_trail hm).1)).1, (held_sorted (before_of_trail hm).1).1⟩

theorem lt_of_held (hm : ((new capacity).trail os)[k]? = some m) :
    ∀ b ∈ held ((new capacity).trail os) k, b < k :=
  (held_sorted (Nat.le_of_lt (before_of_trail hm).1)).2

theorem tallies_enters (hm : ((new capacity).trail os)[k]? = some m) (hk : m.kind = .enters)
    (h : Tallies ((new capacity).trail os) k m.before) :
    Tallies ((new capacity).trail os) (k + 1) m.after := by
  obtain ⟨classId, methodId, signatureId, time, hevent, hentered⟩ :=
    Moment.enters_spec (sound_of_trail hm) hk
  rw [Tallies, held_of_open hm (by simp [hk]), if_neg (by simp [hk]),
    hentered.markers (sound_of_trail hm)]
  refine h.imp fun b flags hb => hb.idle fun s hs => ?_
  obtain ⟨traceId, -, hmark, -⟩ := gives_of_other hm (by simp [hk]) (by simp [hk]) hs
  rw [hevent] at hmark
  cases hmark

theorem newMarker_holds (t : Thresholds) (traceId : SymbolId) (clock : Nat) (flags : MarkerFlags)
    (outer : Option Marker) (j : Nat) :
    (newMarker t traceId clock flags outer).flags.holds j ↔
      (∃ marker, outer = some marker ∧ marker.flags.holds j) ∨ flags.holds j ∨
        t.dropInterim ∧ (FlagSet.single .dropInterim : MarkerFlags).holds j := by
  unfold newMarker
  cases outer <;> dsimp only <;> split <;> simp_all [Marker.mark, Marker.nested, or_assoc]

theorem around_held {r : Register} {b : Nat} (h : r.around? = some b) : b ∈ r.held := by
  obtain ⟨c, hc, hb⟩ := List.exists_of_findSome?_eq_some h
  rw [Register.held, List.mem_append]
  exact .inr (List.mem_filterMap.mpr ⟨c, List.mem_of_mem_tail hc, hb⟩)

theorem gives_after {b i : Nat} {s : MarkerFlags} (h : Gives ((new capacity).trail os) b i s) :
    b ≤ i := by
  cases h with
  | enclosing | passed | configured => exact Nat.le_refl b
  | marked hm _ _ hb => exact Nat.le_of_lt (lt_of_held hm b hb.mem)
  | inherited hm _ hb | overflowed hm _ hb => exact Nat.le_of_lt (lt_of_held hm b (around_held hb))
  | failed hm hended => exact Nat.le_of_lt (lt_of_held hm b (held_of_ended hended))

theorem tallies_begins (hm : ((new capacity).trail os)[k]? = some m) (hk : m.kind = .begins)
    (h : Tallies ((new capacity).trail os) k m.before) :
    Tallies ((new capacity).trail os) (k + 1) m.after := by
  obtain ⟨traceId, clock, flags, hevent, hroot, hafter⟩ := Moment.begins_spec hk
  rw [Tallies, held_of_open hm (by simp [hk]), if_pos hk, hafter, opened_markers hroot,
    List.map_cons]
  have hnone (j : Nat) : ¬Given ((new capacity).trail os) k k j := by
    rintro ⟨i, hi, s, hs, -⟩
    have hafter := gives_after hs
    omega
  refine .cons (fun j => ?_) ?_
  · rw [newMarker_holds, given_succ, or_iff_right (hnone j)]
    constructor
    · rintro (⟨outer, houter, hj⟩ | hj | ⟨hdrop, hj⟩)
      · exact ⟨_, .enclosing hm hk houter, hj⟩
      · exact ⟨_, .passed hm hk hevent, hj⟩
      · exact ⟨_, .configured hm hk hdrop, hj⟩
    · rintro ⟨s, hs, hj⟩
      obtain ⟨-, ⟨outer, houter, rfl⟩ | ⟨_, _, hsame⟩ | ⟨hdrop, rfl⟩⟩ := gives_of_begins hm hk hs
      · exact .inl ⟨outer, houter, hj⟩
      · rw [hevent, Event.begin.injEq] at hsame
        exact .inr (.inl (hsame.2.2 ▸ hj))
      · exact .inr (.inr ⟨hdrop, hj⟩)
  · -- The traces that were held before are not the new one.
    have hlt := lt_of_held hm
    refine ((List.forall₂_and_left _ _).mpr ⟨hlt, h⟩).imp fun b f hb => hb.2.idle fun s hs => ?_
    have hsame := (gives_of_begins hm hk hs).1
    have hb := hb.1
    omega

theorem named_iff {b : Nat} {marker : Marker} (h : Marks ms b marker)
    (traceId : Option SymbolId) :
    traceId.all (marker.traceId == ·) ↔ ∀ id ∈ traceId, OpensAs ms id b := by
  cases traceId with
  | none => simp
  | some id =>
    have hany := any_traceId (.cons h .nil) id
    simpa using hany

theorem resolves_head {b : Nat} {bs : List Nat} {traceId : Option SymbolId}
    (hlt : ∀ b' ∈ bs, b > b') (hb : ∀ id ∈ traceId, OpensAs ms id b) :
    Resolves ms (b :: bs) traceId b := by
  refine ⟨List.mem_cons_self, hb, fun b' hb' _ => ?_⟩
  rcases List.mem_cons.mp hb' with rfl | hb'
  · exact Nat.le_refl b'
  · exact Nat.le_of_lt (hlt b' hb')

theorem marked_flags {traceId : Option SymbolId} {flags : MarkerFlags}
    {Q Q' : Nat → MarkerFlags → Prop} {bs : List Nat} {markers : List Marker}
    (hmarks : List.Forall₂ (Marks ms) bs markers) (hsorted : bs.Pairwise (· > ·))
    (h : List.Forall₂ Q bs (markers.map (·.flags)))
    (hfound : ∀ b f, Resolves ms bs traceId b → Q b f → Q' b (f ∪ flags))
    (hother : ∀ b f, ¬Resolves ms bs traceId b → Q b f → Q' b f) :
    List.Forall₂ Q' bs ((markers.modify (markers.findIdx fun marker =>
      traceId.all (marker.traceId == ·)) (·.mark flags)).map (·.flags)) := by
  induction hmarks with
  | nil => exact .nil
  | @cons b marker bs markers hb hmarks ih =>
    obtain ⟨hlt, hsorted⟩ := List.pairwise_cons.mp hsorted
    obtain ⟨hQ, hrest⟩ := List.forall₂_cons.mp h
    by_cases hnamed : traceId.all (marker.traceId == ·)
    · rw [List.findIdx_cons, hnamed]
      refine .cons (hfound b _ (resolves_head hlt ((named_iff hb traceId).mp hnamed)) hQ) ?_
      refine ((List.forall₂_and_left _ _).mpr ⟨hlt, hrest⟩).imp fun b' f hb' => ?_
      refine hother b' f (fun hres => ?_) hb'.2
      have hle := hres.latest b List.mem_cons_self ((named_iff hb traceId).mp hnamed)
      have hlt := hb'.1
      omega
    · have hunnamed := mt (named_iff hb traceId).mpr hnamed
      rw [List.findIdx_cons, Bool.eq_false_iff.mpr hnamed]
      refine .cons (hother b _ (fun hres => hunnamed hres.named) hQ) (ih hsorted hrest ?_ ?_)
      · intro b' f hres hQ'
        refine hfound b' f ⟨List.mem_cons_of_mem b hres.mem, hres.named, fun b'' hb'' hn => ?_⟩ hQ'
        rcases List.mem_cons.mp hb'' with rfl | hb''
        · exact absurd hn hunnamed
        · exact hres.latest b'' hb'' hn
      · intro b' f hres hQ'
        refine hother b' f (fun hcons => hres ?_) hQ'
        obtain ⟨hmem, hn, hlatest⟩ := hcons
        rcases List.mem_cons.mp hmem with rfl | hmem
        · exact absurd hn hunnamed
        · exact ⟨hmem, hn, fun b'' hb'' => hlatest b'' (List.mem_cons_of_mem b hb'')⟩

theorem tallies_other (hm : ((new capacity).trail os)[k]? = some m) (hk : m.kind = .other)
    (h : Tallies ((new capacity).trail os) k m.before) :
    Tallies ((new capacity).trail os) (k + 1) m.after := by
  rw [Tallies, held_of_open hm (by simp [hk]), if_neg (by simp [hk])]
  by_cases hmark : m.before.enabled ∧ ∃ traceId flags, m.event = .markTrace traceId flags
  · obtain ⟨hon, traceId, flags, hevent⟩ := hmark
    have hmarkers : List.Forall₂ (Marks ((new capacity).trail os))
        (held ((new capacity).trail os) k) m.before.markers := (traced_of_moment hm).markers
    rw [(accounts_of_trail hm).markTrace hon traceId flags hevent]
    refine marked_flags hmarkers (sorted_of_moment hm).1 h
      (fun b f hres hf => hf.next fun j => ?_) fun b f hres hf => hf.idle fun s hs => ?_
    · rw [FlagSet.holds_union, Bool.or_eq_true]
      refine or_congr_right ⟨fun hj => ⟨flags, .marked hm hon hevent hres, hj⟩, ?_⟩
      rintro ⟨s, hs, hj⟩
      obtain ⟨_, -, hsame, -⟩ := gives_of_other hm (by simp [hk]) (by simp [hk]) hs
      rw [hevent, Event.markTrace.injEq] at hsame
      exact hsame.2 ▸ hj
    · obtain ⟨_, -, hsame, hres'⟩ := gives_of_other hm (by simp [hk]) (by simp [hk]) hs
      rw [hevent, Event.markTrace.injEq] at hsame
      exact hres (hsame.1 ▸ hres')
  · have hevent : ∀ traceId flags, m.before.enabled → m.event ≠ .markTrace traceId flags :=
      fun traceId flags hon he => hmark ⟨hon, traceId, flags, he⟩
    rw [Moment.other_flags hk hevent]
    refine h.imp fun b f hf => hf.idle fun s hs => ?_
    obtain ⟨traceId, hon, hmark, -⟩ := gives_of_other hm (by simp [hk]) (by simp [hk]) hs
    exact hevent traceId s hon hmark

/-! ### A call that closes -/

theorem forall₂_append_split {α β : Type} {R : α → β → Prop} {as as' : List α} {bs bs' : List β}
    (h : List.Forall₂ R (as ++ as') (bs ++ bs')) (hlength : as.length = bs.length) :
    List.Forall₂ R as bs ∧ List.Forall₂ R as' bs' := by
  have htake := List.forall₂_take_append _ _ _ h
  have hdrop := List.forall₂_drop_append _ _ _ h
  rw [← hlength, List.take_left] at htake
  rw [← hlength, List.drop_left] at hdrop
  exact ⟨htake, hdrop⟩

theorem filterMap_cons_toList {α β : Type} (f : α → Option β) (a : α) (l : List α) :
    (a :: l).filterMap f = (f a).toList ++ l.filterMap f := by
  rw [List.filterMap_cons]
  cases f a <;> rfl

theorem calls_of_closes (hm : ((new capacity).trail os)[k]? = some m) (hk : m.kind = .closes) :
    ∃ c cs, (register (((new capacity).trail os).take k)).calls = c :: cs ∧
      Carries ((new capacity).trail os) c m.innermost ∧
      held ((new capacity).trail os) (k + 1) = cs.filterMap (·.begun) := by
  have hcalls := (traced_of_moment hm).calls
  rw [(Moment.closes_spec (sound_of_trail hm) hk).before] at hcalls
  obtain ⟨c, cs, hc, -, hcs⟩ := List.forall₂_cons_right_iff.mp hcalls
  refine ⟨c, cs, hcs, hc, ?_⟩
  have hsucc := held_succ hm
  rw [if_neg (by simp [hk])] at hsucc
  refine List.append_cancel_left (hsucc.trans ?_)
  simp [Register.ended, hk, hcs, held, Register.held, filterMap_cons_toList, Function.comp_def]

theorem around_of_closes (hm : ((new capacity).trail os)[k]? = some m) (hk : m.kind = .closes) :
    (register (((new capacity).trail os).take k)).around? =
      (held ((new capacity).trail os) (k + 1)).head? := by
  obtain ⟨c, cs, hcs, -, hheld⟩ := calls_of_closes hm hk
  rw [Register.around?, hcs, hheld, List.head?_filterMap, List.tail_cons]

theorem closing_split {R : Nat → MarkerFlags → Prop} (hm : ((new capacity).trail os)[k]? = some m)
    (hk : m.kind = .closes) {c : OpenCall} {cs : List OpenCall}
    (hcs : (register (((new capacity).trail os).take k)).calls = c :: cs)
    (h : List.Forall₂ R (held ((new capacity).trail os) k) (m.before.markers.map (·.flags))) :
    List.Forall₂ R c.begun.toList (m.innermost.frame.marker.toList.map (·.flags)) ∧
      List.Forall₂ R (cs.filterMap (·.begun))
        ((m.outer.filterMap (·.frame.marker)).map (·.flags)) := by
  have htraced := traced_of_moment hm
  have hcalls := htraced.calls
  rw [(Moment.closes_spec (sound_of_trail hm) hk).before, hcs] at hcalls
  have hcarries : Option.Rel _ c.begun m.innermost.frame.marker := (List.forall₂_cons.mp hcalls).1
  rw [held, Register.held, hcs, filterMap_cons_toList, markers_eq,
    (Moment.closes_spec (sound_of_trail hm) hk).before, filterMap_cons_toList, List.map_append,
    List.map_append] at h
  refine forall₂_append_split (forall₂_append_split h ?_).2 ?_
  · rw [List.length_map]
    exact (rel_toList htraced.waiting).length_eq
  · rw [List.length_map]
    exact (rel_toList hcarries).length_eq

theorem told_iff (hm : ms[k]? = some m) (hk : m.kind = .closes) {b : Nat}
    (hb : (register (ms.take k)).around? = some b) (hopen : ∀ way, (b, way) ∉ endedAt ms k)
    (j : Nat) : m.told.holds j ↔ ∃ s, Gives ms b k s ∧ s.holds j := by
  rw [Moment.told, FlagSet.holds_union, Bool.or_eq_true]
  constructor
  · rintro (hj | hj)
    · cases hinner : m.settled.node.frame.marker with
      | none => simp [hinner] at hj
      | some inner => exact ⟨_, .inherited hm hk hb hinner, by simpa [hinner] using hj⟩
    · by_cases hflag : m.closing.frame.flags.has .overflow
      · exact ⟨_, .overflowed hm hk hb hflag, by simpa [hflag] using hj⟩
      · simp [hflag] at hj
  · rintro ⟨s, hs, hj⟩
    obtain ⟨-, ⟨inner, hinner, rfl⟩ | ⟨hflag, rfl⟩⟩ | ⟨hended, -⟩ := gives_of_closes hm hk hs
    · exact .inl (by simpa [hinner] using hj)
    · exact .inr (by simpa [hflag] using hj)
    · exact absurd hended (hopen _)

theorem not_ended (hk : k < os.length) {b : Nat} (hb : b ∈ held ((new capacity).trail os) (k + 1))
    (way : Ending) : (b, way) ∉ endedAt ((new capacity).trail os) k :=
  (((accounted_of_trail capacity os hk).held_iff b).mp hb).2 k (Nat.lt_succ_self k) way

theorem tallies_closes (hm : ((new capacity).trail os)[k]? = some m) (hk : m.kind = .closes)
    (h : Tallies ((new capacity).trail os) k m.before) :
    Tallies ((new capacity).trail os) (k + 1) m.after := by
  obtain ⟨c, cs, hcs, -, hheld⟩ := calls_of_closes hm hk
  have haround := around_of_closes hm hk
  have hlt := (before_of_trail hm).1
  have hopen {b : Nat} (hb : b ∈ held ((new capacity).trail os) (k + 1)) := not_ended hlt hb
  have hsorted := (sorted_of_moment hm).2
  have hrest := (closing_split hm hk hcs h).2
  rw [← hheld] at hrest
  rw [Tallies, (Moment.closes_spec (sound_of_trail hm) hk).flags]
  generalize (m.outer.filterMap (·.frame.marker)).map (·.flags) = fs at hrest
  generalize held ((new capacity).trail os) (k + 1) = bs at *
  cases hrest with
  | nil => exact .nil
  | @cons b f bs fs hb hfs =>
    rw [List.head?_cons] at haround
    obtain ⟨hgt, -⟩ := List.pairwise_cons.mp hsorted
    refine .cons (hb.next fun j => ?_) ?_
    · rw [FlagSet.holds_union, Bool.or_eq_true, told_iff hm hk haround (hopen List.mem_cons_self)]
    · -- Only the nearest trace is told anything.
      have hbelow : ∀ b' ∈ bs, b > b' ∧ b' ∈ bs := fun b' hb' => ⟨hgt b' hb', hb'⟩
      refine ((List.forall₂_and_left _ _).mpr ⟨hbelow, hfs⟩).imp
        fun b' f hb' => hb'.2.idle fun s hs => ?_
      rcases gives_of_closes hm hk hs with ⟨hhead, -⟩ | ⟨hended, -⟩
      · rw [haround] at hhead
        have hsame := Option.some.inj hhead
        have hgt := hb'.1.1
        omega
      · exact hopen (List.mem_cons_of_mem b hb'.1.2) _ hended

theorem tallies_of_trail (capacity : Nat) (os : List Occurrence) (hk : k ≤ os.length) :
    Tallies ((new capacity).trail os) k ((new capacity).after (os.take k)) := by
  refine trail_induction capacity os (P := fun k a => Tallies ((new capacity).trail os) k a) .nil
    (fun j m hm _ h => ?_) hk
  cases hkind : m.kind with
  | enters => exact tallies_enters hm hkind h
  | begins => exact tallies_begins hm hkind h
  | closes => exact tallies_closes hm hkind h
  | other => exact tallies_other hm hkind h

/-! ### At the close -/

theorem settled_marker (m : Moment) : m.settled.node.frame.marker =
    m.closing.frame.marker.map fun marker =>
      if m.satisfied && (m.closing.frame.error.isSome || m.closing.frame.flags.has .passesError)
      then marker.mark (.single .error) else marker := by
  rw [Moment.settled, Moment.satisfied]
  unfold settle
  cases hmarker : m.closing.frame.marker with
  | none => simp [hmarker]
  | some marker =>
    dsimp only
    split <;> simp_all [Node.mapFrame]

theorem ended_of_begun (hm : ms[k]? = some m) (hk : m.kind = .closes) {c : OpenCall}
    {cs : List OpenCall} (hcs : (register (ms.take k)).calls = c :: cs) {b : Nat}
    (hb : c.begun = some b) :
    (b, if m.satisfied then .submitted else .dropped) ∈ endedAt ms k := by
  simp [endedAt, hm, Register.ended, hk, hcs, hb]

theorem flagged_at_close (hm : ((new capacity).trail os)[k]? = some m) (hk : m.kind = .closes)
    {c : OpenCall} {cs : List OpenCall}
    (hcs : (register (((new capacity).trail os).take k)).calls = c :: cs) {b : Nat}
    (hb : c.begun = some b) : ∃ marker, m.settled.node.frame.marker = some marker ∧
      Marks ((new capacity).trail os) b marker ∧
      Flagged ((new capacity).trail os) (k + 1) b marker.flags := by
  obtain ⟨c', cs', hcs', hcarries, -⟩ := calls_of_closes hm hk
  obtain ⟨rfl, rfl⟩ := List.cons.inj (hcs.symm.trans hcs')
  obtain ⟨marker, hmarker, hmarks⟩ := marks_of_rel hcarries hb
  obtain ⟨hlt, hbefore⟩ := before_of_trail hm
  have htallies := tallies_of_trail capacity os (Nat.le_of_lt hlt)
  rw [← hbefore] at htallies
  have hflagged := (closing_split hm hk hcs htallies).1
  rw [hb, hmarker] at hflagged
  have hsettled := settled_marker m
  rw [closing_marker, hmarker, Option.map_some] at hsettled
  refine ⟨_, hsettled, hmarks.grows ?_, (List.forall₂_cons.mp hflagged).1.next fun j => ?_⟩
  · split
    · exact marker.grows_mark _
    · exact .refl marker
  have hended := ended_of_begun hm hk hcs hb
  -- The trace itself is not around its call.
  have houter : (register (((new capacity).trail os).take k)).around? ≠ some b := by
    rw [around_of_closes hm hk]
    exact fun hhead => not_ended hlt (List.mem_of_head? hhead) _ hended
  constructor
  · intro hj
    split at hj
    case isTrue hfailed =>
      rw [Bool.and_eq_true, Bool.or_eq_true] at hfailed
      rw [if_pos hfailed.1] at hended
      rw [Marker.mark, FlagSet.holds_union, Bool.or_eq_true] at hj
      exact hj.imp_right fun hj => ⟨_, .failed hm hended hfailed.2, hj⟩
    case isFalse => exact .inl hj
  · rintro (hj | ⟨s, hs, hj⟩)
    · split
      · simp [Marker.mark, hj]
      · exact hj
    · obtain ⟨haround, -⟩ | ⟨hsubmitted, herror, rfl⟩ := gives_of_closes hm hk hs
      · exact absurd haround houter
      · have hsatisfied : m.satisfied := by
          obtain ⟨m', _, _, hm', -, -, ⟨-, hway⟩ | ⟨-, hway⟩⟩ := mem_endedAt hsubmitted
          · cases hway
          · obtain rfl := Option.some.inj (hm.symm.trans hm')
            by_contra hnot
            simp [hnot] at hway
        rw [if_pos (by simpa [hsatisfied] using herror)]
        simp [Marker.mark, hj]

end CallTree
