import CallTree.Proofs.Depiction

/-!
The ledger of a run: every trace that was opened is held by a slot or has ended, in one way and
once.
-/
namespace CallTree
open Assembler

inductive Ending where
  | submitted
  | dropped
  /-- The call that the trace waited for was not entered. -/
  | abandoned
deriving DecidableEq

def Marks (ms : List Moment) (b : Nat) (marker : Marker) : Prop :=
  ∃ m flags, ms[b]? = some m ∧ m.kind = .begins ∧
    m.event = .begin marker.traceId marker.clock flags

theorem Marks.grows {ms : List Moment} {b : Nat} {marker marker' : Marker}
    (h : Marks ms b marker) (hgrows : marker.Grows marker') : Marks ms b marker' := by
  obtain ⟨m, flags, hm, hk, hevent⟩ := h
  exact ⟨m, flags, hm, hk, by rw [hgrows.traceId, hgrows.clock]; exact hevent⟩

def Carries (ms : List Moment) (c : OpenCall) (n : Node) : Prop :=
  Option.Rel (Marks ms) c.begun n.frame.marker

/-- Each open call, and the slot of the next one, has the trace that the register names. -/
structure Traced (ms : List Moment) (r : Register) (a : Assembler) : Prop where
  calls : List.Forall₂ (Carries ms) r.calls a.openCalls
  waiting : Option.Rel (Marks ms) r.waiting a.awaited.marker

variable {ms : List Moment} {k : Nat} {m : Moment}

theorem relMarks_grows {b : Option Nat} {marker marker' : Option Marker}
    (h : Option.Rel (Marks ms) b marker) (hgrows : Option.Rel Marker.Grows marker marker') :
    Option.Rel (Marks ms) b marker' := by
  cases h with
  | none =>
    cases hgrows
    exact .none
  | some h =>
    cases hgrows with
    | some hgrows => exact .some (h.grows hgrows)

theorem Carries.touched {c : OpenCall} {n n' : Node} (h : Carries ms c n) (hn : n.Touched n') :
    Carries ms c n' := relMarks_grows h hn.marker

theorem allTouched_carries {cs : List OpenCall} {ns ns' : List Node}
    (h : List.Forall₂ (Carries ms) cs ns) (hns : AllTouched ns ns') :
    List.Forall₂ (Carries ms) cs ns' :=
  AllTouched.carry (fun _ _ _ hc hn => hc.touched hn) h hns

theorem Assembler.Touches.awaited_marker {a a' : Assembler} (h : Touches a a') :
    Option.Rel Marker.Grows a.awaited.marker a'.awaited.marker := by
  simp only [awaited, h.top.isBusy]
  split
  · exact .none
  · exact h.top.marker

theorem marks_opened (hm : ms[k]? = some m) (hk : m.kind = .begins) {traceId : SymbolId}
    {clock : Nat} {flags : MarkerFlags} (hevent : m.event = .begin traceId clock flags) :
    Marks ms k (newMarker m.env.thresholds traceId clock flags (nearest? m.before.ancestors)) := by
  obtain ⟨htraceId, hclock⟩ :=
    newMarker_ids m.env.thresholds traceId clock flags (nearest? m.before.ancestors)
  exact ⟨m, flags, hm, hk, by rw [htraceId, hclock, hevent]⟩

theorem Traced.next (hm : ms[k]? = some m) {r : Register} (hsound : m.before.Sound)
    (h : Traced ms r m.before) : Traced ms (r.next m k) m.after := by
  obtain ⟨hcalls, hwaiting⟩ := h
  cases hk : m.kind with
  | enters =>
    obtain ⟨classId, methodId, signatureId, time, -, hentered⟩ := Moment.enters_spec hsound hk
    obtain ⟨flags, harrival⟩ := arrival_eq hsound m.env.thresholds classId methodId signatureId time
    simp only [Register.next, hk]
    refine ⟨?_, by rw [awaited_of_busy hentered.busy]; exact .none⟩
    rw [hentered.openCalls, harrival]
    exact .cons hwaiting hcalls
  | closes =>
    have hcloses := Moment.closes_spec hsound hk
    simp only [Register.next, hk]
    rw [hcloses.before] at hcalls
    obtain ⟨c, cs, -, houter, hcs⟩ := List.forall₂_cons_right_iff.mp hcalls
    have hrest := allTouched_carries houter m.around_touched
    rw [hcs]
    refine ⟨?_, by rw [hcloses.awaited]; exact .none⟩
    rw [hcloses.after]
    generalize m.around = around at hrest
    cases hrest with
    | nil => exact .nil
    | @cons p q ps qs hp hrest =>
      refine .cons ?_ hrest
      rw [Carries, (Register.keep_entered c p k m.fate).2, m.parent_frame]
      exact hp
  | begins =>
    obtain ⟨traceId, clock, flags, hevent, -, hafter⟩ := Moment.begins_spec hk
    have hmarks := marks_opened hm hk hevent
    simp only [Register.next, hk]
    rw [hafter]
    cases ht : m.before.top.isBusy with
    | true =>
      rw [openCalls_of_busy ht] at hcalls
      rw [awaited_of_busy ht] at hwaiting
      refine ⟨?_, by rw [awaited_of_busy (opened_isBusy.trans ht)]; exact hwaiting⟩
      obtain ⟨c, cs, -, houter, hcs⟩ := List.forall₂_cons_right_iff.mp hcalls
      rw [opened_openCalls_of_busy _ _ _ _ ht, hcs]
      exact .cons (.some hmarks) houter
    | false =>
      refine ⟨?_, ?_⟩
      · rw [opened_openCalls_of_vacant _ _ _ _ ht]
        exact hcalls
      · simp only [awaited, opened_isBusy.trans ht]
        exact .some hmarks
  | other =>
    have htouches := (Moment.other_spec hk).touches
    simp only [Register.next, hk]
    exact ⟨allTouched_carries hcalls htouches.openCalls,
      relMarks_grows hwaiting htouches.awaited_marker⟩

variable {capacity : Nat} {os : List Occurrence}

theorem traced_of_trail (hk : k ≤ os.length) :
    Traced ((new capacity).trail os) (register (((new capacity).trail os).take k))
      ((new capacity).after (os.take k)) := by
  refine trail_induction capacity os (P := fun k a => Traced ((new capacity).trail os)
    (register (((new capacity).trail os).take k)) a) ⟨.nil, .none⟩ (fun j m hm hsound h => ?_) hk
  rw [register_succ hm]
  exact h.next hm hsound

theorem traced_of_moment (hm : ((new capacity).trail os)[k]? = some m) :
    Traced ((new capacity).trail os) (register (((new capacity).trail os).take k)) m.before := by
  obtain ⟨hk, hbefore⟩ := before_of_trail hm
  rw [hbefore]
  exact traced_of_trail (Nat.le_of_lt hk)

/-! ### What is held -/

def Register.held (r : Register) : List Nat := r.waiting.toList ++ r.calls.filterMap (·.begun)

theorem markers_eq (a : Assembler) :
    a.markers = a.awaited.marker.toList ++ a.openCalls.filterMap (·.frame.marker) := by
  unfold markers awaited
  cases ht : a.top.isBusy with
  | true =>
    rw [openCalls_of_busy ht]
    rfl
  | false =>
    rw [openCalls_of_vacant ht, slots, List.filterMap_cons]
    cases hm : a.top.frame.marker <;> simp [hm]

theorem Traced.markers {r : Register} {a : Assembler} (h : Traced ms r a) :
    List.Forall₂ (Marks ms) r.held a.markers := by
  rw [markers_eq, Register.held]
  refine List.rel_append (rel_toList h.waiting) (List.rel_filterMap ?_ h.calls)
  exact fun _ _ hcarries => hcarries

def Moment.satisfied (m : Moment) : Bool := m.closing.frame.marker.any fun marker =>
  marker.shouldSubmit m.closing.frame.duration m.closing.frame.calls m.env.thresholds.minTraceCalls

/-- The traces that an event ends: the one that waits above the closing call and its own. -/
def Register.ended (r : Register) (m : Moment) : List (Nat × Ending) :=
  match m.kind, r.calls with
  | .closes, c :: _ =>
    r.waiting.toList.map (·, .abandoned) ++
      c.begun.toList.map (·, if m.satisfied then .submitted else .dropped)
  | _, _ => []

theorem Register.ended_of_open {r : Register} (hk : m.kind ≠ .closes) : r.ended m = [] := by
  unfold Register.ended
  cases hkind : m.kind with
  | closes => exact absurd hkind hk
  | _ => rfl

theorem Traced.free {r : Register} (h : Traced ms r m.before) (hk : m.kind = .begins) :
    r.waiting = none ∧ (m.before.top.isBusy → ∃ c cs, r.calls = c :: cs ∧ c.begun = none) := by
  obtain ⟨-, hroot, -⟩ := begin_of_kind hk
  have hnone : m.before.top.frame.marker = none := by
    simpa [Node.isTraceRoot, Frame.isTraceRoot] using hroot
  have hfree {b : Option Nat} {marker : Option Marker} (hrel : Option.Rel (Marks ms) b marker)
      (hmarker : marker = none) : b = none := by
    subst hmarker
    cases hrel
    rfl
  refine ⟨hfree h.waiting ?_, fun hbusy => ?_⟩
  · simp only [awaited]
    split
    · rfl
    · exact hnone
  · have hcalls := h.calls
    rw [openCalls_of_busy hbusy] at hcalls
    obtain ⟨c, cs, hc, -, hcs⟩ := List.forall₂_cons_right_iff.mp hcalls
    exact ⟨c, cs, hcs, hfree hc hnone⟩

theorem Register.keep_begun (c : OpenCall) (i : Nat) (f : Fate) (cs : List OpenCall) :
    (cs.modifyHead (c.keep i f)).filterMap (·.begun) = cs.filterMap (·.begun) := by
  have hcalls := congrArg (List.filterMap (·.2)) (keep_calls c i f cs)
  rwa [List.filterMap_map, List.filterMap_map] at hcalls

theorem Traced.ended_held {r : Register} (h : Traced ms r m.before) (k : Nat) :
    (r.ended m).map (·.1) ++ (r.next m k).held =
      if m.kind = .begins then k :: r.held else r.held := by
  obtain ⟨calls, waiting⟩ := r
  unfold Register.ended Register.next Register.held
  cases hk : m.kind with
  | enters => cases waiting <;> simp
  | closes =>
    cases calls with
    | nil => simp
    | cons c cs =>
      have hkeep := Register.keep_begun c k m.fate cs
      cases hc : c.begun <;> simp [hkeep, hc, Function.comp_def]
  | begins =>
    -- The trace is opened where there is none, so it takes the place of no other one.
    obtain ⟨hwaiting, hcalls⟩ := h.free hk
    cases hbusy : m.before.top.isBusy with
    | true =>
      obtain ⟨c, cs, hcs, hc⟩ := hcalls hbusy
      dsimp only at hcs hwaiting
      simp [hcs, hwaiting, hc]
    | false =>
      dsimp only at hwaiting
      simp [hwaiting]
  | other => simp

/-! ### The ledger

Traces are named by the events that opened them: those held before event `k`, those that an event
ends, those that ended before event `k`, and all that were opened before it.
-/

def held (ms : List Moment) (k : Nat) : List Nat := (register (ms.take k)).held

def endedAt (ms : List Moment) (i : Nat) : List (Nat × Ending) :=
  match ms[i]? with
  | some m => (register (ms.take i)).ended m
  | none => []

def ledger (ms : List Moment) (k : Nat) : List (Nat × Ending) :=
  (List.range k).flatMap (endedAt ms)

def begins (ms : List Moment) (k : Nat) : List Nat :=
  (List.range k).filter fun i => ms[i]?.any (·.kind = .begins)

theorem ledger_succ (hm : ms[k]? = some m) :
    ledger ms (k + 1) = ledger ms k ++ (register (ms.take k)).ended m := by
  simp [ledger, List.range_succ, List.flatMap_append, endedAt, hm]

theorem begins_succ (hm : ms[k]? = some m) :
    begins ms (k + 1) = begins ms k ++ if m.kind = .begins then [k] else [] := by
  simp only [begins, List.range_succ, List.filter_append, List.filter_singleton, hm,
    Option.any_some]
  cases m.kind <;> rfl

theorem begins_nodup (ms : List Moment) (k : Nat) : (begins ms k).Nodup :=
  List.nodup_range.filter _

theorem mem_begins {b : Nat} :
    b ∈ begins ms k ↔ b < k ∧ ∃ m, ms[b]? = some m ∧ m.kind = .begins := by
  simp [begins, Option.any_eq_true]

theorem held_succ (hm : ((new capacity).trail os)[k]? = some m) :
    ((register (((new capacity).trail os).take k)).ended m).map (·.1) ++
        held ((new capacity).trail os) (k + 1) =
      if m.kind = .begins then k :: held ((new capacity).trail os) k
      else held ((new capacity).trail os) k := by
  rw [held, register_succ hm]
  exact (traced_of_moment hm).ended_held k

theorem held_suffix (hm : ((new capacity).trail os)[k]? = some m) :
    held ((new capacity).trail os) (k + 1) <:+ k :: held ((new capacity).trail os) k := by
  have hsucc := held_succ hm
  split at hsucc
  · exact ⟨_, hsucc⟩
  · exact .trans ⟨_, hsucc⟩ (List.suffix_cons _ _)

theorem held_sorted (hk : k ≤ os.length) :
    (held ((new capacity).trail os) k).Pairwise (· > ·) ∧
      ∀ b ∈ held ((new capacity).trail os) k, b < k := by
  induction k with
  | zero => exact ⟨.nil, by simp [held, register, Register.held]⟩
  | succ k ih =>
    obtain ⟨hsorted, hlt⟩ := ih (Nat.le_of_succ_le hk)
    have hsuffix := held_suffix (moment_of_trail (new capacity) hk)
    refine ⟨(List.pairwise_cons.mpr ⟨hlt, hsorted⟩).sublist hsuffix.sublist, fun b hb => ?_⟩
    rcases List.mem_cons.mp (hsuffix.subset hb) with rfl | hb
    · exact Nat.lt_succ_self b
    · exact Nat.lt_succ_of_lt (hlt b hb)

theorem perm_carried {α : Type} {before after ended old : List α} (h : ended ++ after = before) :
    (after ++ (old ++ ended)).Perm (before ++ old) := by
  subst h
  calc (after ++ (old ++ ended)).Perm ((old ++ ended) ++ after) := List.perm_append_comm
    _ = old ++ (ended ++ after) := List.append_assoc ..
    List.Perm _ ((ended ++ after) ++ old) := List.perm_append_comm

/-- Every trace that was opened is held or has ended, and only once. -/
theorem balance_of_trail (capacity : Nat) (hk : k ≤ os.length) :
    (held ((new capacity).trail os) k ++ (ledger ((new capacity).trail os) k).map (·.1)).Perm
      (begins ((new capacity).trail os) k) := by
  induction k with
  | zero => exact .refl _
  | succ k ih =>
    have hm := moment_of_trail (new capacity) hk
    specialize ih (Nat.le_of_succ_le hk)
    rw [begins_succ hm, ledger_succ hm, List.map_append]
    refine (perm_carried (held_succ hm)).trans ?_
    split
    · exact (List.Perm.cons k ih).trans (List.perm_append_singleton k _).symm
    · rw [List.append_nil]
      exact ih

/-! ### The ways of ending -/

def Moment.drops (m : Moment) : Bool :=
  match m.outcome.verdict with
  | .dropped => true
  | _ => false

def Moment.abandons (m : Moment) : Bool := m.kind = .closes && m.before.awaited.isTraceRoot

theorem settle_verdict {env : Surroundings} {n : Node} {outer : List Node} :
    (settle env n outer).verdict = match n.frame.marker with
      | none => .none
      | some marker =>
        if marker.shouldSubmit n.frame.duration n.frame.calls env.thresholds.minTraceCalls then
          .submitted (settle env n outer).node
        else .dropped := by
  unfold settle
  cases n.frame.marker with
  | none => rfl
  | some marker => dsimp only; split <;> rfl

theorem Moment.Closes.verdict_eq (h : m.Closes) : m.outcome.verdict =
    if m.closing.isTraceRoot then if m.satisfied then .submitted m.settled.node else .dropped
    else .none := by
  rw [h.verdict, Moment.settled, settle_verdict, Moment.satisfied, Node.isTraceRoot,
    Frame.isTraceRoot]
  cases m.closing.frame.marker with
  | none => rfl
  | some marker => simp

theorem countP_toList (b : Option Nat) (way way' : Ending) :
    (b.toList.map (·, way)).countP (·.2 = way') = if b.isSome && way = way' then 1 else 0 := by
  cases b <;> by_cases h : way = way' <;> simp [h]

theorem count_ended (hm : ((new capacity).trail os)[k]? = some m) :
    (endedAt ((new capacity).trail os) k).countP (·.2 = .submitted) = m.tree?.isSome.toNat ∧
    (endedAt ((new capacity).trail os) k).countP (·.2 = .dropped) = m.drops.toNat ∧
    (endedAt ((new capacity).trail os) k).countP (·.2 = .abandoned) = m.abandons.toNat := by
  have hsound := sound_of_trail hm
  have htraced := traced_of_moment hm
  simp only [endedAt, hm]
  by_cases hk : m.kind = .closes
  · -- At most one trace ends with the call and one waits above it, so no count is over one.
    have hcloses := Moment.closes_spec hsound hk
    have hwaiting : m.before.awaited.isTraceRoot = _ := rel_isSome htraced.waiting
    have hcalls := htraced.calls
    rw [hcloses.before] at hcalls
    obtain ⟨c, cs, hc, -, hcs⟩ := List.forall₂_cons_right_iff.mp hcalls
    have hroot : m.closing.isTraceRoot = c.begun.isSome :=
      (closing_isTraceRoot m).trans (rel_isSome hc)
    simp only [Register.ended, hcs, List.countP_append, countP_toList, Moment.tree?,
      Moment.drops, Moment.abandons, hcloses.verdict_eq, hroot, hwaiting, hk]
    cases c.begun.isSome <;> cases m.satisfied <;>
      cases (register (((new capacity).trail os).take k)).waiting.isSome <;> simp
  · rw [Register.ended_of_open hk]
    simp [Moment.tree?, Moment.drops, Moment.abandons, Moment.verdict_of_open hsound hk, hk]

theorem count_ledger {way : Ending} {f : Moment → Bool}
    (h : ∀ k m, ms[k]? = some m → (endedAt ms k).countP (·.2 = way) = (f m).toNat) (k : Nat) :
    (ledger ms k).countP (·.2 = way) = (ms.take k).countP f := by
  induction k with
  | zero => rfl
  | succ k ih =>
    rw [ledger, List.range_succ, List.flatMap_append, List.countP_append, ← ledger, ih,
      List.flatMap_singleton, List.take_add_one]
    cases hm : ms[k]? with
    | none => simp [endedAt, hm]
    | some m =>
      rw [h k m hm, Option.toList_some, List.countP_append, List.countP_singleton]
      cases f m <;> rfl

theorem length_ledger (l : List (Nat × Ending)) : l.length =
    l.countP (·.2 = .submitted) + l.countP (·.2 = .dropped) + l.countP (·.2 = .abandoned) := by
  induction l with
  | nil => rfl
  | cons e l ih =>
    obtain ⟨b, way⟩ := e
    rw [List.length_cons, ih]
    cases way <;> simp <;> omega

theorem length_begins (ms : List Moment) (k : Nat) :
    (begins ms k).length = (ms.take k).countP (·.kind = .begins) := by
  induction k with
  | zero => rfl
  | succ k ih =>
    rw [List.take_add_one]
    cases hm : ms[k]? with
    | none => simp [begins, List.range_succ, List.filter_append, hm, ← ih]
    | some m =>
      rw [begins_succ hm, List.length_append, ih, Option.toList_some, List.countP_append,
        List.countP_singleton]
      cases m.kind <;> rfl

theorem count_begins (hk : k ≤ os.length) :
    (((new capacity).trail os).take k).countP (·.kind = .begins) =
      (((new capacity).trail os).take k).countP (·.tree?.isSome) +
      (((new capacity).trail os).take k).countP Moment.drops +
      (((new capacity).trail os).take k).countP Moment.abandons +
      (held ((new capacity).trail os) k).length := by
  have hbalance := (balance_of_trail capacity hk).length_eq
  rw [List.length_append, List.length_map, length_ledger, length_begins,
    count_ledger (fun _ _ hm => (count_ended hm).1),
    count_ledger (fun _ _ hm => (count_ended hm).2.1),
    count_ledger (fun _ _ hm => (count_ended hm).2.2)] at hbalance
  omega

/-- A trace that waits was opened on a slot without a call, when the same calls were open. -/
theorem waiting_spec (ms : List Moment) (k : Nat) : ∀ b ∈ (register (ms.take k)).waiting,
    ∃ m, ms[b]? = some m ∧ m.kind = .begins ∧ m.before.top.isBusy = false ∧
      stack (ms.take b) = stack (ms.take k) := by
  induction k with
  | zero => simp [register]
  | succ k ih =>
    intro b hb
    cases hm : ms[k]? with
    | none =>
      rw [take_succ_of_none hm] at hb ⊢
      exact ih b hb
    | some m =>
      rw [register_succ hm] at hb
      rw [stack_succ hm]
      unfold Register.next at hb
      cases hk : m.kind with
      | enters => simp [hk] at hb
      | closes =>
        simp only [hk] at hb ⊢
        cases hcs : (register (ms.take k)).calls with
        | nil =>
          rw [hcs] at hb
          have hstack : stack (ms.take k) = [] := by rw [stack, hcs, List.map_nil]
          have h := ih b hb
          rwa [hstack] at h ⊢
        | cons c cs => simp [hcs] at hb
      | begins =>
        simp only [hk] at hb ⊢
        cases hbusy : m.before.top.isBusy with
        | true =>
          simp only [hbusy, if_true] at hb
          exact ih b hb
        | false =>
          simp only [hbusy, Bool.false_eq_true, if_false, Option.mem_some_iff] at hb
          subst hb
          exact ⟨m, hm, hk, hbusy, rfl⟩
      | other =>
        simp only [hk] at hb ⊢
        exact ih b hb

/-- Event `b` opened a trace for the call that event `i` entered: this was the innermost open call,
or the next one to be entered. -/
inductive BegunFor (ms : List Moment) (b i : Nat) : Prop
  | innermost {m : Moment} (hm : ms[b]? = some m) (hbusy : m.before.top.isBusy)
    (hhead : (stack (ms.take b)).head? = some i)
  | next {m : Moment} (hm : ms[b]? = some m) (hvacant : m.before.top.isBusy = false) (hlt : b < i)
    (hstack : stack (ms.take b) = stack (ms.take i)) (hquiet : Register.Quiet ms b i)

theorem begunFor_of_open (capacity : Nat) (os : List Occurrence) (hk : k ≤ os.length) :
    ∀ c ∈ (register (((new capacity).trail os).take k)).calls, ∀ b ∈ c.begun,
      BegunFor ((new capacity).trail os) b c.entered := by
  induction k with
  | zero => simp [register]
  | succ k ih =>
    specialize ih (Nat.le_of_succ_le hk)
    have hm := moment_of_trail (new capacity) hk
    generalize (⟨os[k], (new capacity).after (os.take k)⟩ : Moment) = m at hm
    -- A trace that waits goes over to the next call, and that is when its event is placed.
    have horderly := Register.orderly_of_trail capacity os (Nat.le_of_succ_le hk)
    have hwaiting := waiting_spec ((new capacity).trail os) k
    have hstack : stack (((new capacity).trail os).take k) =
      (register (((new capacity).trail os).take k)).calls.map (·.entered) := rfl
    rw [register_succ hm]
    generalize (new capacity).trail os = ms at *
    generalize register (ms.take k) = r at *
    unfold Register.next
    cases hk : m.kind with
    | enters =>
      intro c hc b hb
      rcases List.mem_cons.mp hc with rfl | hc
      · obtain ⟨m₀, hm₀, -, hvacant, hsame⟩ := hwaiting b hb
        exact .next hm₀ hvacant (horderly.2 b hb).1 hsame (horderly.2 b hb).2
      · exact ih c hc b hb
    | closes =>
      cases hcs : r.calls with
      | nil => simp [hcs]
      | cons c cs =>
        rw [hcs] at ih
        cases cs with
        | nil => simp
        | cons p ps =>
          intro c' hc' b hb
          rw [List.modifyHead_cons] at hc'
          rcases List.mem_cons.mp hc' with rfl | hc'
          · rw [(Register.keep_entered c p k m.fate).2] at hb
            rw [(Register.keep_entered c p k m.fate).1]
            exact ih p (by simp) b hb
          · exact ih c' (by simp [hc']) b hb
    | begins =>
      cases hbusy : m.before.top.isBusy with
      | false => simpa using ih
      | true =>
        cases hcs : r.calls with
        | nil => simp
        | cons c cs =>
          rw [hcs] at ih hstack
          intro c' hc' b hb
          simp only [if_true, List.modifyHead_cons] at hc'
          rcases List.mem_cons.mp hc' with rfl | hc'
          · obtain rfl := Option.some.inj hb
            exact .innermost hm hbusy (by rw [hstack]; rfl)
          · exact ih c' (List.mem_cons_of_mem _ hc') b hb
    | other => exact ih

/-- Event `k` ends the trace that event `b` opened. The marker is the one that the trace has
then. -/
inductive Ends (ms : List Moment) (b k : Nat) : Ending → Prop
  | submitted {m : Moment} {marker : Marker} {tree : Node} {i : Nat} (hm : ms[k]? = some m)
    (hcall : Span.IsCall ms ⟨i, k⟩) (hbegun : BegunFor ms b i)
    (hmarker : m.closing.frame.marker = some marker) (hmarks : Marks ms b marker)
    (hsatisfied : marker.shouldSubmit m.closing.frame.duration m.closing.frame.calls
      m.env.thresholds.minTraceCalls)
    (htree : m.outcome.verdict = .submitted tree) : Ends ms b k .submitted
  | dropped {m : Moment} {marker : Marker} {i : Nat} (hm : ms[k]? = some m)
    (hcall : Span.IsCall ms ⟨i, k⟩) (hbegun : BegunFor ms b i)
    (hmarker : m.closing.frame.marker = some marker) (hmarks : Marks ms b marker)
    (hunsatisfied : marker.shouldSubmit m.closing.frame.duration m.closing.frame.calls
      m.env.thresholds.minTraceCalls = false)
    (hverdict : m.outcome.verdict = .dropped) : Ends ms b k .dropped
  | abandoned {m m₀ : Moment} {marker : Marker} (hm : ms[k]? = some m) (hk : m.kind = .closes)
    (hmarker : m.before.awaited.marker = some marker) (hmarks : Marks ms b marker)
    (hm₀ : ms[b]? = some m₀) (hplace : m₀.before.isPlaceholder)
    (hstack : stack (ms.take b) = stack (ms.take k)) (hquiet : Register.Quiet ms b k) :
    Ends ms b k .abandoned

theorem mem_endedAt {b : Nat} {way : Ending} (h : (b, way) ∈ endedAt ms k) :
    ∃ m c cs, ms[k]? = some m ∧ m.kind = .closes ∧ (register (ms.take k)).calls = c :: cs ∧
      ((register (ms.take k)).waiting = some b ∧ way = .abandoned ∨
        c.begun = some b ∧ way = if m.satisfied then .submitted else .dropped) := by
  cases hm : ms[k]? with
  | none => simp [endedAt, hm] at h
  | some m =>
    simp only [endedAt, hm] at h
    by_cases hk : m.kind = .closes
    · cases hcs : (register (ms.take k)).calls with
      | nil => simp [Register.ended, hk, hcs] at h
      | cons c cs =>
        simp only [Register.ended, hk, hcs, List.mem_append, List.mem_map, Option.mem_toList,
          Prod.mk.injEq] at h
        rcases h with ⟨b', hb, rfl, rfl⟩ | ⟨b', hb, rfl, rfl⟩
        · exact ⟨m, c, cs, rfl, hk, rfl, .inl ⟨hb, rfl⟩⟩
        · exact ⟨m, c, cs, rfl, hk, rfl, .inr ⟨hb, rfl⟩⟩
    · rw [Register.ended_of_open hk] at h
      cases h

theorem placeholder_of_waiting
    (hopen : (register (((new capacity).trail os).take k)).calls ≠ []) {b : Nat}
    (hb : (register (((new capacity).trail os).take k)).waiting = some b) :
    ∃ m₀, ((new capacity).trail os)[b]? = some m₀ ∧ m₀.before.isPlaceholder ∧
      stack (((new capacity).trail os).take b) = stack (((new capacity).trail os).take k) := by
  obtain ⟨m₀, hm₀, hk, hvacant, hstack⟩ := waiting_spec _ k b hb
  have hlength := congrArg List.length hstack
  simp only [stack, List.length_map] at hlength
  obtain ⟨-, hroot, -⟩ := begin_of_kind hk
  have hcalls := (agrees_of_moment hm₀).calls.length_eq
  rw [openCalls_of_vacant hvacant, hlength] at hcalls
  -- As many calls were open at the begin as now, and one is.
  have hancestors : m₀.before.ancestors ≠ [] := by
    intro hnil
    rw [hnil, List.length_nil, List.length_eq_zero_iff] at hcalls
    exact hopen hcalls
  exact ⟨m₀, hm₀, by simp [isPlaceholder, hvacant, hroot, hancestors], hstack⟩

theorem marks_of_rel {b : Nat} {b' : Option Nat} {marker : Option Marker}
    (h : Option.Rel (Marks ms) b' marker) (hb : b' = some b) :
    ∃ marker', marker = some marker' ∧ Marks ms b marker' := by
  subst hb
  cases h with
  | some hmarks => exact ⟨_, rfl, hmarks⟩

theorem ends_of_waiting (hm : ((new capacity).trail os)[k]? = some m) (hk : m.kind = .closes)
    (hopen : (register (((new capacity).trail os).take k)).calls ≠ []) {b : Nat}
    (hb : (register (((new capacity).trail os).take k)).waiting = some b) :
    Ends ((new capacity).trail os) b k .abandoned := by
  obtain ⟨marker, hmarker, hmarks⟩ := marks_of_rel (traced_of_moment hm).waiting hb
  obtain ⟨m₀, hm₀, hplace, hstack⟩ := placeholder_of_waiting hopen hb
  have horderly := Register.orderly_of_trail capacity os (Nat.le_of_lt (before_of_trail hm).1)
  exact .abandoned hm hk hmarker hmarks hm₀ hplace hstack (horderly.2 b hb).2

theorem ends_of_begun (hm : ((new capacity).trail os)[k]? = some m) (hk : m.kind = .closes)
    {c : OpenCall} {cs : List OpenCall}
    (hcs : (register (((new capacity).trail os).take k)).calls = c :: cs) {b : Nat}
    (hb : c.begun = some b) : Ends ((new capacity).trail os) b k
      (if m.satisfied then .submitted else .dropped) := by
  have hcloses := Moment.closes_spec (sound_of_trail hm) hk
  have hcalls := (traced_of_moment hm).calls
  rw [hcloses.before, hcs] at hcalls
  obtain ⟨marker, hmarker, hmarks⟩ := marks_of_rel (List.forall₂_cons.mp hcalls).1 hb
  rw [← closing_marker] at hmarker
  have hcall : Span.IsCall ((new capacity).trail os) ⟨c.entered, k⟩ :=
    ⟨m, hm, hk, by rw [stack, hcs]; rfl⟩
  have hbegun := begunFor_of_open capacity os (Nat.le_of_lt (before_of_trail hm).1) c
    (by simp [hcs]) b hb
  have hroot : m.closing.isTraceRoot := by simp [Node.isTraceRoot, Frame.isTraceRoot, hmarker]
  have hverdict := hcloses.verdict_eq
  rw [if_pos hroot] at hverdict
  have hsame : m.satisfied = marker.shouldSubmit m.closing.frame.duration
      m.closing.frame.calls m.env.thresholds.minTraceCalls := by
    simp [Moment.satisfied, hmarker]
  cases hs : m.satisfied with
  | true =>
    rw [hs, if_pos rfl] at hverdict
    exact .submitted hm hcall hbegun hmarker hmarks (hsame.symm.trans hs) hverdict
  | false =>
    rw [hs, if_neg (by simp)] at hverdict
    exact .dropped hm hcall hbegun hmarker hmarks (hsame.symm.trans hs) hverdict

theorem ends_of_mem {b : Nat} {way : Ending} (h : (b, way) ∈ endedAt ((new capacity).trail os) k) :
    Ends ((new capacity).trail os) b k way := by
  obtain ⟨m, c, cs, hm, hk, hcs, ⟨hb, rfl⟩ | ⟨hb, rfl⟩⟩ := mem_endedAt h
  · exact ends_of_waiting hm hk (by simp [hcs]) hb
  · exact ends_of_begun hm hk hcs hb

/-! ### Asking for traces and changing them -/

def OpensAs (ms : List Moment) (traceId : SymbolId) (b : Nat) : Prop :=
  ∃ m clock flags, ms[b]? = some m ∧ m.event = .begin traceId clock flags

theorem any_traceId {bs : List Nat} {markers : List Marker}
    (h : List.Forall₂ (Marks ms) bs markers) (traceId : SymbolId) :
    markers.any (·.traceId == traceId) ↔ ∃ b ∈ bs, OpensAs ms traceId b := by
  induction h with
  | nil => simp
  | @cons b marker bs markers hmarks _ ih =>
    obtain ⟨m, flags, hm, -, hevent⟩ := hmarks
    have hhead : marker.traceId = traceId ↔ OpensAs ms traceId b := by
      constructor
      · rintro rfl
        exact ⟨m, marker.clock, flags, hm, hevent⟩
      · rintro ⟨m', clock, flags', hm', hevent'⟩
        obtain rfl : m = m' := Option.some.inj (hm.symm.trans hm')
        rw [hevent, Event.begin.injEq] at hevent'
        exact hevent'.1
    simp only [List.any_cons, Bool.or_eq_true, beq_iff_eq, ih, List.exists_mem_cons_iff, hhead]

theorem nearest_eq_head (a : Assembler) : nearest? a.slots = a.markers.head? := by
  rw [markers, List.head?_filterMap]
  rfl

theorem updateMarker_markers (p : Marker → Bool) (g : Marker → Marker) (ns : List Node) :
    ((updateMarker p g ns).getD ns).filterMap (·.frame.marker) =
      (ns.filterMap (·.frame.marker)).modify ((ns.filterMap (·.frame.marker)).findIdx p) g := by
  induction ns with
  | nil => rfl
  | cons n ns ih =>
    rw [updateMarker, updateFirst_cons]
    rw [updateMarker] at ih
    cases hmarker : n.frame.marker with
    | none =>
      rw [if_neg (by simp)]
      simpa [List.filterMap_cons, hmarker] using ih
    | some marker =>
      cases hp : p marker with
      | true => simp [hp, Node.mapFrame, hmarker, List.findIdx_cons]
      | false => simp [hp, hmarker, ih, List.findIdx_cons]

theorem mapMarker_markers (p : Marker → Bool) (g : Marker → Marker) (a : Assembler) :
    (a.mapMarker p g).markers = a.markers.modify (a.markers.findIdx p) g := by
  have hslots : (a.mapMarker p g).slots = (updateMarker p g a.slots).getD a.slots := by
    unfold mapMarker
    cases h : updateMarker p g a.slots with
    | none => rfl
    | some ns =>
      cases ns with
      | nil =>
        cases updateFirst_forall₂ (Q := fun _ _ => True) (fun _ => trivial) (fun _ => trivial) h
      | cons => rfl
  rw [markers, hslots, updateMarker_markers]
  rfl

theorem mapMarker_markers_latest (g : Marker → Marker) (a : Assembler) :
    (a.mapMarker (fun _ => true) g).markers = a.markers.modifyHead g := by
  rw [mapMarker_markers]
  cases a.markers with
  | nil => rfl
  | cons marker markers => simp [List.findIdx_cons]

/-! ### Accounts -/

/-- The traces opened before event `k`: the state holds those that have not ended, the latest first,
and is asked about these. The others have ended once each. -/
structure Accounted (ms : List Moment) (k : Nat) (a : Assembler) : Prop where
  markers : List.Forall₂ (Marks ms) (held ms k) a.markers
  latest : (held ms k).Pairwise (· > ·)
  held_iff : ∀ b, b ∈ held ms k ↔ b ∈ begins ms k ∧ ∀ i < k, ∀ way, (b, way) ∉ endedAt ms i
  once : ((ledger ms k).map (·.1)).Nodup
  ends : ∀ i < k, ∀ b way, (b, way) ∈ endedAt ms i → b ∈ held ms i ∧ Ends ms b i way
  count : (ms.take k).countP (·.kind = .begins) =
    (ms.take k).countP (·.tree?.isSome) + (ms.take k).countP Moment.drops +
      (ms.take k).countP Moment.abandons + (held ms k).length
  inTrace : ∀ traceId, a.isInTrace traceId ↔ a.enabled ∧ ∃ b ∈ held ms k, OpensAs ms traceId b
  inAnyTrace : a.inAnyTrace ↔ a.enabled ∧ held ms k ≠ []

theorem mem_ledger {b : Nat} :
    b ∈ (ledger ms k).map (·.1) ↔ ∃ i < k, ∃ way, (b, way) ∈ endedAt ms i := by
  simp only [ledger, List.mem_map, List.mem_flatMap, List.mem_range]
  constructor
  · rintro ⟨⟨b', way⟩, ⟨i, hi, hmem⟩, rfl⟩
    exact ⟨i, hi, way, hmem⟩
  · rintro ⟨i, hi, way, hmem⟩
    exact ⟨(b, way), ⟨i, hi, hmem⟩, rfl⟩

theorem held_of_ended {b : Nat} {way : Ending}
    (h : (b, way) ∈ endedAt ((new capacity).trail os) k) :
    b ∈ held ((new capacity).trail os) k := by
  obtain ⟨m, c, cs, -, -, hcs, ⟨hb, -⟩ | ⟨hb, -⟩⟩ := mem_endedAt h
  · simp [held, Register.held, hb]
  · simp [held, Register.held, hcs, hb]

theorem accounted_of_trail (capacity : Nat) (os : List Occurrence) (hk : k ≤ os.length) :
    Accounted ((new capacity).trail os) k ((new capacity).after (os.take k)) := by
  have hmarkers : List.Forall₂ (Marks ((new capacity).trail os)) (held ((new capacity).trail os) k)
      ((new capacity).after (os.take k)).markers := (traced_of_trail hk).markers
  have hbalance := balance_of_trail capacity hk
  obtain ⟨-, honce, hdisjoint⟩ := List.nodup_append.mp (hbalance.nodup_iff.mpr (begins_nodup _ k))
  refine ⟨hmarkers, (held_sorted hk).1, fun b => ?_, honce,
    fun i _ b way h => ⟨held_of_ended h, ends_of_mem h⟩, count_begins hk, fun traceId => ?_, ?_⟩
  · rw [← hbalance.mem_iff, List.mem_append]
    constructor
    · intro hb
      exact ⟨.inl hb, fun i hi way hended =>
        hdisjoint b hb b (mem_ledger.mpr ⟨i, hi, way, hended⟩) rfl⟩
    · rintro ⟨hb | hb, hopen⟩
      · exact hb
      · obtain ⟨i, hi, way, hended⟩ := mem_ledger.mp hb
        exact absurd hended (hopen i hi way)
  · rw [isInTrace, Bool.and_eq_true, any_traceId hmarkers]
  · rw [inAnyTrace, Bool.and_eq_true, nearest_eq_head, List.isSome_head?,
      ← List.length_pos_iff, ← List.length_pos_iff, hmarkers.length_eq]

/-- What an event says of the traces that it ends, and what it does to those that it concerns. -/
structure Moment.Accounts (m : Moment) (ms : List Moment) (k : Nat) : Prop where
  submitted : m.tree?.isSome ↔ ∃ b, (b, .submitted) ∈ endedAt ms k
  dropped : m.drops ↔ ∃ b, (b, .dropped) ∈ endedAt ms k
  abandoned : m.abandons ↔ ∃ b, (b, .abandoned) ∈ endedAt ms k
  minimumTime : m.before.enabled → ∀ nanos, m.event = .minimumTime nanos →
    m.after.markers = m.before.markers.modifyHead ({ · with minimumTime := nanos })
  correlate : m.before.enabled → ∀ context, m.event = .correlate context →
    m.after.markers = m.before.markers.modifyHead ({ · with context := some context })
  markTrace : m.before.enabled → ∀ traceId flags, m.event = .markTrace traceId flags →
    m.after.markers = m.before.markers.modify
      (m.before.markers.findIdx fun marker => traceId.all (marker.traceId == ·)) (·.mark flags)

theorem exists_of_count {l : List (Nat × Ending)} {way : Ending} {p : Bool}
    (h : l.countP (·.2 = way) = p.toNat) : p ↔ ∃ b, (b, way) ∈ l := by
  have hpos : 0 < l.countP (·.2 = way) ↔ ∃ b, (b, way) ∈ l := by
    rw [List.countP_pos_iff]
    constructor
    · rintro ⟨⟨b, way'⟩, hmem, hway⟩
      simp only [decide_eq_true_eq] at hway
      exact ⟨b, hway ▸ hmem⟩
    · rintro ⟨b, hmem⟩
      exact ⟨(b, way), hmem, by simp⟩
  rw [← hpos, h]
  cases p <;> simp

theorem accounts_of_trail (hm : ((new capacity).trail os)[k]? = some m) :
    m.Accounts ((new capacity).trail os) k := by
  obtain ⟨hsubmitted, hdropped, habandoned⟩ := count_ended hm
  refine ⟨exists_of_count hsubmitted, exists_of_count hdropped, exists_of_count habandoned,
    fun hon nanos hevent => ?_, fun hon context hevent => ?_, fun hon traceId flags hevent => ?_⟩
  · have hafter : m.after =
        m.before.mapMarker (fun _ => true) ({ · with minimumTime := nanos }) := by
      simp [Moment.after, step, hon, hevent, handle]
    rw [hafter, mapMarker_markers_latest]
  · have hafter : m.after =
        m.before.mapMarker (fun _ => true) ({ · with context := some context }) := by
      simp [Moment.after, step, hon, hevent, handle]
    rw [hafter, mapMarker_markers_latest]
  · have hafter : m.after =
        m.before.mapMarker (fun marker => traceId.all (marker.traceId == ·)) (·.mark flags) := by
      simp [Moment.after, step, hon, hevent, handle]
    rw [hafter, mapMarker_markers]

theorem tree?_of_no_begin (hos : ∀ o ∈ os, ∀ traceId clock flags,
    o.event ≠ .begin traceId clock flags) : ∀ m ∈ (new capacity).trail os, m.tree? = none := by
  intro m hmem
  obtain ⟨k, hm⟩ := List.mem_iff_getElem?.mp hmem
  by_contra hsome
  obtain ⟨b, hb⟩ := (accounts_of_trail hm).submitted.mp (Option.isSome_iff_ne_none.mpr hsome)
  have haccounted := accounted_of_trail capacity os (Nat.le_of_lt (before_of_trail hm).1)
  have hbegins := (haccounted.held_iff b).mp (held_of_ended hb)
  obtain ⟨-, m₀, hm₀, hk⟩ := mem_begins.mp hbegins.1
  obtain ⟨-, -, traceId, clock, flags, hevent⟩ := begin_of_kind hk
  exact hos _ (List.mem_of_getElem? (occurrence_of_trail hm₀)) traceId clock flags hevent

end CallTree
