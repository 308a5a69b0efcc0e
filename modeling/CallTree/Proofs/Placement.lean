import CallTree.Proofs.Depiction

/-!
Where a trace is opened. Which calls are kept has no part in which calls are open, but above a call
that was discarded a trace is opened on no open call: it waits for the next one to be entered. As
long as this has not happened, two runs of the same events take the same traces.
-/
namespace CallTree
open Assembler

def Event.switch : Event → Bool → Bool
  | .disable, _ => false
  | .enable, _ => true
  | _, on => on

theorem updateFrame_enabled {a a' : Assembler} {p : Frame → Bool} {g : Frame → Frame}
    (h : a.updateFrame p g = some a') : a'.enabled = a.enabled := by
  unfold updateFrame at h
  dsimp only at h
  split at h
  · obtain ⟨ns, -, rfl⟩ := Option.map_eq_some_iff.mp h
    rfl
  · obtain ⟨ns, -, rfl⟩ := Option.map_eq_some_iff.mp h
    cases ns <;> rfl

theorem mapMarker_enabled (p : Marker → Bool) (g : Marker → Marker) (a : Assembler) :
    (a.mapMarker p g).enabled = a.enabled := by
  unfold mapMarker
  cases updateMarker p g a.slots with
  | none => rfl
  | some ns => cases ns <;> rfl

theorem step_enabled {a : Assembler} (h : a.Sound) (env : Surroundings) (e : Event) :
    (a.step env e).1.enabled = e.switch a.enabled := by
  cases hon : a.enabled with
  | false => cases e <;> simp [step, hon, Event.switch]
  | true =>
    have hclose (time : Nat) (error : Option ErrorChain) :
        ∀ a' outcome, a.close env time error = .ok (a', outcome) → a'.enabled = true := by
      intro a' outcome hok
      cases hopen : a.openCalls with
      | nil => simp [close_of_no_calls env time error hopen] at hok
      | cons n outer =>
        obtain ⟨a'', outcome', hclose, hclosed, -⟩ := close_closed env time error h hopen
        rw [hclose, Except.ok.injEq, Prod.mk.injEq] at hok
        rw [← hok.1, hclosed.enabled, hon]
    cases e with
    | enter classId methodId signatureId time =>
      have hentered := enter_entered h env.thresholds classId methodId signatureId time
      simp [step, hon, handle, hentered.enabled, Event.switch]
    | exit time =>
      simp only [step, hon, handle, Event.switch, if_true]
      split
      case h_1 hok => exact hclose time none _ _ hok
      case h_2 => exact hon
    | fail error time =>
      simp only [step, hon, handle, Event.switch, if_true]
      split
      case h_1 hok => exact hclose time (some error) _ _ hok
      case h_2 => exact hon
    | begin traceId clock flags =>
      cases hroot : a.top.isTraceRoot with
      | false =>
        simp [step, hon, handle, openTrace_ok _ _ _ _ hroot, opened, Event.switch]
      | true =>
        obtain ⟨why, herror⟩ := openTrace_error env.thresholds traceId clock flags hroot
        simp [step, hon, handle, herror, Event.switch]
    | attr target id value =>
      simp only [step, hon, handle, Event.switch, if_true]
      split
      case h_1 hframe => exact (updateFrame_enabled hframe).trans hon
      case h_2 => exact hon
    | markFrame flags =>
      simp only [step, hon, handle, Event.switch, if_true]
      cases hframe : a.updateFrame (fun _ => true) (·.mark flags) with
      | none => exact hon
      | some a' => exact (updateFrame_enabled hframe).trans hon
    | minimumTime | markTrace | correlate =>
      simp [step, hon, handle, mapMarker_enabled, Event.switch]
    | disable | enable => simp [step, hon, handle, Event.switch]

/-! ### Which calls are open -/

theorem moves_iff (m m' : Moment) (hevent : m.event = m'.event)
    (henabled : m.before.enabled = m'.before.enabled) (hdepth : m.before.depth = m'.before.depth) :
    (m.kind = .enters ↔ m'.kind = .enters) ∧ (m.kind = .closes ↔ m'.kind = .closes) := by
  simp only [Moment.kind, Assembler.kind, hevent, henabled, hdepth]
  cases m'.event <;> grind

theorem stack_succ_iff {ms : List Moment} {k : Nat} {m : Moment} (hm : ms[k]? = some m) :
    stack (ms.take (k + 1)) = if m.kind = .enters then k :: stack (ms.take k)
      else if m.kind = .closes then (stack (ms.take k)).tail else stack (ms.take k) := by
  rw [stack_succ hm]
  cases m.kind <;> rfl

variable {capacity capacity' : Nat} {os os' : List Occurrence}

theorem length_calls (capacity : Nat) {k : Nat} (hk : k ≤ os.length) :
    (register (((new capacity).trail os).take k)).calls.length =
      ((new capacity).after (os.take k)).depth := by
  rw [(agrees_of_trail capacity os (justifies_true _) hk).calls.length_eq, length_openCalls]

def Register.outline (r : Register) : List (Nat × Option Nat) × Option Nat :=
  (r.calls.map fun c => (c.entered, c.begun), r.waiting)

theorem Register.outline_next {r r' : Register} (h : r.outline = r'.outline) {m m' : Moment}
    (hk : m.kind = m'.kind)
    (hbusy : m.kind = .begins → m.before.top.isBusy = m'.before.top.isBusy) (i : Nat) :
    (r.next m i).outline = (r'.next m' i).outline := by
  obtain ⟨calls, waiting⟩ := r
  obtain ⟨calls', waiting'⟩ := r'
  obtain ⟨hcalls, hwaiting⟩ := Prod.mk.inj h
  dsimp only at hcalls hwaiting
  subst hwaiting
  unfold Register.next Register.outline
  rw [← hk]
  cases hkind : m.kind with
  | enters => simp [hcalls]
  | closes =>
    cases calls with
    | nil =>
      cases calls' with
      | nil => rfl
      | cons => cases hcalls
    | cons c cs =>
      cases calls' with
      | nil => cases hcalls
      | cons c' cs' => simpa [keep_calls] using (List.cons.inj hcalls).2
  | begins =>
    rw [← hbusy hkind]
    cases m.before.top.isBusy with
    | false => simp [hcalls]
    | true =>
      cases calls with
      | nil =>
        cases calls' with
        | nil => rfl
        | cons => cases hcalls
      | cons c cs =>
        cases calls' with
        | nil => cases hcalls
        | cons c' cs' =>
          simp only [List.map_cons, List.cons.injEq, Prod.mk.injEq] at hcalls
          simp [hcalls]
  | other => simp [hcalls]

/-- No trace is opened above a discarded call before event `k`. -/
def OnCalls (ms : List Moment) (k : Nat) : Prop :=
  ∀ i m, i < k → ms[i]? = some m → m.kind = .begins → m.before.isPlaceholder = false

theorem isBusy_of_begins {a : Assembler} {e : Event} (hk : a.kind e = .begins)
    (hplace : a.isPlaceholder = false) : a.top.isBusy = decide (0 < a.depth) := by
  obtain ⟨-, hroot, -⟩ := begin_of_kind hk
  cases hbusy : a.top.isBusy with
  | true => simp [depth, hbusy]
  | false =>
    cases hancestors : a.ancestors with
    | nil => simp [depth, hbusy, hancestors]
    | cons => simp [isPlaceholder, hbusy, hroot, hancestors] at hplace

theorem Agrees.top_isTraceRoot {ms : List Moment} {R : Span → Span → Frame → Prop} {r : Register}
    {a : Assembler} (h : Agrees ms R r a) : a.top.isTraceRoot =
      if a.top.isBusy then (r.calls.head?.bind (·.begun)).isSome else r.waiting.isSome := by
  obtain ⟨hcalls, hwaiting⟩ := h
  cases hbusy : a.top.isBusy with
  | true =>
    rw [openCalls_of_busy hbusy] at hcalls
    obtain ⟨c, cs, hc, -, hcs⟩ := List.forall₂_cons_right_iff.mp hcalls
    rw [hcs]
    exact hc.root
  | false =>
    simp only [awaited, hbusy, Bool.false_eq_true, ↓reduceIte] at hwaiting ⊢
    exact hwaiting

theorem outermost_of_waiting {k : Nat} (hk : k ≤ os.length)
    (hplace : OnCalls ((new capacity).trail os) k) :
    (register (((new capacity).trail os).take k)).waiting.isSome →
      (register (((new capacity).trail os).take k)).calls = [] := by
  induction k with
  | zero => exact fun _ => rfl
  | succ k ih =>
    have hm := moment_of_trail (new capacity) hk
    have hlength := length_calls capacity (Nat.le_of_lt hk)
    specialize ih (Nat.le_of_lt hk) fun i m hi => hplace i m (Nat.lt_succ_of_lt hi)
    rw [register_succ hm]
    generalize register (((new capacity).trail os).take k) = r at ih hlength
    generalize hmoment : (⟨os[k], (new capacity).after (os.take k)⟩ : Moment) = m at hm
    have hbefore : (new capacity).after (os.take k) = m.before := hmoment ▸ rfl
    rw [hbefore] at hlength
    unfold Register.next
    cases hkind : m.kind with
    | enters => simp
    | closes =>
      cases hcs : r.calls with
      | nil => simp [hcs]
      | cons c cs => simp
    | begins =>
      have hbusy := isBusy_of_begins hkind (hplace k m (Nat.lt_succ_self k) hm hkind)
      cases ht : m.before.top.isBusy with
      | true =>
        intro hwaiting
        simp [ih hwaiting]
      | false =>
        intro _
        rw [ht] at hbusy
        have hdepth : m.before.depth = 0 := by simpa using hbusy
        exact List.length_eq_zero_iff.mp (hlength.trans hdepth)
    | other => exact ih

theorem begins_of_outline {ms ms' : List Moment} {R R' : Span → Span → Frame → Prop}
    {r r' : Register} {m m' : Moment} (h : Agrees ms R r m.before) (h' : Agrees ms' R' r' m'.before)
    (houtline : r.outline = r'.outline) (houtermost : r.waiting.isSome → r.calls = [])
    (hevent : m.event = m'.event) (henabled : m.before.enabled = m'.before.enabled)
    (hplace : m.before.isPlaceholder = false) (hk : m.kind = .begins) : m'.kind = .begins := by
  obtain ⟨hcalls, hwaiting⟩ := Prod.mk.inj houtline
  have hbusy := isBusy_of_begins hk hplace
  have hlength := h.calls.length_eq
  have hlength' := h'.calls.length_eq
  have hsame := congrArg List.length hcalls
  simp only [List.length_map] at hsame
  rw [length_openCalls] at hlength hlength'
  obtain ⟨hon, hroot, traceId, clock, flags, hbegin⟩ := begin_of_kind hk
  have hhead : (r.calls.head?.bind (·.begun)).isSome = (r'.calls.head?.bind (·.begun)).isSome := by
    have hheads := congrArg List.head? hcalls
    simp only [List.head?_map] at hheads
    cases hc : r.calls.head? <;> cases hc' : r'.calls.head? <;> simp_all
  have hroot' : m'.before.top.isTraceRoot = false := by
    rw [h.top_isTraceRoot, hbusy] at hroot
    rw [h'.top_isTraceRoot]
    cases hbusy' : m'.before.top.isBusy with
    | true =>
      have hdepth : 0 < m'.before.depth := by simp [depth, hbusy']
      rw [if_pos (by simp; omega), hhead] at hroot
      exact hroot
    | false =>
      rw [if_neg (by simp), ← hwaiting]
      by_cases hdepth : 0 < m.before.depth
      · -- No trace waits above an open call.
        cases hw : r.waiting with
        | none => rfl
        | some b =>
          have hnil := houtermost (by simp [hw])
          rw [hnil] at hlength
          simp only [List.length_nil] at hlength
          omega
      · rwa [if_neg (by simpa using hdepth)] at hroot
  simp [Moment.kind, Assembler.kind, ← henabled, hon, ← hevent, hbegin, hroot']

theorem kind_of_outline {ms ms' : List Moment} {R R' : Span → Span → Frame → Prop}
    {r r' : Register} {m m' : Moment} (h : Agrees ms R r m.before) (h' : Agrees ms' R' r' m'.before)
    (houtline : r.outline = r'.outline) (houtermost : r.waiting.isSome → r.calls = [])
    (hevent : m.event = m'.event) (henabled : m.before.enabled = m'.before.enabled)
    (hplace : m.kind = .begins → m.before.isPlaceholder = false)
    (hplace' : m'.kind = .begins → m'.before.isPlaceholder = false) :
    m.kind = m'.kind ∧ m.before.depth = m'.before.depth := by
  obtain ⟨hcalls, hwaiting⟩ := Prod.mk.inj houtline
  have hdepth : m.before.depth = m'.before.depth := by
    rw [← length_openCalls, ← length_openCalls, ← h.calls.length_eq, ← h'.calls.length_eq]
    simpa using congrArg List.length hcalls
  have houtermost' : r'.waiting.isSome → r'.calls = [] := by
    intro hw
    rw [← hwaiting] at hw
    rw [houtermost hw] at hcalls
    simpa using hcalls.symm
  obtain ⟨henters, hcloses⟩ := moves_iff m m' hevent henabled hdepth
  have hbegins : m.kind = .begins ↔ m'.kind = .begins :=
    ⟨fun hk => begins_of_outline h h' houtline houtermost hevent henabled (hplace hk) hk,
      fun hk => begins_of_outline h' h houtline.symm houtermost' hevent.symm henabled.symm
        (hplace' hk) hk⟩
  refine ⟨?_, hdepth⟩
  cases hk : m.kind <;> cases hk' : m'.kind <;> simp_all

section SameEvents

variable (hsame : os.map (·.event) = os'.map (·.event))
include hsame

theorem length_of_same : os'.length = os.length := by
  simpa using (congrArg List.length hsame).symm

theorem event_of_same {k : Nat} (hk : k < os.length) (hk' : k < os'.length) :
    os[k].event = os'[k].event := by
  have h := congrArg (·[k]?) hsame
  simpa [List.getElem?_eq_getElem, hk, hk'] using h

theorem stack_of_same (capacity capacity' : Nat) {k : Nat} (hk : k ≤ os.length) :
    ((new capacity).after (os.take k)).enabled = ((new capacity').after (os'.take k)).enabled ∧
      stack (((new capacity).trail os).take k) = stack (((new capacity').trail os').take k) := by
  induction k with
  | zero => exact ⟨rfl, rfl⟩
  | succ k ih =>
    obtain ⟨henabled, hstack⟩ := ih (Nat.le_of_succ_le hk)
    have hk' : k < os'.length := (length_of_same hsame).symm ▸ hk
    have hm := moment_of_trail (new capacity) hk
    have hm' := moment_of_trail (new capacity') hk'
    have hevent := event_of_same hsame hk hk'
    have hlength := congrArg List.length hstack
    simp only [stack, List.length_map, length_calls capacity (Nat.le_of_lt hk),
      length_calls capacity' (Nat.le_of_lt hk')] at hlength
    obtain ⟨henters, hcloses⟩ := moves_iff ⟨os[k], _⟩ ⟨os'[k], _⟩ hevent henabled
      hlength
    refine ⟨?_, ?_⟩
    · rw [← after_of_trail hm, ← after_of_trail hm']
      refine (step_enabled (sound_of_trail hm) _ _).trans
        (.trans ?_ (step_enabled (sound_of_trail hm') _ _).symm)
      rw [hevent, henabled]
    · rw [stack_succ_iff hm, stack_succ_iff hm', hstack]
      simp only [henters, hcloses]

theorem kind_of_same {k : Nat} (hk : k < os.length)
    (houtline : (register (((new capacity).trail os).take k)).outline =
      (register (((new capacity').trail os').take k)).outline)
    (hplace : OnCalls ((new capacity).trail os) (k + 1))
    (hplace' : OnCalls ((new capacity').trail os') (k + 1)) {m m' : Moment}
    (hm : ((new capacity).trail os)[k]? = some m)
    (hm' : ((new capacity').trail os')[k]? = some m') :
    m.kind = m'.kind ∧ m.before.depth = m'.before.depth := by
  have henabled := (stack_of_same hsame capacity capacity'
    (Nat.le_of_lt hk)).1
  rw [← (before_of_trail hm).2, ← (before_of_trail hm').2] at henabled
  have hevent : m.event = m'.event := by
    have h := congrArg (·[k]?) hsame
    simpa [occurrence_of_trail hm, occurrence_of_trail hm'] using h
  have houtermost := outermost_of_waiting (Nat.le_of_lt hk)
    (fun i m hi => hplace i m (Nat.lt_succ_of_lt hi))
  exact kind_of_outline (agrees_of_moment hm) (agrees_of_moment hm') houtline houtermost
    hevent henabled (hplace k m (Nat.lt_succ_self k) hm) (hplace' k m' (Nat.lt_succ_self k) hm')

/-- As long as no trace is opened above a discarded call, runs of the same events take the same
traces, on the same calls. -/
theorem outline_of_same {k : Nat} (hk : k ≤ os.length)
    (hplace : OnCalls ((new capacity).trail os) k)
    (hplace' : OnCalls ((new capacity').trail os') k) :
    (register (((new capacity).trail os).take k)).outline =
      (register (((new capacity').trail os').take k)).outline := by
  induction k with
  | zero => rfl
  | succ k ih =>
    have hm := moment_of_trail (new capacity) hk
    have hm' := moment_of_trail (new capacity') (show k < os'.length from
      (length_of_same hsame).symm ▸ hk)
    have houtline := ih (Nat.le_of_lt hk) (fun i m hi => hplace i m (Nat.lt_succ_of_lt hi))
      (fun i m hi => hplace' i m (Nat.lt_succ_of_lt hi))
    obtain ⟨hkind, hdepth⟩ := kind_of_same hsame hk houtline hplace hplace' hm hm'
    -- After a discarded call the top slot is vacant, after a kept one it is not. Only a begin sees
    -- the difference, and `OnCalls` excludes it there.
    rw [register_succ hm, register_succ hm']
    refine Register.outline_next houtline hkind (fun hbegins => ?_) k
    rw [isBusy_of_begins hbegins (hplace k _ (Nat.lt_succ_self k) hm hbegins),
      isBusy_of_begins (hkind ▸ hbegins) (hplace' k _ (Nat.lt_succ_self k) hm' (hkind ▸ hbegins)),
      hdepth]

end SameEvents

def Moment.OpensOnCall (m : Moment) : Prop :=
  ∃ n n' outer, m.before.openCalls = n :: outer ∧ m.after.openCalls = n' :: outer ∧
    n.isTraceRoot = false ∧ n'.isTraceRoot ∧
      ∃ clock flags, m.event = .begin n'.frame.traceId clock flags

/-- The trace is opened on no open call: it waits for the next one to be entered. -/
def Moment.OpensAhead (m : Moment) : Prop :=
  m.after.openCalls = m.before.openCalls ∧
    ∃ clock flags, m.event = .begin m.after.awaited.traceId clock flags

theorem Moment.opensOnCall {m : Moment} (hk : m.kind = .begins) (hbusy : m.before.top.isBusy) :
    m.OpensOnCall := by
  obtain ⟨traceId, clock, flags, hevent, hroot, hafter⟩ := Moment.begins_spec hk
  refine ⟨m.before.top, m.after.top, m.before.ancestors, openCalls_of_busy hbusy, ?_, hroot, ?_,
    clock, flags, ?_⟩
  · rw [hafter]
    exact opened_openCalls_of_busy _ _ _ _ hbusy
  · rw [hafter]
    rfl
  · rw [hevent, hafter]
    exact congrArg (Event.begin · clock flags) (newMarker_ids _ traceId clock flags _).1.symm

theorem Moment.opensAhead {m : Moment} (hk : m.kind = .begins)
    (hvacant : m.before.top.isBusy = false) : m.OpensAhead := by
  obtain ⟨traceId, clock, flags, hevent, hroot, hafter⟩ := Moment.begins_spec hk
  rw [OpensAhead, hafter]
  refine ⟨opened_openCalls_of_vacant _ _ _ _ hvacant, clock, flags, ?_⟩
  rw [hevent, awaited, if_neg (by rw [opened_isBusy, hvacant]; simp)]
  exact congrArg (Event.begin · clock flags) (newMarker_ids _ traceId clock flags _).1.symm

/-- A trace that is opened while calls are open is opened on the innermost one, or above a
discarded call on none. In runs of the same events the same calls are open, and as long as no
trace was opened above a discarded call the same traces are taken. -/
theorem begin_placement (capacity capacity' : Nat) {os os' : List Occurrence}
    (hsame : os.map (·.event) = os'.map (·.event)) {k : Nat} {m m' : Moment}
    (hm : ((new capacity).trail os)[k]? = some m)
    (hm' : ((new capacity').trail os')[k]? = some m') :
    stack (((new capacity).trail os).take k) = stack (((new capacity').trail os').take k) ∧
    (m.kind = .begins → 0 < m.before.depth →
      if m.before.isPlaceholder then m.OpensAhead else m.OpensOnCall) ∧
    (OnCalls ((new capacity).trail os) (k + 1) → OnCalls ((new capacity').trail os') (k + 1) →
      (m.kind = .begins ↔ m'.kind = .begins) ∧
      (m.kind = .begins → 0 < m.before.depth → m.OpensOnCall ∧ m'.OpensOnCall)) := by
  have hlt := (before_of_trail hm).1
  refine ⟨(stack_of_same hsame capacity capacity' (Nat.le_of_lt hlt)).2, fun hk hdepth => ?_,
    fun hplace hplace' => ?_⟩
  · split
    case isTrue hplace =>
      refine Moment.opensAhead hk ?_
      simp only [isPlaceholder, Bool.and_eq_true, Bool.not_eq_true'] at hplace
      exact hplace.1.1
    case isFalse hplace =>
      have hbusy := isBusy_of_begins hk (by simpa using hplace)
      exact Moment.opensOnCall hk (by simpa [hdepth] using hbusy)
  · have houtline := outline_of_same hsame
      (Nat.le_of_lt hlt) (fun i m hi => hplace i m (Nat.lt_succ_of_lt hi))
      (fun i m hi => hplace' i m (Nat.lt_succ_of_lt hi))
    obtain ⟨hkind, hdepth⟩ := kind_of_same hsame hlt houtline hplace hplace' hm hm'
    refine ⟨by rw [hkind], fun hk hopen => ?_⟩
    have hbusy := isBusy_of_begins hk (hplace k m (Nat.lt_succ_self k) hm hk)
    have hbusy' := isBusy_of_begins (hkind ▸ hk)
      (hplace' k m' (Nat.lt_succ_self k) hm' (hkind ▸ hk))
    exact ⟨Moment.opensOnCall hk (by simpa [hopen] using hbusy),
      Moment.opensOnCall (hkind ▸ hk) (by simpa [← hdepth, hopen] using hbusy')⟩

/-- A trace, a call inside it, and another trace when that call has returned. -/
def repeatedBegins (minMethodTime : Nat) : List Occurrence :=
  occurrences { minTraceTime := 0, minMethodTime } [.enter 1 1 1 0, .begin 7 0 ∅, .enter 2 2 2 10,
    .exit 15, .begin 8 0 ∅, .exit 300]

theorem begin_placement_of_repeatedBegins :
    (repeatedBegins 0).map (·.event) = (repeatedBegins 1000).map (·.event) ∧
    ∃ m m', ((new 0).trail (repeatedBegins 0))[1]? = some m ∧
      ((new 0).trail (repeatedBegins 1000))[1]? = some m' ∧ m.OpensOnCall ∧ m'.OpensOnCall := by
  have hplace (minMethodTime : Nat) : OnCalls ((new 0).trail (repeatedBegins minMethodTime)) 2 := by
    intro i m hi hm _
    match i with
    | 0 => cases hm; rfl
    | 1 => cases hm; rfl
  have hsame : (repeatedBegins 0).map (·.event) = (repeatedBegins 1000).map (·.event) := rfl
  have h := begin_placement 0 0 hsame (k := 1) rfl rfl
  exact ⟨hsame, _, _, rfl, rfl, (h.2.2 (hplace 0) (hplace 1000)).2 rfl (by decide)⟩

/-- The second trace is refused where the call was kept and taken where it was discarded. -/
theorem begin_depends_on_discard :
    ∃ m m', ((new 0).trail (repeatedBegins 0))[4]? = some m ∧
      ((new 0).trail (repeatedBegins 1000))[4]? = some m' ∧ m.event = m'.event ∧
      m.kind ≠ .begins ∧ m'.kind = .begins ∧ 0 < m'.before.depth ∧
      m'.after.openCalls = m'.before.openCalls :=
  ⟨_, _, rfl, rfl, rfl, by decide, rfl, by decide, rfl⟩

end CallTree
