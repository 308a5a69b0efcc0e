import CallTree.Proofs.Placement

/-!
The slots of an assembler are a layout of a plain stack. Entering a call pushes it and a return or
an error pops the latest one, whatever was discarded, kept or begun in between.
-/
namespace CallTree
open Assembler

structure Entry where
  classId : SymbolId
  methodId : SymbolId
  signatureId : SymbolId
  time : Nat
deriving DecidableEq

def Frame.entry? (f : Frame) : Option Entry :=
  f.startTime.map fun time => ⟨f.classId, f.methodId, f.signatureId, time⟩

/-- A plain stack of calls, the latest first, each with the number of the event that entered it. -/
structure CallStack where
  enabled : Bool := true
  entries : List (Nat × Entry) := []

namespace CallStack

def next (s : CallStack) (i : Nat) (e : Event) : CallStack where
  enabled := e.switch s.enabled
  entries :=
    if s.enabled then
      match e with
      | .enter classId methodId signatureId time =>
        (i, ⟨classId, methodId, signatureId, time⟩) :: s.entries
      | .exit _ => s.entries.tail
      | .fail _ _ => s.entries.tail
      | _ => s.entries
    else s.entries

def ofEvents (es : List Event) : CallStack := es.zipIdx.foldl (fun s (e, i) => s.next i e) {}

theorem ofEvents_concat (es : List Event) (e : Event) :
    ofEvents (es ++ [e]) = (ofEvents es).next es.length e := by
  simp [ofEvents, List.zipIdx_append, List.foldl_append]

theorem entries_sorted (es : List Event) :
    (ofEvents es).entries.Pairwise (·.1 > ·.1) ∧ ∀ c ∈ (ofEvents es).entries, c.1 < es.length := by
  induction es using List.reverseRecOn with
  | nil => exact ⟨.nil, by simp [ofEvents]⟩
  | append_singleton es e ih =>
    obtain ⟨hsorted, hlt⟩ := ih
    rw [ofEvents_concat, List.length_append, List.length_singleton]
    generalize ofEvents es = s at hsorted hlt
    have hlater : ∀ c ∈ s.entries, c.1 < es.length + 1 := fun c hc => Nat.lt_succ_of_lt (hlt c hc)
    have htail : ∀ c ∈ s.entries.tail, c.1 < es.length + 1 :=
      fun c hc => hlater c (List.mem_of_mem_tail hc)
    unfold next
    dsimp only
    split
    · split
      case h_1 => exact ⟨List.pairwise_cons.mpr ⟨hlt, hsorted⟩, by simpa using hlater⟩
      case h_2 => exact ⟨hsorted.tail, htail⟩
      case h_3 => exact ⟨hsorted.tail, htail⟩
      case h_4 => exact ⟨hsorted, hlater⟩
    · exact ⟨hsorted, hlater⟩

end CallStack

structure Follows (s : CallStack) (a : Assembler) : Prop where
  enabled : a.enabled = s.enabled
  calls : a.openCalls.map (·.frame.entry?) = s.entries.map (some ·.2)

theorem entry?_of_record {f f' : Frame} (h : f' = { f with
    flags := f'.flags, attributes := f'.attributes, marker := f'.marker }) :
    f'.entry? = f.entry? := by
  rw [h]
  rfl

theorem entries_of_alike {ns ns' : List Node} (h : List.Forall₂ Node.Alike ns ns') :
    ns'.map (·.frame.entry?) = ns.map (·.frame.entry?) := by
  induction h with
  | nil => rfl
  | cons hn _ ih => rw [List.map_cons, List.map_cons, ih, entry?_of_record hn.record]

theorem entries_of_closed {env : Surroundings} {n : Node} {outer : List Node} {a a' : Assembler}
    (h : Closed env n outer a a') :
    a'.openCalls.map (·.frame.entry?) = outer.map (·.frame.entry?) := by
  rw [h.openCalls, ← entries_of_alike (around_touched env n outer).alike]
  cases around env n outer with
  | nil => rfl
  | cons q qs =>
    have hparent : (parentOf env n outer q).frame.entry? = q.frame.entry? := by
      unfold parentOf
      cases fateOf env n outer <;> rfl
    rw [List.modifyHead_cons, List.map_cons, List.map_cons, hparent]

theorem Follows.length {s : CallStack} {a : Assembler} (h : Follows s a) :
    a.depth = s.entries.length := by
  rw [← length_openCalls]
  simpa using congrArg List.length h.calls

theorem Follows.entries_of_idle {s : CallStack} {a : Assembler} (h : Follows s a) {e : Event}
    (henters : a.kind e ≠ .enters) (hcloses : a.kind e ≠ .closes) (i : Nat) :
    (s.next i e).entries = s.entries := by
  unfold CallStack.next
  dsimp only
  rw [← h.enabled]
  cases hon : a.enabled with
  | false => rfl
  | true =>
    have hempty (hdepth : ¬0 < a.depth) : s.entries.tail = s.entries := by
      have hlength := h.length
      rw [List.length_eq_zero_iff.mp (show s.entries.length = 0 by omega), List.tail_nil]
    cases e with
    | enter => simp [kind, hon] at henters
    | exit => exact hempty (by simpa [kind, hon] using hcloses)
    | fail => exact hempty (by simpa [kind, hon] using hcloses)
    | _ => rfl

theorem Follows.step {s : CallStack} {a : Assembler} (hsound : a.Sound) (h : Follows s a)
    (i : Nat) (env : Surroundings) (e : Event) : Follows (s.next i e) (a.step env e).1 := by
  refine ⟨(step_enabled hsound env e).trans (by rw [h.enabled]; rfl), ?_⟩
  cases hk : a.kind e with
  | enters =>
    obtain ⟨hon, -⟩ := enter_of_kind hk
    obtain ⟨classId, methodId, signatureId, time, rfl, hentered, -⟩ := step_enters env hsound hk
    obtain ⟨flags, harrival⟩ := arrival_eq hsound env.thresholds classId methodId signatureId time
    rw [hentered.openCalls, harrival, List.map_cons, h.calls]
    simp [CallStack.next, ← h.enabled, hon, Frame.entry?]
  | closes =>
    obtain ⟨hon, -, time, hevent⟩ := close_of_kind hk
    obtain ⟨n, outer, hopen, hclosed, -⟩ := step_closes env hsound hk
    have hcalls := congrArg List.tail h.calls
    rw [hopen, List.map_cons, List.tail_cons] at hcalls
    rw [entries_of_closed hclosed, hcalls, ← List.map_tail]
    rcases hevent with rfl | ⟨error, rfl⟩ <;> simp [CallStack.next, ← h.enabled, hon]
  | begins =>
    obtain ⟨traceId, clock, flags, -, -, hstep, -⟩ := step_begins env hk
    rw [h.entries_of_idle (by simp [hk]) (by simp [hk]), hstep,
      entries_of_alike (opened_alike _ _ _ _ _), h.calls]
  | other =>
    have htouches := (step_other env hk).1.touches
    rw [h.entries_of_idle (by simp [hk]) (by simp [hk]),
      entries_of_alike htouches.openCalls.alike, h.calls]

theorem follows_of_run (capacity : Nat) (os : List Occurrence) :
    Follows (CallStack.ofEvents (os.map (·.event))) ((new capacity).after os) := by
  induction os using List.reverseRecOn with
  | nil => exact ⟨rfl, rfl⟩
  | append_singleton os o ih =>
    rw [List.map_append, List.map_singleton, CallStack.ofEvents_concat, after_append]
    exact ih.step ((sound_new capacity).after os) _ o.env o.event

theorem reverse_openCalls (a : Assembler) :
    a.openCalls.reverse = a.ancestors.reverse ++ if a.top.isBusy then [a.top] else [] := by
  unfold openCalls slots
  cases a.top.isBusy <;> simp

theorem length_resync (held : Nat → Bool) {a : Assembler} (h : a.Sound) :
    a.ancestors.length ≤ (resync held a.pool a.top a.ancestors).2.1.length + 1 := by
  cases hopen : a.openCalls with
  | nil =>
    have hancestors : a.ancestors = [] := by
      cases ht : a.top.isBusy with
      | true => simp [openCalls_of_busy ht] at hopen
      | false => rwa [openCalls_of_vacant ht] at hopen
    simp [hancestors]
  | cons n outer =>
    have hlength := congrArg List.length hopen
    rw [length_openCalls, depth, List.length_cons] at hlength
    rw [resync_of_open held h hopen]
    dsimp only
    omega

/-- Closing meets the call `n` among the calls `outer` that stay open. -/
structure Meets (a : Assembler) (n : Node) (outer : List Node) : Prop where
  resync : ∀ held, ∃ pool, Assembler.resync held a.pool a.top a.ancestors = (n, outer, pool)
  close : ∀ env time error, ∃ a' outcome, a.close env time error = .ok (a', outcome) ∧
    Closed env (finish time error n) outer a a' ∧
    outcome.verdict = (settle env (finish time error n) outer).verdict ∧
    a'.openCalls.map (·.frame.entry?) = outer.map (·.frame.entry?)

theorem meets_of_open {a : Assembler} (h : a.Sound) {n : Node} {outer : List Node}
    (hopen : a.openCalls = n :: outer) : Meets a n outer where
  resync held := ⟨_, resync_of_open held h hopen⟩
  close env time error := by
    obtain ⟨a', outcome, hclose, hclosed, hverdict⟩ := close_closed env time error h hopen
    exact ⟨a', outcome, hclose, hclosed, hverdict, entries_of_closed hclosed⟩

/-- After any events the open calls are the entries of the plain stack, and closing is refused
without an entry and meets the latest one else. At most one slot is skipped on the way. -/
theorem open_calls_stacked (capacity : Nat) (os : List Occurrence) :
    let a := (new capacity).after os
    let s := CallStack.ofEvents (os.map (·.event))
    (a.ancestors.reverse ++ if a.top.isBusy then [a.top] else []).map (·.frame.entry?) =
      s.entries.reverse.map (some ·.2) ∧
    (∀ n ∈ a.ancestors, n.isBusy) ∧
    a.depth = s.entries.length ∧
    (∀ held, a.ancestors.length ≤ (resync held a.pool a.top a.ancestors).2.1.length + 1) ∧
    match s.entries with
    | [] => ∀ env time error, a.close env time error = .error .noOpenFrame
    | (i, entry) :: rest => (∀ c ∈ rest, c.1 < i) ∧ ∃ n outer, a.openCalls = n :: outer ∧
        n.frame.entry? = some entry ∧ outer.map (·.frame.entry?) = rest.map (some ·.2) ∧
        Meets a n outer := by
  intro a s
  have hsound : a.Sound := (sound_new capacity).after os
  have hfollows : Follows s a := follows_of_run capacity os
  have hsorted : s.entries.Pairwise (·.1 > ·.1) := (CallStack.entries_sorted _).1
  refine ⟨?_, hsound.busy, hfollows.length, fun held => length_resync held hsound, ?_⟩
  · rw [← reverse_openCalls, List.map_reverse, hfollows.calls, List.map_reverse]
  · have hcalls := hfollows.calls
    cases hentries : s.entries with
    | nil =>
      rw [hentries, List.map_nil, List.map_eq_nil_iff] at hcalls
      exact fun env time error => close_of_no_calls env time error hcalls
    | cons c rest =>
      rw [hentries, List.map_cons] at hcalls
      rw [hentries] at hsorted
      obtain ⟨n, outer, hopen, hn, houter⟩ := List.map_eq_cons_iff.mp hcalls
      exact ⟨(List.pairwise_cons.mp hsorted).1, n, outer, hopen, hn, houter,
        meets_of_open hsound hopen⟩

/-- A return without a call, a trace begun above a discarded call, and events while disabled. -/
def unevenCalls : List Occurrence :=
  occurrences {} [.exit 5, .enter 1 2 3 10, .enter 4 5 6 11, .exit 12, .begin 7 0 ∅, .disable,
    .enter 8 9 9 13, .exit 14, .enable]

theorem open_calls_stacked_of_unevenCalls :
    let a := (new 0).after unevenCalls
    a.top.isBusy = false ∧ a.top.isTraceRoot ∧ a.depth = 1 ∧
      (a.ancestors.reverse ++ if a.top.isBusy then [a.top] else []).map (·.frame.entry?) =
        [some ⟨1, 2, 3, 10⟩] ∧
      (∀ n ∈ a.ancestors, n.isBusy) ∧
      ∃ a' outcome, a.close ⟨.ofConfig {}, fun _ => false, 0⟩ 20 none = .ok (a', outcome) ∧
        a'.openCalls = [] := by
  intro a
  obtain ⟨hentries, hbusy, hdepth, -, -, n, outer, -, -, houter, hmeets⟩ :=
    open_calls_stacked 0 unevenCalls
  obtain ⟨a', outcome, hclose, -, -, hcalls⟩ := hmeets.close ⟨.ofConfig {}, fun _ => false, 0⟩ 20 none
  refine ⟨rfl, rfl, hdepth, hentries, hbusy, a', outcome, hclose, ?_⟩
  rw [houter] at hcalls
  exact List.map_eq_nil_iff.mp hcalls

end CallTree
