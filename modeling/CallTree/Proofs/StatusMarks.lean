import CallTree.Proofs.ErrorPresence
import CallTree.Proofs.PlainTraces

/-!
What the two status marks of a submitted trace say. An overflow mark stands for a call over the node
budget that closed inside the trace, an error mark for a trace in it that was submitted with an
error. A trace that is opened inside another one also takes over the marks that this one has by
then, so a mark may stand for what happened before the trace was opened.
-/
namespace CallTree
open Assembler

def Event.callFlags : Event → NodeFlags
  | .markFrame flags => flags
  | _ => ∅

/-- No caller gives a status mark to a trace, or to a call a flag that a status mark comes from. -/
structure Candid (os : List Occurrence) : Prop where
  overflow : ∀ o ∈ os, o.event.markerFlags.has .overflow = false
  error : ∀ o ∈ os, o.event.markerFlags.has .error = false
  overBudget : ∀ o ∈ os, o.event.callFlags.has .overflow = false
  passesError : ∀ o ∈ os, o.event.callFlags.has .passesError = false

def EntersOver (ms : List Moment) (e : Nat) : Prop :=
  ∃ m, ms[e]? = some m ∧ m.kind = .enters ∧ m.before.counts ∧
    m.env.thresholds.maxTraceRecords < m.before.nodeCount + 1

/-- At event `i` a call closes inside the trace that event `b` opened. It was entered there, over
the node budget. -/
def LeavesOut (ms : List Moment) (b i : Nat) : Prop :=
  b ∈ held ms (i + 1) ∧ ∃ e, b < e ∧ (⟨e, i⟩ : Span).IsCall ms ∧ EntersOver ms e

/-- At event `i` an error closes the call of the trace that event `b` opened, or of one inside it,
and the trace of that call is submitted. -/
def FailsIn (ms : List Moment) (b i : Nat) : Prop :=
  ∃ m b', ms[i]? = some m ∧ m.fails ∧ (b', .submitted) ∈ endedAt ms i ∧
    (b' = b ∨ b ∈ held ms (i + 1))

variable {capacity : Nat} {os : List Occurrence} {ms : List Moment} {k : Nat} {m : Moment}

/-! ### What the open calls say -/

structure Node.SameStatus (n n' : Node) : Prop where
  error : n'.frame.error = n.frame.error
  overflow : n'.frame.flags.has .overflow = n.frame.flags.has .overflow
  passesError : n'.frame.flags.has .passesError = n.frame.flags.has .passesError

theorem Node.SameStatus.refl (n : Node) : n.SameStatus n := ⟨rfl, rfl, rfl⟩

theorem sameStatus_mapMarker (g : Marker → Marker) (n : Node) : n.SameStatus (n.mapMarker g) :=
  ⟨rfl, rfl, rfl⟩

structure Truthful (ms : List Moment) (c : OpenCall) (n : Node) : Prop where
  error : n.frame.error = none
  passesError : n.frame.flags.has .passesError = false
  overflow : n.frame.flags.has .overflow ↔ EntersOver ms c.entered

theorem Truthful.same {c : OpenCall} {n n' : Node} (h : Truthful ms c n) (hn : n.SameStatus n') :
    Truthful ms c n' :=
  ⟨hn.error.trans h.error, hn.passesError.trans h.passesError, by rw [hn.overflow, h.overflow]⟩

theorem allTruthful_same {cs : List OpenCall} {ns ns' : List Node}
    (h : List.Forall₂ (Truthful ms) cs ns) (hns : List.Forall₂ Node.SameStatus ns ns') :
    List.Forall₂ (Truthful ms) cs ns' := by
  induction h generalizing ns' with
  | nil =>
    cases hns
    exact .nil
  | cons hc _ ih =>
    cases hns with
    | cons hn hns => exact .cons (hc.same hn) (ih hns)

structure Statements (ms : List Moment) (r : Register) (a : Assembler) : Prop where
  calls : List.Forall₂ (Truthful ms) r.calls a.openCalls
  overflow : a.awaited.flags.has .overflow = false
  passesError : a.awaited.flags.has .passesError = false

namespace Assembler

theorem forall₂_openCalls {Q : Node → Node → Prop} {a a' : Assembler}
    (h : List.Forall₂ Q a.slots a'.slots) (hbusy : a'.top.isBusy = a.top.isBusy) :
    List.Forall₂ Q a.openCalls a'.openCalls := by
  unfold Assembler.openCalls
  rw [hbusy]
  split
  · exact h
  · exact (List.forall₂_cons.mp h).2

end Assembler

theorem around_truthful {cs : List OpenCall} {outer : List Node} (env : Surroundings) (n : Node)
    (h : List.Forall₂ (Truthful ms) cs outer) :
    List.Forall₂ (Truthful ms) cs (around env n outer) := by
  have hadjust (g : Marker → Marker) {ns : List Node} (hns : List.Forall₂ (Truthful ms) cs ns) :
      List.Forall₂ (Truthful ms) cs (adjustNearest g ns) :=
    allTruthful_same hns (adjustNearest_forall₂ .refl (sameStatus_mapMarker g) ns)
  have hsettled : List.Forall₂ (Truthful ms) cs (settle env n outer).ancestors := by
    rw [settle_ancestors]
    split
    · exact h
    · exact hadjust _ h
  unfold around
  split
  · exact hadjust _ hsettled
  · exact hsettled

theorem Statements.enters (hm : ms[k]? = some m) (hk : m.kind = .enters) {r : Register}
    (hsound : m.before.Sound) (h : Statements ms r m.before) :
    Statements ms (r.next m k) m.after := by
  obtain ⟨classId, methodId, signatureId, time, -, hentered⟩ := Moment.enters_spec hsound hk
  obtain ⟨flags, harrival⟩ := arrival_eq hsound m.env.thresholds classId methodId signatureId time
  have hover : EntersOver ms k ↔
      m.before.counts ∧ m.env.thresholds.maxTraceRecords < m.before.nodeCount + 1 := by
    constructor
    · rintro ⟨m', hm', -, hcounts, hlt⟩
      obtain rfl := Option.some.inj (hm.symm.trans hm')
      exact ⟨hcounts, hlt⟩
    · rintro ⟨hcounts, hlt⟩
      exact ⟨m, hm, hk, hcounts, hlt⟩
  have hawaited := awaited_of_busy hentered.busy
  simp only [Register.next, hk]
  refine ⟨?_, by rw [hawaited]; rfl, by rw [hawaited]; rfl⟩
  rw [hentered.openCalls]
  refine .cons ⟨by rw [harrival], ?_, ?_⟩ h.calls
  · simp only [arrival]
    split <;> simp [Frame.mark, h.passesError]
  · rw [hover]
    simp only [arrival]
    split
    case isTrue hlt => simpa [Frame.mark] using hlt
    case isFalse hlt => simpa [h.overflow] using hlt

theorem Statements.closes (hk : m.kind = .closes) {r : Register} (hsound : m.before.Sound)
    (h : Statements ms r m.before) : Statements ms (r.next m k) m.after := by
  have hcloses := Moment.closes_spec hsound hk
  have hcalls := h.calls
  rw [hcloses.before] at hcalls
  obtain ⟨c, cs, -, houter, hcs⟩ := List.forall₂_cons_right_iff.mp hcalls
  have haround : List.Forall₂ (Truthful ms) cs m.around := around_truthful m.env m.closing houter
  simp only [Register.next, hk, hcs]
  refine ⟨?_, by rw [hcloses.awaited]; rfl, by rw [hcloses.awaited]; rfl⟩
  rw [hcloses.after]
  generalize m.around = around at haround
  cases haround with
  | nil => exact .nil
  | @cons p q ps qs hp hrest =>
    obtain ⟨herror, hpasses, hover⟩ := hp
    refine .cons ⟨?_, ?_, ?_⟩ hrest
    · rw [m.parent_frame]
      exact herror
    · rw [m.parent_frame]
      exact hpasses
    · rw [m.parent_frame, (Register.keep_entered c p k m.fate).1]
      exact hover

theorem Statements.begins (hk : m.kind = .begins) {r : Register}
    (h : Statements ms r m.before) : Statements ms (r.next m k) m.after := by
  obtain ⟨traceId, clock, flags, -, -, hafter⟩ := Moment.begins_spec hk
  obtain ⟨hcalls, hover, hpasses⟩ := h
  simp only [Register.next, hk]
  rw [hafter]
  cases ht : m.before.top.isBusy with
  | true =>
    rw [openCalls_of_busy ht] at hcalls
    obtain ⟨c, cs, hc, houter, hcs⟩ := List.forall₂_cons_right_iff.mp hcalls
    refine ⟨?_, by rw [awaited_of_busy (opened_isBusy.trans ht)]; rfl,
      by rw [awaited_of_busy (opened_isBusy.trans ht)]; rfl⟩
    rw [opened_openCalls_of_busy _ _ _ _ ht, hcs]
    refine .cons ⟨hc.error, ?_, ?_⟩ houter
    · simp [opened, Node.mapFrame, Frame.mark, hc.passesError]
    · simpa [opened, Node.mapFrame, Frame.mark] using hc.overflow
  | false =>
    simp only [awaited, ht] at hover hpasses
    refine ⟨?_, ?_, ?_⟩
    · rw [opened_openCalls_of_vacant _ _ _ _ ht]
      exact hcalls
    · rw [awaited, if_neg (by rw [opened_isBusy, ht]; simp)]
      simpa [opened, Node.mapFrame, Frame.mark] using hover
    · rw [awaited, if_neg (by rw [opened_isBusy, ht]; simp)]
      simpa [opened, Node.mapFrame, Frame.mark] using hpasses

theorem sameStatus_rewrite {e : Event} (hover : e.callFlags.has .overflow = false)
    (hpasses : e.callFlags.has .passesError = false) (n : Node) :
    n.SameStatus (n.mapFrame e.rewrite) := by
  cases e with
  | markFrame flags =>
    rw [Event.callFlags] at hover hpasses
    exact ⟨rfl, by simp [Node.mapFrame, Event.rewrite, Frame.mark, hover],
      by simp [Node.mapFrame, Event.rewrite, Frame.mark, hpasses]⟩
  | _ => exact ⟨rfl, rfl, rfl⟩

theorem Statements.other (hk : m.kind = .other) (hover : m.event.callFlags.has .overflow = false)
    (hpasses : m.event.callFlags.has .passesError = false) {r : Register}
    (h : Statements ms r m.before) : Statements ms (r.next m k) m.after := by
  have hretouches := Moment.other_spec hk
  have hslots :=
    hretouches.forall₂ .refl (sameStatus_mapMarker _) (sameStatus_rewrite hover hpasses)
  have hbusy := hretouches.touches.top.isBusy
  have hawaited : m.after.awaited.flags.has .overflow = m.before.awaited.flags.has .overflow ∧
      m.after.awaited.flags.has .passesError = m.before.awaited.flags.has .passesError := by
    have htop : m.before.top.SameStatus m.after.top := (List.forall₂_cons.mp hslots).1
    simp only [awaited, hbusy]
    split
    · exact ⟨rfl, rfl⟩
    · exact ⟨htop.overflow, htop.passesError⟩
  simp only [Register.next, hk]
  exact ⟨allTruthful_same h.calls (forall₂_openCalls hslots hbusy), hawaited.1.trans h.overflow,
    hawaited.2.trans h.passesError⟩

theorem statements_of_moment (hos : Candid os) (hm : ((new capacity).trail os)[k]? = some m) :
    Statements ((new capacity).trail os) (register (((new capacity).trail os).take k))
      m.before := by
  obtain ⟨hk, hbefore⟩ := before_of_trail hm
  rw [hbefore]
  refine trail_induction capacity os (P := fun k a => Statements ((new capacity).trail os)
    (register (((new capacity).trail os).take k)) a)
    ⟨.nil, by simp [awaited, new, Pool.ofCapacity, Pool.acquire],
      by simp [awaited, new, Pool.ofCapacity, Pool.acquire]⟩
    (fun j m hm hsound h => ?_) (Nat.le_of_lt hk)
  rw [register_succ hm]
  cases hkind : m.kind with
  | enters => exact h.enters hm hkind hsound
  | closes => exact h.closes hkind hsound
  | begins => exact h.begins hkind
  | other =>
    have hmem := List.mem_of_getElem? (occurrence_of_trail hm)
    exact h.other hkind (hos.overBudget _ hmem) (hos.passesError _ hmem)

theorem truthful_of_closes (hos : Candid os) (hm : ((new capacity).trail os)[k]? = some m)
    (hk : m.kind = .closes) {c : OpenCall} {cs : List OpenCall}
    (hcs : (register (((new capacity).trail os).take k)).calls = c :: cs) :
    Truthful ((new capacity).trail os) c m.innermost := by
  have hcalls := (statements_of_moment hos hm).calls
  rw [(Moment.closes_spec (sound_of_trail hm) hk).before, hcs] at hcalls
  exact (List.forall₂_cons.mp hcalls).1

theorem failed_iff (hos : Candid os) (hm : ((new capacity).trail os)[k]? = some m)
    (hk : m.kind = .closes) :
    m.closing.frame.error.isSome ∨ m.closing.frame.flags.has .passesError ↔ m.fails := by
  obtain ⟨c, cs, hcs, -⟩ := calls_of_closes hm hk
  obtain ⟨hnone, hpasses, -⟩ := truthful_of_closes hos hm hk hcs
  have hclosing : m.closing = dedupError (ended m.event.time m.event.error? m.innermost) := rfl
  cases herror : m.event.error? with
  | none =>
    have hsame : (ended m.event.time none m.innermost).frame.error = none := hnone
    rw [herror, dedupError, hsame] at hclosing
    rw [hclosing, hsame]
    simp [Moment.fails, herror, ended, Node.mapFrame, hpasses]
  | some e =>
    have hraises := (closing_blames m).raises e herror
    have hfails : m.fails := by simp [Moment.fails, hk, herror]
    refine iff_of_true ?_ hfails
    by_cases hsame : ErrorChain.same (some e) m.closing.innerError
    · exact .inr (hraises.passes hsame)
    · exact .inl (by rw [hraises.stored, if_neg hsame]; rfl)

/-! ### What stands for a mark -/

def Evidence (ms : List Moment) (b i : Nat) : MarkerFlag → Prop
  | .overflow => LeavesOut ms b i
  | .error => FailsIn ms b i
  | _ => False

variable {f : MarkerFlag}

theorem Register.Nested.begun_lt {hi : Nat} {cs : List OpenCall} (h : Register.Nested ms hi cs) :
    ∀ b ∈ cs.filterMap (·.begun), b < hi := by
  induction cs generalizing hi with
  | nil => simp
  | cons c cs ih =>
    obtain ⟨hc, -, hbegun, -, hrest⟩ := h
    intro b hb
    rw [filterMap_cons_toList, List.mem_append, Option.mem_toList] at hb
    rcases hb with hb | hb
    · exact (hbegun b hb).1
    · exact Nat.lt_trans (ih hrest b hb) hc

theorem held_of_closes (hm : ((new capacity).trail os)[k]? = some m) (hk : m.kind = .closes)
    {c : OpenCall} {cs : List OpenCall}
    (hcs : (register (((new capacity).trail os).take k)).calls = c :: cs) :
    held ((new capacity).trail os) k =
      (register (((new capacity).trail os).take k)).waiting.toList ++
        (c.begun.toList ++ held ((new capacity).trail os) (k + 1)) := by
  obtain ⟨c', cs', hcs', -, hheld⟩ := calls_of_closes hm hk
  obtain ⟨rfl, rfl⟩ := List.cons.inj (hcs.symm.trans hcs')
  rw [hheld, held, Register.held, hcs, filterMap_cons_toList]

theorem held_of_succ (hm : ((new capacity).trail os)[k]? = some m) (hk : m.kind = .closes) {b : Nat}
    (hb : b ∈ held ((new capacity).trail os) (k + 1)) : b ∈ held ((new capacity).trail os) k := by
  obtain ⟨c, cs, hcs, -⟩ := calls_of_closes hm hk
  rw [held_of_closes hm hk hcs]
  exact List.mem_append_right _ (List.mem_append_right _ hb)

theorem leavesOut_iff (hos : Candid os) (hm : ((new capacity).trail os)[k]? = some m)
    (hk : m.kind = .closes) {b : Nat} (hb : b ∈ held ((new capacity).trail os) (k + 1)) :
    LeavesOut ((new capacity).trail os) b k ↔ m.closing.frame.flags.has .overflow := by
  obtain ⟨c, cs, hcs, -, hheld⟩ := calls_of_closes hm hk
  have hover := (truthful_of_closes hos hm hk hcs).overflow
  have hhead : (stack (((new capacity).trail os).take k)).head? = some c.entered := by
    rw [stack, hcs]
    rfl
  rw [closing_overflow, hover]
  constructor
  · rintro ⟨-, e, -, ⟨_, -, -, he⟩, hentered⟩
    rwa [Option.some.inj (hhead.symm.trans he)]
  · intro hentered
    have horderly := Register.orderly_of_trail capacity os (Nat.le_of_lt (before_of_trail hm).1)
    have hnested := horderly.1
    rw [hcs] at hnested
    rw [hheld] at hb
    have hlt := hnested.2.2.2.2.begun_lt b hb
    exact ⟨hheld ▸ hb, c.entered, hlt, ⟨m, hm, hk, hhead⟩, hentered⟩

theorem Evidence.closes {b i : Nat} (h : Evidence ms b i f) :
    ∃ m, ms[i]? = some m ∧ m.kind = .closes := by
  cases f with
  | overflow =>
    obtain ⟨-, e, -, ⟨m, hm, hk, -⟩, -⟩ := h
    exact ⟨m, hm, hk⟩
  | error =>
    obtain ⟨m, b', hm, -, hended, -⟩ := h
    exact ⟨m, hm, kind_of_ended hm hended⟩
  | _ => exact h.elim

theorem Evidence.held {b i : Nat} (h : Evidence ((new capacity).trail os) b i f) :
    b ∈ CallTree.held ((new capacity).trail os) i := by
  obtain ⟨m, hm, hk⟩ := h.closes
  cases f with
  | overflow => exact held_of_succ hm hk h.1
  | error =>
    obtain ⟨_, b', -, -, hended, rfl | hb⟩ := h
    · exact held_of_ended hended
    · exact held_of_succ hm hk hb
  | _ => exact h.elim

theorem Evidence.lt {b i : Nat} (h : Evidence ((new capacity).trail os) b i f) : b < i := by
  obtain ⟨m, hm, -⟩ := h.closes
  exact lt_of_held hm b h.held

/-- What stands for a mark of one trace stands for the same mark of every trace that is open around
the call. -/
theorem Evidence.spread (hos : Candid os) {b b' i : Nat}
    (h : Evidence ((new capacity).trail os) b i f)
    (hb' : b' ∈ CallTree.held ((new capacity).trail os) (i + 1)) :
    Evidence ((new capacity).trail os) b' i f := by
  obtain ⟨m, hm, hk⟩ := h.closes
  cases f with
  | overflow => exact (leavesOut_iff hos hm hk hb').mpr ((leavesOut_iff hos hm hk h.1).mp h)
  | error =>
    obtain ⟨m', b'', hm', hfails, hended, -⟩ := h
    exact ⟨m', b'', hm', hfails, hended, .inr hb'⟩
  | _ => exact h.elim

/-- Something that the mark stands for happened before event `k` inside the trace of event `b`, or
inside a trace that was open when this one was opened, and before that. -/
def Earned (ms : List Moment) (f : MarkerFlag) (k b : Nat) : Prop :=
  (∃ i < k, Evidence ms b i f) ∨ ∃ b₀ ∈ held ms b, ∃ i < b, Evidence ms b₀ i f

theorem suffix_of_held (hk : k ≤ os.length) {b : Nat} (hb : b ∈ held ((new capacity).trail os) k) :
    b :: held ((new capacity).trail os) b <:+ held ((new capacity).trail os) k := by
  induction k with
  | zero => simp [held, register, Register.held] at hb
  | succ k ih =>
    have hsuffix := held_suffix (moment_of_trail (new capacity) hk)
    have hbelow : b :: held ((new capacity).trail os) b <:+
        k :: held ((new capacity).trail os) k := by
      rcases List.mem_cons.mp (hsuffix.subset hb) with rfl | hb
      · exact List.suffix_refl _
      · exact (ih (Nat.le_of_succ_le hk) hb).trans (List.suffix_cons k _)
    rcases List.suffix_or_suffix_of_suffix hsuffix hbelow with hshort | hlong
    · rcases List.suffix_cons_iff.mp hshort with hsame | hshort
      · exact hsame ▸ List.suffix_refl _
      · have hle := (held_sorted hk).2 b hb
        exact absurd ((held_sorted (by omega)).2 b (hshort.subset hb)) (Nat.lt_irrefl b)
    · exact hlong

theorem held_outside (hk : k ≤ os.length) {b b₀ : Nat} (hb : b ∈ held ((new capacity).trail os) k)
    (hb₀ : b₀ ∈ held ((new capacity).trail os) b) : b₀ ∈ held ((new capacity).trail os) k :=
  (suffix_of_held hk hb).subset (List.mem_cons_of_mem b hb₀)

theorem Evidence.outwards (hos : Candid os) (hk : k ≤ os.length) {b b' i : Nat}
    (h : Evidence ((new capacity).trail os) b' i f) (hi : i < k)
    (hb : b ∈ CallTree.held ((new capacity).trail os) k) (hlate : b ≤ i) :
    Evidence ((new capacity).trail os) b i f :=
  h.spread hos (held_between hk hb (Nat.lt_succ_of_le hlate) hi)

theorem earned_outwards (hos : Candid os) (hk : k ≤ os.length) {b b' : Nat}
    (hb : b ∈ held ((new capacity).trail os) k) (hb' : b < b') (hk' : b' < k)
    (h : Earned ((new capacity).trail os) f k b') : Earned ((new capacity).trail os) f k b := by
  rcases h with ⟨i, hi, h⟩ | ⟨b₀, hb₀, i, hi, h⟩
  · have hlt := h.lt
    exact .inl ⟨i, hi, h.outwards hos hk hi hb (by omega)⟩
  · rcases Nat.lt_or_ge i b with hearly | hlate
    · have hlt := h.lt
      exact .inr ⟨b₀, held_between (by omega) hb₀ (by omega) (by omega), i, hearly, h⟩
    · exact .inl ⟨i, by omega, h.outwards hos hk (by omega) hb hlate⟩

theorem nearest_of_begins (hm : ((new capacity).trail os)[k]? = some m) (hk : m.kind = .begins) :
    Option.Rel (fun b (outer : Marker) => Flagged ((new capacity).trail os) k b outer.flags)
      (held ((new capacity).trail os) k).head? (nearest? m.before.ancestors) := by
  obtain ⟨-, hroot, -⟩ := begin_of_kind hk
  obtain ⟨hlt, hbefore⟩ := before_of_trail hm
  have hnearest : nearest? m.before.ancestors = m.before.markers.head? := by
    rw [← nearest_eq_head]
    have hnone : m.before.top.frame.marker = none := by
      simpa [Node.isTraceRoot, Frame.isTraceRoot] using hroot
    simp [slots, nearest?, hnone]
  have htallies := tallies_of_trail capacity os (Nat.le_of_lt hlt)
  rw [← hbefore, Tallies, List.forall₂_map_right_iff] at htallies
  rw [hnearest]
  generalize held ((new capacity).trail os) k = bs at htallies
  generalize m.before.markers = markers at htallies
  cases htallies with
  | nil => exact .none
  | cons h _ => exact .some h

theorem Earned.mono {b k' : Nat} (h : Earned ms f k b) (hk : k ≤ k') : Earned ms f k' b := by
  rcases h with ⟨i, hi, h⟩ | h
  · exact .inl ⟨i, Nat.lt_of_lt_of_le hi hk, h⟩
  · exact .inr h

theorem Candid.markerFlags (hos : Candid os) (hf : f = .overflow ∨ f = .error) (o : Occurrence)
    (ho : o ∈ os) : o.event.markerFlags.has f = false := by
  rcases hf with rfl | rfl
  · exact hos.overflow o ho
  · exact hos.error o ho

theorem earned_of_given (hos : Candid os) (hf : f = .overflow ∨ f = .error) (k b : Nat)
    (hk : k ≤ os.length) (h : Given ((new capacity).trail os) k b (Flag.bit f)) :
    Earned ((new capacity).trail os) f k b := by
  obtain ⟨i, hi, s, hs, hj⟩ := h
  cases hs with
  | @enclosing m outer hm hkind houter =>
    have hnearest := nearest_of_begins hm hkind
    rw [houter] at hnearest
    generalize hhead : (held ((new capacity).trail os) b).head? = b₁ at hnearest
    cases hnearest with
    | @some b₀ _ hflagged =>
      have hmem : b₀ ∈ held ((new capacity).trail os) b := List.mem_of_head? hhead
      have houtside := earned_of_given hos hf b b₀ (by omega) ((hflagged _).mp hj)
      rcases houtside with ⟨i, hi, h⟩ | ⟨b₁, hb₁, i, hi, h⟩
      · exact .inr ⟨b₀, hmem, i, hi, h⟩
      · have hlt := lt_of_held hm b₀ hmem
        exact .inr ⟨b₁, held_outside (by omega) hmem hb₁, i, by omega, h⟩
  | @passed m traceId clock flags hm hkind hevent =>
    have hnone := hos.markerFlags hf m.toOccurrence (List.mem_of_getElem? (occurrence_of_trail hm))
    rw [hevent] at hnone
    cases hnone.symm.trans hj
  | configured hm hkind hdrop =>
    have hbit := (MarkerFlags.holds_single _ _).mp hj
    rcases hf with rfl | rfl <;> cases hbit
  | @marked i m traceId flags hm hon hevent hb =>
    have hnone := hos.markerFlags hf m.toOccurrence (List.mem_of_getElem? (occurrence_of_trail hm))
    rw [hevent] at hnone
    cases hnone.symm.trans hj
  | @inherited i m inner hm hkind hb hinner =>
    have hlt := (before_of_trail hm).1
    obtain ⟨c, cs, b', hcs, hc⟩ := begun_of_marker hm hkind hinner
    obtain ⟨inner', hinner', -, hflagged⟩ := flagged_at_close hm hkind hcs hc
    obtain rfl := Option.some.inj (hinner.symm.trans hinner')
    rw [FlagSet.holds_inter, Bool.and_eq_true] at hj
    rw [around_of_closes hm hkind] at hb
    have hmem := List.mem_of_head? hb
    have hb' := held_of_ended (ended_of_begun hm hkind hcs hc)
    have hafter := lt_of_held hm b' hb'
    have hinside : b < b' := by
      obtain ⟨c', cs', hcs', -, hheld⟩ := calls_of_closes hm hkind
      obtain ⟨rfl, rfl⟩ := List.cons.inj (hcs.symm.trans hcs')
      exact lt_of_around hm hcs hc b (hheld ▸ hmem)
    have hearned := earned_of_given hos hf (i + 1) b' hlt ((hflagged _).mp hj.1)
    exact (earned_outwards hos hlt hmem hinside (by omega) hearned).mono hi
  | overflowed hm hkind hb hflag =>
    have hbit := (MarkerFlags.holds_single _ _).mp hj
    have hmem := List.mem_of_head? ((around_of_closes hm hkind).symm.trans hb)
    rcases hf with rfl | rfl
    · exact .inl ⟨i, hi, (leavesOut_iff hos hm hkind hmem).mpr hflag⟩
    · cases hbit
  | failed hm hended herror =>
    have hbit := (MarkerFlags.holds_single _ _).mp hj
    have hkind := kind_of_ended hm hended
    rcases hf with rfl | rfl
    · cases hbit
    · exact .inl ⟨i, hi, _, b, hm, (failed_iff hos hm hkind).mp herror, hended, .inl rfl⟩
termination_by (k, k - b)
decreasing_by all_goals simp only [Prod.lex_def]; omega

/-! ### What a mark is sure to be there for -/

theorem marked_of_fails (hos : Candid os) (hm : ((new capacity).trail os)[k]? = some m)
    (hfails : m.fails) {b : Nat} (hended : (b, .submitted) ∈ endedAt ((new capacity).trail os) k) :
    ∃ marker, m.settled.node.frame.marker = some marker ∧
      marker.flags.holds (Flag.bit MarkerFlag.error) := by
  obtain ⟨m', c, cs, hm', hk, hcs, ⟨-, hway⟩ | ⟨hc, -⟩⟩ := mem_endedAt hended
  · cases hway
  obtain rfl := Option.some.inj (hm.symm.trans hm')
  obtain ⟨marker, hmarker, -, hflagged⟩ := flagged_at_close hm hk hcs hc
  refine ⟨marker, hmarker, (hflagged _).mpr ⟨k, Nat.lt_succ_self k, _,
    .failed hm hended ((failed_iff hos hm hk).mpr hfails), ?_⟩⟩
  exact (MarkerFlags.holds_single _ _).mpr rfl

theorem told_of_evidence (hos : Candid os) (hm : ((new capacity).trail os)[k]? = some m) {b : Nat}
    (h : Evidence ((new capacity).trail os) b k f)
    (hb : b ∈ held ((new capacity).trail os) (k + 1)) : m.told.holds (Flag.bit f) := by
  obtain ⟨m', hm', hk⟩ := h.closes
  obtain rfl := Option.some.inj (hm.symm.trans hm')
  cases f with
  | overflow =>
    have hflag := (leavesOut_iff hos hm hk hb).mp h
    rw [Moment.told, FlagSet.holds_union, if_pos hflag, Bool.or_eq_true]
    exact .inr ((MarkerFlags.holds_single _ _).mpr rfl)
  | error =>
    obtain ⟨m', b', hm', hfails, hended, -⟩ := h
    obtain rfl := Option.some.inj (hm.symm.trans hm')
    obtain ⟨inner, hinner, hmark⟩ := marked_of_fails hos hm hfails hended
    exact told_of_inner hinner ((MarkerFlags.holds_inheritable _).mpr (.inr rfl)) hmark
  | _ => exact h.elim

theorem Evidence.inheritable {b i : Nat} (h : Evidence ms b i f) :
    MarkerFlags.inheritable.holds (Flag.bit f) := by
  rw [MarkerFlags.holds_inheritable]
  cases f with
  | overflow => exact .inl rfl
  | error => exact .inr rfl
  | _ => exact h.elim

theorem reached_of_evidence (hos : Candid os) (hk : k ≤ os.length) {b i : Nat}
    (h : Evidence ((new capacity).trail os) b i f) (hi : i < k)
    (hb : b ∈ held ((new capacity).trail os) k) :
    Reached ((new capacity).trail os) k b (Flag.bit f) := by
  obtain ⟨m, hm, hclose⟩ := h.closes
  have hlt := h.lt
  have hthen := held_between hk hb (Nat.lt_succ_of_lt hlt) hi
  have hstart := reached_of_told hm hclose hthen (told_of_evidence hos hm h hthen)
  rw [← rooted_of_closes hm hclose] at hthen
  exact reached_while_held h.inheritable (Nat.lt_succ_of_lt hlt) hthen hstart hi hk hb

theorem given_at_begin (hos : Candid os) (b : Nat) {m : Moment}
    (hm : ((new capacity).trail os)[b]? = some m) (hk : m.kind = .begins) {b₀ i : Nat}
    (hb₀ : b₀ ∈ held ((new capacity).trail os) b) (hi : i < b)
    (h : Evidence ((new capacity).trail os) b₀ i f) :
    Given ((new capacity).trail os) (b + 1) b (Flag.bit f) := by
  have hle := Nat.le_of_lt (before_of_trail hm).1
  have hsorted := (sorted_of_moment hm).1
  have hnearest := nearest_of_begins hm hk
  generalize hheld : held ((new capacity).trail os) b = bs at hsorted hnearest
  cases bs with
  | nil =>
    rw [hheld] at hb₀
    cases hb₀
  | cons b₁ bs =>
    have hmem : b₁ ∈ held ((new capacity).trail os) b := by simp [hheld]
    rw [List.head?_cons] at hnearest
    generalize houter : nearest? m.before.ancestors = outer at hnearest
    cases hnearest with
    | @some _ outer hflagged =>
      refine ⟨b, Nat.lt_succ_self b, _, .enclosing hm hk houter, (hflagged _).mpr ?_⟩
      rcases Nat.lt_or_ge i b₁ with hearly | hlate
      · -- The nearest trace took the mark over itself.
        have hlt := h.lt
        have hopened := (((accounted_of_trail capacity os hle).held_iff b₁).mp hmem).1
        obtain ⟨hlt₁, m₁, hm₁, hk₁⟩ := mem_begins.mp hopened
        have hbelow := held_between hle hb₀ (Nat.lt_trans hlt hearly) (Nat.le_of_lt hlt₁)
        exact (given_at_begin hos b₁ hm₁ hk₁ hbelow hearly h).mono hlt₁
      · have hinside := h.outwards hos hle hi hmem hlate
        obtain ⟨b', hb', hge, hgiven⟩ := reached_of_evidence hos hle hinside hi hmem
        have hsame : b' = b₁ := by
          rcases List.mem_cons.mp (hheld ▸ rooted_held hb') with rfl | hb'
          · rfl
          · have hgt := (List.pairwise_cons.mp hsorted).1 b' hb'
            omega
        exact hsame ▸ hgiven

theorem earned_iff (hos : Candid os) (hf : f = .overflow ∨ f = .error)
    (hm : ((new capacity).trail os)[k]? = some m) {b : Nat}
    (hended : (b, .submitted) ∈ endedAt ((new capacity).trail os) k) {marker : Marker}
    (hmarker : m.settled.node.frame.marker = some marker) :
    marker.flags.has f ↔ Earned ((new capacity).trail os) f (k + 1) b := by
  obtain ⟨m', c, cs, hm', hk, hcs, ⟨-, hway⟩ | ⟨hc, -⟩⟩ := mem_endedAt hended
  · cases hway
  obtain rfl := Option.some.inj (hm.symm.trans hm')
  obtain ⟨hlt, hbefore⟩ := before_of_trail hm
  obtain ⟨marker', hmarker', -, hflagged⟩ := flagged_at_close hm hk hcs hc
  obtain rfl := Option.some.inj (hmarker.symm.trans hmarker')
  have hheld := held_of_ended hended
  rw [FlagSet.has_eq_holds, hflagged]
  refine ⟨earned_of_given hos hf (k + 1) b hlt, ?_⟩
  rintro (⟨i, hi, h⟩ | ⟨b₀, hb₀, i, hi, h⟩)
  · rcases Nat.lt_succ_iff_lt_or_eq.mp hi with hi | rfl
    · have hreached := reached_of_evidence hos (Nat.le_of_lt hlt) h hi hheld
      obtain ⟨marker', hmarker', -, hholds⟩ := holds_at_close hm hk hcs hc hreached
      obtain rfl := Option.some.inj (hmarker.symm.trans hmarker')
      exact (hflagged _).mp hholds
    · -- The trace ends, so it is not around the call, but fails itself.
      rcases hf with rfl | rfl
      · exact absurd hended (not_ended hlt h.1 _)
      · obtain ⟨m', -, hm', hfails, -⟩ := h
        obtain rfl := Option.some.inj (hm.symm.trans hm')
        obtain ⟨marker', hmarker', hholds⟩ := marked_of_fails hos hm hfails hended
        obtain rfl := Option.some.inj (hmarker.symm.trans hmarker')
        exact (hflagged _).mp hholds
  · have hopened := (((accounted_of_trail capacity os (Nat.le_of_lt hlt)).held_iff b).mp hheld).1
    obtain ⟨hbk, m₀, hm₀, hk₀⟩ := mem_begins.mp hopened
    exact (given_at_begin hos b hm₀ hk₀ hb₀ hi h).mono (Nat.succ_le_succ (Nat.le_of_lt hbk))

/-- A submitted trace has the overflow mark just if a call that was over the node budget closed
inside it, and the error mark just if an error ended it or a submitted trace inside it, or if this
was so for a trace around it when it was opened. -/
theorem status_marks_iff (capacity : Nat) (os : List Occurrence) (hos : Candid os) {k : Nat}
    {m : Moment} {tree : Node} {marker : Marker} (hm : ((new capacity).trail os)[k]? = some m)
    (ht : m.tree? = some tree) (hmarker : tree.frame.marker = some marker) :
    let ms := (new capacity).trail os
    ∃ b, (b, .submitted) ∈ endedAt ms k ∧ Marks ms b marker ∧
      (marker.flags.has .overflow ↔
        (∃ i ≤ k, LeavesOut ms b i) ∨ ∃ b₀ ∈ held ms b, ∃ i < b, LeavesOut ms b₀ i) ∧
      (marker.flags.has .error ↔
        (∃ i ≤ k, FailsIn ms b i) ∨ ∃ b₀ ∈ held ms b, ∃ i < b, FailsIn ms b₀ i) := by
  intro ms
  obtain ⟨b, hended⟩ := (accounts_of_trail hm).submitted.mp (by rw [ht]; rfl)
  obtain ⟨hk, -, rfl⟩ := Moment.submitted_spec (sound_of_trail hm) ht
  have hmarks : Marks ms b marker := by
    obtain ⟨_, c, cs, -, -, hcs, ⟨-, hway⟩ | ⟨hc, -⟩⟩ := mem_endedAt hended
    · cases hway
    obtain ⟨marker', hmarker', hmarks, -⟩ := flagged_at_close hm hk hcs hc
    obtain rfl := Option.some.inj (hmarker.symm.trans hmarker')
    exact hmarks
  have hover := earned_iff hos (.inl rfl) hm hended hmarker
  have herror := earned_iff hos (.inr rfl) hm hended hmarker
  simp only [Earned, Nat.lt_succ_iff] at hover herror
  exact ⟨b, hended, hmarks, hover, herror⟩

/-- A trace overflows and ends with an error. A trace that is opened after it inside the same one
does neither. -/
def laterTrace : List Occurrence :=
  occurrences { minTraceTime := 0, maxTraceRecords := 3 }
    [.enter 1 1 1 0, .begin 7 0 ∅, .enter 2 2 2 10, .begin 8 0 ∅, .enter 3 3 3 11, .enter 4 4 4 12,
      .exit 13, .exit 14, .fail ⟨⟨1, 9, "", []⟩, []⟩ 20, .enter 5 5 5 30, .begin 9 0 ∅, .exit 40,
      .exit 300]

theorem quiet_laterTrace : ∀ i ≤ 11, ¬LeavesOut ((new 0).trail laterTrace) 10 i ∧
    ¬FailsIn ((new 0).trail laterTrace) 10 i := by
  intro i hi
  have hgone : 10 ∉ held ((new 0).trail laterTrace) 12 := by decide
  have hexit : ((new 0).trail laterTrace)[11]?.all (!·.fails) := by decide
  refine ⟨fun h => ?_, fun h => ?_⟩
  · have hlt := Evidence.lt (f := .overflow) h
    obtain rfl : i = 11 := by omega
    exact hgone h.1
  · have hlt := Evidence.lt (f := .error) h
    obtain rfl : i = 11 := by omega
    obtain ⟨m, b', hm, hfails, -⟩ := h
    rw [hm] at hexit
    simp [hfails] at hexit

theorem status_marks_iff_of_laterTrace :
    let ms := (new 0).trail laterTrace
    ∃ m tree marker, ms[11]? = some m ∧ m.tree? = some tree ∧ tree.frame.marker = some marker ∧
      Marks ms 10 marker ∧ marker.flags.has .overflow ∧ marker.flags.has .error ∧
      (∃ b₀ ∈ held ms 10, ∃ i < 10, LeavesOut ms b₀ i) ∧
      ∃ b₀ ∈ held ms 10, ∃ i < 10, FailsIn ms b₀ i := by
  intro ms
  have hcandid : Candid laterTrace := ⟨by decide, by decide, by decide, by decide⟩
  obtain ⟨m, tree, marker, hm, ht, hmarker, hflags⟩ : ∃ m tree marker, ms[11]? = some m ∧
      m.tree? = some tree ∧ tree.frame.marker = some marker ∧
      (marker.flags.has .overflow && marker.flags.has .error) = true :=
    ⟨_, _, _, rfl, rfl, rfl, by decide⟩
  obtain ⟨b, hended, hmarks, hover, herror⟩ := status_marks_iff 0 laterTrace hcandid hm ht hmarker
  have hends : endedAt ms 11 = [(10, .submitted)] := by decide
  rw [hends, List.mem_singleton] at hended
  cases hended
  rw [Bool.and_eq_true] at hflags
  refine ⟨m, tree, marker, hm, ht, hmarker, hmarks, hflags.1, hflags.2, ?_, ?_⟩
  · rcases hover.mp hflags.1 with ⟨i, hi, h⟩ | h
    · exact absurd h (quiet_laterTrace i hi).1
    · exact h
  · rcases herror.mp hflags.2 with ⟨i, hi, h⟩ | h
    · exact absurd h (quiet_laterTrace i hi).2
    · exact h

/-- A submitted trace has both marks, though since it was opened no error closed a call and no call
over the budget closed inside it. -/
theorem marks_without_cause :
    let ms := (new 0).trail laterTrace
    Candid laterTrace ∧ ∃ m tree marker, ms[11]? = some m ∧ m.tree? = some tree ∧
      tree.frame.marker = some marker ∧ Marks ms 10 marker ∧
      marker.flags.has .overflow ∧ marker.flags.has .error ∧
      (∀ i m', 10 < i → i ≤ 11 → ms[i]? = some m' → ¬m'.fails) ∧
      ∀ i ≤ 11, ¬LeavesOut ms 10 i := by
  refine ⟨⟨by decide, by decide, by decide, by decide⟩, _, _, _, rfl, rfl, rfl,
    ⟨_, _, rfl, by decide, rfl⟩, by decide, by decide, ?_, fun i hi => (quiet_laterTrace i hi).1⟩
  intro i m' hlt hle hm'
  obtain rfl : i = 11 := by omega
  obtain rfl := Option.some.inj hm'
  decide

end CallTree
