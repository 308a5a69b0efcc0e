import CallTree.Proofs.Depiction
import CallTree.Proofs.Nesting
import Mathlib.Algebra.GroupWithZero.Nat

/-!
The calls and errors of a frame are those of its window: of the events from the one that entered
the call to the one that closed it. Each close hands its counts on exactly once, whatever becomes
of the node.
-/
namespace CallTree
open Assembler

def upTo (p : Moment → Bool) (ms : List Moment) (k : Nat) : Nat := (ms.take k).countP p

def Span.window (s : Span) (ms : List Moment) : List Moment :=
  (ms.take (s.closed + 1)).drop s.entered

theorem upTo_succ {ms : List Moment} {k : Nat} {m : Moment} (hm : ms[k]? = some m)
    (p : Moment → Bool) : upTo p ms (k + 1) = upTo p ms k + if p m then 1 else 0 := by
  simp only [upTo, List.take_add_one, hm, List.countP_append, Option.toList_some,
    List.countP_singleton]

theorem upTo_add_window (p : Moment → Bool) (ms : List Moment) {s : Span}
    (h : s.entered ≤ s.closed + 1) :
    upTo p ms s.entered + (s.window ms).countP p = upTo p ms (s.closed + 1) := by
  have htake : ms.take s.entered = (ms.take (s.closed + 1)).take s.entered := by
    rw [List.take_take, Nat.min_eq_left h]
  rw [upTo, upTo, Span.window, htake, ← List.countP_append, List.take_append_drop]

/-! ### Counters -/

/-- A field of the frames that counts the events that satisfy `p`: an event counts for the call
that it enters or closes, and a call that closes hands its count on to its parent. -/
structure Counter (count : Frame → Nat) (p : Moment → Bool) : Prop where
  alike : ∀ n n' : Node, n.Alike n' → count n'.frame = count n.frame
  entered : ∀ m : Moment, m.before.Sound → m.kind = .enters →
    ∀ t classId methodId signatureId time,
      count (m.before.arrival t classId methodId signatureId time) = if p m then 1 else 0
  closed : ∀ m : Moment, m.kind = .closes →
    count m.closing.frame = count m.innermost.frame + if p m then 1 else 0
  rollUp : ∀ f (q : Node), count (rollUp f q).frame = count q.frame + count f
  idle : ∀ m : Moment, m.kind ≠ .enters → m.kind ≠ .closes → p m = false

theorem closing_frame (m : Moment) : ∃ error flags, m.closing.frame = { m.innermost.frame with
    duration := m.event.time - m.innermost.frame.startTime.getD 0
    errors := m.innermost.frame.errors + if m.event.error?.isSome then 1 else 0
    error
    flags } := by
  obtain ⟨error, flags, heq, -⟩ := finish_eq m.event.time m.event.error? m.innermost
  exact ⟨error, flags, by rw [Moment.closing, heq]⟩

theorem counter_calls : Counter (·.calls) Moment.enters where
  alike n n' h := by rw [h.record]
  entered m hsound hk t classId methodId signatureId time := by
    obtain ⟨flags, heq⟩ := arrival_eq hsound t classId methodId signatureId time
    simp [heq, Moment.enters, hk]
  closed m hk := by
    obtain ⟨error, flags, heq⟩ := closing_frame m
    simp [heq, Moment.enters, hk]
  rollUp _ _ := rfl
  idle m hk _ := by simp [Moment.enters, hk]

theorem counter_errors : Counter (·.errors) Moment.fails where
  alike n n' h := by rw [h.record]
  entered m hsound hk t classId methodId signatureId time := by
    obtain ⟨flags, heq⟩ := arrival_eq hsound t classId methodId signatureId time
    simp [heq, Moment.fails, hk]
  closed m hk := by
    obtain ⟨error, flags, heq⟩ := closing_frame m
    simp [heq, Moment.fails, hk]
  rollUp _ _ := rfl
  idle m _ hk := by simp [Moment.fails, hk]

variable {count : Frame → Nat} {p : Moment → Bool} {ms : List Moment}

def Moment.outermost (m : Moment) : Bool := m.kind = .closes && m.before.depth == 1

/-- What the outermost calls that closed before event `k` have counted. -/
def credited (count : Frame → Nat) (ms : List Moment) (k : Nat) : Nat :=
  (((ms.take k).filter Moment.outermost).map (count ·.closing.frame)).sum

theorem credited_succ {k : Nat} {m : Moment} (hm : ms[k]? = some m) (count : Frame → Nat) :
    credited count ms (k + 1) =
      credited count ms k + if m.outermost then count m.closing.frame else 0 := by
  simp only [credited, List.take_add_one, hm, Option.toList_some, List.filter_append,
    List.map_append, List.sum_append, List.filter_singleton]
  cases m.outermost <;> simp

/-- Each open call has counted the events since its entry, except those that the calls still open
inside it have counted. The events before the outermost one were credited to closed calls. -/
def Counted (count : Frame → Nat) (p : Moment → Bool) (ms : List Moment) (credit : Nat) :
    Nat → List Nat → List Node → Prop
  | hi, [], [] => credit = upTo p ms hi
  | hi, i :: is, n :: ns =>
    upTo p ms i + count n.frame = upTo p ms hi ∧ Counted count p ms credit i is ns
  | _, _, _ => False

namespace Counted

variable {credit hi : Nat} {is : List Nat} {ns : List Node}

theorem alike (hcount : Counter count p) {ns' : List Node}
    (h : Counted count p ms credit hi is ns) (hns : List.Forall₂ Node.Alike ns ns') :
    Counted count p ms credit hi is ns' := by
  induction hns generalizing hi is with
  | nil => exact h
  | cons hn _ ih =>
    cases is with
    | nil => exact h
    | cons i is => exact ⟨by rw [hcount.alike _ _ hn]; exact h.1, ih h.2⟩

theorem later {hi' : Nat} (h : Counted count p ms credit hi is ns)
    (heq : upTo p ms hi' = upTo p ms hi) : Counted count p ms credit hi' is ns := by
  cases is with
  | nil =>
    cases ns with
    | nil => exact h.trans heq.symm
    | cons => exact h
  | cons i is =>
    cases ns with
    | nil => exact h
    | cons n ns => exact ⟨heq ▸ h.1, h.2⟩

theorem sum (h : Counted count p ms credit hi is ns) :
    (ns.map (count ·.frame)).sum + credit = upTo p ms hi := by
  induction ns generalizing hi is with
  | nil =>
    cases is with
    | nil => simpa [Counted] using h
    | cons => exact absurd h id
  | cons n ns ih =>
    cases is with
    | nil => exact absurd h id
    | cons i is =>
      obtain ⟨hn, hns⟩ := h
      have hsum := ih hns
      simp only [List.map_cons, List.sum_cons]
      omega

theorem close (hcount : Counter count p) {k : Nat} {m : Moment} (hm : ms[k]? = some m)
    (hk : m.kind = .closes) (hopen : m.before.openCalls = m.innermost :: m.outer)
    (h : Counted count p ms (credited count ms k) k is (m.innermost :: m.outer)) :
    Counted count p ms (credited count ms (k + 1)) (k + 1) is.tail
      (m.around.modifyHead m.parent) := by
  have hnext := upTo_succ hm p
  have hcredit := credited_succ hm count
  have hclosing := hcount.closed m hk
  have hdepth : m.before.depth = m.outer.length + 1 := by
    rw [← length_openCalls, hopen, List.length_cons]
  simp only [Moment.outermost, hk, hdepth, decide_true, Bool.true_and] at hcredit
  cases is with
  | nil => exact absurd h id
  | cons i is =>
    obtain ⟨hi, houter⟩ := h
    have hrest := houter.alike hcount m.around_touched.alike
    rw [m.around_touched.length_eq] at hcredit
    generalize m.around = around at hrest hcredit
    cases around with
    | nil =>
      cases is with
      | nil =>
        simp only [List.length_nil, Nat.zero_add, beq_self_eq_true, ↓reduceIte] at hcredit
        have hbase : credited count ms k = upTo p ms i := hrest
        show credited count ms (k + 1) = upTo p ms (k + 1)
        omega
      | cons => exact absurd hrest id
    | cons q qs =>
      cases is with
      | nil => exact absurd hrest id
      | cons j is =>
        obtain ⟨hj, hqs⟩ := hrest
        have hsame : credited count ms (k + 1) = credited count ms k := by
          simpa using hcredit
        have hparent : count (m.parent q).frame = count q.frame + count m.closing.frame := by
          rw [m.parent_frame, hcount.rollUp]
        rw [hsame]
        refine ⟨?_, hqs⟩
        simp only [hparent]
        omega

theorem next (hcount : Counter count p) {k : Nat} {m : Moment} (hm : ms[k]? = some m)
    (hsound : m.before.Sound)
    (h : Counted count p ms (credited count ms k) k (stack (ms.take k)) m.before.openCalls) :
    Counted count p ms (credited count ms (k + 1)) (k + 1) (stack (ms.take (k + 1)))
      m.after.openCalls := by
  have hnext := upTo_succ hm p
  have hcredit (hk : m.kind ≠ .closes) : credited count ms (k + 1) = credited count ms k := by
    simp [credited_succ hm, Moment.outermost, hk]
  rw [stack_succ hm]
  cases hk : m.kind with
  | enters =>
    obtain ⟨classId, methodId, signatureId, time, -, hentered⟩ := Moment.enters_spec hsound hk
    rw [hentered.openCalls, hcredit (by simp [hk])]
    exact ⟨by rw [hnext, hcount.entered m hsound hk], h⟩
  | closes =>
    have hcloses := Moment.closes_spec hsound hk
    rw [hcloses.before] at h
    rw [hcloses.after]
    exact h.close hcount hm hk hcloses.before
  | begins =>
    obtain ⟨traceId, clock, flags, -, -, hafter⟩ := Moment.begins_spec hk
    have hidle := hcount.idle m (by simp [hk]) (by simp [hk])
    rw [hafter, hcredit (by simp [hk])]
    exact (h.alike hcount (opened_alike _ _ _ _ _)).later (by simp [hnext, hidle])
  | other =>
    have htouches := (Moment.other_spec hk).touches
    have hidle := hcount.idle m (by simp [hk]) (by simp [hk])
    rw [hcredit (by simp [hk])]
    exact (h.alike hcount htouches.openCalls.alike).later (by simp [hnext, hidle])

end Counted

variable {capacity : Nat} {os : List Occurrence}

theorem counted_of_trail (hcount : Counter count p) (capacity : Nat) (os : List Occurrence)
    {k : Nat} (hk : k ≤ os.length) :
    Counted count p ((new capacity).trail os) (credited count ((new capacity).trail os) k) k
      (stack (((new capacity).trail os).take k)) ((new capacity).after (os.take k)).openCalls :=
  trail_induction capacity os (P := fun k a => Counted count p ((new capacity).trail os)
    (credited count ((new capacity).trail os) k) k
    (stack (((new capacity).trail os).take k)) a.openCalls) rfl
    (fun _ _ hm hsound h => h.next hcount hm hsound) hk

theorem count_of_call (hcount : Counter count p) {s : Span} {m : Moment}
    (hs : s.IsCall ((new capacity).trail os))
    (hm : ((new capacity).trail os)[s.closed]? = some m) :
    count m.closing.frame = (s.window ((new capacity).trail os)).countP p := by
  have hlt := hs.lt
  obtain ⟨m', hm', hk, hhead⟩ := hs
  obtain rfl : m = m' := Option.some.inj (hm.symm.trans hm')
  obtain ⟨hk', hbefore⟩ := before_of_trail hm
  have hcounted := counted_of_trail hcount capacity os (Nat.le_of_lt hk')
  obtain ⟨is, his⟩ := List.head?_eq_some_iff.mp hhead
  rw [his, ← hbefore, (Moment.closes_spec (sound_of_trail hm) hk).before] at hcounted
  have hinner := hcounted.1
  have hclosing := hcount.closed m hk
  have hnext := upTo_succ hm p
  have hwindow := upTo_add_window p ((new capacity).trail os) (s := s) (by omega)
  omega

/-! ### What nodes record -/

def timeAt (ms : List Moment) (i : Nat) : Nat := (ms[i]?.map (·.event.time)).getD 0

def Span.duration (s : Span) (ms : List Moment) : Nat := timeAt ms s.closed - timeAt ms s.entered

def Span.Encloses (s t : Span) : Prop := s.entered < t.entered ∧ t.closed < s.closed

/-- What a node of a submitted tree records: the call `own`, and the counts of the outermost call
whose place it took. -/
structure Records (ms : List Moment) (own outer : Span) (f : Frame) : Prop where
  own_isCall : own.IsCall ms
  outer_isCall : outer.IsCall ms
  entered : f.EnteredAt ms own.entered
  duration : f.duration = own.duration ms
  place : own = outer ∨ outer.Encloses own ∧ f.flags.has .droppedParent
  calls : f.calls = (outer.window ms).countP Moment.enters
  errors : f.errors = (outer.window ms).countP Moment.fails

theorem records_closing {s : Span} {m : Moment} (hs : s.IsCall ((new capacity).trail os))
    (hm : ((new capacity).trail os)[s.closed]? = some m) :
    Records ((new capacity).trail os) s s m.closing.frame := by
  have hcalls := count_of_call counter_calls hs hm
  have herrors := count_of_call counter_errors hs hm
  have hcall := hs
  obtain ⟨m', hm', hk, hhead⟩ := hs
  obtain rfl : m = m' := Option.some.inj (hm.symm.trans hm')
  obtain ⟨c, cs, hcs, -, hc, -⟩ := closing_call (justifies_true _) hm hk
  have hentered : c.entered = s.entered := by
    simpa [stack, hcs] using hhead
  obtain ⟨m₀, time, hm₀, hk₀, hevent, hstart⟩ := hc.entered
  obtain ⟨error, flags, hframe⟩ := closing_frame m
  refine ⟨hcall, hcall, ?_, ?_, .inl rfl, hcalls, herrors⟩
  · rw [hframe]
    exact ⟨m₀, time, hentered ▸ hm₀, hk₀, hevent, hstart⟩
  · rw [hentered] at hm₀
    simp [hframe, Span.duration, timeAt, hm, hm₀, hevent, hstart, Event.time, Event.time?]

theorem records_settled {s : Span} {m : Moment} (hs : s.IsCall ((new capacity).trail os))
    (hm : ((new capacity).trail os)[s.closed]? = some m) :
    Records ((new capacity).trail os) s s m.settled.node.frame := by
  obtain ⟨hown, houter, hentered, hduration, -, hcalls, herrors⟩ := records_closing hs hm
  rw [Moment.settled, settle_frame]
  exact ⟨hown, houter, hentered, hduration, .inl rfl, hcalls, herrors⟩

theorem justifies_records (capacity : Nat) (os : List Occurrence) :
    Justifies ((new capacity).trail os) (Records ((new capacity).trail os)) where
  attach s m hs hm _ := records_settled hs hm
  elide s m child hs hm _ own outer hentered hclosed h :=
    { own_isCall := h.own_isCall
      outer_isCall := hs
      entered := h.entered
      duration := h.duration
      place := .inr ⟨⟨hentered, hclosed⟩, by simp [Frame.mark]⟩
      calls := count_of_call counter_calls hs hm
      errors := count_of_call counter_errors hs hm }

/-- Every closing frame has the counts of its window, every node of a submitted tree those of the
outermost call whose place it took, and nothing is counted twice or lost. -/
theorem counts_conserved (capacity : Nat) (os : List Occurrence) :
    (∀ k m, ((new capacity).trail os)[k]? = some m → m.kind = .closes →
      ∃ s : Span, s.closed = k ∧ s.IsCall ((new capacity).trail os) ∧
        m.closing.frame.EnteredAt ((new capacity).trail os) s.entered ∧
        m.closing.frame.calls = (s.window ((new capacity).trail os)).countP Moment.enters ∧
        m.closing.frame.errors = (s.window ((new capacity).trail os)).countP Moment.fails) ∧
    (∀ k m tree, ((new capacity).trail os)[k]? = some m → m.tree? = some tree →
      ∃ t : SpanTree, t.own.closed = k ∧ t.outer = t.own ∧
        t.Depicts (Records ((new capacity).trail os)) ((new capacity).trail os) tree) ∧
    ∀ k ≤ os.length,
      (((new capacity).after (os.take k)).openCalls.map (·.frame.calls)).sum +
        credited (·.calls) ((new capacity).trail os) k =
          (((new capacity).trail os).take k).countP Moment.enters ∧
      (((new capacity).after (os.take k)).openCalls.map (·.frame.errors)).sum +
        credited (·.errors) ((new capacity).trail os) k =
          (((new capacity).trail os).take k).countP Moment.fails := by
  refine ⟨fun k m hm hk => ?_, fun k m tree hm ht => ?_, fun k hk => ⟨?_, ?_⟩⟩
  · obtain ⟨c, cs, -, hcall, -, -⟩ := closing_call (justifies_records capacity os) hm hk
    have hrecords := records_closing hcall hm
    exact ⟨⟨c.entered, k⟩, rfl, hcall, hrecords.entered, hrecords.calls, hrecords.errors⟩
  · obtain ⟨c, cs, -, hdepicts⟩ := depicts_of_submitted (justifies_records capacity os)
      (fun s m hs hm _ => records_settled hs hm) hm ht
    exact ⟨_, rfl, rfl, hdepicts⟩
  · exact (counted_of_trail counter_calls capacity os hk).sum
  · exact (counted_of_trail counter_errors capacity os hk).sum

/-- An outermost trace on the first of two nested calls, the inner one ending with an error. -/
def nestedCalls : List Occurrence :=
  occurrences {} [.begin 1 0 (.single .submit), .enter 2 3 4 10, .enter 2 5 4 11,
    .fail ⟨⟨6, 7, "", []⟩, []⟩ 12, .exit 13]

theorem counts_conserved_of_nestedCalls :
    ∃ m tree, ((new 0).trail nestedCalls)[4]? = some m ∧ m.tree? = some tree ∧
      ∃ t : SpanTree, t.own.closed = 4 ∧ t.outer = t.own ∧
        t.Depicts (Records ((new 0).trail nestedCalls)) ((new 0).trail nestedCalls) tree :=
  ⟨_, _, rfl, rfl, (counts_conserved 0 nestedCalls).2.1 4 _ _ rfl rfl⟩

end CallTree
