import CallTree.Proofs.Effects
import Mathlib.Data.List.Induction

/-!
Runs of an assembler: sequences of events, each with what the assembler is given with it, and the
moments at which the events meet it.
-/
namespace CallTree

structure Occurrence where
  env : Surroundings
  event : Event

/-- Events under the settings of a configuration, while no tree is held. -/
def occurrences (c : Config) (es : List Event) : List Occurrence :=
  es.map fun event =>
    { env := { thresholds := .ofConfig c, held := fun _ => false, handle := 0 }, event }

/-- An event that meets a state. -/
structure Moment extends Occurrence where
  before : Assembler

namespace Moment

def after (m : Moment) : Assembler := (m.before.step m.env m.event).1

def outcome (m : Moment) : Outcome := (m.before.step m.env m.event).2

def tree? (m : Moment) : Option Node :=
  match m.outcome.verdict with
  | .submitted tree => some tree
  | _ => none

theorem verdict_of_tree {m : Moment} {tree : Node} (h : m.tree? = some tree) :
    m.outcome.verdict = .submitted tree := by
  unfold tree? at h
  split at h
  case h_1 tree' hverdict => rw [hverdict, Option.some.inj h]
  case h_2 => cases h

def kind (m : Moment) : Kind := m.before.kind m.event

def enters (m : Moment) : Bool := m.kind = .enters

def fails (m : Moment) : Bool := m.kind = .closes && m.event.error?.isSome

def innermost (m : Moment) : Node := m.before.openCalls.headD {}

def outer (m : Moment) : List Node := m.before.openCalls.tail

def closing (m : Moment) : Node := Assembler.finish m.event.time m.event.error? m.innermost

def settled (m : Moment) : Assembler.Settled := Assembler.settle m.env m.closing m.outer

def fate (m : Moment) : Assembler.Fate := Assembler.fateOf m.env m.closing m.outer

theorem enters_spec {m : Moment} (h : m.before.Sound) (hk : m.kind = .enters) :
    ∃ classId methodId signatureId time,
      m.event = .enter classId methodId signatureId time ∧
      Assembler.Entered m.env.thresholds classId methodId signatureId time m.before m.after := by
  obtain ⟨classId, methodId, signatureId, time, hevent, hentered, -⟩ :=
    Assembler.step_enters m.env h hk
  exact ⟨classId, methodId, signatureId, time, hevent, hentered⟩

theorem begins_spec {m : Moment} (hk : m.kind = .begins) : ∃ traceId clock flags,
    m.event = .begin traceId clock flags ∧ m.before.top.isTraceRoot = false ∧
      m.after = m.before.opened m.env.thresholds traceId clock flags := by
  obtain ⟨traceId, clock, flags, hevent, hroot, hstep, -⟩ := Assembler.step_begins m.env hk
  exact ⟨traceId, clock, flags, hevent, hroot, hstep⟩

theorem other_spec {m : Moment} (hk : m.kind = .other) :
    Assembler.Retouches m.event m.before m.after :=
  (Assembler.step_other m.env hk).1

theorem verdict_of_open {m : Moment} (h : m.before.Sound) (hk : m.kind ≠ .closes) :
    m.outcome.verdict = .none := by
  cases hkind : m.kind with
  | enters =>
    obtain ⟨_, _, _, _, -, -, hnone⟩ := Assembler.step_enters m.env h hkind
    exact hnone
  | closes => exact absurd hkind hk
  | begins =>
    obtain ⟨_, _, _, -, -, -, hnone⟩ := Assembler.step_begins m.env hkind
    exact hnone
  | other => exact (Assembler.step_other m.env hkind).2

theorem closes_of_tree {m : Moment} (h : m.before.Sound) {tree : Node}
    (ht : m.tree? = some tree) : m.kind = .closes := by
  by_contra hopen
  rw [tree?, verdict_of_open h hopen] at ht
  cases ht

/-- The open calls around the closing one, when their traces have taken over from its trace. -/
def around (m : Moment) : List Node := Assembler.around m.env m.closing m.outer

def parent (m : Moment) (q : Node) : Node := Assembler.parentOf m.env m.closing m.outer q

theorem around_touched (m : Moment) : Assembler.AllTouched m.outer m.around :=
  Assembler.around_touched m.env m.closing m.outer

theorem fate_of_alone {m : Moment} (h : m.around = []) : m.fate = .discard ∨ m.fate = .leave := by
  have htouched := m.around_touched
  rw [h] at htouched
  exact Assembler.fateOf_outside (by simp [List.forall₂_nil_right_iff.mp htouched])

theorem parent_eq (m : Moment) (q : Node) : m.parent q =
    Assembler.keep m.env.held m.settled.node m.fate (Assembler.rollUp m.closing.frame q) := rfl

theorem parent_frame (m : Moment) (q : Node) :
    (m.parent q).frame = (Assembler.rollUp m.closing.frame q).frame := by
  rw [parent_eq]
  cases m.fate <;> rfl

theorem parent_isTraceRoot (m : Moment) (q : Node) :
    (m.parent q).isTraceRoot = q.isTraceRoot := by
  rw [Node.isTraceRoot, parent_frame]
  rfl

structure Closes (m : Moment) : Prop where
  before : m.before.openCalls = m.innermost :: m.outer
  after : m.after.openCalls = m.around.modifyHead m.parent
  awaited : m.after.awaited = {}
  nodeCount : m.after.nodeCount = if m.outer.any (·.isTraceRoot) then
    Assembler.remaining m.before.nodeCount m.closing m.fate else 0
  enabled : m.after.enabled = m.before.enabled
  verdict : m.outcome.verdict = m.settled.verdict

theorem closes_spec {m : Moment} (h : m.before.Sound) (hk : m.kind = .closes) : m.Closes := by
  obtain ⟨n, outer, hopen, hclosed, hverdict⟩ := Assembler.step_closes m.env h hk
  have hinnermost : m.innermost = n := by rw [innermost, hopen]; rfl
  have houter : m.outer = outer := by rw [Moment.outer, hopen]; rfl
  rw [← hinnermost, ← houter] at hclosed hverdict
  exact ⟨by rw [hopen, hinnermost, houter], hclosed.openCalls, hclosed.awaited, hclosed.nodeCount,
    hclosed.enabled, hverdict⟩

theorem after_of_closes {m : Moment} (h : m.before.Sound) (hk : m.kind = .closes) :
    m.after =
      let a := Assembler.carryOut m.env.held
        { m.before.closingAs m.env.held m.closing m.outer with
          ancestors := m.around.modifyHead (Assembler.rollUp m.closing.frame) }
        m.settled.node m.fate
      if m.outer.any (·.isTraceRoot) then a else { a with nodeCount := 0 } := by
  have hclose := Assembler.step_of_close m.env hk
    (Assembler.close_eq m.env m.event.time m.event.error? h (closes_spec h hk).before)
  rw [after, hclose]
  exact Assembler.compact_eq m.env _

end Moment

namespace Assembler

def after (a : Assembler) : List Occurrence → Assembler
  | [] => a
  | o :: os => (a.step o.env o.event).1.after os

def trail (a : Assembler) : List Occurrence → List Moment
  | [] => []
  | o :: os => ⟨o, a⟩ :: (a.step o.env o.event).1.trail os

theorem after_append (a : Assembler) (os os' : List Occurrence) :
    a.after (os ++ os') = (a.after os).after os' := by
  induction os generalizing a with
  | nil => rfl
  | cons o os ih => exact ih _

theorem trail_append (a : Assembler) (os os' : List Occurrence) :
    a.trail (os ++ os') = a.trail os ++ (a.after os).trail os' := by
  induction os generalizing a with
  | nil => rfl
  | cons o os ih => exact congrArg _ (ih _)

theorem getElem?_trail (a : Assembler) (os : List Occurrence) (k : Nat) :
    (a.trail os)[k]? = os[k]?.map fun o => ⟨o, a.after (os.take k)⟩ := by
  induction os generalizing a k with
  | nil => rfl
  | cons o os ih =>
    cases k with
    | zero => rfl
    | succ k => exact ih _ k

theorem moment_of_trail (a : Assembler) {os : List Occurrence} {k : Nat} (hk : k < os.length) :
    (a.trail os)[k]? = some ⟨os[k], a.after (os.take k)⟩ := by
  rw [getElem?_trail, List.getElem?_eq_getElem hk]
  rfl

theorem occurrence_of_trail {a : Assembler} {os : List Occurrence} {k : Nat} {m : Moment}
    (hm : (a.trail os)[k]? = some m) : os[k]? = some m.toOccurrence := by
  rw [getElem?_trail] at hm
  obtain ⟨o, ho, rfl⟩ := Option.map_eq_some_iff.mp hm
  exact ho

theorem before_of_trail {a : Assembler} {os : List Occurrence} {k : Nat} {m : Moment}
    (hm : (a.trail os)[k]? = some m) : k < os.length ∧ m.before = a.after (os.take k) := by
  rw [getElem?_trail] at hm
  obtain ⟨o, ho, rfl⟩ := Option.map_eq_some_iff.mp hm
  exact ⟨(List.getElem?_eq_some_iff.mp ho).1, rfl⟩

theorem after_of_trail {a : Assembler} {os : List Occurrence} {k : Nat} {m : Moment}
    (hm : (a.trail os)[k]? = some m) : m.after = a.after (os.take (k + 1)) := by
  rw [getElem?_trail] at hm
  obtain ⟨o, ho, rfl⟩ := Option.map_eq_some_iff.mp hm
  rw [List.take_add_one, ho, after_append]
  rfl

theorem Sound.after {a : Assembler} (h : a.Sound) (os : List Occurrence) : (a.after os).Sound := by
  induction os generalizing a with
  | nil => exact h
  | cons o os ih => exact ih (h.step o.env o.event)

/-- What holds of a new assembler and is kept at each moment of its run holds all along. -/
theorem trail_induction (capacity : Nat) (os : List Occurrence) {P : Nat → Assembler → Prop}
    (start : P 0 (new capacity))
    (next : ∀ k m, ((new capacity).trail os)[k]? = some m → m.before.Sound →
      P k m.before → P (k + 1) m.after) {k : Nat} (hk : k ≤ os.length) :
    P k ((new capacity).after (os.take k)) := by
  induction k with
  | zero => exact start
  | succ k ih =>
    have hm := moment_of_trail (new capacity) hk
    have hsound := (sound_new capacity).after (os.take k)
    rw [← after_of_trail hm]
    exact next k _ hm hsound (ih (by omega))

theorem sound_of_trail {capacity : Nat} {os : List Occurrence} {k : Nat} {m : Moment}
    (hm : ((new capacity).trail os)[k]? = some m) : m.before.Sound := by
  rw [(before_of_trail hm).2]
  exact (sound_new capacity).after (os.take k)

end Assembler

end CallTree
