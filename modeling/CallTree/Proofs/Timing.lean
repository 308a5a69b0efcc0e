import CallTree.Proofs.Counts

/-!
The intervals of a submitted tree. As long as times do not go back, each call lies inside the call
that it is kept below, and siblings follow one another.
-/
namespace CallTree
open Assembler

def clock (ms : List Moment) : List Nat :=
  (ms.filter fun m => m.kind = .enters ∨ m.kind = .closes).map (·.event.time)

/-- The node has a start. Its children lie inside its interval, and each one ends before the next
one starts. -/
def Node.Timed (n : Node) : Prop :=
  ∃ start, n.frame.startTime = some start ∧
    (∀ child ∈ n.children, ∃ s, child.frame.startTime = some s ∧
      start ≤ s ∧ s + child.frame.duration ≤ start + n.frame.duration) ∧
    n.children.Pairwise fun child next =>
      ∀ s ∈ child.frame.startTime, ∀ s' ∈ next.frame.startTime, s + child.frame.duration ≤ s'

variable {ms : List Moment}

theorem clock_cons (m : Moment) (ms : List Moment) : clock (m :: ms) =
    if m.kind = .enters ∨ m.kind = .closes then m.event.time :: clock ms else clock ms := by
  unfold clock
  rw [List.filter_cons]
  simp only [decide_eq_true_eq]
  split <;> rfl

theorem mem_clock {m : Moment} {i : Nat} (hm : ms[i]? = some m)
    (hk : m.kind = .enters ∨ m.kind = .closes) : m.event.time ∈ clock ms := by
  refine List.mem_map_of_mem (List.mem_filter.mpr ⟨List.mem_of_getElem? hm, ?_⟩)
  simpa using hk

/-- The clock of a run leaves out the times of events that are refused. -/
theorem clock_sublist (a : Assembler) (os : List Occurrence) :
    (clock (a.trail os)).Sublist (os.filterMap (·.event.time?)) := by
  induction os generalizing a with
  | nil => exact .refl _
  | cons o os ih =>
    rw [Assembler.trail, clock_cons, List.filterMap_cons]
    split
    case isTrue hk =>
      rw [show o.event.time? = some o.event.time from time?_of_kind hk]
      exact (ih _).cons_cons _
    case isFalse =>
      split
      · exact ih _
      · exact (ih _).cons _

theorem timeAt_mono (hclock : (clock ms).Pairwise (· ≤ ·)) {i j : Nat} (hij : i ≤ j)
    {m m' : Moment} (hm : ms[i]? = some m) (hm' : ms[j]? = some m')
    (hk : m.kind = .enters ∨ m.kind = .closes) (hk' : m'.kind = .enters ∨ m'.kind = .closes) :
    timeAt ms i ≤ timeAt ms j := by
  simp only [timeAt, hm, hm', Option.map_some, Option.getD_some]
  induction ms generalizing i j with
  | nil => cases hm
  | cons first ms ih =>
    rw [clock_cons] at hclock
    have hrest : (clock ms).Pairwise (· ≤ ·) := by
      split at hclock
      · exact (List.pairwise_cons.mp hclock).2
      · exact hclock
    cases j with
    | zero =>
      obtain rfl : i = 0 := by omega
      obtain rfl := Option.some.inj (hm.symm.trans hm')
      exact Nat.le_refl _
    | succ j =>
      rw [List.getElem?_cons_succ] at hm'
      cases i with
      | zero =>
        obtain rfl := Option.some.inj hm
        rw [if_pos hk] at hclock
        exact (List.pairwise_cons.mp hclock).1 _ (mem_clock hm' hk')
      | succ i => exact ih hrest (by omega) hm hm'

/-! ### Calls and their intervals -/

section

variable (hclock : (clock ms).Pairwise (· ≤ ·))
include hclock

theorem Span.IsCall.timeAt_le {x : Span} (hx : x.IsCall ms) :
    timeAt ms x.entered ≤ timeAt ms x.closed := by
  obtain ⟨m, hm, hk⟩ := hx.enters
  have hlt := hx.lt
  obtain ⟨m', hm', hk', -⟩ := hx
  exact timeAt_mono hclock (Nat.le_of_lt hlt) hm hm' (.inl hk) (.inr hk')

theorem Span.IsCall.timeAt_inside {x y : Span} (hx : x.IsCall ms) (hy : y.IsCall ms)
    (hentered : x.entered ≤ y.entered) (hclosed : y.closed ≤ x.closed) :
    timeAt ms x.entered ≤ timeAt ms y.entered ∧ timeAt ms y.closed ≤ timeAt ms x.closed := by
  obtain ⟨mx, hmx, hkx⟩ := hx.enters
  obtain ⟨my, hmy, hky⟩ := hy.enters
  obtain ⟨mx', hmx', hkx', -⟩ := hx
  obtain ⟨my', hmy', hky', -⟩ := hy
  exact ⟨timeAt_mono hclock hentered hmx hmy (.inl hkx) (.inl hky),
    timeAt_mono hclock hclosed hmy' hmx' (.inr hky') (.inr hkx')⟩

theorem Span.IsCall.timeAt_before {x y : Span} (hx : x.IsCall ms) (hy : y.IsCall ms)
    (h : x.closed < y.entered) : timeAt ms x.closed ≤ timeAt ms y.entered := by
  obtain ⟨my, hmy, hky⟩ := hy.enters
  obtain ⟨mx, hmx, hkx, -⟩ := hx
  exact timeAt_mono hclock (Nat.le_of_lt h) hmx hmy (.inr hkx) (.inl hky)

theorem Records.interval {own outer : Span} {f : Frame} (h : Records ms own outer f) :
    f.startTime = some (timeAt ms own.entered) ∧
      timeAt ms own.entered + f.duration = timeAt ms own.closed := by
  obtain ⟨m, time, hm, -, hevent, hstart⟩ := h.entered
  have htime : timeAt ms own.entered = time := by
    simp [timeAt, hm, hevent, Event.time, Event.time?]
  have hle := h.own_isCall.timeAt_le hclock
  refine ⟨htime ▸ hstart, ?_⟩
  rw [h.duration, Span.duration]
  omega

end

theorem Records.inside {own outer : Span} {f : Frame} (h : Records ms own outer f) :
    outer.entered ≤ own.entered ∧ own.closed ≤ outer.closed := by
  rcases h.place with rfl | ⟨hencloses, -⟩
  · exact ⟨Nat.le_refl _, Nat.le_refl _⟩
  · exact ⟨Nat.le_of_lt hencloses.1, Nat.le_of_lt hencloses.2⟩

theorem Span.IsCall.encloses_of_head {x y : Span} (hx : x.IsCall ms) (hy : y.IsCall ms)
    (h : (stack (ms.take y.entered)).head? = some x.entered) : x.Encloses y := by
  have hmem := List.mem_of_head? h
  have hentered := (stack_sorted ms y.entered).2 _ hmem
  have hopen := hx.le_closed_of_mem hmem
  obtain ⟨m, hm, hk⟩ := hy.enters
  have hne : y.entered ≠ x.closed := by
    intro heq
    obtain ⟨m', hm', hk', -⟩ := hx
    rw [← heq, hm] at hm'
    rw [Option.some.inj hm', hk'] at hk
    cases hk
  exact ⟨hentered, hx.closed_inside hy hentered (by omega)⟩

/-! ### Trees -/

namespace SpanTree

variable {R : Span → Span → Frame → Prop}

theorem DepictAll.each {caller : Nat} {ts : List SpanTree} {ns : List Node}
    (h : DepictAll R ms caller ts ns) : List.Forall₂ (fun t n =>
      (stack (ms.take t.outer.entered)).head? = some caller ∧ R t.own t.outer n.frame) ts ns := by
  induction ts generalizing ns with
  | nil =>
    cases ns with
    | nil => exact .nil
    | cons => exact absurd h id
  | cons t ts ih =>
    cases ns with
    | nil => exact absurd h id
    | cons n ns =>
      obtain ⟨hcaller, hn, -, hns⟩ := h
      exact .cons ⟨hcaller, hn.frame⟩ (ih hns)

theorem DepictAll.ordered {caller : Nat} {ts : List SpanTree} {ns : List Node}
    (h : DepictAll R ms caller ts ns) :
    ts.Pairwise fun t s => t.outer.closed < s.outer.entered := by
  induction ts generalizing ns with
  | nil => exact .nil
  | cons t ts ih =>
    cases ns with
    | nil => exact absurd h id
    | cons n ns =>
      obtain ⟨-, -, hlate, hns⟩ := h
      exact List.pairwise_cons.mpr ⟨hlate, ih hns⟩

end SpanTree

theorem pairwise_of_forall₂ {α β : Type} {Q : α → β → Prop} {S : α → α → Prop} {T : β → β → Prop}
    (hT : ∀ a a' b b', Q a b → Q a' b' → S a a' → T b b') {as : List α} {bs : List β}
    (h : List.Forall₂ Q as bs) (has : as.Pairwise S) : bs.Pairwise T := by
  have hlength := h.length_eq
  rw [List.pairwise_iff_getElem] at has ⊢
  intro i j hi hj hij
  exact hT _ _ _ _ (h.get (by omega) hi) (h.get (by omega) hj) (has i j (by omega) (by omega) hij)

theorem forall_of_forall₂ {α β : Type} {Q : α → β → Prop} {P : β → Prop}
    (hP : ∀ a b, Q a b → P b) {as : List α} {bs : List β} (h : List.Forall₂ Q as bs) :
    ∀ b ∈ bs, P b := by
  have hlength := h.length_eq
  intro b hb
  obtain ⟨i, hi, rfl⟩ := List.mem_iff_getElem.mp hb
  exact hP _ _ (h.get (by omega) hi)

def Called (ms : List Moment) (caller : Span) (t : SpanTree) (n : Node) : Prop :=
  (stack (ms.take t.outer.entered)).head? = some caller.entered ∧
    Records ms t.own t.outer n.frame

theorem Called.inside {caller : Span} {t : SpanTree} {n : Node} (h : Called ms caller t n)
    (hcaller : caller.IsCall ms) :
    caller.entered < t.own.entered ∧ t.own.closed < caller.closed := by
  obtain ⟨hentered, hclosed⟩ := hcaller.encloses_of_head h.2.outer_isCall h.1
  obtain ⟨hinner, hinner'⟩ := h.2.inside
  omega

theorem timed_of_children (hclock : (clock ms).Pairwise (· ≤ ·)) {own outer : Span} {n : Node}
    (h : Records ms own outer n.frame) {inner : List SpanTree}
    (hinner : SpanTree.DepictAll (Records ms) ms own.entered inner n.children) : n.Timed := by
  obtain ⟨hstart, hstop⟩ := h.interval hclock
  refine ⟨_, hstart, forall_of_forall₂ (fun t child hchild => ?_) hinner.each,
    pairwise_of_forall₂ (fun t t' child next hchild hnext hlate => ?_) hinner.each hinner.ordered⟩
  · obtain ⟨hs, hend⟩ := hchild.2.interval hclock
    obtain ⟨hentered, hclosed⟩ := Called.inside hchild h.own_isCall
    obtain ⟨hbegin, hfinish⟩ := h.own_isCall.timeAt_inside hclock hchild.2.own_isCall
      (Nat.le_of_lt hentered) (Nat.le_of_lt hclosed)
    exact ⟨_, hs, hbegin, by omega⟩
  · -- The spans whose places the nodes took are apart, so their own spans are.
    obtain ⟨hs, hend⟩ := hchild.2.interval hclock
    obtain ⟨hs', -⟩ := hnext.2.interval hclock
    have hbefore := hchild.2.own_isCall.timeAt_before hclock hnext.2.own_isCall (by
      have hinside := hchild.2.inside
      have hinside' := hnext.2.inside
      omega)
    rw [hs, hs']
    simp only [Option.mem_some_iff]
    rintro _ rfl _ rfl
    omega

/-- In a submitted tree every node has a start, the interval of every child lies inside that of its
parent, and each child ends before the next one starts, if no call is entered or closed at an
earlier time than the one before. -/
theorem intervals_nested (capacity : Nat) (os : List Occurrence)
    (hclock : (clock ((new capacity).trail os)).Pairwise (· ≤ ·)) {k : Nat} {m : Moment}
    {tree : Node} (hm : ((new capacity).trail os)[k]? = some m) (ht : m.tree? = some tree) :
    ∀ q ∈ tree.preorder [], q.2.Timed := by
  intro q hq
  obtain ⟨c, cs, -, hdepicts⟩ := depicts_of_submitted (justifies_records capacity os)
    (fun _ _ hs hm _ => records_settled hs hm) hm ht
  obtain ⟨⟨own, outer, inner⟩, hsub⟩ := hdepicts.subtree _ [] q hq
  exact timed_of_children hclock hsub.1 hsub.2

/-- A return that is refused, and in a trace with a budget of four nodes a call with a trace of its
own, one that gives way to its child, and one inside which another comes over the budget. -/
def crowdedTrace : List Occurrence :=
  occurrences { minTraceTime := 0, minMethodTime := 5, maxTraceRecords := 4, dropInterim := true }
    [.exit 1000, .enter 1 1 1 0, .begin 7 0 ∅, .enter 2 2 2 10, .begin 8 0 ∅, .exit 20,
      .enter 3 3 3 30, .enter 4 4 4 31, .exit 50, .exit 52, .enter 5 5 5 60, .enter 6 6 6 61,
      .exit 75, .exit 80, .exit 100]

theorem intervals_nested_of_crowdedTrace :
    (clock ((new 0).trail crowdedTrace)).Pairwise (· ≤ ·) ∧
    ∃ m tree, ((new 0).trail crowdedTrace)[14]? = some m ∧ m.tree? = some tree ∧
      (tree.preorder []).map (fun q => (q.2.frame.startTime, q.2.frame.duration)) =
        [(some 0, 100), (some 10, 10), (some 31, 19), (some 60, 20)] ∧
      ∀ q ∈ tree.preorder [], q.2.Timed := by
  have hclock : (clock ((new 0).trail crowdedTrace)).Pairwise (· ≤ ·) := by decide
  obtain ⟨m, tree, hm, ht, hnodes⟩ : ∃ m tree, ((new 0).trail crowdedTrace)[14]? = some m ∧
      m.tree? = some tree ∧
      (tree.preorder []).map (fun q => (q.2.frame.startTime, q.2.frame.duration)) =
        [(some 0, 100), (some 10, 10), (some 31, 19), (some 60, 20)] :=
    ⟨_, _, rfl, rfl, by decide⟩
  exact ⟨hclock, m, tree, hm, ht, hnodes, intervals_nested 0 crowdedTrace hclock hm ht⟩

end CallTree
