import CallTree.Proofs.Register

/-!
Every open call represents its entry in the register: the event that entered it, whether it opened
a trace, and node by node the calls kept below it. A node is settled when its call closes and later
changes at most by taking the place of calls around it.
-/
namespace CallTree
open Assembler

def Frame.EnteredAt (ms : List Moment) (i : Nat) (f : Frame) : Prop :=
  ∃ m time, ms[i]? = some m ∧ m.kind = .enters ∧
    m.event = .enter f.classId f.methodId f.signatureId time ∧ f.startTime = some time

/-- The node says of its calls what `R` does, as one that closed or as one that took a place. -/
structure Justifies (ms : List Moment) (R : Span → Span → Frame → Prop) : Prop where
  attach : ∀ s m, s.IsCall ms → ms[s.closed]? = some m → m.fate = .attach →
    R s s m.settled.node.frame
  elide : ∀ s m child, s.IsCall ms → ms[s.closed]? = some m → m.fate = .elide child →
    ∀ own outer, s.entered < own.entered → own.closed < s.closed → R own outer child.frame →
    R own s ((child.frame.countsFrom m.closing.frame).mark (.single .droppedParent))

/-- An open call and its entry in the register. -/
structure Represents (ms : List Moment) (R : Span → Span → Frame → Prop) (c : OpenCall)
    (n : Node) : Prop where
  root : n.isTraceRoot = c.begun.isSome
  entered : n.frame.EnteredAt ms c.entered
  children : SpanTree.DepictAll R ms c.entered c.kept n.children

structure Agrees (ms : List Moment) (R : Span → Span → Frame → Prop) (r : Register)
    (a : Assembler) : Prop where
  calls : List.Forall₂ (Represents ms R) r.calls a.openCalls
  waiting : a.awaited.isTraceRoot = r.waiting.isSome

variable {ms : List Moment} {R : Span → Span → Frame → Prop}

theorem Represents.touched {c : OpenCall} {n n' : Node} (h : Represents ms R c n)
    (hn : n.Touched n') : Represents ms R c n' := by
  refine ⟨hn.isTraceRoot.trans h.root, ?_, hn.children ▸ h.children⟩
  obtain ⟨m, time, hm, hk, hevent, hstart⟩ := h.entered
  exact ⟨m, time, hm, hk, by rw [hn.record]; exact hevent, by rw [hn.record]; exact hstart⟩

theorem allTouched_represents {cs : List OpenCall} {ns ns' : List Node}
    (h : List.Forall₂ (Represents ms R) cs ns) (hns : AllTouched ns ns') :
    List.Forall₂ (Represents ms R) cs ns' :=
  AllTouched.carry (fun _ _ _ hc hn => hc.touched hn) h hns

theorem any_begun {cs : List OpenCall} {ns : List Node}
    (h : List.Forall₂ (Represents ms R) cs ns) :
    ns.any (·.isTraceRoot) = cs.any (·.begun.isSome) := by
  induction h with
  | nil => rfl
  | cons hc _ ih => rw [List.any_cons, List.any_cons, ih, hc.root]

theorem closing_children (m : Moment) : m.closing.children = m.innermost.children := by
  obtain ⟨error, flags, heq, -⟩ := finish_eq m.event.time m.event.error? m.innermost
  rw [Moment.closing, heq]

theorem closing_marker (m : Moment) : m.closing.frame.marker = m.innermost.frame.marker := by
  obtain ⟨error, flags, heq, -⟩ := finish_eq m.event.time m.event.error? m.innermost
  rw [Moment.closing, heq]

theorem closing_isTraceRoot (m : Moment) : m.closing.isTraceRoot = m.innermost.isTraceRoot :=
  congrArg Option.isSome (closing_marker m)

theorem nearest_closing (m : Moment) :
    nearest? (m.closing :: m.outer) = nearest? (m.innermost :: m.outer) := by
  rw [nearest_cons, nearest_cons, closing_marker]

theorem closing_size (m : Moment) : m.closing.size = m.innermost.size := by
  rw [Node.size_eq, Node.size_eq, closing_children]

theorem closing_flag (m : Moment) {x : NodeFlag} (hpasses : x ≠ .passesError)
    (hwraps : x ≠ .wrapsError) :
    m.closing.frame.flags.has x = m.innermost.frame.flags.has x := by
  obtain ⟨error, flags, heq, hflags⟩ := finish_eq m.event.time m.event.error? m.innermost
  rw [Moment.closing, heq]
  exact hflags x hpasses hwraps

theorem closing_overflow (m : Moment) :
    m.closing.frame.flags.has .overflow = m.innermost.frame.flags.has .overflow :=
  closing_flag m (by simp) (by simp)

theorem promote_frame (held : Nat → Bool) (parent child : Node) :
    (promote held parent child).frame =
      (child.frame.countsFrom parent.frame).mark (.single .droppedParent) := by
  simp only [promote]
  split <;> rfl

theorem promote_children (held : Nat → Bool) (parent child : Node) :
    (promote held parent child).children = child.children := by
  simp only [promote]
  split <;> rfl

theorem countsFrom_settled (m : Moment) (f : Frame) :
    f.countsFrom m.settled.node.frame = f.countsFrom m.closing.frame := by
  rw [Moment.settled, settle_frame]
  rfl

theorem SpanTree.Depicts.widen {t : SpanTree} {n n' : Node} {s : Span} (h : t.Depicts R ms n)
    (hR : R t.own t.outer n.frame → R t.own s n'.frame) (hchildren : n'.children = n.children) :
    (t.widen s).Depicts R ms n' := by
  obtain ⟨own, outer, inner⟩ := t
  simp only [SpanTree.Depicts, SpanTree.widen, hchildren] at h ⊢
  exact ⟨hR h.1, h.2⟩

theorem Represents.keep (hR : Justifies ms R) {k : Nat} {m : Moment} (hm : ms[k]? = some m)
    {c p : OpenCall} (hcall : (⟨c.entered, k⟩ : Span).IsCall ms)
    (hcaller : (stack (ms.take c.entered)).head? = some p.entered)
    (hck : ∀ t ∈ c.kept, t.Inside c.entered k) (hpk : ∀ t ∈ p.kept, t.Inside p.entered c.entered)
    (hc : Represents ms R c m.innermost) {q : Node} (hp : Represents ms R p q) :
    Represents ms R (c.keep k m.fate p) (m.parent q) := by
  have hroll : Represents ms R p (rollUp m.closing.frame q) := ⟨hp.root, hp.entered, hp.children⟩
  have hlate : ∀ t ∈ p.kept, t.outer.closed < c.entered := fun t ht => (hpk t ht).done
  have hsettled : m.settled.node.children = m.innermost.children := by
    rw [Moment.settled, settle_children, closing_children]
  rw [Moment.parent_eq]
  cases hf : m.fate with
  | attach =>
    refine ⟨hroll.root, hroll.entered, hroll.children.concat hcaller ?_ hlate⟩
    simp only [SpanTree.Depicts, hsettled]
    exact ⟨hR.attach ⟨c.entered, k⟩ m hcall hm hf, hc.children⟩
  | elide child =>
    have hchildren := hc.children
    rw [← closing_children, fateOf_elide hf] at hchildren
    obtain ⟨t, ht, hdepicts⟩ := hchildren.singleton
    have hinside := hck t (by simp [ht])
    refine ⟨hroll.root, hroll.entered, ?_⟩
    simp only [OpenCall.keep, ht, List.map_cons, List.map_nil]
    refine hroll.children.concat (by simpa using hcaller) ?_ (by simpa using hlate)
    refine hdepicts.widen (fun h => ?_) (promote_children m.env.held _ child)
    rw [promote_frame, countsFrom_settled]
    have hentered := hinside.entered
    have hinner := hinside.inner
    have hclosed := hinside.closed
    have hdone := hinside.done
    exact hR.elide ⟨c.entered, k⟩ m child hcall hm hf t.own t.outer (by simp only; omega)
      (by simp only; omega) h
  | _ => exact hroll

/-- What an event does to the open calls it does to the register. -/
theorem Agrees.next (hR : Justifies ms R) {k : Nat} {m : Moment} (hm : ms[k]? = some m)
    {r : Register} (hr : stack (ms.take k) = r.calls.map (·.entered)) (horderly : r.Orderly ms k)
    (hsound : m.before.Sound) (h : Agrees ms R r m.before) : Agrees ms R (r.next m k) m.after := by
  obtain ⟨hcalls, hwaiting⟩ := h
  cases hk : m.kind with
  | enters =>
    obtain ⟨classId, methodId, signatureId, time, hevent, hentered⟩ := Moment.enters_spec hsound hk
    obtain ⟨flags, harrival⟩ := arrival_eq hsound m.env.thresholds classId methodId signatureId time
    simp only [Register.next, hk]
    refine ⟨?_, by rw [awaited_of_busy hentered.busy]; rfl⟩
    rw [hentered.openCalls, harrival]
    exact .cons ⟨hwaiting, ⟨m, time, hm, hk, hevent, rfl⟩, trivial⟩ hcalls
  | closes =>
    have hcloses := Moment.closes_spec hsound hk
    simp only [Register.next, hk]
    rw [hcloses.before] at hcalls
    obtain ⟨c, cs, hc, houter, hcs⟩ := List.forall₂_cons_right_iff.mp hcalls
    have hrest := allTouched_represents houter m.around_touched
    have hnested := horderly.1
    rw [hcs] at hr hnested ⊢
    refine ⟨?_, by rw [hcloses.awaited]; rfl⟩
    rw [hcloses.after]
    obtain ⟨-, hstack, -, hck, hps⟩ := hnested
    generalize m.around = around at hrest
    cases hrest with
    | nil => exact .nil
    | @cons p q ps qs hp hrest =>
      obtain ⟨-, -, -, hpk, -⟩ := hps
      refine .cons (Represents.keep hR hm ⟨m, hm, hk, ?_⟩ ?_ hck hpk hc hp) hrest
      · simp [hr]
      · simp [hstack]
  | begins =>
    obtain ⟨traceId, clock, flags, -, -, hafter⟩ := Moment.begins_spec hk
    simp only [Register.next, hk]
    rw [hafter]
    cases ht : m.before.top.isBusy with
    | true =>
      rw [openCalls_of_busy ht] at hcalls
      rw [awaited_of_busy ht] at hwaiting
      refine ⟨?_, by rw [awaited_of_busy (opened_isBusy.trans ht)]; exact hwaiting⟩
      obtain ⟨c, cs, hc, hrest, hcs⟩ := List.forall₂_cons_right_iff.mp hcalls
      rw [opened_openCalls_of_busy _ _ _ _ ht, hcs]
      exact .cons ⟨rfl, hc.entered, hc.children⟩ hrest
    | false =>
      refine ⟨?_, ?_⟩
      · rw [opened_openCalls_of_vacant _ _ _ _ ht]
        exact hcalls
      · simp only [Assembler.awaited, opened_isBusy.trans ht]
        rfl
  | other =>
    have htouches := (Moment.other_spec hk).touches
    simp only [Register.next, hk]
    exact ⟨allTouched_represents hcalls htouches.openCalls,
      htouches.awaited_isTraceRoot.trans hwaiting⟩

theorem agrees_of_trail (capacity : Nat) (os : List Occurrence)
    (hR : Justifies ((new capacity).trail os) R) {k : Nat} (hk : k ≤ os.length) :
    Agrees ((new capacity).trail os) R (register (((new capacity).trail os).take k))
      ((new capacity).after (os.take k)) := by
  refine trail_induction capacity os (P := fun k a => Agrees ((new capacity).trail os) R
    (register (((new capacity).trail os).take k)) a) ⟨.nil, rfl⟩ (fun j m hm hsound h => ?_) hk
  have hj := (before_of_trail hm).1
  rw [register_succ hm]
  exact h.next hR hm rfl (Register.orderly_of_trail _ os (Nat.le_of_lt hj)) hsound

theorem justifies_true (ms : List Moment) : Justifies ms (fun _ _ _ => True) where
  attach _ _ _ _ _ := trivial
  elide _ _ _ _ _ _ _ _ _ _ _ := trivial

theorem agrees_of_moment {capacity : Nat} {os : List Occurrence} {k : Nat} {m : Moment}
    (hm : ((new capacity).trail os)[k]? = some m) :
    Agrees ((new capacity).trail os) (fun _ _ _ => True)
      (register (((new capacity).trail os).take k)) m.before := by
  obtain ⟨hk, hbefore⟩ := before_of_trail hm
  rw [hbefore]
  exact agrees_of_trail capacity os (justifies_true _) (Nat.le_of_lt hk)

/-! ### Trees that are submitted -/

theorem closing_call {capacity : Nat} {os : List Occurrence}
    (hR : Justifies ((new capacity).trail os) R) {k : Nat} {m : Moment}
    (hm : ((new capacity).trail os)[k]? = some m) (hk : m.kind = .closes) :
    ∃ c cs, (register (((new capacity).trail os).take k)).calls = c :: cs ∧
      (⟨c.entered, k⟩ : Span).IsCall ((new capacity).trail os) ∧
      Represents ((new capacity).trail os) R c m.innermost ∧
      List.Forall₂ (Represents ((new capacity).trail os) R) cs m.outer := by
  obtain ⟨hlt, hbefore⟩ := before_of_trail hm
  have hsound := sound_of_trail hm
  have hagrees := (agrees_of_trail capacity os hR (Nat.le_of_lt hlt)).calls
  rw [← hbefore, (Moment.closes_spec hsound hk).before] at hagrees
  obtain ⟨c, cs, hc, houter, hcs⟩ := List.forall₂_cons_right_iff.mp hagrees
  exact ⟨c, cs, hcs, ⟨m, hm, hk, by simp [stack, hcs]⟩, hc, houter⟩

theorem settle_submitted {env : Surroundings} {n : Node} {outer : List Node} {tree : Node}
    (h : (settle env n outer).verdict = .submitted tree) :
    n.isTraceRoot ∧ (settle env n outer).node = tree := by
  unfold settle at h ⊢
  cases hm : n.frame.marker with
  | none =>
    simp only [hm] at h
    cases h
  | some marker =>
    simp only [hm] at h ⊢
    split at h
    case isTrue hsubmit =>
      cases h
      rw [if_pos hsubmit]
      exact ⟨by simp [Node.isTraceRoot, Frame.isTraceRoot, hm], rfl⟩
    case isFalse => cases h

theorem Moment.submitted_spec {m : Moment} (hsound : m.before.Sound) {tree : Node}
    (h : m.tree? = some tree) :
    m.kind = .closes ∧ m.innermost.isTraceRoot ∧ m.settled.node = tree := by
  have hk := Moment.closes_of_tree hsound h
  have hverdict := (Moment.closes_spec hsound hk).verdict
  rw [← closing_isTraceRoot]
  exact ⟨hk, settle_submitted (hverdict.symm.trans (Moment.verdict_of_tree h))⟩

/-- A submitted tree depicts the call that closed and those kept below it. -/
theorem depicts_of_submitted {capacity : Nat} {os : List Occurrence}
    (hR : Justifies ((new capacity).trail os) R)
    (hroot : ∀ s m, s.IsCall ((new capacity).trail os) →
      ((new capacity).trail os)[s.closed]? = some m → m.tree?.isSome →
      R s s m.settled.node.frame) {k : Nat} {m : Moment}
    (hm : ((new capacity).trail os)[k]? = some m) {tree : Node} (ht : m.tree? = some tree) :
    ∃ c cs, (register (((new capacity).trail os).take k)).calls = c :: cs ∧
      (SpanTree.node ⟨c.entered, k⟩ ⟨c.entered, k⟩ c.kept).Depicts R
        ((new capacity).trail os) tree := by
  obtain ⟨hk, -, rfl⟩ := Moment.submitted_spec (sound_of_trail hm) ht
  obtain ⟨c, cs, hcs, hcall, hc, -⟩ := closing_call hR hm hk
  refine ⟨c, cs, hcs, hroot ⟨c.entered, k⟩ m hcall hm (by rw [ht]; rfl), ?_⟩
  rw [Moment.settled, settle_children, closing_children]
  exact hc.children

theorem SpanTree.Depicts.frame {t : SpanTree} {n : Node} (h : t.Depicts R ms n) :
    R t.own t.outer n.frame := by
  cases t
  exact h.1

mutual

theorem SpanTree.Depicts.subtree : (t : SpanTree) → {n : Node} → t.Depicts R ms n →
    (path : List Nat) → ∀ q ∈ n.preorder path, ∃ s : SpanTree, s.Depicts R ms q.2
  | .node own outer inner, ⟨handle, frame, children⟩, h, path, q, hq => by
    rw [Node.preorder] at hq
    rcases List.mem_cons.mp hq with rfl | hq
    · exact ⟨_, h⟩
    · exact SpanTree.DepictAll.subtree inner h.2 path 0 q hq

theorem SpanTree.DepictAll.subtree : (ts : List SpanTree) → {caller : Nat} → {ns : List Node} →
    DepictAll R ms caller ts ns → (path : List Nat) → (i : Nat) →
      ∀ q ∈ Node.preorders path i ns, ∃ s : SpanTree, s.Depicts R ms q.2
  | _, _, [], _, _, _, q, hq => by
    rw [Node.preorders] at hq
    simp at hq
  | [], _, _ :: _, h, _, _, _, _ => absurd h id
  | t :: ts, _, n :: ns, h, path, i, q, hq => by
    obtain ⟨-, hn, -, hns⟩ := h
    rw [Node.preorders] at hq
    rcases List.mem_append.mp hq with hq | hq
    · exact SpanTree.Depicts.subtree t hn _ q hq
    · exact SpanTree.DepictAll.subtree ts hns path (i + 1) q hq

end

theorem SpanTree.DepictAll.preorders {P : Frame → Prop} (hP : ∀ own outer f, R own outer f → P f)
    (ts : List SpanTree) {caller : Nat} {ns : List Node} (h : DepictAll R ms caller ts ns)
    (path : List Nat) (i : Nat) : ∀ q ∈ Node.preorders path i ns, P q.2.frame := by
  intro q hq
  obtain ⟨s, hs⟩ := DepictAll.subtree ts h path i q hq
  exact hP _ _ _ hs.frame

end CallTree
