import CallTree.Proofs.PlainTraces
import CallTree.Proofs.Timing

/-!
A call that was significant is in the tree of its trace, below all the calls around it, unless the
trace says that some call was left out over the node budget.
-/
namespace CallTree
open Assembler

/-- Times do not go back, one threshold is in force, and nobody asks for calls to be elided. -/
structure Steady (minMethodTime : Nat) (os : List Occurrence) : Prop where
  clock : (os.filterMap (·.event.time?)).Pairwise (· ≤ ·)
  threshold : ∀ o ∈ os, o.env.thresholds.minMethodTime = minMethodTime
  plain : ∀ o ∈ os, o.Plain

theorem steady_occurrences {c : Config} {minMethodTime : Nat}
    (hmin : c.minMethodTime = minMethodTime) (hdrop : c.dropInterim = false) {es : List Event}
    (hclock : (es.filterMap (·.time?)).Pairwise (· ≤ ·))
    (hflags : ∀ e ∈ es, e.markerFlags.has .dropInterim = false) :
    Steady minMethodTime (occurrences c es) where
  clock := by
    rw [occurrences, List.filterMap_map]
    exact hclock
  threshold o ho := by
    obtain ⟨e, -, rfl⟩ := List.mem_map.mp ho
    exact hmin
  plain o ho := by
    obtain ⟨e, he, rfl⟩ := List.mem_map.mp ho
    exact ⟨hdrop, hflags e he⟩

/-- A call that lasted long enough or in which a call failed. -/
def Span.Significant (ms : List Moment) (minMethodTime : Nat) (x : Span) : Prop :=
  minMethodTime < x.duration ms ∨ 0 < (x.window ms).countP Moment.fails

/-- Below a call that keeps `ts` there is this chain of calls, named by the events that entered
them. -/
inductive Reaches : List SpanTree → List Nat → Prop
  | nil (ts : List SpanTree) : Reaches ts []
  | cons {own outer : Span} {inner ts : List SpanTree} {is : List Nat}
    (h : .node own outer inner ∈ ts) (his : Reaches inner is) : Reaches ts (own.entered :: is)

theorem Reaches.mono {ts ts' : List SpanTree} {is : List Nat} (h : Reaches ts is) (hts : ts ⊆ ts') :
    Reaches ts' is := by
  cases h with
  | nil => exact .nil ts'
  | cons h his => exact .cons (hts h) his

/-! ### Significance goes outwards -/

section

variable {capacity minMethodTime : Nat} {os : List Occurrence}

theorem upTo_mono (p : Moment → Bool) (ms : List Moment) {i j : Nat} (h : i ≤ j) :
    upTo p ms i ≤ upTo p ms j :=
  (List.take_sublist_take_left h).countP_le

theorem Span.Significant.outwards {s x : Span}
    (hos : (os.filterMap (·.event.time?)).Pairwise (· ≤ ·))
    (hs : s.IsCall ((new capacity).trail os)) (hx : x.IsCall ((new capacity).trail os))
    (hentered : s.entered ≤ x.entered) (hclosed : x.closed ≤ s.closed)
    (h : x.Significant ((new capacity).trail os) minMethodTime) :
    s.Significant ((new capacity).trail os) minMethodTime := by
  have hslt := hs.lt
  have hxlt := hx.lt
  rcases h with hlong | hfails
  · left
    have hclock := hos.sublist (clock_sublist (new capacity) os)
    obtain ⟨hstart, hstop⟩ := hs.timeAt_inside hclock hx hentered hclosed
    unfold Span.duration at hlong ⊢
    omega
  · right
    have hs' := upTo_add_window Moment.fails ((new capacity).trail os) (s := s) (by omega)
    have hx' := upTo_add_window Moment.fails ((new capacity).trail os) (s := x) (by omega)
    have hstart := upTo_mono Moment.fails ((new capacity).trail os) hentered
    have hstop := upTo_mono Moment.fails ((new capacity).trail os)
      (show x.closed + 1 ≤ s.closed + 1 by omega)
    omega

theorem significant_iff {s : Span} {m : Moment} (hs : s.IsCall ((new capacity).trail os))
    (hm : ((new capacity).trail os)[s.closed]? = some m) :
    s.Significant ((new capacity).trail os) minMethodTime ↔
      minMethodTime < m.closing.frame.duration ∨ 0 < m.closing.frame.errors := by
  have hrecords := records_closing hs hm
  rw [hrecords.duration, hrecords.errors]
  rfl

end

/-! ### The mark of a call left out -/

def Overflows (ns : List Node) : Prop := ∃ m, nearest? ns = some m ∧ m.flags.has .overflow

theorem Overflows.touched {ns ns' : List Node} (h : Overflows ns) (hns : AllTouched ns ns') :
    Overflows ns' := by
  obtain ⟨m, hm, hflag⟩ := h
  have hnearest := hns.nearest
  rw [hm] at hnearest
  cases hm' : nearest? ns' with
  | none => rw [hm'] at hnearest; cases hnearest
  | some m' =>
    rw [hm'] at hnearest
    cases hnearest with
    | some hgrows => exact ⟨m', hm', hgrows.flags _ hflag⟩

theorem overflows_adjustNearest {g : Marker → Marker} {ns : List Node}
    (hroot : ns.any (·.isTraceRoot)) (hg : ∀ m : Marker, (g m).flags.has .overflow) :
    Overflows (adjustNearest g ns) := by
  rw [any_isTraceRoot] at hroot
  obtain ⟨m, hm⟩ := Option.isSome_iff_exists.mp hroot
  exact ⟨g m, by rw [nearest_adjustNearest, hm]; rfl, hg m⟩

theorem around_overflows {env : Surroundings} {n : Node} {outer : List Node}
    (hin : outer.any (·.isTraceRoot)) (hflag : n.frame.flags.has .overflow) :
    Overflows (around env n outer) := by
  have hroot := (settle_touched env n outer).any_isTraceRoot
  rw [hin] at hroot
  rw [around, hin, hflag, Bool.and_self, if_pos rfl]
  exact overflows_adjustNearest hroot fun m => by simp [Marker.mark]

theorem settle_overflows {env : Surroundings} {n : Node} {outer : List Node}
    (hin : outer.any (·.isTraceRoot)) (h : Overflows (n :: outer)) :
    Overflows (settle env n outer).ancestors := by
  obtain ⟨m, hm, hflag⟩ := h
  cases hmarker : n.frame.marker with
  | none =>
    have hnearest : nearest? outer = some m := by rw [← hm, nearest_cons, hmarker, Option.none_or]
    simp only [settle, hmarker]
    exact ⟨m, hnearest, hflag⟩
  | some own =>
    have hown : own = m := by simpa [nearest?, hmarker] using hm
    subst hown
    have hinherit (m : Marker) (flags : MarkerFlags) (h : flags.has .overflow) :
        (m.inherit flags).flags.has .overflow := by
      simp [Marker.inherit, Marker.mark, MarkerFlags.inheritable, FlagSet.insert, h]
    simp only [settle, hmarker]
    split
    all_goals
      refine overflows_adjustNearest hin fun m => hinherit m _ ?_
      split
      · simp [Marker.mark, hflag]
      · exact hflag

theorem around_overflows_of_inner {env : Surroundings} {n : Node} {outer : List Node}
    (hin : outer.any (·.isTraceRoot)) (h : Overflows (n :: outer)) :
    Overflows (around env n outer) := by
  have hsettle : Overflows (settle env n outer).ancestors := settle_overflows hin h
  unfold around
  split
  · exact hsettle.touched (adjustNearest_touched (fun m => m.grows_mark _) _)
  · exact hsettle

/-! ### What the open calls have kept -/

theorem fate_of_significant {m : Moment} (hin : m.outer.any (·.isTraceRoot))
    (hplain : AllPlain (m.innermost :: m.outer))
    (hflag : m.closing.frame.flags.has .overflow = false)
    (hsignificant : m.env.thresholds.minMethodTime < m.closing.frame.duration ∨
      0 < m.closing.frame.errors) : m.fate = .attach := by
  have hclosing : AllPlain (m.closing :: m.outer) := by
    obtain ⟨hn, houter⟩ := allPlain_cons.mp hplain
    exact allPlain_cons.mpr ⟨fun marker hm => hn marker (closing_marker m ▸ hm), houter⟩
  have hretained : isRetained m.env.thresholds m.closing.frame
      (traceFlags (m.closing :: m.outer)) := by
    rcases hsignificant with h | h <;> simp [isRetained, h]
  rw [Moment.fate, fateOf_plain hclosing hflag, hin, hretained]
  rfl

variable {ms : List Moment} {minMethodTime : Nat}

/-- The call `c` has kept all significant calls that closed inside it before event `hi`, as far as
they were inside a trace, or a trace says that some were left out. -/
def Retains (ms : List Moment) (minMethodTime hi : Nat) (c : OpenCall) (cs : List OpenCall)
    (ns : List Node) : Prop :=
  ∀ x : Span, x.IsCall ms → c.entered < x.entered → x.closed < hi →
    x.Significant ms minMethodTime → (∃ c' ∈ c :: cs, ∃ b ∈ c'.begun, b < x.entered) →
    Overflows ns ∨ Reaches c.kept (chain ms c.entered x)

def AllRetain (ms : List Moment) (minMethodTime : Nat) :
    Nat → List OpenCall → List Node → Prop
  | _, [], [] => True
  | hi, c :: cs, n :: ns =>
    Retains ms minMethodTime hi c cs (n :: ns) ∧ AllRetain ms minMethodTime c.entered cs ns
  | _, _, _ => False

theorem AllRetain.touched {hi : Nat} {cs : List OpenCall} {ns ns' : List Node}
    (h : AllRetain ms minMethodTime hi cs ns) (hns : AllTouched ns ns') :
    AllRetain ms minMethodTime hi cs ns' := by
  induction hns generalizing hi cs with
  | nil => exact h
  | cons hn hns ih =>
    cases cs with
    | nil => exact h
    | cons c cs =>
      refine ⟨fun x hx hentered hclosed hsignificant hbegun => ?_, ih h.2⟩
      rcases h.1 x hx hentered hclosed hsignificant hbegun with hover | hreaches
      · exact .inl (hover.touched (.cons hn hns))
      · exact .inr hreaches

theorem Retains.later {k : Nat} {m : Moment} (hm : ms[k]? = some m) (hk : m.kind ≠ .closes)
    {c : OpenCall} {cs : List OpenCall} {ns : List Node}
    (h : Retains ms minMethodTime k c cs ns) : Retains ms minMethodTime (k + 1) c cs ns := by
  intro x hx hentered hclosed hsignificant hbegun
  refine h x hx hentered ?_ hsignificant hbegun
  obtain ⟨m', hm', hk', -⟩ := hx
  by_contra hlate
  obtain rfl : x.closed = k := by omega
  rw [hm] at hm'
  exact hk (Option.some.inj hm' ▸ hk')

theorem AllRetain.later {k : Nat} {m : Moment} (hm : ms[k]? = some m) (hk : m.kind ≠ .closes)
    {cs : List OpenCall} {ns : List Node} (h : AllRetain ms minMethodTime k cs ns) :
    AllRetain ms minMethodTime (k + 1) cs ns := by
  cases cs with
  | nil =>
    cases ns with
    | nil => trivial
    | cons => exact absurd h id
  | cons c cs =>
    cases ns with
    | nil => exact absurd h id
    | cons n ns => exact ⟨h.1.later hm hk, h.2⟩

theorem kept_subset (c p : OpenCall) (k : Nat) (f : Fate) : p.kept ⊆ (c.keep k f p).kept := by
  cases f with
  | attach => exact List.subset_append_left _ _
  | elide child => exact List.subset_append_left _ _
  | _ => exact List.Subset.refl _

theorem overflows_parent {m : Moment} {q : Node} {qs : List Node} (h : Overflows (q :: qs)) :
    Overflows (m.parent q :: qs) := by
  obtain ⟨marker, hmarker, hflag⟩ := h
  refine ⟨marker, ?_, hflag⟩
  rw [← hmarker, nearest_cons, nearest_cons, m.parent_frame]
  rfl

theorem Retains.reaches {k : Nat} {c p : OpenCall} {ps : List OpenCall} {ns : List Node}
    (h : Retains ms minMethodTime k c (p :: ps) ns)
    (hstack : stack (ms.take k) = c.entered :: p.entered :: ps.map (·.entered))
    {kept : List SpanTree} (hmem : .node ⟨c.entered, k⟩ ⟨c.entered, k⟩ c.kept ∈ kept) {x : Span}
    (hx : x.IsCall ms) (hafter : c.entered ≤ x.entered) (hclosed : x.closed ≤ k)
    (hsignificant : x.Significant ms minMethodTime)
    (hbegun : ∃ c' ∈ p :: ps, ∃ b ∈ c'.begun, b < x.entered) :
    Overflows ns ∨ Reaches kept (chain ms p.entered x) := by
  have hsuffix : (c.entered :: p.entered :: ps.map (·.entered)) <:+ stack (ms.take k) :=
    hstack ▸ List.suffix_refl _
  by_cases hself : x.entered = c.entered
  · have hcallers : (c.entered :: p.entered :: ps.map (·.entered)) <:+
        x.entered :: stack (ms.take x.entered) :=
      ⟨[], by rw [hself, ← (entered_of_suffix hsuffix).1, List.nil_append]⟩
    right
    rw [chain_cons hcallers, ← hself, chain_self, hself]
    exact .cons hmem (.nil _)
  have hinside : c.entered < x.entered := by omega
  have hlt := hx.lt
  have hxk := hx.closed_lt (by rw [hstack]; rfl) hself hclosed
  obtain ⟨c', hc', hb⟩ := hbegun
  rcases h x hx hinside hxk hsignificant ⟨c', List.mem_cons_of_mem c hc', hb⟩ with
    hover | hreaches
  · exact .inl hover
  · right
    have hopen := suffix_earlier hsuffix hinside (by omega)
    rw [chain_cons (hopen.trans (List.suffix_cons _ _))]
    exact .cons hmem hreaches

variable {capacity : Nat} {os : List Occurrence}

theorem Retains.close (hos : Steady minMethodTime os) {k : Nat} {m : Moment}
    (hm : ((new capacity).trail os)[k]? = some m) (hk : m.kind = .closes)
    {c p : OpenCall} {ps : List OpenCall}
    (hstack : stack (((new capacity).trail os).take k) =
      c.entered :: p.entered :: ps.map (·.entered))
    (hplain : AllPlain (m.innermost :: m.outer))
    (hroot : m.outer.any (·.isTraceRoot) = (p :: ps).any (·.begun.isSome))
    (hc : Retains ((new capacity).trail os) minMethodTime k c (p :: ps) (m.innermost :: m.outer))
    {q : Node} {qs : List Node}
    (hp : Retains ((new capacity).trail os) minMethodTime c.entered p ps (q :: qs))
    (haround : m.around = q :: qs) :
    Retains ((new capacity).trail os) minMethodTime (k + 1) (c.keep k m.fate p) ps
      (m.parent q :: qs) := by
  intro x hx hentered hclosed hsignificant hbegun
  have hkeep := Register.keep_entered c p k m.fate
  rw [hkeep.1] at hentered ⊢
  have hbegun' : ∃ c' ∈ p :: ps, ∃ b ∈ c'.begun, b < x.entered := by
    obtain ⟨c', hc', b, hb, hlt⟩ := hbegun
    rcases List.mem_cons.mp hc' with rfl | hc'
    · exact ⟨p, by simp, b, hkeep.2 ▸ hb, hlt⟩
    · exact ⟨c', List.mem_cons_of_mem p hc', b, hb, hlt⟩
  have hin : m.outer.any (·.isTraceRoot) := by
    obtain ⟨c', hc', b, hb, -⟩ := hbegun'
    rw [hroot, List.any_eq_true]
    exact ⟨c', hc', Option.isSome_iff_exists.mpr ⟨b, hb⟩⟩
  have hsuffix : (c.entered :: p.entered :: ps.map (·.entered)) <:+
      stack (((new capacity).trail os).take k) := hstack ▸ List.suffix_refl _
  by_cases hbefore : x.entered < c.entered
  · have hlt := hx.closed_before hsuffix hentered hbefore
    rcases hp x hx hentered hlt hsignificant hbegun' with hover | hreaches
    · exact .inl (overflows_parent hover)
    · exact .inr (hreaches.mono (kept_subset c p k m.fate))
  have hafter : c.entered ≤ x.entered := Nat.not_lt.mp hbefore
  have hcall : (⟨c.entered, k⟩ : Span).IsCall ((new capacity).trail os) :=
    ⟨m, hm, hk, by rw [hstack]; rfl⟩
  -- Significance goes outwards, so the closing call is kept unless it came over the budget.
  have hwhole := hsignificant.outwards hos.clock hcall hx hafter (Nat.le_of_lt_succ hclosed)
  cases hflag : m.closing.frame.flags.has .overflow with
  | true =>
    have hover : Overflows m.around := around_overflows hin hflag
    rw [haround] at hover
    exact .inl (overflows_parent hover)
  | false =>
    have hfate : m.fate = .attach := by
      refine fate_of_significant hin hplain hflag ?_
      rw [hos.threshold _ (List.mem_of_getElem? (occurrence_of_trail hm))]
      exact (significant_iff hcall hm).mp hwhole
    have hmem : SpanTree.node ⟨c.entered, k⟩ ⟨c.entered, k⟩ c.kept ∈ (c.keep k m.fate p).kept := by
      rw [hfate]
      exact List.mem_append_right _ (List.mem_singleton.mpr rfl)
    rcases hc.reaches hstack hmem hx hafter (Nat.le_of_lt_succ hclosed) hsignificant hbegun' with
      hover | hreaches
    · have hclosing : Overflows (m.closing :: m.outer) := by
        rw [Overflows, nearest_closing]
        exact hover
      have hover' : Overflows m.around := around_overflows_of_inner hin hclosing
      rw [haround] at hover'
      exact .inl (overflows_parent hover')
    · exact .inr hreaches

theorem AllRetain.close (hos : Steady minMethodTime os) {k : Nat} {m : Moment}
    (hm : ((new capacity).trail os)[k]? = some m) (hk : m.kind = .closes)
    {c : OpenCall} {cs : List OpenCall}
    (hstack : stack (((new capacity).trail os).take k) = (c :: cs).map (·.entered))
    (hplain : AllPlain (m.innermost :: m.outer))
    (hagrees : List.Forall₂ (Represents ((new capacity).trail os) fun _ _ _ => True) (c :: cs)
      (m.innermost :: m.outer))
    (h : AllRetain ((new capacity).trail os) minMethodTime k (c :: cs) (m.innermost :: m.outer)) :
    AllRetain ((new capacity).trail os) minMethodTime (k + 1) (cs.modifyHead (c.keep k m.fate))
      (m.around.modifyHead m.parent) := by
  obtain ⟨hc, hcs⟩ := h
  have houter := (List.forall₂_cons.mp hagrees).2
  have hrest := hcs.touched m.around_touched
  cases haround : m.around with
  | nil =>
    rw [haround] at hrest
    cases cs with
    | nil => trivial
    | cons => exact absurd hrest id
  | cons q qs =>
    rw [haround] at hrest
    cases cs with
    | nil => exact absurd hrest id
    | cons p ps =>
      obtain ⟨hp, hps⟩ := hrest
      refine ⟨hc.close hos hm hk hstack hplain (any_begun houter) hp haround, ?_⟩
      rw [(Register.keep_entered c p k m.fate).1]
      exact hps

theorem Retains.begin {k : Nat} {m : Moment} (hm : ms[k]? = some m) (hk : m.kind ≠ .closes)
    {c : OpenCall} {cs : List OpenCall} {n n' : Node} {ns : List Node}
    (hover : Overflows (n :: ns) → Overflows (n' :: ns))
    (h : Retains ms minMethodTime k c cs (n :: ns)) :
    Retains ms minMethodTime (k + 1) { c with begun := some k } cs (n' :: ns) := by
  intro x hx hentered hclosed hsignificant hbegun
  have hlt := hx.lt
  have hbegun' : ∃ c' ∈ c :: cs, ∃ b ∈ c'.begun, b < x.entered := by
    obtain ⟨c', hc', b, hb, hbefore⟩ := hbegun
    rcases List.mem_cons.mp hc' with rfl | hc'
    · obtain rfl := Option.some.inj hb
      omega
    · exact ⟨c', List.mem_cons_of_mem c hc', b, hb, hbefore⟩
  rcases h.later hm hk x hx hentered hclosed hsignificant hbegun' with hold | hreaches
  · exact .inl (hover hold)
  · exact .inr hreaches

theorem newMarker_overflow {t : Thresholds} {traceId : SymbolId} {clock : Nat}
    {flags : MarkerFlags} {outer : Marker} (h : outer.flags.has .overflow) :
    (newMarker t traceId clock flags (some outer)).flags.has .overflow := by
  unfold newMarker
  dsimp only
  split <;> simp [Marker.nested, Marker.mark, h]

theorem overflows_opened {a : Assembler} {t : Thresholds} {traceId : SymbolId} {clock : Nat}
    {flags : MarkerFlags} (hroot : a.top.isTraceRoot = false)
    (h : Overflows (a.top :: a.ancestors)) :
    Overflows ((a.opened t traceId clock flags).top :: a.ancestors) := by
  obtain ⟨outer, houter, hflag⟩ := h
  have hnone : a.top.frame.marker = none := by
    simpa [Node.isTraceRoot, Frame.isTraceRoot] using hroot
  rw [nearest_cons, hnone, Option.none_or] at houter
  refine ⟨_, rfl, ?_⟩
  rw [houter]
  exact newMarker_overflow hflag

theorem AllRetain.next (hos : Steady minMethodTime os) {k : Nat} {m : Moment}
    (hm : ((new capacity).trail os)[k]? = some m) (hsound : m.before.Sound)
    (hplain : m.before.PlainTraces)
    (hagrees : Agrees ((new capacity).trail os) (fun _ _ _ => True)
      (register (((new capacity).trail os).take k)) m.before)
    (h : AllRetain ((new capacity).trail os) minMethodTime k
      (register (((new capacity).trail os).take k)).calls m.before.openCalls) :
    AllRetain ((new capacity).trail os) minMethodTime (k + 1)
      (register (((new capacity).trail os).take (k + 1))).calls m.after.openCalls := by
  rw [register_succ hm]
  cases hk : m.kind with
  | enters =>
    obtain ⟨classId, methodId, signatureId, time, -, hentered⟩ := Moment.enters_spec hsound hk
    simp only [Register.next, hk]
    rw [hentered.openCalls]
    refine ⟨fun x hx hxk hclosed _ _ => ?_, h⟩
    have hlt := hx.lt
    dsimp only at hxk
    omega
  | closes =>
    have hcloses := Moment.closes_spec hsound hk
    have hcalls := hagrees.calls
    have hall := hplain.calls
    rw [hcloses.before] at h hcalls hall
    simp only [Register.next, hk]
    rw [hcloses.after]
    have hstack : stack (((new capacity).trail os).take k) =
        (register (((new capacity).trail os).take k)).calls.map (·.entered) := rfl
    cases hcs : (register (((new capacity).trail os).take k)).calls with
    | nil => rw [hcs] at h; exact absurd h id
    | cons c cs =>
      rw [hcs] at h hcalls hstack
      exact h.close hos hm hk hstack hall hcalls
  | begins =>
    obtain ⟨traceId, clock, flags, -, hroot, hafter⟩ := Moment.begins_spec hk
    simp only [Register.next, hk]
    rw [hafter]
    cases ht : m.before.top.isBusy with
    | false =>
      rw [opened_openCalls_of_vacant _ _ _ _ ht]
      exact h.later hm (by simp [hk])
    | true =>
      rw [opened_openCalls_of_busy _ _ _ _ ht]
      rw [openCalls_of_busy ht] at h
      cases hcs : (register (((new capacity).trail os).take k)).calls with
      | nil => rw [hcs] at h; exact absurd h id
      | cons c cs =>
        rw [hcs] at h
        exact ⟨h.1.begin hm (by simp [hk]) (overflows_opened hroot), h.2⟩
  | other =>
    have htouches := (Moment.other_spec hk).touches
    simp only [Register.next, hk]
    exact (h.touched htouches.openCalls).later hm (by simp [hk])

theorem allRetain_of_trail (capacity : Nat) (hos : Steady minMethodTime os) {k : Nat}
    (hk : k ≤ os.length) : AllRetain ((new capacity).trail os) minMethodTime k
      (register (((new capacity).trail os).take k)).calls
      ((new capacity).after (os.take k)).openCalls := by
  refine trail_induction capacity os (P := fun k a => AllRetain ((new capacity).trail os)
    minMethodTime k (register (((new capacity).trail os).take k)).calls a.openCalls) trivial
    (fun j m hm hsound h => ?_) hk
  obtain ⟨hj, hbefore⟩ := before_of_trail hm
  have hplain := plainTraces_of_trail capacity hos.plain (Nat.le_of_lt hj)
  rw [← hbefore] at hplain
  exact h.next hos hm hsound hplain (agrees_of_moment hm)

/-! ### Submitted trees -/

theorem settle_marker {env : Surroundings} {n : Node} {outer : List Node} :
    Option.Rel Marker.Grows n.frame.marker (settle env n outer).node.frame.marker := by
  unfold settle
  cases hm : n.frame.marker with
  | none =>
    dsimp only
    rw [hm]
    exact .none
  | some marker =>
    dsimp only
    split <;> split <;> first | exact .some (marker.grows_mark _) | exact .some (.refl marker)

theorem entered_inside {k : Nat} {c : OpenCall} {cs : List OpenCall} {b : Nat} {x : Span}
    (hx : x.IsCall ms) (hstack : stack (ms.take k) = (c :: cs).map (·.entered))
    (hnested : Register.Nested ms k (c :: cs)) (hb : c.begun = some b) (hbegun : b < x.entered)
    (hclosed : x.closed < k) : c.entered < x.entered := by
  by_contra hbefore
  by_cases hself : x.entered = c.entered
  · have hopen : (x.entered :: cs.map (·.entered)) <:+ stack (ms.take k) := by
      rw [hself, hstack]
      exact List.suffix_refl _
    have hlate := hx.le_closed hopen
    omega
  · obtain ⟨m, hm, hk⟩ := hx.enters
    exact (hnested.2.2.1 b hb).2 x.entered m hbegun (by omega) hm hk

/-- If the trace of a submitted tree does not say that a call was left out, then every significant
call entered since the trace was opened is in the tree, below all the calls around it. -/
theorem significant_kept (capacity : Nat) (hos : Steady minMethodTime os) {k : Nat} {m : Moment}
    {tree : Node} {marker : Marker} (hm : ((new capacity).trail os)[k]? = some m)
    (ht : m.tree? = some tree) (hmarker : tree.frame.marker = some marker)
    (hover : marker.flags.has .overflow = false) :
    ∃ c cs b, (register (((new capacity).trail os).take k)).calls = c :: cs ∧
      c.begun = some b ∧
      (SpanTree.node ⟨c.entered, k⟩ ⟨c.entered, k⟩ c.kept).Depicts
        (Records ((new capacity).trail os)) ((new capacity).trail os) tree ∧
      ∀ x : Span, x.IsCall ((new capacity).trail os) → b < x.entered → x.closed < k →
        x.Significant ((new capacity).trail os) minMethodTime →
        c.entered ∈ stack (((new capacity).trail os).take x.entered) ∧
          Reaches c.kept (chain ((new capacity).trail os) c.entered x) := by
  have hsound := sound_of_trail hm
  obtain ⟨hlt, hbefore⟩ := before_of_trail hm
  obtain ⟨hk, hroot, htree⟩ := Moment.submitted_spec hsound ht
  obtain ⟨c, cs, hcs, hdepicts⟩ := depicts_of_submitted (justifies_records capacity os)
    (fun s m hs hm _ => records_settled hs hm) hm ht
  obtain ⟨c', cs', hcs', -, hc, -⟩ := closing_call (justifies_records capacity os) hm hk
  obtain ⟨rfl, rfl⟩ := List.cons.inj (hcs.symm.trans hcs')
  obtain ⟨b, hb⟩ := Option.isSome_iff_exists.mp (hc.root ▸ hroot)
  refine ⟨c, cs, b, hcs, hb, hdepicts, fun x hx hbegun hclosed hsignificant => ?_⟩
  have hstack : stack (((new capacity).trail os).take k) = (c :: cs).map (·.entered) := by
    rw [stack, hcs]
  have hnested := (Register.orderly_of_trail capacity os (Nat.le_of_lt hlt)).1
  rw [hcs] at hnested
  have hinside := entered_inside hx hstack hnested hb hbegun hclosed
  have hsuffix : (c.entered :: cs.map (·.entered)) <:+
      stack (((new capacity).trail os).take k) := hstack ▸ List.suffix_refl _
  have hxlt := hx.lt
  refine ⟨(suffix_earlier hsuffix hinside (by omega)).subset (by simp), ?_⟩
  have hretain := allRetain_of_trail capacity hos (Nat.le_of_lt hlt)
  rw [hcs, ← hbefore, (Moment.closes_spec hsound hk).before] at hretain
  rcases hretain.1 x hx hinside hclosed hsignificant ⟨c, by simp, b, hb, hbegun⟩ with
    hoverflows | hreaches
  · have hgrows : Option.Rel Marker.Grows m.closing.frame.marker tree.frame.marker :=
      htree ▸ settle_marker
    obtain ⟨nearest, hnearest, hflag⟩ := hoverflows
    obtain ⟨own, hown⟩ := Option.isSome_iff_exists.mp hroot
    have hsame : own = nearest := by simpa [nearest?, hown] using hnearest
    rw [closing_marker, hown, hmarker, hsame] at hgrows
    cases hgrows with
    | some hgrows =>
      have hlost := hgrows.flags _ hflag
      rw [hover] at hlost
      cases hlost
  · exact hreaches

/-- Calls of unequal length below the first one of a trace. -/
def unequalCalls : List Occurrence :=
  occurrences { minMethodTime := 5 } [.begin 1 0 (.single .submit), .enter 2 3 4 10,
    .enter 2 5 4 11, .exit 12, .enter 2 6 4 13, .enter 2 7 4 14, .exit 20, .exit 21, .exit 22]

theorem significant_kept_of_unequalCalls : Steady 5 unequalCalls ∧
    ∃ m tree c, ((new 0).trail unequalCalls)[8]? = some m ∧ m.tree? = some tree ∧
      (register (((new 0).trail unequalCalls).take 8)).calls.head? = some c ∧
      Reaches c.kept (chain ((new 0).trail unequalCalls) c.entered ⟨5, 6⟩) := by
  have hsteady : Steady 5 unequalCalls := by
    apply steady_occurrences <;> decide
  obtain ⟨c, cs, b, hcs, hb, -, hkept⟩ :=
    significant_kept 0 (k := 8) hsteady rfl rfl rfl rfl
  have hbegun : (register (((new 0).trail unequalCalls).take 8)).calls.head?.bind (·.begun) =
      some 0 := rfl
  rw [hcs, List.head?_cons, Option.bind_some, hb, Option.some.injEq] at hbegun
  have hlong : (⟨5, 6⟩ : Span).Significant ((new 0).trail unequalCalls) 5 := .inl (by decide)
  refine ⟨hsteady, _, _, c, rfl, rfl, by rw [hcs]; rfl, ?_⟩
  exact (hkept ⟨5, 6⟩ ⟨_, rfl, rfl, rfl⟩ (by simp [hbegun]) (by decide) hlong).2

end CallTree
