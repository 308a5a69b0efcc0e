import CallTree.Proofs.Budget
import CallTree.Proofs.Counts

/-!
Which calls are in the tree of a trace. A call is there if its own node was kept and if every call
between it and the root passed on what it had kept. A forced call keeps its own node; it is lost
all the same with a call around it that is discarded.
-/
namespace CallTree
open Assembler

mutual

def SpanTree.spans : SpanTree → List Span
  | .node own _ inner => own :: SpanTree.spansIn inner

def SpanTree.spansIn : List SpanTree → List Span
  | [] => []
  | t :: ts => t.spans ++ SpanTree.spansIn ts

end

namespace SpanTree

theorem spansIn_append (ts ts' : List SpanTree) :
    spansIn (ts ++ ts') = spansIn ts ++ spansIn ts' := by
  induction ts with
  | nil => rfl
  | cons t ts ih => rw [List.cons_append, spansIn, spansIn, ih, List.append_assoc]

theorem spans_widen (s : Span) (t : SpanTree) : (t.widen s).spans = t.spans := by
  cases t
  rfl

theorem spansIn_widen (s : Span) (ts : List SpanTree) :
    spansIn (ts.map (·.widen s)) = spansIn ts := by
  induction ts with
  | nil => rfl
  | cons t ts ih => rw [List.map_cons, spansIn, spansIn, ih, spans_widen]

end SpanTree

theorem mem_spansIn_keep (c p : OpenCall) (k : Nat) (f : Fate) (x : Span) :
    x ∈ SpanTree.spansIn (c.keep k f p).kept ↔ x ∈ SpanTree.spansIn p.kept ∨
      (x = ⟨c.entered, k⟩ ∧ f = .attach) ∨ (x ∈ SpanTree.spansIn c.kept ∧ f.keeps) := by
  cases f with
  | attach => simp [OpenCall.keep, SpanTree.spansIn_append, SpanTree.spansIn, SpanTree.spans,
      Fate.keeps]
  | elide child => simp [OpenCall.keep, SpanTree.spansIn_append, SpanTree.spansIn_widen, Fate.keeps]
  | _ => simp [OpenCall.keep, Fate.keeps]

/-! ### What the open calls hold -/

def Span.fate (ms : List Moment) (s : Span) : Fate := (ms[s.closed]?.map (·.fate)).getD .discard

theorem Span.fate_of_moment {ms : List Moment} {s : Span} {m : Moment}
    (hm : ms[s.closed]? = some m) : s.fate ms = m.fate := by
  simp [Span.fate, hm]

/-- The node of the call was kept, also by all calls around it that were entered after event `i`. -/
structure Span.KeptSince (ms : List Moment) (i : Nat) (x : Span) : Prop where
  isCall : x.IsCall ms
  entered : i < x.entered
  own : x.fate ms = .attach
  around : ∀ y : Span, y.IsCall ms → i < y.entered → y.Encloses x → (y.fate ms).keeps

def Holds (ms : List Moment) : Nat → List OpenCall → Prop
  | _, [] => True
  | hi, c :: cs =>
    (∀ x : Span, x ∈ SpanTree.spansIn c.kept ↔ x.KeptSince ms c.entered ∧ x.closed < hi) ∧
      Holds ms c.entered cs

variable {ms : List Moment} {k : Nat}

theorem Holds.later (hopen : ∀ m, ms[k]? = some m → m.kind ≠ .closes) {cs : List OpenCall}
    (h : Holds ms k cs) : Holds ms (k + 1) cs := by
  cases cs with
  | nil => trivial
  | cons c cs =>
    refine ⟨fun x => (h.1 x).trans (and_congr_right fun hx => ?_), h.2⟩
    constructor
    · exact Nat.lt_succ_of_lt
    · intro hclosed
      obtain ⟨m, hm, hk, -⟩ := hx.isCall
      by_contra hlate
      obtain rfl : x.closed = k := by omega
      exact hopen m hm hk

theorem Span.KeptSince.through {c p : Nat} {s : List Nat}
    (hstack : stack (ms.take k) = c :: p :: s) (hcall : (⟨c, k⟩ : Span).IsCall ms) {x : Span}
    (hx : c < x.entered) (hclosed : x.closed < k) :
    x.KeptSince ms p ↔ x.KeptSince ms c ∧ ((⟨c, k⟩ : Span).fate ms).keeps := by
  have hsuffix : (c :: p :: s) <:+ stack (ms.take k) := hstack ▸ List.suffix_refl _
  have hp : p < c := lt_of_stack hstack p (by simp)
  constructor
  · intro h
    exact ⟨⟨h.isCall, hx, h.own, fun y hy hentered => h.around y hy (by omega)⟩,
      h.around ⟨c, k⟩ hcall hp ⟨hx, hclosed⟩⟩
  · intro ⟨h, hkeeps⟩
    refine ⟨h.isCall, by omega, h.own, fun y hy hentered hencloses => ?_⟩
    have hlt := h.isCall.lt
    obtain ⟨hstart, hstop⟩ := hencloses
    rcases Nat.lt_trichotomy y.entered c with hbefore | hsame | hafter
    · have hover := hy.closed_before hsuffix hentered hbefore
      omega
    · rw [hy.eq_of_entered hcall hsame]
      exact hkeeps
    · exact h.around y hy hafter ⟨hstart, hstop⟩

theorem Holds.close {m : Moment} (hm : ms[k]? = some m) (hk : m.kind = .closes) {c p : OpenCall}
    {ps : List OpenCall} (hstack : stack (ms.take k) = c.entered :: p.entered :: ps.map (·.entered))
    (h : Holds ms k (c :: p :: ps)) : Holds ms (k + 1) (c.keep k m.fate p :: ps) := by
  obtain ⟨hc, hp, hps⟩ := h
  have hkeep := Register.keep_entered c p k m.fate
  refine ⟨fun x => ?_, hkeep.1 ▸ hps⟩
  have hcall : (⟨c.entered, k⟩ : Span).IsCall ms := ⟨m, hm, hk, by rw [hstack]; rfl⟩
  have hfate : (⟨c.entered, k⟩ : Span).fate ms = m.fate := Span.fate_of_moment hm
  have hsuffix : (c.entered :: p.entered :: ps.map (·.entered)) <:+ stack (ms.take k) :=
    hstack ▸ List.suffix_refl _
  have hlt : p.entered < c.entered := lt_of_stack hstack p.entered (by simp)
  rw [mem_spansIn_keep, hc, hp, hkeep.1]
  constructor
  · rintro (⟨hx, hclosed⟩ | ⟨rfl, hattach⟩ | ⟨⟨hx, hclosed⟩, hkeeps⟩)
    · have hck := hcall.lt
      simp only at hck
      exact ⟨hx, by omega⟩
    · refine ⟨⟨hcall, hlt, by rw [hfate, hattach], fun y hy hentered hencloses => ?_⟩,
        Nat.lt_succ_self k⟩
      obtain ⟨hstart, hstop⟩ := hencloses
      have hover := hy.closed_before hsuffix hentered hstart
      have hck := hcall.lt
      simp only at hck hstop
      omega
    · exact ⟨(Span.KeptSince.through hstack hcall hx.entered hclosed).mpr
        ⟨hx, hfate ▸ hkeeps⟩, by omega⟩
  · rintro ⟨hx, hclosed⟩
    rcases Nat.lt_trichotomy x.entered c.entered with hbefore | hsame | hafter
    · exact .inl ⟨hx, hx.isCall.closed_before hsuffix hx.entered hbefore⟩
    · have heq := hx.isCall.eq_of_entered hcall hsame
      exact .inr (.inl ⟨heq, by rw [← hfate, ← heq]; exact hx.own⟩)
    · have hclosed' := hx.isCall.closed_lt (by rw [hstack]; rfl) (by omega)
        (Nat.le_of_lt_succ hclosed)
      obtain ⟨hinner, hkeeps⟩ :=
        (Span.KeptSince.through hstack hcall hafter hclosed').mp hx
      exact .inr (.inr ⟨⟨hinner, hclosed'⟩, hfate ▸ hkeeps⟩)

theorem holds_register (ms : List Moment) (k : Nat) :
    Holds ms k (register (ms.take k)).calls := by
  refine register_induction (P := Holds ms) (fun _ => trivial)
    (fun _ _ hopen h => h.later hopen) (fun k begun cs h => ⟨fun x => ?_, h⟩)
    (fun k m c cs hm hk hstack h => ?_) (fun _ _ _ _ h => h) k
  · simp only [SpanTree.spansIn, List.not_mem_nil, false_iff, not_and, Nat.not_lt]
    intro hx
    have hentered := hx.entered
    have hlt := hx.isCall.lt
    omega
  · cases cs with
    | nil => trivial
    | cons p ps => exact h.close hm hk hstack

/-! ### Calls that stay open -/

theorem zip_of_forall₂ {α β : Type} {R : α → β → Prop} {l : List α} {l' : List β}
    (h : List.Forall₂ R l l') {a : α} (ha : a ∈ l) : ∃ b, (a, b) ∈ l.zip l' ∧ R a b := by
  induction h with
  | nil => simp at ha
  | @cons a' b' l l' hab _ ih =>
    rcases List.mem_cons.mp ha with rfl | ha
    · exact ⟨b', by simp, hab⟩
    · obtain ⟨b, hb, hR⟩ := ih ha
      exact ⟨b, List.mem_cons_of_mem _ hb, hR⟩

theorem zip_related {α β : Type} {R : β → β → Prop} {l l' : List β} (h : List.Forall₂ R l l')
    {is : List α} {i : α} {n : β} (hn : (i, n) ∈ is.zip l) :
    ∃ n', (i, n') ∈ is.zip l' ∧ R n n' := by
  induction h generalizing is with
  | nil => simp at hn
  | @cons a b l l' hab _ ih =>
    cases is with
    | nil => simp at hn
    | cons j js =>
      rw [List.zip_cons_cons] at hn ⊢
      rcases List.mem_cons.mp hn with heq | hn
      · obtain ⟨rfl, rfl⟩ := Prod.mk.inj heq
        exact ⟨b, by simp, hab⟩
      · obtain ⟨n', hn', hR⟩ := ih hn
        exact ⟨n', List.mem_cons_of_mem _ hn', hR⟩

/-- As long as a call is open it loses neither its trace nor a flag. -/
structure Node.Ages (n n' : Node) : Prop where
  root : n.isTraceRoot → n'.isTraceRoot
  flags : ∀ x, n.frame.flags.has x → n'.frame.flags.has x

theorem Node.Ages.refl (n : Node) : n.Ages n := ⟨id, fun _ => id⟩

theorem Node.Ages.trans {n n' n'' : Node} (h : n.Ages n') (h' : n'.Ages n'') : n.Ages n'' :=
  ⟨fun hroot => h'.root (h.root hroot), fun x hx => h'.flags x (h.flags x hx)⟩

theorem Node.Touched.ages {n n' : Node} (h : n.Touched n') : n.Ages n' :=
  ⟨fun hroot => h.isTraceRoot.trans hroot, h.flags⟩

theorem ages_parent (m : Moment) :
    List.Forall₂ Node.Ages m.outer (m.around.modifyHead m.parent) := by
  have htouched := m.around_touched
  generalize m.around = around at htouched
  generalize m.outer = outer at htouched
  cases htouched with
  | nil => exact .nil
  | @cons n q ns qs hn hns =>
    refine .cons ⟨fun hroot => ?_, fun x hx => ?_⟩ (List.Forall₂.imp (fun _ _ h => h.ages) hns)
    · rw [m.parent_isTraceRoot]
      exact hn.ages.root hroot
    · rw [m.parent_frame]
      exact hn.ages.flags x hx

theorem ages_opened (t : Thresholds) (traceId : SymbolId) (clock : Nat) (flags : MarkerFlags)
    (a : Assembler) :
    List.Forall₂ Node.Ages a.openCalls (a.opened t traceId clock flags).openCalls := by
  have hsame : List.Forall₂ Node.Ages a.ancestors a.ancestors :=
    List.forall₂_same.mpr fun n _ => .refl n
  cases ht : a.top.isBusy with
  | true =>
    rw [opened_openCalls_of_busy _ _ _ _ ht, openCalls_of_busy ht]
    exact .cons ⟨fun _ => rfl, fun x hx => by simp [opened, Node.mapFrame, Frame.mark, hx]⟩ hsame
  | false =>
    rw [opened_openCalls_of_vacant _ _ _ _ ht, openCalls_of_vacant ht]
    exact hsame

theorem Moment.ages {m : Moment} (hm : ms[k]? = some m) (hsound : m.before.Sound) {i : Nat}
    {n : Node} (hn : (i, n) ∈ (stack (ms.take k)).zip m.before.openCalls)
    (hstays : m.kind = .closes → (stack (ms.take k)).head? ≠ some i) :
    ∃ n', (i, n') ∈ (stack (ms.take (k + 1))).zip m.after.openCalls ∧ n.Ages n' := by
  rw [stack_succ hm]
  cases hk : m.kind with
  | enters =>
    obtain ⟨_, _, _, _, -, hentered⟩ := Moment.enters_spec hsound hk
    rw [hentered.openCalls]
    exact ⟨n, List.mem_cons_of_mem _ hn, .refl n⟩
  | closes =>
    have hcloses := Moment.closes_spec hsound hk
    rw [hcloses.before] at hn
    rw [hcloses.after]
    have hhead := hstays hk
    cases hstack : stack (ms.take k) with
    | nil => simp [hstack] at hn
    | cons e s =>
      rw [hstack, List.zip_cons_cons] at hn
      rw [hstack, List.head?_cons, ne_eq, Option.some.injEq] at hhead
      rcases List.mem_cons.mp hn with heq | hn
      · exact absurd (Prod.mk.inj heq).1.symm hhead
      · exact zip_related (ages_parent m) hn
  | begins =>
    obtain ⟨traceId, clock, flags, -, -, hafter⟩ := Moment.begins_spec hk
    rw [hafter]
    exact zip_related (ages_opened _ _ _ _ _) hn
  | other =>
    have htouches := (Moment.other_spec hk).touches
    exact zip_related (List.Forall₂.imp (fun _ _ h => h.ages) htouches.openCalls) hn

variable {capacity : Nat} {os : List Occurrence}

theorem ages_of_trail {x : Span} (hx : x.IsCall ((new capacity).trail os)) {j k : Nat} (hjk : j ≤ k)
    (hk : k ≤ x.closed) {n : Node} (hn : (x.entered, n) ∈
      (stack (((new capacity).trail os).take j)).zip ((new capacity).after (os.take j)).openCalls) :
    ∃ n', (x.entered, n') ∈ (stack (((new capacity).trail os).take k)).zip
      ((new capacity).after (os.take k)).openCalls ∧ n.Ages n' := by
  induction hjk with
  | refl => exact ⟨n, hn, .refl n⟩
  | @step k _ ih =>
    obtain ⟨n', hn', hages⟩ := ih (Nat.le_of_succ_le hk)
    have hcall := hx
    obtain ⟨last, hlast, -, -⟩ := hcall
    have hlength := (before_of_trail hlast).1
    have hm := moment_of_trail (new capacity) (show k < os.length by omega)
    obtain ⟨n'', hn'', hages'⟩ := Moment.ages hm (sound_of_trail hm) hn' fun hcloses hhead => by
      have hcall : (⟨x.entered, k⟩ : Span).IsCall ((new capacity).trail os) :=
        ⟨_, hm, hcloses, hhead⟩
      have hclosed := congrArg Span.closed (hx.eq_of_entered hcall rfl)
      simp only at hclosed
      omega
    rw [after_of_trail hm] at hn''
    exact ⟨n'', hn'', hages.trans hages'⟩

/-! ### Forced calls -/

/-- The event marks the innermost open call as forced: no trace waits above that call. -/
def Moment.Forces (m : Moment) : Prop :=
  m.before.enabled ∧ m.before.awaited.isTraceRoot = false ∧
    ∃ flags, m.event = .markFrame flags ∧ flags.has .forced

theorem Moment.Forces.spec {m : Moment} (h : m.Forces) {n : Node} {outer : List Node}
    (hopen : m.before.openCalls = n :: outer) :
    m.kind = .other ∧ ∃ n', m.after.openCalls = n' :: outer ∧ n'.frame.flags.has .forced := by
  obtain ⟨hon, hroot, flags, hevent, hforced⟩ := h
  refine ⟨by simp [Moment.kind, Assembler.kind, hon, hevent], n.mapFrame (·.mark flags), ?_,
    by simp [Node.mapFrame, Frame.mark, hforced]⟩
  have hafter : m.after = (m.before.updateFrame (fun _ => true) (·.mark flags)).getD m.before := by
    simp [Moment.after, step, hon, hevent, handle]
  rw [hafter]
  cases ht : m.before.top.isBusy with
  | true =>
    rw [openCalls_of_busy ht] at hopen
    obtain ⟨rfl, rfl⟩ := List.cons.inj hopen
    have hchange : m.before.updateFrame (fun _ => true) (·.mark flags) =
        some { m.before with top := m.before.top.mapFrame (·.mark flags) } := by
      simp [updateFrame, isPlaceholder, ht, slots, updateFirst, withSlots]
    rw [hchange, Option.getD_some]
    exact openCalls_of_busy ht
  | false =>
    rw [openCalls_of_vacant ht] at hopen
    have hplain : m.before.top.isTraceRoot = false := by
      show m.before.top.frame.isTraceRoot = false
      simpa [awaited, ht] using hroot
    have hchange : m.before.updateFrame (fun _ => true) (·.mark flags) =
        some { m.before with ancestors := n.mapFrame (·.mark flags) :: outer } := by
      simp [updateFrame, isPlaceholder, ht, hplain, hopen, updateFirst]
    rw [hchange, Option.getD_some]
    exact openCalls_of_vacant ht

/-- The call was worth keeping when it closed. -/
def Span.Retained (ms : List Moment) (y : Span) : Prop :=
  ∃ m, ms[y.closed]? = some m ∧
    isRetained m.env.thresholds m.closing.frame (traceFlags (m.closing :: m.outer))

theorem fate_keeps_iff {m : Moment} (hin : m.outer.any (·.isTraceRoot))
    (hflag : m.closing.frame.flags.has .overflow = false) : m.fate.keeps ↔
      isRetained m.env.thresholds m.closing.frame (traceFlags (m.closing :: m.outer)) := by
  simp only [Moment.fate, fateOf, Assembler.fate, hin, hflag, Bool.true_and]
  cases hretained : isRetained m.env.thresholds m.closing.frame
      (traceFlags (m.closing :: m.outer)) with
  | false => cases (settle m.env m.closing m.outer).isSubmitted <;> simp [Fate.keeps]
  | true =>
    cases (settle m.env m.closing m.outer).isSubmitted with
    | true => simp [Fate.keeps]
    | false => cases substitute? m.env.thresholds m.closing _ <;> simp [Fate.keeps]

/-- In the tree of a trace there are, besides its root, the calls inside it that were kept by all
calls between. -/
theorem present_iff {k : Nat} {m : Moment} {tree : Node}
    (hm : ((new capacity).trail os)[k]? = some m) (ht : m.tree? = some tree) {r : Span}
    (hr : r.IsCall ((new capacity).trail os)) (hrk : r.closed = k) :
    ∃ t : SpanTree, t.own = r ∧ t.outer = r ∧
      t.Depicts (Records ((new capacity).trail os)) ((new capacity).trail os) tree ∧
      ∀ x, x ∈ t.spans ↔
        x = r ∨ x.KeptSince ((new capacity).trail os) r.entered ∧ x.closed < r.closed := by
  subst hrk
  obtain ⟨c, cs, hcs, hdepicts⟩ := depicts_of_submitted (justifies_records capacity os)
    (fun s m hs hm _ => records_settled hs hm) hm ht
  have hentered : r = ⟨c.entered, r.closed⟩ := by
    obtain ⟨-, -, -, hhead⟩ := hr
    rw [stack, hcs, List.map_cons, List.head?_cons, Option.some.injEq] at hhead
    rw [hhead]
  have hholds := holds_register ((new capacity).trail os) r.closed
  rw [hcs] at hholds
  rw [← hentered] at hdepicts
  refine ⟨_, rfl, rfl, hdepicts, fun x => ?_⟩
  rw [SpanTree.spans, List.mem_cons, hholds.1 x, hentered]

theorem outer_of_open {r y : Span} (hr : r.IsCall ((new capacity).trail os))
    (hy : y.IsCall ((new capacity).trail os)) (hentered : r.entered < y.entered)
    (hclosed : y.closed < r.closed) {j : Nat} (hj : j ≤ y.closed) {n : Node}
    (hn : (r.entered, n) ∈ (stack (((new capacity).trail os).take j)).zip
      ((new capacity).after (os.take j)).openCalls) (hroot : n.isTraceRoot) {m : Moment}
    (hm : ((new capacity).trail os)[y.closed]? = some m) : m.outer.any (·.isTraceRoot) := by
  obtain ⟨n', hn', hages⟩ := ages_of_trail hr hj (Nat.le_of_lt hclosed) hn
  obtain ⟨m', hm', hk, hhead⟩ := hy
  obtain rfl : m = m' := Option.some.inj (hm.symm.trans hm')
  obtain ⟨s, hs⟩ := List.head?_eq_some_iff.mp hhead
  rw [← (before_of_trail hm).2, (Moment.closes_spec (sound_of_trail hm) hk).before, hs,
    List.zip_cons_cons] at hn'
  rcases List.mem_cons.mp hn' with heq | hn'
  · have hsame := (Prod.mk.inj heq).1
    omega
  · exact List.any_eq_true.mpr ⟨n', (List.of_mem_zip hn').2, hages.root hroot⟩

theorem length_stack {k : Nat} {m : Moment} (hm : ((new capacity).trail os)[k]? = some m) :
    (stack (((new capacity).trail os).take k)).length = m.before.openCalls.length := by
  rw [stack, List.length_map, (agrees_of_moment hm).calls.length_eq]

theorem forced_of_forces {j : Nat} {mark : Moment}
    (hmark : ((new capacity).trail os)[j]? = some mark) (hforces : mark.Forces) {x : Span}
    (hx : x.IsCall ((new capacity).trail os))
    (hopen : (stack (((new capacity).trail os).take j)).head? = some x.entered) {m : Moment}
    (hm : ((new capacity).trail os)[x.closed]? = some m) :
    j < x.closed ∧ m.closing.frame.flags.has .forced := by
  obtain ⟨s, hs⟩ := List.head?_eq_some_iff.mp hopen
  have hlength := length_stack hmark
  rw [hs] at hlength
  obtain ⟨n, outer, hcalls⟩ :=
    List.exists_cons_of_length_pos (Nat.lt_of_lt_of_eq (Nat.succ_pos s.length) hlength)
  obtain ⟨hkind, n', hafter, hforced⟩ := hforces.spec hcalls
  have hle := hx.le_closed_of_mem (List.mem_of_head? hopen)
  have hcall := hx
  obtain ⟨m', hm', hk, hhead⟩ := hcall
  obtain rfl : m = m' := Option.some.inj (hm.symm.trans hm')
  have hne : j ≠ x.closed := by
    rintro rfl
    obtain rfl : m = mark := Option.some.inj (hm.symm.trans hmark)
    rw [hkind] at hk
    cases hk
  have hlt : j < x.closed := by omega
  have hmarked : (x.entered, n') ∈ (stack (((new capacity).trail os).take (j + 1))).zip
      ((new capacity).after (os.take (j + 1))).openCalls := by
    rw [stack_succ hmark, ← after_of_trail hmark, hafter]
    simp [hkind, hs]
  obtain ⟨n'', hn'', hages⟩ := ages_of_trail hx hlt (Nat.le_refl _) hmarked
  obtain ⟨s', hs'⟩ := List.head?_eq_some_iff.mp hhead
  rw [← (before_of_trail hm).2, (Moment.closes_spec (sound_of_trail hm) hk).before, hs',
    List.zip_cons_cons] at hn''
  refine ⟨hlt, ?_⟩
  rw [closing_flag m (by simp) (by simp)]
  rcases List.mem_cons.mp hn'' with heq | hn''
  · rw [← (Prod.mk.inj heq).2]
    exact hages.flags _ hforced
  · have hself := lt_of_stack hs' x.entered (List.of_mem_zip hn'').1
    omega

theorem retained_iff {y : Span} {m : Moment} (hm : ms[y.closed]? = some m)
    (hin : m.outer.any (·.isTraceRoot))
    (hflag : m.closing.frame.flags.has .overflow = false) :
    (y.fate ms).keeps ↔ y.Retained ms := by
  rw [Span.fate_of_moment hm, fate_keeps_iff hin hflag]
  constructor
  · intro h
    exact ⟨m, hm, h⟩
  · rintro ⟨m', hm', h⟩
    obtain rfl : m = m' := Option.some.inj (hm.symm.trans hm')
    exact h

/-- A call that is marked as forced inside a trace keeps its own node, whatever its duration. It is
in the tree of the trace, unless its only child takes its place, if and only if each call between
it and the root was worth keeping when it closed. -/
theorem forced_present_iff (capacity : Nat) (os : List Occurrence)
    (hbudget : ∀ m ∈ (new capacity).trail os, m.kind = .closes →
      m.closing.frame.flags.has .overflow = false)
    {j k : Nat} {mark m : Moment} {x : Span} {c : OpenCall} {tree : Node}
    (hmark : ((new capacity).trail os)[j]? = some mark) (hforces : mark.Forces)
    (hx : x.IsCall ((new capacity).trail os))
    (hopen : (stack (((new capacity).trail os).take j)).head? = some x.entered)
    (hc : c ∈ (register (((new capacity).trail os).take j)).calls) (hbegun : c.begun.isSome)
    (hr : (⟨c.entered, k⟩ : Span).IsCall ((new capacity).trail os))
    (hm : ((new capacity).trail os)[k]? = some m) (ht : m.tree? = some tree) :
    (x ≠ ⟨c.entered, k⟩ → (x.fate ((new capacity).trail os)).keeps) ∧
    ∃ t : SpanTree, t.own = ⟨c.entered, k⟩ ∧ t.outer = ⟨c.entered, k⟩ ∧
      t.Depicts (Records ((new capacity).trail os)) ((new capacity).trail os) tree ∧
      (x ∈ t.spans ↔ x = ⟨c.entered, k⟩ ∨ x.fate ((new capacity).trail os) = .attach ∧
        ∀ y : Span, y.IsCall ((new capacity).trail os) →
          (⟨c.entered, k⟩ : Span).Encloses y → y.Encloses x →
            y.Retained ((new capacity).trail os)) := by
  obtain ⟨t, hown, houter, hdepicts, hspans⟩ := present_iff hm ht hr rfl
  obtain ⟨s, hs⟩ := List.head?_eq_some_iff.mp hopen
  obtain ⟨hlt, hbefore⟩ := before_of_trail hmark
  have hmem : c.entered ∈ stack (((new capacity).trail os).take j) := List.mem_map_of_mem hc
  by_cases hself : x.entered = c.entered
  · have hxr : x = ⟨c.entered, k⟩ := hx.eq_of_entered hr hself
    exact ⟨fun hne => absurd hxr hne, t, hown, houter, hdepicts, by simp [hspans, hxr]⟩
  have hinside : c.entered < x.entered := by
    rw [hs] at hmem
    rcases List.mem_cons.mp hmem with hsame | hmem
    · exact absurd hsame.symm hself
    · exact lt_of_stack hs _ hmem
  have hxj : x.entered < j := (stack_sorted _ j).2 _ (List.mem_of_head? hopen)
  have hjk : j ≤ k := hr.le_closed_of_mem hmem
  have hxk : x.closed < k := hr.closed_inside hx hinside (Nat.lt_of_lt_of_le hxj hjk)
  have hjx : j ≤ x.closed := hx.le_closed_of_mem (List.mem_of_head? hopen)
  have hne : x ≠ ⟨c.entered, k⟩ := fun h => hself (congrArg Span.entered h)
  -- The trace was open at the mark, so it is around every call that closes later inside it.
  obtain ⟨n, hn, hrepresents⟩ := zip_of_forall₂ (agrees_of_moment hmark).calls hc
  have hzip : (c.entered, n) ∈ (stack (((new capacity).trail os).take j)).zip
      ((new capacity).after (os.take j)).openCalls := by
    rw [stack, ← (before_of_trail hmark).2, List.zip_map_left]
    exact List.mem_map.mpr ⟨_, hn, rfl⟩
  have hretained {y : Span} (hy : y.IsCall ((new capacity).trail os)) (hcy : c.entered < y.entered)
      (hyk : y.closed < k) (hjy : j ≤ y.closed) : (y.fate ((new capacity).trail os)).keeps ↔
        y.Retained ((new capacity).trail os) := by
    have hcall := hy
    obtain ⟨my, hmy, hk, -⟩ := hcall
    have houter := outer_of_open hr hy hcy hyk hjy hzip (hrepresents.root.trans hbegun) hmy
    exact retained_iff hmy houter (hbudget my (List.mem_of_getElem? hmy) hk)
  have hforced : x.Retained ((new capacity).trail os) := by
    have hcall := hx
    obtain ⟨mx, hmx, -, -⟩ := hcall
    have hflag := (forced_of_forces hmark hforces hx hopen hmx).2
    exact ⟨mx, hmx, by simp [isRetained, hflag]⟩
  refine ⟨fun _ => (hretained hx hinside hxk hjx).mpr hforced, t, hown, houter, hdepicts, ?_⟩
  rw [hspans]
  refine or_congr_right ?_
  constructor
  · rintro ⟨hkept, -⟩
    refine ⟨hkept.own, fun y hy hcy hyx => ?_⟩
    exact (hretained hy hcy.1 hcy.2 (Nat.le_of_lt (Nat.lt_of_le_of_lt hjx hyx.2))).mp
      (hkept.around y hy hcy.1 hyx)
  · rintro ⟨hattach, haround⟩
    refine ⟨⟨hx, hinside, hattach, fun y hy hcy hyx => ?_⟩, hxk⟩
    have hyk : y.closed < k := by
      have hxlt := hx.lt
      exact hr.closed_inside hy hcy (by have hstart := hyx.1; dsimp only; omega)
    exact (hretained hy hcy hyk (Nat.le_of_lt (Nat.lt_of_le_of_lt hjx hyx.2))).mpr
      (haround y hy ⟨hcy, hyk⟩ hyx)

/-- Three nested calls, the innermost one forced and the one around it short. -/
def shortCalls : List Occurrence :=
  occurrences { minTraceTime := 0 } [.enter 1 1 1 0, .begin 7 0 ∅, .enter 2 2 2 10, .enter 3 3 3 11,
    .markFrame (.single .forced), .exit 12, .exit 13, .exit 300]

theorem forced_present_iff_of_shortCalls :
    ∃ m tree, ((new 0).trail shortCalls)[7]? = some m ∧ m.tree? = some tree ∧
      ((⟨3, 5⟩ : Span).fate ((new 0).trail shortCalls)).keeps ∧
      ∃ t : SpanTree, t.own = ⟨0, 7⟩ ∧
        t.Depicts (Records ((new 0).trail shortCalls)) ((new 0).trail shortCalls) tree ∧
        ⟨3, 5⟩ ∉ t.spans := by
  have hin : ∃ c ∈ (register (((new 0).trail shortCalls).take 4)).calls,
      c.entered = 0 ∧ c.begun.isSome := ⟨_, .tail _ (.tail _ (.head _)), rfl, rfl⟩
  obtain ⟨c, hc, hentered, hbegun⟩ := hin
  obtain ⟨hkeeps, t, hown, -, hdepicts, hspans⟩ := forced_present_iff 0 shortCalls (by decide)
    (j := 4) (k := 7) (x := ⟨3, 5⟩) rfl ⟨rfl, rfl, _, rfl, rfl⟩ ⟨_, rfl, rfl, rfl⟩ rfl hc hbegun
    ⟨_, rfl, rfl, by rw [hentered]; rfl⟩ rfl rfl
  rw [hentered] at hkeeps hown hspans
  refine ⟨_, _, rfl, rfl, hkeeps (by decide), t, hown, hdepicts, fun hmem => ?_⟩
  rcases hspans.mp hmem with heq | ⟨-, haround⟩
  · exact absurd heq (by decide)
  · obtain ⟨m, hm, hretained⟩ := haround ⟨2, 6⟩ ⟨_, rfl, rfl, rfl⟩ ⟨by decide, by decide⟩
      ⟨by decide, by decide⟩
    obtain rfl := Option.some.inj hm
    exact absurd hretained (by decide)

/-- A forced call in an open trace is not in the tree, though no call came over the budget. -/
theorem forced_call_lost :
    (∀ m ∈ (new 0).trail shortCalls, m.kind = .closes →
      m.closing.frame.flags.has .overflow = false) ∧
    ∃ mark m tree, ((new 0).trail shortCalls)[4]? = some mark ∧ mark.Forces ∧
      (⟨3, 5⟩ : Span).IsCall ((new 0).trail shortCalls) ∧
      (stack (((new 0).trail shortCalls).take 4)).head? = some 3 ∧
      (∃ c ∈ (register (((new 0).trail shortCalls).take 4)).calls,
        c.entered = 0 ∧ c.begun.isSome) ∧
      (⟨0, 7⟩ : Span).IsCall ((new 0).trail shortCalls) ∧
      ((new 0).trail shortCalls)[7]? = some m ∧ m.tree? = some tree ∧ tree.children = [] :=
  ⟨by decide, _, _, _, rfl, ⟨rfl, rfl, _, rfl, rfl⟩, ⟨_, rfl, rfl, rfl⟩, rfl,
    ⟨_, .tail _ (.tail _ (.head _)), rfl, rfl⟩, ⟨_, rfl, rfl, rfl⟩, rfl, rfl, rfl⟩

end CallTree
