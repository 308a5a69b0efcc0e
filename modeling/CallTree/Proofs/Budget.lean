import CallTree.Proofs.Depiction

/-!
The node budget. The count of nodes is the size of all open calls of the outermost trace, and a
call that came over the budget is not kept, so no submitted tree is larger than a budget that was
in force.
-/
namespace CallTree
open Assembler

/-- The nodes of the open calls that are inside a trace. -/
def weight : List Node → Nat
  | [] => 0
  | n :: ns => if (n :: ns).any (·.isTraceRoot) then n.size + weight ns else 0

/-- Inside a trace, a call is over the budget only if it was entered so and has kept nothing.
Outside, nothing is kept. -/
def Budgeted (budget : Nat) : List Node → Prop
  | [] => True
  | n :: ns =>
    (if (n :: ns).any (·.isTraceRoot) then
      n.frame.flags.has .overflow = false ∨ n.children ≠ [] → weight (n :: ns) ≤ budget
    else n.children = []) ∧ Budgeted budget ns

theorem sizes_append (ns ns' : List Node) :
    Node.sizes (ns ++ ns') = Node.sizes ns + Node.sizes ns' := by
  induction ns with
  | nil => simp [Node.sizes]
  | cons n ns ih =>
    rw [List.cons_append, Node.sizes, Node.sizes, ih]
    omega

theorem size_addChild (p n : Node) : (p.addChild n).size = p.size + n.size := by
  rw [Node.size_eq, Node.size_eq p]
  simp only [Node.addChild, sizes_append, Node.sizes]
  omega

theorem weight_of_trace {n : Node} {ns : List Node} (h : (n :: ns).any (·.isTraceRoot)) :
    weight (n :: ns) = n.size + weight ns := if_pos h

theorem weight_outside {ns : List Node} (h : ns.any (·.isTraceRoot) = false) : weight ns = 0 := by
  cases ns with
  | nil => rfl
  | cons n ns => exact if_neg (by simp [h])

theorem weight_pos {ns : List Node} (h : ns.any (·.isTraceRoot)) : 0 < weight ns := by
  cases ns with
  | nil => simp at h
  | cons n ns =>
    rw [weight_of_trace h, Node.size_eq]
    omega

variable {budget budget' : Nat} {ns ns' : List Node}

theorem Budgeted.mono (h : Budgeted budget ns) (hle : ns.any (·.isTraceRoot) → budget ≤ budget') :
    Budgeted budget' ns := by
  induction ns with
  | nil => trivial
  | cons n ns ih =>
    obtain ⟨hn, hns⟩ := h
    refine ⟨?_, ih hns fun hroot => hle (by simp [hroot])⟩
    split
    case isTrue hin =>
      rw [if_pos hin] at hn
      intro hkept
      have hweight := hn hkept
      have hbudget := hle hin
      omega
    case isFalse hout => rwa [if_neg hout] at hn

theorem weight_touched (h : AllTouched ns ns') : weight ns' = weight ns := by
  induction h with
  | nil => rfl
  | @cons n n' ns ns' hn hns ih =>
    have hall : AllTouched (n :: ns) (n' :: ns') := .cons hn hns
    rw [weight, weight, hall.any_isTraceRoot, hn.size, ih]

theorem Budgeted.touched (h : Budgeted budget ns) (hns : AllTouched ns ns') :
    Budgeted budget ns' := by
  induction hns with
  | nil => trivial
  | @cons n n' ns ns' hn hns ih =>
    have hall : AllTouched (n :: ns) (n' :: ns') := .cons hn hns
    refine ⟨?_, ih h.2⟩
    rw [hall.any_isTraceRoot, weight_touched hall, hn.children]
    split
    case isTrue hin =>
      have hbound := h.1
      rw [if_pos hin] at hbound
      intro hkept
      apply hbound
      rcases hkept with hflag | hchildren
      · cases hf : n.frame.flags.has .overflow with
        | false => exact .inl rfl
        | true => simp [hn.flags _ hf] at hflag
      · exact .inr hchildren
    case isFalse hout =>
      have hempty := h.1
      rwa [if_neg hout] at hempty

/-! ### The budget in force -/

def outermostBegun : List OpenCall → Option Nat
  | [] => none
  | c :: cs => (outermostBegun cs).or c.begun

/-- The largest node budget in force at an entry after event `b` and before event `k`; at least
one. -/
def largestBudget (ms : List Moment) (b k : Nat) : Nat :=
  ((((ms.take k).drop (b + 1)).filter Moment.enters).map
    (·.env.thresholds.maxTraceRecords)).foldl max 1

/-- The largest node budget in force since the outermost trace was opened. -/
def budgetAt (ms : List Moment) (k : Nat) : Nat :=
  match outermostBegun (register (ms.take k)).calls with
  | some b => largestBudget ms b k
  | none => 1

variable {ms : List Moment} {R : Span → Span → Frame → Prop}

theorem largestBudget_succ {b k : Nat} {m : Moment} (hm : ms[k]? = some m) (hb : b < k) :
    largestBudget ms b (k + 1) = if m.enters then
      max (largestBudget ms b k) m.env.thresholds.maxTraceRecords else largestBudget ms b k := by
  have hlength : b + 1 ≤ (ms.take k).length := by
    rw [List.length_take_of_le (Nat.le_of_lt (List.getElem?_eq_some_iff.mp hm).1)]
    exact hb
  simp only [largestBudget, List.take_add_one, hm, Option.toList_some,
    List.drop_append_of_le_length hlength, List.filter_append, List.map_append,
    List.foldl_append, List.filter_singleton]
  cases m.enters <;> rfl

theorem one_le_foldl_max (l : List Nat) (b : Nat) : b ≤ l.foldl max b := by
  induction l generalizing b with
  | nil => exact Nat.le_refl b
  | cons x l ih => exact Nat.le_trans (Nat.le_max_left b x) (ih (max b x))

theorem one_le_largestBudget (ms : List Moment) (b k : Nat) : 1 ≤ largestBudget ms b k :=
  one_le_foldl_max _ 1

theorem one_le_budgetAt (ms : List Moment) (k : Nat) : 1 ≤ budgetAt ms k := by
  unfold budgetAt
  split
  · exact one_le_largestBudget ms _ k
  · exact Nat.le_refl 1

theorem outermostBegun_isSome {cs : List OpenCall} {ns : List Node}
    (h : List.Forall₂ (Represents ms R) cs ns) :
    ns.any (·.isTraceRoot) = (outermostBegun cs).isSome := by
  induction h with
  | nil => rfl
  | @cons c n cs ns hc _ ih =>
    rw [List.any_cons, ih, hc.root, outermostBegun, Option.isSome_or, Bool.or_comm]

theorem outermostBegun_keep (c : OpenCall) (k : Nat) (f : Fate) (cs : List OpenCall) :
    outermostBegun (cs.modifyHead (c.keep k f)) = outermostBegun cs := by
  cases cs with
  | nil => rfl
  | cons p ps =>
    simp only [List.modifyHead_cons, outermostBegun, (Register.keep_entered c p k f).2]

theorem Register.Nested.outermostBegun_lt {hi : Nat} {cs : List OpenCall}
    (h : Register.Nested ms hi cs) {b : Nat} (hb : outermostBegun cs = some b) : b < hi := by
  induction cs generalizing hi with
  | nil => cases hb
  | cons c cs ih =>
    obtain ⟨hc, -, hbegun, -, hrest⟩ := h
    rw [outermostBegun, Option.or_eq_some_iff] at hb
    rcases hb with hb | ⟨-, hb⟩
    · exact Nat.lt_trans (ih hrest hb) hc
    · exact (hbegun b hb).1

theorem budgetAt_le {k : Nat} {m : Moment} (hm : ms[k]? = some m)
    (horderly : (register (ms.take k)).Orderly ms k)
    (hsame : (outermostBegun (register (ms.take k)).calls).isSome →
      outermostBegun (register (ms.take (k + 1))).calls =
        outermostBegun (register (ms.take k)).calls) :
    (outermostBegun (register (ms.take k)).calls).isSome →
      budgetAt ms k ≤ budgetAt ms (k + 1) := by
  intro hsome
  obtain ⟨b, hb⟩ := Option.isSome_iff_exists.mp hsome
  have hlt := horderly.1.outermostBegun_lt hb
  have hsucc := largestBudget_succ hm hlt
  unfold budgetAt
  rw [hsame hsome, hb]
  simp only [hsucc]
  split
  · exact Nat.le_max_left _ _
  · exact Nat.le_refl _

theorem budgetAt_le_of_outer {k : Nat} {m : Moment} (hm : ms[k]? = some m)
    (horderly : (register (ms.take k)).Orderly ms k)
    {cs : List OpenCall} {ns : List Node} (hcs : List.Forall₂ (Represents ms R) cs ns)
    (hsame : ∀ b, outermostBegun cs = some b →
      outermostBegun (register (ms.take k)).calls = some b ∧
        outermostBegun (register (ms.take (k + 1))).calls = some b) :
    ns.any (·.isTraceRoot) → budgetAt ms k ≤ budgetAt ms (k + 1) := by
  intro hin
  rw [outermostBegun_isSome hcs] at hin
  obtain ⟨b, hb⟩ := Option.isSome_iff_exists.mp hin
  obtain ⟨hbefore, hafter⟩ := hsame b hb
  exact budgetAt_le hm horderly (fun _ => by rw [hbefore, hafter]) (by rw [hbefore]; rfl)

theorem le_budgetAt_of_enters {k : Nat} {m : Moment} (hm : ms[k]? = some m)
    (hk : m.kind = .enters) (horderly : (register (ms.take k)).Orderly ms k)
    (hsome : ((outermostBegun (register (ms.take k)).calls).or
      (register (ms.take k)).waiting).isSome) :
    m.env.thresholds.maxTraceRecords ≤ budgetAt ms (k + 1) := by
  obtain ⟨b, hb⟩ := Option.isSome_iff_exists.mp hsome
  have hlt : b < k := by
    rcases Option.or_eq_some_iff.mp hb with hb | ⟨-, hb⟩
    · exact horderly.1.outermostBegun_lt hb
    · exact (horderly.2 b hb).1
  have hsucc := largestBudget_succ hm hlt
  rw [if_pos (by simp [Moment.enters, hk])] at hsucc
  simp only [budgetAt, register_succ hm, Register.next, hk, outermostBegun, hb, hsucc]
  exact Nat.le_max_right _ _

/-! ### One step -/

structure WithinBudget (ms : List Moment) (k : Nat) (a : Assembler) : Prop where
  nodeCount : a.nodeCount = weight a.openCalls
  calls : Budgeted (budgetAt ms k) a.openCalls

theorem arrival_overflow {t : Thresholds} {classId methodId signatureId : SymbolId} {time : Nat}
    {a : Assembler} (hin : a.counts)
    (h : (a.arrival t classId methodId signatureId time).flags.has .overflow = false) :
    a.nodeCount + 1 ≤ t.maxTraceRecords := by
  by_contra hover
  have hlt : t.maxTraceRecords < a.nodeCount + 1 := by omega
  simp [arrival, hin, hlt, Frame.mark] at h

theorem arrival_isTraceRoot {a : Assembler} (h : a.Sound) (t : Thresholds)
    (classId methodId signatureId : SymbolId) (time : Nat) :
    (a.arrival t classId methodId signatureId time).isTraceRoot = a.awaited.isTraceRoot := by
  obtain ⟨flags, heq⟩ := arrival_eq h t classId methodId signatureId time
  rw [heq]
  rfl

theorem WithinBudget.enters {k : Nat} {m : Moment} (hm : ms[k]? = some m)
    (hk : m.kind = .enters) (hsound : m.before.Sound)
    (horderly : (register (ms.take k)).Orderly ms k)
    (hagrees : Agrees ms R (register (ms.take k)) m.before) (h : WithinBudget ms k m.before) :
    WithinBudget ms (k + 1) m.after := by
  obtain ⟨classId, methodId, signatureId, time, -, hentered⟩ := Moment.enters_spec hsound hk
  have hroot := arrival_isTraceRoot hsound m.env.thresholds classId methodId signatureId time
  generalize harrival : m.before.arrival m.env.thresholds classId methodId signatureId time = f
    at hroot
  have hregister := register_succ hm
  simp only [Register.next, hk] at hregister
  have hcounts : m.before.counts =
      (({ frame := f } : Node) :: m.before.openCalls).any (·.isTraceRoot) := by
    rw [List.any_cons, counts, h.nodeCount]
    show _ = (f.isTraceRoot || _)
    rw [hroot, Bool.or_comm]
    congr 1
    cases hin : m.before.openCalls.any (·.isTraceRoot) with
    | false => simp [weight_outside hin]
    | true => simp [weight_pos hin]
  have hle := budgetAt_le hm horderly (by
    rw [hregister]
    intro hsome
    obtain ⟨b, hb⟩ := Option.isSome_iff_exists.mp hsome
    simp [outermostBegun, hb])
  rw [← outermostBegun_isSome hagrees.calls] at hle
  have hnew : weight (({ frame := f } : Node) :: m.before.openCalls) =
      if m.before.counts then m.before.nodeCount + 1 else m.before.nodeCount := by
    cases hin : m.before.counts with
    | true =>
      rw [if_pos rfl, weight_of_trace (hcounts ▸ hin), h.nodeCount, Node.size_eq]
      simp only [Node.sizes]
      omega
    | false =>
      have hout := hcounts ▸ hin
      rw [if_neg (by simp), weight_outside hout, h.nodeCount, weight_outside]
      exact (Bool.or_eq_false_iff.mp (List.any_cons ▸ hout)).2
  have hafter : m.after.openCalls = { frame := f } :: m.before.openCalls := by
    rw [hentered.openCalls, harrival]
  refine ⟨by rw [hafter, hnew]; exact hentered.nodeCount, ?_⟩
  rw [hafter]
  refine ⟨?_, h.calls.mono hle⟩
  rw [← hcounts]
  split
  case isTrue hin =>
    intro hkept
    have hflag : f.flags.has .overflow = false := by simpa using hkept
    have hbound := arrival_overflow hin (harrival ▸ hflag)
    have hforce := le_budgetAt_of_enters hm hk horderly (by
      rw [Option.isSome_or, ← outermostBegun_isSome hagrees.calls, ← hagrees.waiting, ← hroot,
        Bool.or_comm]
      have hany := hin
      rw [hcounts] at hany
      exact hany)
    rw [hnew, if_pos hin]
    omega
  case isFalse => rfl

def Assembler.Fate.keeps : Fate → Bool
  | .attach => true
  | .elide _ => true
  | _ => false

/-- Only inside a trace and within the budget is anything of a call kept. -/
theorem fateOf_keeps {env : Surroundings} {n : Node} {outer : List Node}
    (h : (fateOf env n outer).keeps) :
    outer.any (·.isTraceRoot) ∧ n.frame.flags.has .overflow = false := by
  unfold fateOf fate at h
  dsimp only at h
  split at h
  case isTrue hin =>
    rw [Bool.and_eq_true] at hin
    split at h
    case isTrue => split at h <;> cases h
    case isFalse hflag => exact ⟨hin.1, by simpa using hflag⟩
  case isFalse => split at h <;> cases h

theorem promote_size (held : Nat → Bool) (parent child : Node) :
    (promote held parent child).size = child.size := by
  rw [Node.size_eq, Node.size_eq, promote_children]

theorem remaining_size (env : Surroundings) (n : Node) (outer : List Node) (q : Node) (w : Nat) :
    remaining (n.size + (q.size + w)) n (fateOf env n outer) =
      (keep env.held (settle env n outer).node (fateOf env n outer) q).size + w := by
  cases hf : fateOf env n outer with
  | attach =>
    simp only [remaining, keep, size_addChild, settle_size]
    omega
  | elide child =>
    have hsize : n.size = 1 + child.size := by
      simp only [Node.size_eq n, fateOf_elide hf, Node.sizes, Nat.add_zero]
    simp only [remaining, keep, size_addChild, promote_size]
    omega
  | _ =>
    simp only [remaining, keep]
    omega

theorem size_rollUp (f : Frame) (q : Node) : (rollUp f q).size = q.size := by
  rw [Node.size_eq, Node.size_eq]
  rfl

theorem Budgeted.rolledUp {q : Node} {qs : List Node} (h : Budgeted budget (q :: qs)) (f : Frame) :
    Budgeted budget (rollUp f q :: qs) := by
  cases q
  exact h

theorem Moment.parent_size (m : Moment) (q : Node) (w : Nat) :
    (m.parent q).size + w = remaining (m.innermost.size + (q.size + w)) m.closing m.fate := by
  have h := remaining_size m.env m.closing m.outer (rollUp m.closing.frame q) w
  rw [size_rollUp, closing_size] at h
  exact h.symm

theorem Budgeted.close {m : Moment} (h : Budgeted budget (m.innermost :: m.outer)) {q : Node}
    {qs : List Node} (houter : AllTouched m.outer (q :: qs)) :
    Budgeted budget (m.parent q :: qs) := by
  have hqs := h.2.touched houter
  cases hkeeps : m.fate.keeps with
  | false =>
    have hsame : m.parent q = rollUp m.closing.frame q := by
      rw [m.parent_eq]
      cases hf : m.fate with
      | attach => rw [hf] at hkeeps; cases hkeeps
      | elide child => rw [hf] at hkeeps; cases hkeeps
      | _ => rfl
    rw [hsame]
    exact hqs.rolledUp _
  | true =>
    obtain ⟨hin, hflag⟩ := fateOf_keeps hkeeps
    refine ⟨?_, hqs.2⟩
    have hany : (q :: qs).any (·.isTraceRoot) := by rw [houter.any_isTraceRoot]; exact hin
    have hroot : (m.parent q :: qs).any (·.isTraceRoot) := by
      rw [List.any_cons, m.parent_isTraceRoot]
      exact hany
    have hinner : (m.innermost :: m.outer).any (·.isTraceRoot) := by simp [hin]
    have hbound := h.1
    rw [if_pos hinner, weight_of_trace hinner, ← weight_touched houter, weight_of_trace hany]
      at hbound
    rw [closing_overflow] at hflag
    have hle := hbound (.inl hflag)
    rw [if_pos hroot, weight_of_trace hroot, m.parent_size]
    intro _
    cases hf : m.fate <;> simp only [remaining] <;> omega

theorem WithinBudget.closes {k : Nat} {m : Moment} (hm : ms[k]? = some m)
    (hk : m.kind = .closes) (hsound : m.before.Sound)
    (horderly : (register (ms.take k)).Orderly ms k)
    (hagrees : Agrees ms R (register (ms.take k)) m.before) (h : WithinBudget ms k m.before) :
    WithinBudget ms (k + 1) m.after := by
  have hcloses := Moment.closes_spec hsound hk
  obtain ⟨hcount, hcalls⟩ := h
  rw [hcloses.before] at hcount hcalls
  have hregister := register_succ hm
  simp only [Register.next, hk] at hregister
  have hforall := hagrees.calls
  rw [hcloses.before] at hforall
  have hle : m.outer.any (·.isTraceRoot) → budgetAt ms k ≤ budgetAt ms (k + 1) := by
    obtain ⟨c, cs, -, houter, hcs⟩ := List.forall₂_cons_right_iff.mp hforall
    rw [hcs] at hregister
    refine budgetAt_le_of_outer hm horderly houter fun b hb => ?_
    rw [hregister, hcs, outermostBegun_keep, outermostBegun, hb]
    exact ⟨rfl, rfl⟩
  have hafter := hcloses.after
  have hnodeCount := hcloses.nodeCount
  have haround := m.around_touched
  generalize m.around = around at haround hafter
  cases around with
  | nil =>
    rw [List.forall₂_nil_right_iff.mp haround] at hnodeCount
    exact ⟨by rw [hnodeCount, hafter]; rfl, by rw [hafter]; trivial⟩
  | cons q qs =>
    have hany : (m.parent q :: qs).any (·.isTraceRoot) = m.outer.any (·.isTraceRoot) := by
      rw [← haround.any_isTraceRoot, List.any_cons, List.any_cons, m.parent_isTraceRoot]
    refine ⟨?_, by rw [hafter]; exact (hcalls.close haround).mono fun h => hle (hany ▸ h)⟩
    rw [hnodeCount, hafter]
    show _ = weight (m.parent q :: qs)
    cases hin : m.outer.any (·.isTraceRoot) with
    | false =>
      rw [weight_outside (hany.trans hin)]
      rfl
    | true =>
      have houter : (q :: qs).any (·.isTraceRoot) := haround.any_isTraceRoot.trans hin
      rw [if_pos rfl, weight_of_trace (hany.trans hin), m.parent_size, hcount,
        weight_of_trace (by simp [hin]), ← weight_touched haround, weight_of_trace houter]

section Opening

variable {n n' : Node} (hroot : n.isTraceRoot = false) (hroot' : n'.isTraceRoot)
  (hchildren : n'.children = n.children) (h : Budgeted budget (n :: ns))
include hroot hroot' hchildren h

theorem weight_opened :
    weight (n' :: ns) = if ns.any (·.isTraceRoot) then weight (n :: ns) else 1 := by
  have hany : (n :: ns).any (·.isTraceRoot) = ns.any (·.isTraceRoot) := by simp [hroot]
  rw [weight_of_trace (by simp [hroot']), Node.size_eq, hchildren]
  split
  case isTrue hin => rw [weight_of_trace (hany.trans hin), Node.size_eq]
  case isFalse hout =>
    have hempty := h.1
    rw [hany, if_neg hout] at hempty
    rw [weight_outside (by simpa using hout), hempty]
    rfl

theorem Budgeted.opened (hflag : n'.frame.flags.has .overflow = n.frame.flags.has .overflow)
    (hle : ns.any (·.isTraceRoot) → budget ≤ budget') (hone : 1 ≤ budget') :
    Budgeted budget' (n' :: ns) := by
  have hweight := weight_opened hroot hroot' hchildren h
  have hany : (n :: ns).any (·.isTraceRoot) = ns.any (·.isTraceRoot) := by simp [hroot]
  obtain ⟨hhead, htail⟩ := h
  refine ⟨?_, htail.mono hle⟩
  rw [if_pos (by simp [hroot']), hweight, hflag, hchildren]
  intro hkept
  split
  case isTrue hin =>
    rw [if_pos (hany.trans hin)] at hhead
    exact Nat.le_trans (hhead hkept) (hle hin)
  case isFalse => exact hone

end Opening

theorem WithinBudget.begins {k : Nat} {m : Moment} (hm : ms[k]? = some m)
    (hk : m.kind = .begins) (horderly : (register (ms.take k)).Orderly ms k)
    (hagrees : Agrees ms R (register (ms.take k)) m.before) (h : WithinBudget ms k m.before) :
    WithinBudget ms (k + 1) m.after := by
  obtain ⟨traceId, clock, flags, -, hroot, hafter⟩ := Moment.begins_spec hk
  obtain ⟨hcount, hcalls⟩ := h
  have hforall := hagrees.calls
  have hregister := register_succ hm
  simp only [Register.next, hk] at hregister
  have hnodeCount : m.after.nodeCount = if m.before.ancestors.any (·.isTraceRoot) then
      m.before.nodeCount else if m.before.top.isBusy then 1 else 0 := by
    rw [hafter, any_isTraceRoot]
    rfl
  cases ht : m.before.top.isBusy with
  | false =>
    rw [ht, if_neg (by simp)] at hregister
    have hle := budgetAt_le hm horderly (by rw [hregister]; exact fun _ => rfl)
    rw [← outermostBegun_isSome hforall] at hle
    have hopen : m.after.openCalls = m.before.openCalls := by
      rw [hafter, opened_openCalls_of_vacant _ _ _ _ ht]
    refine ⟨?_, by rw [hopen]; exact hcalls.mono hle⟩
    rw [hnodeCount, hopen, ht, hcount]
    split
    case isTrue => rfl
    case isFalse hout => rw [openCalls_of_vacant ht, weight_outside (by simpa using hout)]; rfl
  | true =>
    have hopen : m.after.openCalls = m.after.top :: m.before.ancestors := by
      rw [hafter, opened_openCalls_of_busy _ _ _ _ ht]
    have hchildren : m.after.top.children = m.before.top.children := by
      rw [hafter]
      rfl
    have hopened : m.after.top.isTraceRoot := by
      rw [hafter]
      rfl
    have hflag : m.after.top.frame.flags.has .overflow =
        m.before.top.frame.flags.has .overflow := by
      rw [hafter]
      simp [opened, Node.mapFrame, Frame.mark]
    rw [openCalls_of_busy ht] at hforall hcount hcalls
    have hle : m.before.ancestors.any (·.isTraceRoot) → budgetAt ms k ≤ budgetAt ms (k + 1) := by
      obtain ⟨c, cs, -, houter, hcs⟩ := List.forall₂_cons_right_iff.mp hforall
      rw [hcs, ht, if_pos rfl] at hregister
      refine budgetAt_le_of_outer hm horderly houter fun b hb => ?_
      simp only [hregister, hcs, List.modifyHead_cons, outermostBegun, hb, Option.some_or,
        and_self]
    rw [ht, if_pos rfl] at hnodeCount
    refine ⟨?_, ?_⟩
    · rw [hnodeCount, hopen, weight_opened hroot hopened hchildren hcalls, hcount]
    · rw [hopen]
      exact hcalls.opened hroot hopened hchildren hflag hle (one_le_budgetAt ms (k + 1))

theorem WithinBudget.next {k : Nat} {m : Moment} (hm : ms[k]? = some m)
    (hsound : m.before.Sound) (horderly : (register (ms.take k)).Orderly ms k)
    (hagrees : Agrees ms R (register (ms.take k)) m.before) (h : WithinBudget ms k m.before) :
    WithinBudget ms (k + 1) m.after := by
  cases hk : m.kind with
  | enters => exact h.enters hm hk hsound horderly hagrees
  | closes => exact h.closes hm hk hsound horderly hagrees
  | begins => exact h.begins hm hk horderly hagrees
  | other =>
    have htouches := (Moment.other_spec hk).touches
    have hregister := register_succ hm
    simp only [Register.next, hk] at hregister
    have hle := budgetAt_le hm horderly (by rw [hregister]; exact fun _ => rfl)
    rw [← outermostBegun_isSome hagrees.calls] at hle
    refine ⟨?_, (h.calls.mono hle).touched htouches.openCalls⟩
    rw [weight_touched htouches.openCalls, ← h.nodeCount]
    exact htouches.nodeCount

theorem withinBudget_of_trail (capacity : Nat) (os : List Occurrence) {k : Nat}
    (hk : k ≤ os.length) :
    WithinBudget ((new capacity).trail os) k ((new capacity).after (os.take k)) := by
  refine trail_induction capacity os (P := WithinBudget ((new capacity).trail os))
    ⟨rfl, trivial⟩ (fun j m hm hsound h => ?_) hk
  have hj := (before_of_trail hm).1
  exact h.next hm hsound (Register.orderly_of_trail capacity os (Nat.le_of_lt hj))
    (agrees_of_moment hm)

/-! ### Submitted trees -/

theorem justifies_no_overflow (ms : List Moment) :
    Justifies ms (fun _ _ f => f.flags.has .overflow = false) where
  attach s m _ _ hf := by
    have hkeeps : m.fate.keeps := by rw [hf]; rfl
    rw [Moment.settled, settle_frame]
    exact (fateOf_keeps hkeeps).2
  elide s m child _ _ _ own outer _ _ h := by
    simpa [Frame.mark, Frame.countsFrom] using h

/-- A submitted tree has no more nodes than the largest budget in force since the outermost trace
around it was opened, and below its root no node that came over the budget. -/
theorem submitted_within_budget (capacity : Nat) (os : List Occurrence) {k : Nat} {m : Moment}
    {tree : Node} (hm : ((new capacity).trail os)[k]? = some m) (ht : m.tree? = some tree) :
    ∃ b, outermostBegun (register (((new capacity).trail os).take k)).calls = some b ∧
      tree.size ≤ largestBudget ((new capacity).trail os) b k ∧
      ∀ q ∈ tree.preorder [], q.1 ≠ [] → q.2.frame.flags.has .overflow = false := by
  obtain ⟨hlt, hbefore⟩ := before_of_trail hm
  have hsound := sound_of_trail hm
  obtain ⟨hk, hroot, rfl⟩ := Moment.submitted_spec hsound ht
  obtain ⟨c, cs, hcs, -, hc, -⟩ :=
    closing_call (justifies_no_overflow ((new capacity).trail os)) hm hk
  have hwithin := (withinBudget_of_trail capacity os (Nat.le_of_lt hlt)).calls
  rw [← hbefore, (Moment.closes_spec hsound hk).before] at hwithin
  have hin : (m.innermost :: m.outer).any (·.isTraceRoot) := by simp [hroot]
  have hbegun : (outermostBegun (register (((new capacity).trail os).take k)).calls).isSome := by
    rw [hcs, outermostBegun, Option.isSome_or, ← hc.root, hroot, Bool.or_true]
  obtain ⟨b, hb⟩ := Option.isSome_iff_exists.mp hbegun
  have hbudget : budgetAt ((new capacity).trail os) k =
      largestBudget ((new capacity).trail os) b k := by
    simp only [budgetAt, hb]
  have hchildren : m.settled.node.children = m.innermost.children := by
    rw [Moment.settled, settle_children, closing_children]
  refine ⟨b, hb, ?_, ?_⟩
  · have hbound := hwithin.1
    rw [if_pos hin, weight_of_trace hin, hbudget] at hbound
    rw [Moment.settled, settle_size, closing_size]
    by_cases hempty : m.innermost.children = []
    · rw [Node.size_eq, hempty]
      exact one_le_largestBudget _ _ _
    · have hle := hbound (.inr hempty)
      omega
  · intro q hq hpath
    have hpre : m.settled.node.preorder [] = ([], m.settled.node) ::
        Node.preorders [] 0 m.settled.node.children := by
      cases m.settled.node
      rfl
    rw [hpre, hchildren] at hq
    rcases List.mem_cons.mp hq with rfl | hq
    · exact absurd rfl hpath
    · exact SpanTree.DepictAll.preorders (P := fun f => f.flags.has .overflow = false)
        (fun _ _ _ h => h) c.kept hc.children [] 0 q hq

/-- Two calls below the first one of a trace with a budget of two nodes. -/
def crowdedCalls : List Occurrence :=
  occurrences { maxTraceRecords := 2, minMethodTime := 0 } [.begin 1 0 (.single .submit),
    .enter 2 3 4 10, .enter 2 5 4 11, .exit 12, .enter 2 5 4 13, .exit 14, .exit 15]

theorem submitted_within_budget_of_crowdedCalls :
    ∃ m tree, ((new 0).trail crowdedCalls)[6]? = some m ∧ m.tree? = some tree ∧
      ∃ b, outermostBegun (register (((new 0).trail crowdedCalls).take 6)).calls = some b ∧
        tree.size ≤ largestBudget ((new 0).trail crowdedCalls) b 6 ∧
        ∀ q ∈ tree.preorder [], q.1 ≠ [] → q.2.frame.flags.has .overflow = false :=
  ⟨_, _, rfl, rfl, submitted_within_budget 0 crowdedCalls rfl rfl⟩

end CallTree
