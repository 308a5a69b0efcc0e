import CallTree.Proofs.Errors
import CallTree.Proofs.FlagFlow

/-!
No error that is raised inside a trace is lost. Its call counts it and so do all calls around it,
so that they are kept. A call that is left out all the same came over the node budget, and the
trace says so at its close.
-/
namespace CallTree
open Assembler

inductive Node.Stores (e : ErrorChain) : Node → Prop
  | own {n : Node} (h : ErrorChain.same n.frame.error (some e)) : Stores e n
  | inner {n child : Node} (hchild : child ∈ n.children) (h : Stores e child) : Stores e n

namespace Node

variable {e : ErrorChain}

theorem Stores.of_same {n n' : Node} (h : n.Stores e) (hchildren : n'.children = n.children)
    (herror : n'.frame.error = n.frame.error) : n'.Stores e := by
  cases h with
  | own h => exact .own (herror ▸ h)
  | inner hchild h => exact .inner (hchildren ▸ hchild) h

mutual

theorem stores_of_findError :
    (n : Node) → ErrorChain.same n.findError (some e) → n.Stores e
  | ⟨handle, frame, children⟩, h => by
    rw [findError] at h
    cases herror : frame.error with
    | some own =>
      rw [herror] at h
      exact .own (herror ▸ h)
    | none =>
      simp only [herror] at h
      split at h
      · obtain ⟨child, hchild, hstores⟩ := stores_of_lastError children h
        exact .inner hchild hstores
      · cases h

theorem stores_of_lastError :
    (ns : List Node) → ErrorChain.same (lastError ns) (some e) → ∃ n ∈ ns, n.Stores e
  | [], h => by
    rw [lastError] at h
    cases h
  | [n], h => ⟨n, List.mem_singleton_self n, stores_of_findError n h⟩
  | n :: m :: ns, h => by
    rw [lastError] at h
    obtain ⟨child, hchild, hstores⟩ := stores_of_lastError (m :: ns) h
    exact ⟨child, List.mem_cons_of_mem n hchild, hstores⟩

end

theorem mem_preorders {ns : List Node} {n : Node} (h : n ∈ ns) (path : List Nat) (i : Nat) :
    ∃ path', ∀ q ∈ n.preorder path', q ∈ preorders path i ns := by
  induction ns generalizing i with
  | nil => cases h
  | cons m ns ih =>
    simp only [preorders]
    rcases List.mem_cons.mp h with rfl | h
    · exact ⟨_, fun q hq => List.mem_append_left _ hq⟩
    · obtain ⟨path', hsub⟩ := ih h (i + 1)
      exact ⟨path', fun q hq => List.mem_append_right _ (hsub q hq)⟩

theorem Stores.mem_preorder {n : Node} (h : n.Stores e) (path : List Nat) :
    ∃ q ∈ n.preorder path, ErrorChain.same q.2.frame.error (some e) := by
  induction h generalizing path with
  | @own n h =>
    obtain ⟨handle, frame, children⟩ := n
    exact ⟨_, List.mem_cons_self, h⟩
  | @inner n child hchild _ ih =>
    obtain ⟨handle, frame, children⟩ := n
    obtain ⟨path', hsub⟩ := mem_preorders hchild path 0
    obtain ⟨q, hq, hsame⟩ := ih path'
    exact ⟨q, List.mem_cons_of_mem _ (hsub q hq), hsame⟩

end Node

variable {ms : List Moment} {k : Nat} {m : Moment} {b : Nat} {e : ErrorChain}

/-! ### A call that closes -/

theorem substitute_error {t : Thresholds} {n : Node} {flags : MarkerFlags} {child : Node}
    (h : substitute? t n flags = some child) : n.frame.error = none := by
  simp only [substitute?] at h
  split at h
  case isTrue hinterim =>
    simp only [Node.isInterim, Bool.and_eq_true, Option.isNone_iff_eq_none] at hinterim
    exact hinterim.2.1.1.1
  case isFalse => cases h

theorem settled_error (m : Moment) : m.settled.node.frame.error = m.closing.frame.error := by
  rw [Moment.settled, settle_frame]

theorem stores_kept (hin : m.outer.any (·.isTraceRoot))
    (hflag : m.closing.frame.flags.has .overflow = false) (herrors : 0 < m.closing.frame.errors)
    (h : m.settled.node.Stores e) (q : Node) : ∃ child ∈ (m.parent q).children, child.Stores e := by
  have hretained : isRetained m.env.thresholds m.closing.frame
      (traceFlags (m.closing :: m.outer)) := by simp [isRetained, herrors]
  have hkeeps := (fate_keeps_iff hin hflag).mpr hretained
  rw [Moment.parent_eq]
  cases hf : m.fate with
  | attach => exact ⟨m.settled.node, List.mem_append_right _ List.mem_cons_self, h⟩
  | elide child =>
    refine ⟨promote m.env.held m.settled.node child, List.mem_append_right _ List.mem_cons_self, ?_⟩
    have hchild : child.Stores e := by
      -- The call itself has no error, so it is its only child that has it.
      obtain ⟨-, flags, hsub⟩ := substitute_of_elide hf
      cases h with
      | own h =>
        rw [settled_error, substitute_error hsub] at h
        cases h
      | inner hmem h =>
        rw [settled_children, ← closing_children, fateOf_elide hf, List.mem_singleton] at hmem
        exact hmem ▸ h
    refine hchild.of_same (promote_children _ _ child) ?_
    rw [promote_frame]
    rfl
  | _ => simp [hf, Fate.keeps] at hkeeps

/-! ### The calls around -/

/-- An open call at or inside that of trace `b` has the error below it, and counts it. -/
inductive Shelters (b : Nat) (e : ErrorChain) : List OpenCall → List Node → Prop
  | here {c : OpenCall} {cs : List OpenCall} {n : Node} {ns : List Node}
    (hb : b ∈ (c :: cs).filterMap (·.begun)) (herrors : 0 < n.frame.errors)
    (hstores : ∃ child ∈ n.children, child.Stores e) : Shelters b e (c :: cs) (n :: ns)
  | around {c : OpenCall} {cs : List OpenCall} {n : Node} {ns : List Node}
    (h : Shelters b e cs ns) : Shelters b e (c :: cs) (n :: ns)

namespace Shelters

variable {cs : List OpenCall} {ns : List Node}

theorem rooted (h : Shelters b e cs ns) : b ∈ cs.filterMap (·.begun) := by
  induction h with
  | here hb => exact hb
  | around h ih =>
    rw [filterMap_cons_toList]
    exact List.mem_append_right _ ih

theorem alike {ns' : List Node} (h : Shelters b e cs ns) (hns : List.Forall₂ Node.Alike ns ns') :
    Shelters b e cs ns' := by
  induction h generalizing ns' with
  | here hb herrors hstores =>
    cases hns with
    | cons hn hns => exact .here hb (by rw [hn.record]; exact herrors) (hn.children ▸ hstores)
  | around h ih =>
    cases hns with
    | cons hn hns => exact .around (ih hns)

theorem begin {c : OpenCall} (hc : c.begun = none) (h : Shelters b e (c :: cs) ns) (k : Nat) :
    Shelters b e ({ c with begun := some k } :: cs) ns := by
  cases h with
  | here hb herrors hstores =>
    refine .here ?_ herrors hstores
    rw [filterMap_cons_toList, hc] at hb
    rw [filterMap_cons_toList]
    exact List.mem_cons_of_mem k hb
  | around h => exact .around h

theorem keep {p : OpenCall} {q : Node} (h : Shelters b e (p :: cs) (q :: ns)) (c : OpenCall)
    (k : Nat) (m : Moment) : Shelters b e (c.keep k m.fate p :: cs) (m.parent q :: ns) := by
  cases h with
  | here hb herrors hstores =>
    refine .here ?_ ?_ ?_
    · rw [← Register.keep_begun c k m.fate (p :: cs)] at hb
      exact hb
    · rw [m.parent_frame]
      exact Nat.lt_of_lt_of_le herrors (Nat.le_add_right _ _)
    · obtain ⟨child, hchild, hstores⟩ := hstores
      refine ⟨child, ?_, hstores⟩
      rw [Moment.parent_eq]
      cases m.fate <;> first | exact hchild | exact List.mem_append_left _ hchild
  | around h => exact .around h

end Shelters

variable {capacity : Nat} {os : List Occurrence}

/-- The open calls before event `k` have the error, or the trace learns of a call left out. -/
def Remembers (ms : List Moment) (k b : Nat) (e : ErrorChain) (a : Assembler) : Prop :=
  Reached ms k b (Flag.bit MarkerFlag.overflow) ∨
    Shelters b e (register (ms.take k)).calls a.openCalls

theorem inTrace_of_held (hm : ((new capacity).trail os)[k]? = some m) (hk : m.kind = .closes)
    (hb : b ∈ held ((new capacity).trail os) (k + 1)) : m.outer.any (·.isTraceRoot) := by
  obtain ⟨c, cs, hcs, -, -, houter⟩ := closing_call (justifies_true _) hm hk
  obtain ⟨c', cs', hcs', -, hheld⟩ := calls_of_closes hm hk
  obtain ⟨rfl, rfl⟩ := List.cons.inj (hcs.symm.trans hcs')
  rw [hheld] at hb
  obtain ⟨p, hp, hbegun⟩ := List.mem_filterMap.mp hb
  rw [any_begun houter, List.any_eq_true]
  exact ⟨p, hp, by rw [hbegun]; rfl⟩

theorem remembers_of_close (hm : ((new capacity).trail os)[k]? = some m) (hk : m.kind = .closes)
    (hb : b ∈ held ((new capacity).trail os) (k + 1)) (herrors : 0 < m.closing.frame.errors)
    (hstores : m.settled.node.Stores e) :
    Remembers ((new capacity).trail os) (k + 1) b e m.after := by
  cases hflag : m.closing.frame.flags.has .overflow with
  | true =>
    refine .inl (reached_of_told hm hk hb ?_)
    rw [Moment.told, FlagSet.holds_union, hflag, if_pos rfl, Bool.or_eq_true]
    exact .inr ((MarkerFlags.holds_single _ _).mpr rfl)
  | false =>
    right
    obtain ⟨c, cs, hcs, -, -, houter⟩ := closing_call (justifies_true _) hm hk
    have hkept := stores_kept (inTrace_of_held hm hk hb) hflag herrors hstores
    have haround := allTouched_represents houter m.around_touched
    have hheld := hb
    rw [← rooted_of_closes hm hk, rooted, register_succ hm] at hheld
    rw [register_succ hm, (Moment.closes_spec (sound_of_trail hm) hk).after]
    simp only [Register.next, hk, hcs] at hheld ⊢
    generalize m.around = around at haround
    cases haround with
    | nil => cases hheld
    | @cons p q ps qs hp haround =>
      refine .here hheld ?_ (hkept q)
      rw [m.parent_frame]
      exact Nat.lt_of_lt_of_le herrors (Nat.le_add_left _ _)

theorem shelters_closes (hm : ((new capacity).trail os)[k]? = some m) (hk : m.kind = .closes)
    (hb : b ∈ held ((new capacity).trail os) (k + 1))
    (h : Shelters b e (register (((new capacity).trail os).take k)).calls m.before.openCalls) :
    Remembers ((new capacity).trail os) (k + 1) b e m.after := by
  have hcloses := Moment.closes_spec (sound_of_trail hm) hk
  obtain ⟨c, cs, hcs, -, -⟩ := calls_of_closes hm hk
  rw [hcs, hcloses.before] at h
  cases h with
  | here _ herrors hstores =>
    obtain ⟨child, hchild, hstores⟩ := hstores
    refine remembers_of_close hm hk hb ?_ (.inner (settled_children m ▸ hchild) hstores)
    obtain ⟨error, flags, hframe⟩ := closing_frame m
    rw [hframe]
    exact Nat.lt_of_lt_of_le herrors (Nat.le_add_right _ _)
  | around h =>
    right
    have haround := h.alike m.around_touched.alike
    rw [register_succ hm, hcloses.after]
    simp only [Register.next, hk, hcs]
    generalize m.around = around at haround
    cases haround with
    | here hb herrors hstores => exact (Shelters.here hb herrors hstores).keep c k m
    | around hrest => exact (Shelters.around hrest).keep c k m

theorem remembers_next (hm : ((new capacity).trail os)[k]? = some m)
    (hb : b ∈ rooted ((new capacity).trail os) (k + 1))
    (h : Remembers ((new capacity).trail os) k b e m.before) :
    Remembers ((new capacity).trail os) (k + 1) b e m.after := by
  rcases h with hreached | h
  · exact .inl (reached_succ hm ((MarkerFlags.holds_inheritable _).mpr (.inl rfl)) hb hreached)
  cases hk : m.kind with
  | enters =>
    obtain ⟨_, _, _, _, -, hentered⟩ := Moment.enters_spec (sound_of_trail hm) hk
    right
    rw [register_succ hm, hentered.openCalls]
    simp only [Register.next, hk]
    exact .around h
  | closes => exact shelters_closes hm hk (rooted_held hb) h
  | begins =>
    obtain ⟨traceId, clock, flags, -, -, hafter⟩ := Moment.begins_spec hk
    have hfree := (traced_of_moment hm).free hk
    have halike := h.alike (opened_alike m.env.thresholds traceId clock flags m.before)
    right
    rw [register_succ hm, hafter]
    simp only [Register.next, hk]
    cases hbusy : m.before.top.isBusy with
    | true =>
      obtain ⟨c, cs, hcs, hc⟩ := hfree.2 hbusy
      rw [hcs] at halike ⊢
      exact halike.begin hc k
    | false => exact halike
  | other =>
    right
    rw [register_succ hm]
    simp only [Register.next, hk]
    exact h.alike (Moment.other_spec hk).touches.openCalls.alike

theorem remembers_while_held {j : Nat}
    (hbj : b < j) (hb : b ∈ rooted ((new capacity).trail os) j)
    (h : Remembers ((new capacity).trail os) j b e ((new capacity).after (os.take j)))
    (hjk : j ≤ k) (hk : k ≤ os.length) (hheld : b ∈ held ((new capacity).trail os) k) :
    Remembers ((new capacity).trail os) k b e ((new capacity).after (os.take k)) := by
  induction hjk with
  | refl => exact h
  | @step k hjk ih =>
    have hle : j ≤ k := hjk
    have hm := moment_of_trail (new capacity) hk
    have hrooted := rooted_while_held hbj hb (Nat.le_succ_of_le hle) hk hheld
    have hnext := remembers_next hm hrooted (ih (by omega) (held_back hm (by omega) hheld))
    rwa [after_of_trail hm] at hnext

/-! ### Submitted trees -/

theorem stores_of_remembers (hm : ((new capacity).trail os)[k]? = some m) {tree : Node}
    (ht : m.tree? = some tree) {marker : Marker} (hmarker : tree.frame.marker = some marker)
    (hover : marker.flags.has .overflow = false) {c : OpenCall} {cs : List OpenCall}
    (hcs : (register (((new capacity).trail os).take k)).calls = c :: cs) (hb : c.begun = some b)
    (h : Remembers ((new capacity).trail os) k b e m.before) : tree.Stores e := by
  have hsound := sound_of_trail hm
  obtain ⟨hk, -, rfl⟩ := Moment.submitted_spec hsound ht
  rcases h with hreached | h
  · obtain ⟨marker', hmarker', -, hholds⟩ := holds_at_close hm hk hcs hb hreached
    obtain rfl := Option.some.inj (hmarker.symm.trans hmarker')
    rw [FlagSet.has_eq_holds, hholds] at hover
    cases hover
  · rw [hcs, (Moment.closes_spec hsound hk).before] at h
    cases h with
    | here _ _ hstores =>
      obtain ⟨child, hchild, hstores⟩ := hstores
      exact .inner (settled_children m ▸ hchild) hstores
    | around h =>
      -- The trace is on the closing call, so on none around it.
      exact absurd (lt_of_around hm hcs hb b h.rooted) (Nat.lt_irrefl b)

theorem held_between {i : Nat} (hk : k ≤ os.length) (hb : b ∈ held ((new capacity).trail os) k)
    (hbi : b < i) (hik : i ≤ k) : b ∈ held ((new capacity).trail os) i := by
  induction hik with
  | refl => exact hb
  | @step k hik ih =>
    have hle : i ≤ k := hik
    exact ih (by omega) (held_back (moment_of_trail (new capacity) hk) (by omega) hb)

/-- If the trace of a submitted tree does not say that a call was left out, every error that a call
ended with since the trace was opened is in the tree. -/
theorem errors_kept (capacity : Nat) (os : List Occurrence) {k : Nat} {m : Moment} {tree : Node}
    {marker : Marker} (hm : ((new capacity).trail os)[k]? = some m) (ht : m.tree? = some tree)
    (hmarker : tree.frame.marker = some marker) (hover : marker.flags.has .overflow = false) :
    ∃ b, (b, .submitted) ∈ endedAt ((new capacity).trail os) k ∧
      Marks ((new capacity).trail os) b marker ∧
      ∀ (j : Nat) (m' : Moment) (e : ErrorChain), b < j → j ≤ k →
        ((new capacity).trail os)[j]? = some m' → m'.kind = .closes → m'.event.error? = some e →
          ∃ q ∈ tree.preorder [], ErrorChain.same q.2.frame.error (some e) := by
  obtain ⟨b, hended⟩ := (accounts_of_trail hm).submitted.mp (by rw [ht]; rfl)
  obtain ⟨hk, -, rfl⟩ := Moment.submitted_spec (sound_of_trail hm) ht
  obtain ⟨c, cs, hcs, hb⟩ : ∃ c cs,
      (register (((new capacity).trail os).take k)).calls = c :: cs ∧ c.begun = some b := by
    obtain ⟨_, c, cs, -, -, hcs, ⟨-, hway⟩ | ⟨hb, -⟩⟩ := mem_endedAt hended
    · cases hway
    · exact ⟨c, cs, hcs, hb⟩
  obtain ⟨marker', hmarker', hmarks, -⟩ := flagged_at_close hm hk hcs hb
  obtain rfl := Option.some.inj (hmarker.symm.trans hmarker')
  obtain ⟨hlt, hbefore⟩ := before_of_trail hm
  have hheld := held_of_ended hended
  refine ⟨b, hended, hmarks, fun j m' e hbj hjk hm' hk' he => ?_⟩
  have hfound : m'.settled.node.Stores e :=
    Node.stores_of_findError _ ((settled_blames m').raises e he).found
  refine Node.Stores.mem_preorder ?_ []
  rcases Nat.eq_or_lt_of_le hjk with rfl | hjk
  · obtain rfl := Option.some.inj (hm.symm.trans hm')
    exact hfound
  · have hlater := held_between (Nat.le_of_lt hlt) hheld (by omega) hjk
    have herrors : 0 < m'.closing.frame.errors := by
      obtain ⟨error, flags, hframe⟩ := closing_frame m'
      simp [hframe, he]
    have hstart := remembers_of_close hm' hk' hlater herrors hfound
    rw [after_of_trail hm'] at hstart
    rw [← rooted_of_closes hm' hk'] at hlater
    have hend := remembers_while_held (by omega) hlater hstart hjk (Nat.le_of_lt hlt) hheld
    rw [← hbefore] at hend
    exact stores_of_remembers hm ht hmarker hover hcs hb hend

/-- An error passes through a short call, which is elided, and another one ends the trace. -/
def passedError : List Occurrence :=
  occurrences { minTraceTime := 0, minMethodTime := 5, dropInterim := true }
    [.enter 1 1 1 0, .begin 7 0 ∅, .enter 2 2 2 10, .enter 3 3 3 11, .fail ⟨⟨1, 9, "", []⟩, []⟩ 12,
      .fail ⟨⟨1, 9, "", []⟩, []⟩ 13, .fail ⟨⟨2, 9, "", []⟩, []⟩ 14]

theorem errors_kept_of_passedError :
    ∃ m tree marker, ((new 0).trail passedError)[6]? = some m ∧ m.tree? = some tree ∧
      tree.frame.marker = some marker ∧ marker.flags.has .overflow = false ∧ tree.size = 2 ∧
      (∃ q ∈ tree.preorder [],
        ErrorChain.same q.2.frame.error (some ⟨⟨1, 9, "", []⟩, []⟩)) ∧
      ∃ q ∈ tree.preorder [], ErrorChain.same q.2.frame.error (some ⟨⟨2, 9, "", []⟩, []⟩) := by
  obtain ⟨m, tree, marker, hm, ht, hmarker, hover, hsize⟩ : ∃ m tree marker,
      ((new 0).trail passedError)[6]? = some m ∧ m.tree? = some tree ∧
      tree.frame.marker = some marker ∧ marker.flags.has .overflow = false ∧ tree.size = 2 :=
    ⟨_, _, _, rfl, rfl, rfl, by decide, by decide⟩
  obtain ⟨b, hended, -, hkept⟩ := errors_kept 0 passedError hm ht hmarker hover
  have hends : endedAt ((new 0).trail passedError) 6 = [(1, .submitted)] := by decide
  rw [hends, List.mem_singleton] at hended
  cases hended
  exact ⟨m, tree, marker, hm, ht, hmarker, hover, hsize,
    hkept 5 _ _ (by decide) (by decide) rfl (by decide) rfl,
    hkept 6 _ _ (by decide) (by decide) rfl (by decide) rfl⟩

end CallTree
