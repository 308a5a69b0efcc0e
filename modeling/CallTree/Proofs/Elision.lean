import CallTree.Proofs.ErrorPresence
import CallTree.Proofs.SideBySide

/-!
Two runs of the same events, the second of which elides calls that add little to their only child.
It submits trees for the same traces, and its trees are those of the first run with chains of only
children contracted: the last call of a chain takes the place of the first one, with its counts.
-/
namespace CallTree
open Assembler

/-! ### Contracted trees -/

/-- From the first node down through `above`, which have one child each and opened no trace, to the
last node. -/
inductive Node.LeadsTo : Node → List Node → Node → Prop
  | here (n : Node) : LeadsTo n [] n
  | down {n child own : Node} {above : List Node} (hroot : n.isTraceRoot = false)
    (honly : n.children = [child]) (h : child.LeadsTo above own) : LeadsTo n (n :: above) own

/-- The record of a call that takes the place of the calls `above`, the topmost first. -/
def Frame.inPlaceOf (own : Frame) : List Node → Frame
  | [] => own
  | n :: _ => (own.countsFrom n.frame).mark (.single .droppedParent)

/-- An error that the first node leads to, the second one leads to as well. -/
def Node.Finds (n n' : Node) : Prop :=
  ∀ e, n.findError = some e → ErrorChain.same n'.findError (some e)

mutual

/-- The last node is what became of `own` when it took the place of the calls `above` in a trace
that elides calls, with chains contracted below it as well. An error that it has no more, its last
child leads to. -/
inductive Node.Survives : List Node → Node → Node → Prop
  | intro {above : List Node} {own n' : Node}
    (frame : ((own.frame.inPlaceOf above).eliding true).Echoes n'.frame)
    (error : n'.frame.error = none ∨ n'.frame.error = own.frame.error)
    (found : (above.headD own).Finds n')
    (leaf : own.children = [] → n'.frame = (own.frame.inPlaceOf above).eliding true)
    (children : Contracts own.children n'.children) : Node.Survives above own n'

inductive Contracts : List Node → List Node → Prop
  | nil : Contracts [] []
  | cons {n own n' : Node} {above ns ns' : List Node} (chain : n.LeadsTo above own)
    (h : Node.Survives above own n') (rest : Contracts ns ns') : Contracts (n :: ns) (n' :: ns')

end

theorem Contracts.append {ns ns' : List Node} : Contracts ns ns' → ∀ {ms ms' : List Node},
    Contracts ms ms' → Contracts (ns ++ ms) (ns' ++ ms')
  | .nil, _, _, h => h
  | .cons chain hn rest, _, _, h => .cons chain hn (rest.append h)

theorem Contracts.length_eq {ns ns' : List Node} : Contracts ns ns' → ns'.length = ns.length
  | .nil => rfl
  | .cons _ _ rest => congrArg (· + 1) rest.length_eq

theorem Contracts.isEmpty {ns ns' : List Node} (h : Contracts ns ns') :
    ns'.isEmpty = ns.isEmpty := by
  rw [Bool.eq_iff_iff, List.isEmpty_iff_length_eq_zero, List.isEmpty_iff_length_eq_zero,
    h.length_eq]

/-- A chain gives its place to one call, so that nobody loses a child or gets another one. -/
theorem Node.Survives.length_children {above : List Node} {own n' : Node}
    (h : Node.Survives above own n') : n'.children.length = own.children.length := by
  obtain ⟨-, -, -, -, children⟩ := h
  exact children.length_eq

/-! ### Leaves -/

/-- The call that a leaf records, whether it took the place of others or not. -/
def Frame.call (f : Frame) : Frame :=
  { (f.mark (.single .droppedParent)).eliding true with
    calls := 0
    errors := 0 }

mutual

def Node.leaves : Node → List Frame
  | ⟨_, frame, children⟩ => if children.isEmpty then [frame.call] else leavesOf children

def Node.leavesOf : List Node → List Frame
  | [] => []
  | n :: ns => n.leaves ++ leavesOf ns

end

theorem Node.leaves_eq (n : Node) :
    n.leaves = if n.children.isEmpty then [n.frame.call] else leavesOf n.children := by
  cases n
  rw [leaves]

theorem Frame.mark_mark (f : Frame) (flags : NodeFlags) :
    (f.mark flags).mark flags = f.mark flags := by
  simp [mark, FlagSet.union_assoc]

theorem Frame.inPlaceOf_cons (own : Frame) (n : Node) (above : List Node) :
    own.inPlaceOf (n :: above) =
      ((own.inPlaceOf above).countsFrom n.frame).mark (.single .droppedParent) := by
  cases above with
  | nil => rfl
  | cons m above => exact (mark_mark (own.countsFrom n.frame) _).symm

theorem Frame.eliding_eliding (f : Frame) (on : Bool) :
    (f.eliding on).eliding on = f.eliding on := by
  cases h : f.marker <;> simp [eliding, h, Marker.eliding_eliding]

theorem Frame.call_inPlaceOf (f : Frame) (above : List Node) :
    ((f.inPlaceOf above).eliding true).call = f.call := by
  have hmark (f : Frame) (flags : NodeFlags) :
      (f.eliding true).mark flags = (f.mark flags).eliding true := rfl
  rw [call, hmark, eliding_eliding]
  cases above with
  | nil => rfl
  | cons n above =>
    rw [inPlaceOf, mark_mark]
    rfl

theorem Node.LeadsTo.leaves {n own : Node} {above : List Node} (h : n.LeadsTo above own) :
    n.leaves = own.leaves := by
  induction h with
  | here => rfl
  | @down n child own above hroot honly h ih =>
    rw [leaves_eq n, honly, leavesOf, leavesOf, ← ih]
    exact List.append_nil _

mutual

theorem Node.Survives.leaves {above : List Node} {own n' : Node} :
    Node.Survives above own n' → n'.leaves = own.leaves
  | .intro frame _ _ leaf children => by
    rw [Node.leaves_eq, Node.leaves_eq, children.isEmpty, children.leaves]
    split
    case isTrue hempty =>
      rw [leaf (List.isEmpty_iff.mp hempty), Frame.call_inPlaceOf]
    case isFalse => rfl

theorem Contracts.leaves {ns ns' : List Node} :
    Contracts ns ns' → Node.leavesOf ns' = Node.leavesOf ns
  | .nil => rfl
  | .cons chain h rest => by
    rw [Node.leavesOf, Node.leavesOf, h.leaves, chain.leaves, rest.leaves]

end

/-! ### Errors -/

theorem ErrorChain.same_trans {a b c : Option ErrorChain} (h : same a b) (h' : same b c) :
    same a c := by
  cases a <;> cases b <;> cases c <;> simp_all [same]

theorem Node.LeadsTo.head {n own : Node} {above : List Node} (h : n.LeadsTo above own) :
    above.headD own = n := by
  cases h <;> rfl

theorem Node.Survives.found {above : List Node} {own n' : Node} :
    Node.Survives above own n' → (above.headD own).Finds n'
  | .intro _ _ found _ _ => found

theorem Contracts.finds {ns ns' : List Node} : Contracts ns ns' → ∀ e,
    Node.lastError ns = some e → ErrorChain.same (Node.lastError ns') (some e)
  | .nil, _, he => by simp [Node.lastError] at he
  | .cons chain h .nil, e, he => h.found e (chain.head.symm ▸ he)
  | .cons _ _ (.cons chain h rest), e, he => (Contracts.cons chain h rest).finds e he

theorem Contracts.innerError {n n' : Node} (h : Contracts n.children n'.children) (e : ErrorChain)
    (he : n.innerError = some e) : ErrorChain.same n'.innerError (some e) := by
  rw [Node.innerError, Node.lastChild?, ← Node.lastError_eq] at he ⊢
  exact h.finds e he

section Dedup

variable {n n' : Node} (herror : n'.frame.error = n.frame.error)
  (hinner : ∀ e, n.innerError = some e → ErrorChain.same n'.innerError (some e))
include herror hinner

theorem dedup_finds
    (hpasses : n'.frame.flags.has .passesError = n.frame.flags.has .passesError) :
    (dedupError n).Finds (dedupError n') := by
  intro e he
  cases h : n.frame.error with
  | none =>
    have hsame (n : Node) (h : n.frame.error = none) : dedupError n = n := by rw [dedupError, h]
    rw [hsame n h, Node.findError_eq, h] at he
    rw [hsame n' (herror.trans h), Node.findError_eq, herror, h, hpasses]
    dsimp only at he ⊢
    split at he
    case isTrue hpassed =>
      rw [if_pos hpassed]
      exact hinner e he
    case isFalse => cases he
  | some own =>
    have hfound := (dedup_raises h).found
    rw [he, ErrorChain.same_comm] at hfound
    exact ErrorChain.same_trans (dedup_raises (herror.trans h)).found hfound

theorem dedup_keeps : (dedupError n').frame.error = none ∨
    (dedupError n').frame.error = (dedupError n).frame.error := by
  cases h : n.frame.error with
  | none => simp [dedupError, h, herror]
  | some own =>
    have hraises := dedup_raises h
    have hraises' := dedup_raises (herror.trans h)
    rw [hraises.stored, hraises'.stored, Node.innerError_congr (dedupError_children n),
      Node.innerError_congr (dedupError_children n')]
    by_cases hsame : ErrorChain.same (some own) n'.innerError
    · exact .inl (if_pos hsame)
    · right
      rw [if_neg hsame, if_neg fun hpassed => hsame ?_]
      obtain ⟨e, he⟩ : ∃ e, n.innerError = some e := by
        cases hinner : n.innerError with
        | none => simp [hinner, ErrorChain.same] at hpassed
        | some e => exact ⟨e, rfl⟩
      rw [ErrorChain.same_comm]
      rw [he, ErrorChain.same_comm] at hpassed
      exact ErrorChain.same_trans (hinner e he) hpassed

end Dedup

/-! ### Calls that opened no trace -/

def Node.Announced (n : Node) : Prop := n.isTraceRoot → n.frame.flags.has .opensTrace

theorem Node.Announced.touched {n n' : Node} (h : n.Announced) (hn : n.Touched n') :
    n'.Announced := fun hroot => hn.flags _ (h (hn.isTraceRoot ▸ hroot))

namespace Assembler

theorem AllTouched.announced {ns ns' : List Node} (h : AllTouched ns ns')
    (hns : ∀ n ∈ ns, n.Announced) : ∀ n ∈ ns', n.Announced :=
  h.forall_mem (fun _ _ hannounced hn => hannounced.touched hn) hns

theorem Touches.spots {a a' : Assembler} (h : Touches a a') : AllTouched a.spots a'.spots := by
  cases ht : a.top.isBusy with
  | true =>
    rw [spots_of_busy ht, spots_of_busy (h.top.isBusy.trans ht)]
    exact .cons (.refl _) h.slots
  | false =>
    rw [spots_of_vacant ht, spots_of_vacant (h.top.isBusy.trans ht)]
    exact .cons ⟨⟨rfl, h.top.record, rfl⟩, h.top.flags, h.top.marker⟩ h.ancestors

theorem announced_opened {a : Assembler} (h : ∀ n ∈ a.spots, n.Announced) (t : Thresholds)
    (traceId : SymbolId) (clock : Nat) (flags : MarkerFlags) :
    ∀ n ∈ (a.opened t traceId clock flags).spots, n.Announced := by
  have htop : (a.opened t traceId clock flags).top.Announced := fun _ => by
    simp [opened, Node.mapFrame, Frame.mark]
  cases ht : a.top.isBusy with
  | true =>
    rw [spots_of_busy ht] at h
    rw [spots_of_busy (opened_isBusy.trans ht)]
    obtain ⟨hblank, hslots⟩ := List.forall_mem_cons.mp h
    obtain ⟨-, hancestors⟩ := List.forall_mem_cons.mp hslots
    exact List.forall_mem_cons.mpr ⟨hblank, List.forall_mem_cons.mpr ⟨htop, hancestors⟩⟩
  | false =>
    rw [spots_of_vacant ht] at h
    rw [spots_of_vacant (opened_isBusy.trans ht)]
    exact List.forall_mem_cons.mpr ⟨htop, (List.forall_mem_cons.mp h).2⟩

theorem announced_arrival {a : Assembler} (h : ({ frame := a.awaited } : Node).Announced)
    (t : Thresholds) (classId methodId signatureId : SymbolId) (time : Nat) :
    ({ frame := a.arrival t classId methodId signatureId time } : Node).Announced := by
  unfold arrival
  dsimp only
  split
  · intro hroot
    have hflag : a.awaited.flags.has .opensTrace := h hroot
    simp [Frame.mark, hflag]
  · exact h

end Assembler

theorem announced_blank : ({} : Node).Announced := nofun

theorem Moment.announced {m : Moment} (hsound : m.before.Sound)
    (h : ∀ n ∈ m.before.spots, n.Announced) : ∀ n ∈ m.after.spots, n.Announced := by
  cases hk : m.kind with
  | enters =>
    obtain ⟨classId, methodId, signatureId, time, -, hentered⟩ := Moment.enters_spec hsound hk
    obtain ⟨hawaited, hcalls⟩ := List.forall_mem_cons.mp h
    rw [spots, awaited_of_busy hentered.busy, hentered.openCalls]
    generalize harrival : m.before.arrival m.env.thresholds classId methodId signatureId time = f
    have hf : ({ frame := f } : Node).Announced := by
      rw [← harrival]
      exact announced_arrival hawaited _ _ _ _ _
    exact List.forall_mem_cons.mpr ⟨announced_blank, List.forall_mem_cons.mpr ⟨hf, hcalls⟩⟩
  | closes =>
    have hcloses := Moment.closes_spec hsound hk
    obtain ⟨-, hcalls⟩ := List.forall_mem_cons.mp h
    rw [hcloses.before] at hcalls
    have haround := m.around_touched.announced (List.forall_mem_cons.mp hcalls).2
    rw [spots, hcloses.awaited, hcloses.after]
    refine List.forall_mem_cons.mpr ⟨announced_blank, ?_⟩
    generalize m.around = around at haround
    cases around with
    | nil => exact haround
    | cons q qs =>
      obtain ⟨hq, hqs⟩ := List.forall_mem_cons.mp haround
      refine List.forall_mem_cons.mpr ⟨fun hroot => ?_, hqs⟩
      rw [m.parent_isTraceRoot] at hroot
      rw [m.parent_frame]
      exact hq hroot
  | begins =>
    obtain ⟨traceId, clock, flags, -, -, hafter⟩ := Moment.begins_spec hk
    rw [hafter]
    exact announced_opened h _ _ _ _
  | other => exact (Moment.other_spec hk).touches.spots.announced h

variable {m m' : Moment} {os os' : List Occurrence} {capacity capacity' k : Nat}

theorem announced_after (capacity : Nat) (os : List Occurrence) :
    ∀ n ∈ ((new capacity).after os).spots, n.Announced := by
  have hall := trail_induction capacity os (P := fun _ a => ∀ n ∈ a.spots, n.Announced)
    (List.forall_mem_cons.mpr ⟨announced_blank, by simp [openCalls_new]⟩)
    (fun _ m _ hsound h => Moment.announced hsound h) (Nat.le_refl os.length)
  rwa [List.take_length] at hall

theorem announced_of_trail (hm : ((new capacity).trail os)[k]? = some m) :
    ∀ n ∈ m.before.spots, n.Announced := by
  rw [(before_of_trail hm).2]
  exact announced_after capacity (os.take k)

theorem announced_closing (hm : ((new capacity).trail os)[k]? = some m) (hk : m.kind = .closes) :
    m.closing.Announced := by
  have hcalls := (List.forall_mem_cons.mp (announced_of_trail hm)).2
  rw [(Moment.closes_spec (sound_of_trail hm) hk).before] at hcalls
  intro hroot
  rw [closing_flag m (by simp) (by simp)]
  rw [closing_isTraceRoot] at hroot
  exact (List.forall_mem_cons.mp hcalls).1 hroot

/-! ### Calls that close -/

theorem Moment.settled_isTraceRoot (m : Moment) :
    m.settled.node.isTraceRoot = m.closing.isTraceRoot := by
  rw [Node.isTraceRoot, Frame.isTraceRoot, settled_marker, Option.isSome_map]
  rfl

theorem interim_of_elide {child : Node} (h : m.fate = .elide child) :
    m.closing.frame.error = none ∧ m.closing.frame.flags.has .opensTrace = false := by
  obtain ⟨-, flags, hsub⟩ := substitute_of_elide h
  unfold substitute? at hsub
  split at hsub
  case isTrue hinterim =>
    simp only [Node.isInterim, Bool.and_eq_true, Option.isNone_iff_eq_none,
      Bool.not_eq_true'] at hinterim
    exact ⟨hinterim.2.1.1.1, hinterim.2.1.2⟩
  case isFalse => cases hsub

theorem Moment.busy_of_closes (h : m.before.Sound) (hk : m.kind = .closes) :
    m.after.top.isBusy ↔ m.outer ≠ [] ∧ m.fate ≠ .discard := by
  have hopen := (Moment.closes_spec h hk).before
  have hclean := h.closingAs m.env.held m.closing m.outer
  generalize ha : ({ m.before.closingAs m.env.held m.closing m.outer with
    ancestors := m.around.modifyHead (rollUp m.closing.frame) } : Assembler) = a
  have htop : m.after.top = (carryOut m.env.held a m.settled.node m.fate).top := by
    rw [Moment.after_of_closes h hk, ← ha]
    dsimp only
    split <;> rfl
  have hpool : a.pool.Clean := ha ▸ hclean
  have hancestors : a.ancestors = m.around.modifyHead (rollUp m.closing.frame) := by rw [← ha]
  rw [htop]
  by_cases hf : m.fate = .discard
  · rw [hf]
    simp [carryOut, Pool.cleanInPlace, Node.isBusy, Frame.isBusy]
  cases houter : m.outer with
  | nil =>
    have hnil : m.around = [] := List.forall₂_nil_left_iff.mp (houter ▸ m.around_touched)
    rw [(Moment.fate_of_alone hnil).resolve_left hf]
    rw [hnil] at hancestors
    simp [carryOut, hancestors, hpool.acquire.1, Node.isBusy, Frame.isBusy]
  | cons q qs =>
    have hbusy : ∀ n ∈ a.ancestors, n.isBusy := by
      rw [hancestors]
      refine rollUp_isBusy _ (m.around_touched.isBusy fun n hn => ?_)
      exact h.isBusy n (hopen ▸ List.mem_cons_of_mem _ hn)
    obtain ⟨p, ps, hp⟩ : ∃ p ps, a.ancestors = p :: ps := by
      have hlength := m.around_touched.length_eq
      refine List.exists_cons_of_length_pos ?_
      rw [hancestors, List.length_modifyHead, ← hlength, houter]
      exact Nat.zero_lt_succ _
    obtain ⟨pool, -, heq⟩ := carryOut_cons m.env.held hpool m.settled.node hf hp
    rw [heq, keep_isBusy]
    exact iff_of_true (hbusy p (hp ▸ List.mem_cons_self)) ⟨List.cons_ne_nil q qs, hf⟩

/-! ### Two runs -/

theorem Frame.Echoes.countsFrom {f f' g g' : Frame} (h : f.Echoes f') (hcalls : g'.calls = g.calls)
    (herrors : g'.errors = g.errors) : ((f.countsFrom g).mark (.single .droppedParent)).Echoes
      ((f'.countsFrom g').mark (.single .droppedParent)) := by
  refine ⟨?_, fun x hx hx' => ?_, ?_⟩
  · have hcounts := congrArg (fun f => (f.countsFrom g').mark (.single .droppedParent)) h.record
    rw [hcounts, Frame.countsFrom, Frame.countsFrom, hcalls, herrors]
    rfl
  · simp [Frame.mark, Frame.countsFrom, h.flags x hx hx']
  · simpa [Frame.mark, Frame.countsFrom] using h.failed

theorem Node.Survives.promoted {above : List Node} {own child' : Node}
    (h : Node.Survives above own child') (held : Nat → Bool) {p p' : Node} (hfound : p.Finds p')
    (herror : p'.frame.error = none) (honly : p'.children = [child'])
    (hcalls : p'.frame.calls = p.frame.calls) (herrors : p'.frame.errors = p.frame.errors) :
    Node.Survives (p :: above) own (promote held p' child') := by
  obtain ⟨frame, error, -, leaf, children⟩ := h
  have hplace : (own.frame.inPlaceOf (p :: above)).eliding true =
      (((own.frame.inPlaceOf above).eliding true).countsFrom p.frame).mark
        (.single .droppedParent) := by
    rw [Frame.inPlaceOf_cons]
    rfl
  refine .intro ?_ ?_ (fun e he => ?_) (fun hleaf => ?_) ?_
  · rw [promote_frame, hplace]
    exact frame.countsFrom hcalls herrors
  · rw [promote_frame]
    exact error
  · have hpassed := hfound e he
    have hchild : (promote held p' child').findError = child'.findError := by
      rw [Node.findError_eq, Node.findError_eq, promote_frame,
        Node.innerError_congr (promote_children held p' child')]
      simp [Frame.mark, Frame.countsFrom]
    rw [Node.findError_eq, herror, Node.innerError, Node.lastChild?, honly] at hpassed
    dsimp only [List.getLast?_singleton, Option.bind_some] at hpassed
    split at hpassed
    case isTrue => rwa [hchild]
    case isFalse => cases hpassed
  · rw [promote_frame, hplace, leaf hleaf, Frame.countsFrom, Frame.countsFrom, hcalls, herrors]
  · rw [promote_children]
    exact children

theorem Moment.settled_findError (m : Moment) :
    m.settled.node.findError = m.closing.findError := by
  rw [Moment.settled, Node.findError_eq, Node.findError_eq, settle_frame,
    Node.innerError_congr (settle_children m.env m.closing m.outer)]

section Alongside

variable (h : m.Alongside true Contracts m')
include h

theorem Moment.Alongside.ended_error : m'.ended.frame.error = m.ended.frame.error := by
  rw [h.ended.frame]
  rfl

theorem Moment.Alongside.finds : m.settled.node.Finds m'.settled.node := by
  have hpasses : m'.ended.frame.flags.has .passesError = m.ended.frame.flags.has .passesError := by
    rw [h.ended.frame]
    rfl
  intro e he
  rw [Moment.settled_findError] at he ⊢
  exact dedup_finds h.ended_error h.ended.children.innerError hpasses e he

theorem Moment.Alongside.survives : Node.Survives [] m.settled.node m'.settled.node := by
  have hchildren := h.settled_children
  refine .intro h.settled_frame ?_ h.finds (fun hleaf => h.settled_leaf hleaf ?_) hchildren
  · rw [settled_error, settled_error]
    exact dedup_keeps h.ended_error h.ended.children.innerError
  · have hempty := hchildren.isEmpty
    rw [hleaf] at hempty
    exact List.isEmpty_iff.mp hempty

theorem Moment.Alongside.fate
    (hplain : (traceFlags (m.closing :: m.outer)).has .dropInterim = false)
    (htime : m'.env.thresholds.minMethodTime = m.env.thresholds.minMethodTime) :
    (∀ child, m.fate ≠ .elide child) ∧
      (m'.fate = m.fate ∨ m.fate = .attach ∧ ∃ child, m'.fate = .elide child) := by
  have hretained : isRetained m'.env.thresholds m'.closing.frame
      (traceFlags (m'.closing :: m'.outer)) =
      isRetained m.env.thresholds m.closing.frame (traceFlags (m.closing :: m.outer)) := by
    rw [h.retained, isRetained, isRetained, htime]
  have hnone : substitute? m.env.thresholds m.closing (traceFlags (m.closing :: m.outer)) = none :=
    if_neg (by simp [hplain])
  have hsubmitted := h.isSubmitted
  rw [Moment.settled, Moment.settled] at hsubmitted
  simp only [Moment.fate, fateOf, Assembler.fate, hnone, hretained, h.isTraceRoot, hsubmitted,
    h.flags (x := .overflow) (by simp) (by simp)]
  split
  case isFalse => split <;> simp
  case isTrue =>
    split
    · split <;> simp
    · split
      · simp
      · cases substitute? m'.env.thresholds m'.closing (traceFlags (m'.closing :: m'.outer)) <;>
          simp

theorem Moment.Alongside.contracts
    (hplain : (traceFlags (m.closing :: m.outer)).has .dropInterim = false)
    (htime : m'.env.thresholds.minMethodTime = m.env.thresholds.minMethodTime)
    (hannounced : m.closing.Announced) : Contracts m.kept m'.kept := by
  obtain ⟨hnone, hsame | ⟨hattach, child', helide⟩⟩ := h.fate hplain htime
  · rw [Moment.kept, Moment.kept, hsame]
    cases hfate : m.fate with
    | attach => exact .cons (.here _) h.survives .nil
    | elide child => exact absurd hfate (hnone child)
    | discard | leave | reject => exact .nil
  · have hroot : m.settled.node.isTraceRoot = false := by
      have hflag := (interim_of_elide helide).2
      rw [h.flags (by simp) (by simp)] at hflag
      rw [m.settled_isTraceRoot]
      by_contra hroot
      have htrue := hannounced (Bool.of_not_eq_false hroot)
      rw [hflag] at htrue
      cases htrue
    have herror : m'.settled.node.frame.error = none :=
      (settled_error m').trans (interim_of_elide helide).1
    have hchildren := h.settled_children
    have honly' : m'.settled.node.children = [child'] := by
      rw [Moment.settled, settle_children]
      exact fateOf_elide helide
    rw [honly'] at hchildren
    generalize honly : m.settled.node.children = cs at hchildren
    cases hchildren with
    | @cons child own _ above cs _ chain hsurvives rest =>
      cases rest
      rw [Moment.kept, Moment.kept, hattach, helide]
      have hrecord := h.settled_frame.record
      have hpromoted := hsurvives.promoted m'.env.held h.finds herror honly'
        (by rw [hrecord]; rfl) (by rw [hrecord]; rfl)
      exact .cons (.down hroot honly chain) hpromoted .nil

end Alongside

theorem Moment.Matches.top (h : m.Matches true Contracts m')
    (htime : m'.env.thresholds.minMethodTime = m.env.thresholds.minMethodTime)
    (hplain : m.kind = .closes → (traceFlags (m.closing :: m.outer)).has .dropInterim = false)
    (hbusy : m.before.top.isBusy = m'.before.top.isBusy) :
    m.after.top.isBusy = m'.after.top.isBusy := by
  have hk' := h.kind
  cases hk : m.kind with
  | enters =>
    obtain ⟨_, _, _, _, -, hentered⟩ := Moment.enters_spec h.sound hk
    obtain ⟨_, _, _, _, -, hentered'⟩ := Moment.enters_spec h.sound' (hk' ▸ hk)
    rw [hentered.busy, hentered'.busy]
  | closes =>
    have halong := h.alongside hk
    have houter : m'.outer ≠ [] ↔ m.outer ≠ [] := by
      rw [← List.length_pos_iff, ← List.length_pos_iff, halong.outer.length_eq]
    have hfate : m'.fate ≠ .discard ↔ m.fate ≠ .discard := by
      obtain ⟨-, hsame | ⟨hattach, child, helide⟩⟩ := halong.fate (hplain hk) htime
      · rw [hsame]
      · simp [hattach, helide]
    rw [Bool.eq_iff_iff, Moment.busy_of_closes h.sound hk,
      Moment.busy_of_closes h.sound' (hk' ▸ hk), houter, hfate]
  | begins =>
    obtain ⟨_, _, _, -, -, hafter⟩ := Moment.begins_spec hk
    obtain ⟨_, _, _, -, -, hafter'⟩ := Moment.begins_spec (hk' ▸ hk)
    rw [hafter, hafter', opened_isBusy, opened_isBusy, hbusy]
  | other =>
    rw [(Moment.other_spec hk).touches.top.isBusy,
      (Moment.other_spec (hk' ▸ hk)).touches.top.isBusy, hbusy]

structure Contracting (a b : Assembler) : Prop where
  inStep : InStep true Contracts a b
  busy : a.top.isBusy = b.top.isBusy

variable {t : Thresholds}

theorem contracting_of_runs (capacity capacity' : Nat)
    (h : Runs t { t with dropInterim := true } os os') (hplain : ∀ o ∈ os, o.Plain)
    (hk : k ≤ os.length) :
    Contracting ((new capacity).after (os.take k)) ((new capacity').after (os'.take k)) := by
  refine both_induction h.events ⟨inStep_new .nil, rfl⟩ (fun k m m' hm hm' hbefore => ?_) hk
  have hmatches : m.Matches true Contracts m' :=
    h.matches hm hm' hbefore.inStep fun _ _ => hbefore.busy
  have htime : m'.env.thresholds.minMethodTime = m.env.thresholds.minMethodTime := by
    rw [h.thresholds _ (List.mem_of_getElem? (occurrence_of_trail hm)),
      h.thresholds' _ (List.mem_of_getElem? (occurrence_of_trail hm'))]
  have hflags (hk : m.kind = .closes) := traceFlags_closing hplain hm hk
  exact ⟨hmatches.next .nil fun hk halong cs cs' hcs =>
    hcs.append (halong.contracts (hflags hk) htime (announced_closing hm hk)),
    hmatches.top htime hflags hbefore.busy⟩

/-- The second run submits trees for the same traces, each the tree of the first run with chains of
only children contracted. -/
theorem chains_contracted (t : Thresholds) (capacity capacity' : Nat) (os os' : List Occurrence)
    (hevents : os.map (·.event) = os'.map (·.event))
    (hos : ∀ o ∈ os, o.env.thresholds = t)
    (hos' : ∀ o ∈ os', o.env.thresholds = { t with dropInterim := true })
    (hdrop : t.dropInterim = false)
    (hflags : ∀ o ∈ os, o.event.markerFlags.has .dropInterim = false)
    (hroom : os.countP (·.event.isEnter) ≤ t.maxTraceRecords) :
    ∀ (k : Nat) (m m' : Moment), ((new capacity).trail os)[k]? = some m →
      ((new capacity').trail os')[k]? = some m' →
      Option.Rel (fun tree tree' => Node.Survives [] tree tree' ∧ tree'.leaves = tree.leaves)
        m.tree? m'.tree? := by
  have hruns : Runs t { t with dropInterim := true } os os' :=
    ⟨hevents, hos, hos', ⟨rfl, rfl, hdrop⟩, hroom, hroom⟩
  have hplain : ∀ o ∈ os, o.Plain := fun o ho => ⟨by rw [hos o ho, hdrop], hflags o ho⟩
  intro k m m' hm hm'
  obtain ⟨hlt, hbefore⟩ := before_of_trail hm
  have hcontracting := contracting_of_runs capacity capacity' hruns hplain (Nat.le_of_lt hlt)
  rw [← hbefore, ← (before_of_trail hm').2] at hcontracting
  have hmatches : m.Matches true Contracts m' :=
    hruns.matches hm hm' hcontracting.inStep fun _ _ => hcontracting.busy
  exact hmatches.trees fun halong => ⟨halong.survives, halong.survives.leaves⟩

/-- A traced call with a chain of only children in it, and another call. -/
def chainedCalls : List Event :=
  [.enter 1 1 1 0, .begin 7 0 ∅, .enter 2 2 2 10, .enter 3 3 3 11, .enter 4 4 4 12, .exit 100,
    .exit 101, .exit 102, .enter 5 5 5 110, .exit 200, .exit 900]

theorem chains_contracted_of_chainedCalls :
    let run (c : Config) := (new 0).trail (occurrences c chainedCalls)
    ∃ m m' tree tree', (run { minMethodTime := 5, minTraceTime := 0 })[10]? = some m ∧
      (run { minMethodTime := 5, minTraceTime := 0, dropInterim := true })[10]? = some m' ∧
      m.tree? = some tree ∧ m'.tree? = some tree' ∧ Node.Survives [] tree tree' ∧
      tree'.leaves = tree.leaves ∧ tree.size = 5 ∧
      tree'.children.map (fun n =>
        (n.frame.classId, n.frame.calls, n.frame.flags.has .droppedParent)) =
        [(4, 3, true), (5, 1, false)] := by
  intro run
  let c : Config := { minMethodTime := 5, minTraceTime := 0 }
  let c' : Config := { minMethodTime := 5, minTraceTime := 0, dropInterim := true }
  obtain ⟨m, hm⟩ : ∃ m, (run c)[10]? = some m := ⟨_, rfl⟩
  obtain ⟨m', hm'⟩ : ∃ m', (run c')[10]? = some m' := ⟨_, rfl⟩
  have hrel := chains_contracted (.ofConfig c) 0 0 (occurrences c chainedCalls)
    (occurrences c' chainedCalls) rfl (thresholds_occurrences c _) (thresholds_occurrences c' _)
    rfl (by simp [occurrences, chainedCalls, Event.markerFlags]) (by decide) 10 m m' hm hm'
  have hsize : m.tree?.map Node.size = some 5 := by
    have h : ((run c)[10]?.bind (·.tree?)).map Node.size = some 5 := by decide +kernel
    rwa [hm] at h
  have hcalls : m'.tree?.map (·.children.map fun n =>
      (n.frame.classId, n.frame.calls, n.frame.flags.has .droppedParent)) =
      some [(4, 3, true), (5, 1, false)] := by
    have h : ((run c')[10]?.bind (·.tree?)).map (·.children.map fun n =>
        (n.frame.classId, n.frame.calls, n.frame.flags.has .droppedParent)) =
        some [(4, 3, true), (5, 1, false)] := by decide +kernel
    rwa [hm'] at h
  obtain ⟨tree, htree, hsize⟩ := Option.map_eq_some_iff.mp hsize
  obtain ⟨tree', htree', hcalls⟩ := Option.map_eq_some_iff.mp hcalls
  rw [htree, htree', Option.rel_some_some] at hrel
  exact ⟨m, m', tree, tree', hm, hm', htree, htree', hrel.1, hrel.2, hsize, hcalls⟩

end CallTree
