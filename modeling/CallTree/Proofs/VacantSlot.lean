import CallTree.Proofs.Elision
import CallTree.Proofs.IdleSlot
import CallTree.Proofs.Timing
import CallTree.Proofs.Traversal

/-!
The top slot when no call is in it. A discarded call leaves nothing there, so the next call, trace
or attribute has the slot for itself.
-/
namespace CallTree
open Assembler

namespace Assembler

/-- The next event that concerns the top slot finds nothing there but what it brings. -/
structure Pristine (env : Surroundings) (a : Assembler) : Prop where
  blank : a.top = {}
  enter : ∀ classId methodId signatureId time,
    (a.step env (.enter classId methodId signatureId time)).1.top = { frame := {
      classId, methodId, signatureId
      startTime := some time
      calls := 1
      flags := if 0 < a.nodeCount && env.thresholds.maxTraceRecords < a.nodeCount + 1 then
        .single .overflow else ∅ } }
  begin : ∀ traceId clock flags,
    (a.step env (.begin traceId clock flags)).1.top = { frame := {
      flags := .single .opensTrace
      marker := some (newMarker env.thresholds traceId clock flags (nearest? a.ancestors)) } }
  /-- An attribute is for the slot only if no call is open. -/
  attr : ∀ target id value,
    (a.step env (.attr target id value)).1.top =
      if a.ancestors.isEmpty && target = .current then { frame := { attributes := [(id, value)] } }
      else {}

variable {a : Assembler}

theorem step_attr_alone (env : Surroundings) (hon : a.enabled) (hopen : a.openCalls = [])
    (hroot : a.top.isTraceRoot = false) (target : AttrTarget) (id : SymbolId) (value : AttrValue) :
    (a.step env (.attr target id value)).1.top =
      if target = .current then a.top.mapFrame (·.setAttr id value) else a.top := by
  have hunmet : a.top.frame.isTraceRoot = false := hroot
  have hstep : a.step env (.attr target id value) = a.handle env (.attr target id value) :=
    if_pos hon
  cases target with
  | current =>
    rw [step_of_annotates env hon (not_placeholder hopen) rfl]
    rfl
  | anyTrace | trace =>
    rw [hstep, handle, updateFrame_of_unmet hopen (by simp [AttrTarget.isMet, hunmet])]
    rfl

theorem Sound.pristine (h : a.Sound) (hon : a.enabled) (htop : a.top = {}) (env : Surroundings) :
    a.Pristine env := by
  have hvacant : a.top.isBusy = false := by rw [htop]; rfl
  have hroot : a.top.isTraceRoot = false := by rw [htop]; rfl
  have hawaited : a.awaited = {} := by simp [awaited, htop]
  have hstep (e : Event) : a.step env e = a.handle env e := if_pos hon
  refine ⟨htop, fun classId methodId signatureId time => ?_, fun traceId clock flags => ?_,
    fun target id value => ?_⟩
  · have hentered := enter_entered h env.thresholds classId methodId signatureId time
    have hcalls := hentered.openCalls
    rw [openCalls_of_busy hentered.busy] at hcalls
    rw [hstep, handle, (List.cons.inj hcalls).1]
    simp only [arrival, counts, hawaited, Frame.isTraceRoot, Option.isSome_none, Bool.or_false]
    split <;> simp [Frame.mark]
  · rw [hstep, handle, openTrace_ok _ _ _ _ hroot]
    simp [Assembler.opened, htop, Node.mapFrame, Frame.mark]
  · cases houter : a.ancestors with
    | nil =>
      have hopen : a.openCalls = [] := (openCalls_of_vacant hvacant).trans houter
      rw [step_attr_alone env hon hopen hroot, htop]
      cases target <;> rfl
    | cons p ps =>
      -- The slot is passed over: the attribute goes to a call around it or is refused.
      have hplace : a.isPlaceholder := by simp [isPlaceholder, hvacant, houter, hroot]
      have hkind : a.kind (.attr target id value) = .other := by simp [kind]
      have htouches := (step_other env hkind).1.touches
      rw [htouches.placeholder hplace, htop]
      rfl

end Assembler

/-! ### The slots of a run -/

theorem Assembler.Sound.slots_subset {a : Assembler} (h : a.Sound) : a.slots ⊆ a.spots := by
  cases ht : a.top.isBusy with
  | true =>
    rw [spots_of_busy ht]
    exact List.subset_cons_self _ _
  | false =>
    have htop : ({ frame := a.top.frame } : Node) = a.top := by rw [h.vacant ht]
    rw [spots_of_vacant ht, htop]
    exact List.Subset.refl _

theorem Represents.entered_below {ms : List Moment} {c : OpenCall} {n : Node}
    (h : Represents ms (Records ms) c n) :
    ∀ q ∈ Node.preorders [] 0 n.children, q.2.frame.startTime.isSome := by
  refine h.children.preorders (P := fun f => f.startTime.isSome) (fun own outer f hf => ?_) _ [] 0
  obtain ⟨m, time, -, -, -, hstart⟩ := hf.entered
  rw [hstart]
  rfl

theorem entered_below (capacity : Nat) (os : List Occurrence) :
    ∀ n ∈ ((new capacity).after os).slots, ∀ q ∈ Node.preorders [] 0 n.children,
      q.2.frame.startTime.isSome := by
  have hsound : ((new capacity).after os).Sound := (sound_new capacity).after os
  have hagrees := agrees_of_trail capacity os (justifies_records capacity os)
    (Nat.le_refl os.length)
  rw [List.take_length] at hagrees
  have hopen := forall_of_forall₂ (fun _ _ hc => hc.entered_below) hagrees.calls
  intro n hn
  cases ht : ((new capacity).after os).top.isBusy with
  | true =>
    rw [openCalls_of_busy ht] at hopen
    exact hopen n hn
  | false =>
    rw [openCalls_of_vacant ht] at hopen
    rcases List.mem_cons.mp hn with rfl | hn
    · rw [hsound.vacant ht]
      simp [Node.preorders]
    · exact hopen n hn

/-- A call that is discarded, or was the only one open, leaves the slot as good as new. -/
theorem Moment.pristine_of_closes {m : Moment} (h : m.before.Sound) (hk : m.kind = .closes)
    (hgone : m.fate = .discard ∨ m.outer = []) (env : Surroundings) : m.after.Pristine env := by
  have hvacant : m.after.top.isBusy = false := by
    rw [Bool.eq_false_iff, ne_eq, Moment.busy_of_closes h hk]
    rintro ⟨houter, hfate⟩
    exact hgone.elim hfate houter
  obtain ⟨n, outer, -, hclosed, -⟩ := step_closes m.env h hk
  have hon : m.after.enabled := hclosed.enabled.trans (close_of_kind hk).1
  exact (h.step m.env m.event).pristine hon (hclosed.vacant hvacant) env

/-- In every state of a run the top slot is an open call, or has at most flags, attributes and a
trace; above an open call it has nothing, unless a trace was opened there. Every slot with a trace
says so, and every node kept below a call was entered. From the slot that a discarded call leaves,
or the last open one, the next call, trace or attribute takes nothing. -/
theorem vacant_slot_blank (capacity : Nat) (os : List Occurrence) :
    let a := (new capacity).after os
    (a.top.frame.startTime.isSome ∨ ∃ flags attributes marker,
      a.top = { frame := { flags, attributes, marker } }) ∧
    (a.top.frame.startTime = none → a.top.frame.marker = none → a.ancestors ≠ [] → a.top = {}) ∧
    (∀ n ∈ a.slots, n.frame.marker.isSome → n.frame.flags.has .opensTrace) ∧
    (∀ n ∈ a.slots, ∀ q ∈ Node.preorders [] 0 n.children, q.2.frame.startTime.isSome) ∧
    (a.top = {} → a.enabled → ∀ env, a.Pristine env) ∧
    ∀ (k : Nat) (m : Moment), ((new capacity).trail os)[k]? = some m → m.kind = .closes →
      m.fate = .discard ∨ m.outer = [] → ∀ env, m.after.Pristine env := by
  intro a
  have hsound : a.Sound := (sound_new capacity).after os
  refine ⟨?_, fun hstart hmarker houter => ?_, fun n hn => ?_, entered_below capacity os,
    fun htop hon => hsound.pristine hon htop, fun k m hm hk hgone =>
      Moment.pristine_of_closes (sound_of_trail hm) hk hgone⟩
  · cases ht : a.top.isBusy with
    | true => exact .inl ht
    | false => exact .inr ⟨_, _, _, hsound.vacant ht⟩
  · refine hsound.placeholder ?_
    simp [isPlaceholder, Node.isBusy, Frame.isBusy, Node.isTraceRoot, Frame.isTraceRoot, hstart,
      hmarker, houter]
  · exact announced_after capacity os n (hsound.slots_subset hn)

/-- In a trace, a call that is kept and then one with a dropped trace and an attribute that is not. -/
def forgottenCall : List Occurrence :=
  occurrences { minTraceTime := 0, minMethodTime := 5 }
    [.enter 1 1 1 0, .begin 7 0 ∅, .enter 2 2 2 10, .exit 20, .enter 3 3 3 30,
      .begin 8 0 (.single .drop), .attr .current 5 (.int 3), .exit 31]

theorem vacant_slot_blank_of_forgottenCall :
    let a := (new 1).after forgottenCall
    (a.top.frame.startTime = none ∧ a.top.frame.marker = none ∧ a.ancestors ≠ [] ∧ a.top = {}) ∧
    (∃ n ∈ a.slots, n.frame.marker.isSome ∧ n.frame.flags.has .opensTrace ∧
      ∃ q ∈ Node.preorders [] 0 n.children, q.2.frame.startTime.isSome) ∧
    (a.enabled ∧ ∀ env, a.Pristine env) ∧
    ∃ m, ((new 1).trail forgottenCall)[7]? = some m ∧ m.kind = .closes ∧ m.fate = .discard ∧
      m.innermost.frame.attributes = [(5, .int 3)] ∧ ∀ env, m.after.Pristine env := by
  intro a
  obtain ⟨-, hblank, htraces, hbelow, hpristine, hcloses⟩ := vacant_slot_blank 1 forgottenCall
  obtain ⟨n, child, hn, hmarked, hchild⟩ : ∃ n child, a.ancestors = [n] ∧
      n.frame.marker.isSome ∧ n.children = [child] := ⟨_, _, rfl, rfl, rfl⟩
  have hslot : n ∈ a.slots := List.mem_cons_of_mem _ (by simp [hn])
  have hkept : ([0], child) ∈ Node.preorders [] 0 n.children := by
    rw [hchild, Node.preorders, Node.preorder_eq]
    exact List.mem_cons_self
  have hstart : a.top.frame.startTime = none := rfl
  have hmarker : a.top.frame.marker = none := rfl
  have houter : a.ancestors ≠ [] := by simp [hn]
  have htop : a.top = {} := hblank hstart hmarker houter
  have hon : a.enabled := rfl
  obtain ⟨m, hm, hk, hfate, hattributes⟩ : ∃ m, ((new 1).trail forgottenCall)[7]? = some m ∧
      m.kind = .closes ∧ m.fate = .discard ∧ m.innermost.frame.attributes = [(5, .int 3)] :=
    ⟨_, rfl, rfl, rfl, rfl⟩
  exact ⟨⟨hstart, hmarker, houter, htop⟩,
    ⟨n, hslot, hmarked, htraces n hslot hmarked, _, hkept, hbelow n hslot _ hkept⟩,
    ⟨hon, hpristine htop hon⟩, m, hm, hk, hfate, hattributes, hcloses 7 m hm hk (.inl hfate)⟩

end CallTree
