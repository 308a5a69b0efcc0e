import CallTree.Proofs.Budget
import Mathlib.Algebra.GroupWithZero.Nat
import Mathlib.Data.List.DropRight

/-!
The count of nodes. Inside a trace it is the size of all that the open calls of the trace hold,
outside it is zero and they hold nothing; no close takes more from it than there is.
-/
namespace CallTree
open Assembler

/-- The open calls from the innermost one up to the outermost one with a trace. -/
def Assembler.traced (a : Assembler) : List Node :=
  (a.slots.rdropWhile (!·.isTraceRoot)).filter (·.isBusy)

def Assembler.Fate.freed (n : Node) : Fate → Nat
  | .attach => 0
  | .elide _ => 1
  | _ => n.size

theorem remaining_eq (nodeCount : Nat) (n : Node) (f : Fate) :
    remaining nodeCount n f = nodeCount - f.freed n := by
  cases f <;> rfl

theorem carryOut_nodeCount (held : Nat → Bool) (a : Assembler) (n : Node) {f : Fate}
    (hf : a.ancestors = [] → f = .discard ∨ f = .leave) :
    (carryOut held a n f).nodeCount = a.nodeCount - f.freed n := by
  cases h : a.ancestors with
  | nil =>
    rcases hf h with rfl | rfl
    · rfl
    · simp [carryOut, Fate.freed, h]
  | cons p ps => cases f <;> simp [carryOut, Fate.freed, h]

/-! ### The calls of the outermost trace -/

variable {n : Node} {ns : List Node}

theorem rdropWhile_outside (h : ns.any (·.isTraceRoot) = false) :
    ns.rdropWhile (!·.isTraceRoot) = [] := by
  rw [List.rdropWhile_eq_nil_iff]
  intro n hn
  simpa using List.any_eq_false.mp h n hn

theorem rdropWhile_of_trace (h : (n :: ns).any (·.isTraceRoot)) :
    (n :: ns).rdropWhile (!·.isTraceRoot) = n :: ns.rdropWhile (!·.isTraceRoot) := by
  rw [List.rdropWhile, List.reverse_cons, List.dropWhile_append]
  cases hns : ns.any (·.isTraceRoot) with
  | true =>
    have hne : ns.rdropWhile (!·.isTraceRoot) ≠ [] := by
      intro hnil
      rw [List.rdropWhile_eq_nil_iff] at hnil
      obtain ⟨r, hr, hroot⟩ := List.any_eq_true.mp hns
      simpa [hroot] using hnil r hr
    rw [List.rdropWhile, ne_eq, List.reverse_eq_nil_iff] at hne
    rw [if_neg (by simpa using hne), List.reverse_append, List.rdropWhile]
    rfl
  | false =>
    have hnil := rdropWhile_outside hns
    have hroot : n.isTraceRoot := by simpa [hns] using h
    rw [hnil]
    rw [List.rdropWhile, List.reverse_eq_nil_iff] at hnil
    simp [hnil, hroot]

theorem weight_eq_sum (ns : List Node) :
    weight ns = ((ns.rdropWhile (!·.isTraceRoot)).map Node.size).sum := by
  induction ns with
  | nil => rfl
  | cons n ns ih =>
    cases h : (n :: ns).any (·.isTraceRoot) with
    | true => rw [weight_of_trace h, ih, rdropWhile_of_trace h, List.map_cons, List.sum_cons]
    | false => rw [weight_outside h, rdropWhile_outside h, List.map_nil, List.sum_nil]

theorem rdropWhile_busy (h : ∀ n ∈ ns, n.isBusy) :
    (ns.rdropWhile (!·.isTraceRoot)).filter (·.isBusy) = ns.rdropWhile (!·.isTraceRoot) := by
  rw [List.filter_eq_self]
  intro n hn
  exact h n ((List.rdropWhile_prefix _ _).subset hn)

theorem traced_eq {a : Assembler} (h : a.Sound) :
    a.traced = a.openCalls.rdropWhile (!·.isTraceRoot) := by
  unfold Assembler.traced slots
  cases ht : a.top.isBusy with
  | true =>
    have hbusy := h.isBusy
    rw [openCalls_of_busy ht] at hbusy ⊢
    exact rdropWhile_busy hbusy
  | false =>
    -- A top slot without a call has no part in the sum, with a trace or without.
    rw [openCalls_of_vacant ht]
    cases hin : (a.top :: a.ancestors).any (·.isTraceRoot) with
    | true => rw [rdropWhile_of_trace hin, List.filter_cons_of_neg (by simp [ht]),
        rdropWhile_busy h.busy]
    | false =>
      have hout : a.ancestors.any (·.isTraceRoot) = false := by
        rw [List.any_cons, Bool.or_eq_false_iff] at hin
        exact hin.2
      rw [rdropWhile_outside hin, rdropWhile_outside hout, List.filter_nil]

theorem Budgeted.empty {budget : Nat} (h : Budgeted budget ns)
    (hout : ns.any (·.isTraceRoot) = false) : ∀ n ∈ ns, n.children = [] := by
  induction ns with
  | nil => simp
  | cons p ns ih =>
    intro n hn
    obtain ⟨hhead, hrest⟩ := h
    rw [if_neg (by simp [hout])] at hhead
    rw [List.any_cons, Bool.or_eq_false_iff] at hout
    rcases List.mem_cons.mp hn with rfl | hn
    · exact hhead
    · exact ih hrest hout.2 n hn

/-! ### Closing -/

theorem freed_le_size (n : Node) (f : Fate) : f.freed n ≤ n.size := by
  have hsize := Node.size_eq n
  cases f <;> simp only [Fate.freed] <;> omega

/-- What a close inside a trace takes from the count was counted. -/
theorem Moment.Closes.nodeCount_freed {m : Moment} (h : m.Closes)
    (hcount : m.before.nodeCount = weight m.before.openCalls)
    (hin : (m.innermost :: m.outer).any (·.isTraceRoot)) :
    m.after.nodeCount + m.fate.freed m.closing = m.before.nodeCount := by
  have hle := freed_le_size m.closing m.fate
  have hafter := h.nodeCount
  rw [h.before, weight_of_trace hin, ← closing_size] at hcount
  cases houter : m.outer.any (·.isTraceRoot) with
  | true =>
    rw [houter, if_pos rfl, remaining_eq] at hafter
    omega
  | false =>
    -- The outermost trace ends: the count starts again, and what it was is all given back.
    rw [houter, if_neg (by simp)] at hafter
    rw [weight_outside houter] at hcount
    have hfreed : m.fate.freed m.closing = m.closing.size := by
      have hfate : m.fate = .discard ∨ m.fate = .leave := fateOf_outside houter
      rcases hfate with hf | hf <;> rw [hf] <;> rfl
    omega

/-- In every state the count of nodes is the size of the open calls from the outermost trace
inwards; without a trace it is zero and no open call holds a node. Closing a call inside a trace
takes no more from it than there is. -/
theorem nodeCount_exact (capacity : Nat) (os : List Occurrence) :
    (((new capacity).after os).slots.any (·.isTraceRoot) →
      ((new capacity).after os).nodeCount =
        (((new capacity).after os).traced.map Node.size).sum) ∧
    (((new capacity).after os).slots.any (·.isTraceRoot) = false →
      ((new capacity).after os).nodeCount = 0 ∧
        ∀ n ∈ ((new capacity).after os).openCalls, n.children = []) ∧
    (∀ (k : Nat) (m : Moment), ((new capacity).trail os)[k]? = some m → m.kind = .closes →
      (m.innermost :: m.outer).any (·.isTraceRoot) →
        m.fate.freed m.closing ≤ m.before.nodeCount ∧
        m.after.nodeCount + m.fate.freed m.closing = m.before.nodeCount) ∧
    ∀ (held : Nat → Bool) (a : Assembler) (n : Node) (f : Fate),
      (a.ancestors = [] → f = .discard ∨ f = .leave) →
        (carryOut held a n f).nodeCount = a.nodeCount - f.freed n := by
  have hwithin := withinBudget_of_trail capacity os (Nat.le_refl os.length)
  have hsound := (sound_new capacity).after os
  rw [List.take_length] at hwithin
  refine ⟨fun _ => ?_, fun hout => ?_, fun k m hm hk hin => ?_,
    fun held a n f hf => carryOut_nodeCount held a n hf⟩
  · rw [hwithin.nodeCount, weight_eq_sum, traced_eq hsound]
  · have hopen : ((new capacity).after os).openCalls.any (·.isTraceRoot) = false := by
      rw [List.any_eq_false] at hout ⊢
      intro n hn
      exact hout n (openCalls_subset _ hn)
    exact ⟨hwithin.nodeCount.trans (weight_outside hopen), hwithin.calls.empty hopen⟩
  · obtain ⟨hlt, hbefore⟩ := before_of_trail hm
    have hcount := (withinBudget_of_trail capacity os (Nat.le_of_lt hlt)).nodeCount
    rw [← hbefore] at hcount
    have hfreed := (Moment.closes_spec (sound_of_trail hm) hk).nodeCount_freed hcount hin
    exact ⟨by omega, hfreed⟩

theorem nodeCount_exact_of_crowdedCalls :
    ∃ m, ((new 0).trail crowdedCalls)[5]? = some m ∧ m.kind = .closes ∧
      (m.innermost :: m.outer).any (·.isTraceRoot) ∧
      m.after.nodeCount + m.fate.freed m.closing = m.before.nodeCount :=
  ⟨_, rfl, rfl, rfl, ((nodeCount_exact 0 crowdedCalls).2.2.1 5 _ rfl rfl rfl).2⟩

end CallTree
