import CallTree.Proofs.Register

/-!
The calls of a run are properly nested: as long as a call is open, the calls around it are those
that were open when it was entered.
-/
namespace CallTree

variable {ms : List Moment}

theorem stack_sorted (ms : List Moment) (k : Nat) :
    (stack (ms.take k)).Pairwise (· > ·) ∧ ∀ i ∈ stack (ms.take k), i < k := by
  induction k with
  | zero => exact ⟨.nil, by simp [stack, register]⟩
  | succ k ih =>
    obtain ⟨hsorted, hlt⟩ := ih
    have hlater : ∀ i ∈ stack (ms.take k), i < k + 1 := fun i hi => Nat.lt_succ_of_lt (hlt i hi)
    cases hm : ms[k]? with
    | none =>
      rw [take_succ_of_none hm]
      exact ⟨hsorted, hlater⟩
    | some m =>
      rw [stack_succ hm]
      cases m.kind with
      | enters =>
        refine ⟨List.pairwise_cons.mpr ⟨hlt, hsorted⟩, fun i hi => ?_⟩
        rcases List.mem_cons.mp hi with rfl | hi
        · exact Nat.lt_succ_self i
        · exact hlater i hi
      | closes => exact ⟨hsorted.tail, fun i hi => hlater i (List.mem_of_mem_tail hi)⟩
      | begins => exact ⟨hsorted, hlater⟩
      | other => exact ⟨hsorted, hlater⟩

variable {e i k : Nat} {s : List Nat}

theorem lt_of_stack (h : stack (ms.take k) = e :: s) : ∀ p ∈ s, p < e := by
  have hsorted := (stack_sorted ms k).1
  rw [h] at hsorted
  exact (List.pairwise_cons.mp hsorted).1

theorem lt_of_suffix (h : (e :: s) <:+ stack (ms.take k)) : e < k :=
  (stack_sorted ms k).2 e (h.subset (by simp))

theorem suffix_pred (h : (e :: s) <:+ stack (ms.take (k + 1))) (hlt : e < k) :
    (e :: s) <:+ stack (ms.take k) := by
  cases hm : ms[k]? with
  | none => rwa [take_succ_of_none hm] at h
  | some m =>
    rw [stack_succ hm] at h
    cases hk : m.kind with
    | enters =>
      simp only [hk] at h
      rcases List.suffix_cons_iff.mp h with heq | h
      · have hsame := (List.cons.inj heq).1
        omega
      · exact h
    | closes =>
      simp only [hk] at h
      exact h.trans (List.tail_suffix _)
    | begins => simpa only [hk] using h
    | other => simpa only [hk] using h

theorem suffix_earlier (h : (e :: s) <:+ stack (ms.take k)) (hi : e < i) (hik : i ≤ k) :
    (e :: s) <:+ stack (ms.take i) := by
  induction hik with
  | refl => exact h
  | step hle ih => exact ih (suffix_pred h (Nat.lt_of_lt_of_le hi hle))

theorem entered_of_suffix (h : (e :: s) <:+ stack (ms.take k)) :
    s = stack (ms.take e) ∧ ∃ m, ms[e]? = some m ∧ m.kind = .enters := by
  have hfirst := suffix_earlier h (Nat.lt_succ_self e) (lt_of_suffix h)
  have hearlier : ¬(e :: s) <:+ stack (ms.take e) := fun h => Nat.lt_irrefl e (lt_of_suffix h)
  cases hm : ms[e]? with
  | none =>
    rw [take_succ_of_none hm] at hfirst
    exact absurd hfirst hearlier
  | some m =>
    rw [stack_succ hm] at hfirst
    cases hk : m.kind with
    | enters =>
      simp only [hk] at hfirst
      rcases List.suffix_cons_iff.mp hfirst with heq | hsuffix
      · exact ⟨(List.cons.inj heq).2, m, rfl, hk⟩
      · exact absurd hsuffix hearlier
    | closes =>
      simp only [hk] at hfirst
      exact absurd (hfirst.trans (List.tail_suffix _)) hearlier
    | begins =>
      simp only [hk] at hfirst
      exact absurd hfirst hearlier
    | other =>
      simp only [hk] at hfirst
      exact absurd hfirst hearlier

namespace Span.IsCall

variable {x : Span}

theorem suffix (hx : x.IsCall ms) :
    (x.entered :: stack (ms.take x.entered)) <:+ stack (ms.take x.closed) := by
  obtain ⟨m, -, -, hhead⟩ := hx
  obtain ⟨s, hs⟩ := List.head?_eq_some_iff.mp hhead
  have hsuffix : (x.entered :: s) <:+ stack (ms.take x.closed) := hs ▸ List.suffix_refl _
  rwa [← (entered_of_suffix hsuffix).1]

theorem enters (hx : x.IsCall ms) : ∃ m, ms[x.entered]? = some m ∧ m.kind = .enters :=
  (entered_of_suffix hx.suffix).2

theorem lt (hx : x.IsCall ms) : x.entered < x.closed := lt_of_suffix hx.suffix

theorem le_closed (hx : x.IsCall ms) (h : (x.entered :: s) <:+ stack (ms.take k)) :
    k ≤ x.closed := by
  by_contra hclosed
  have hlt := hx.lt
  obtain ⟨m, hm, hk, hhead⟩ := hx
  obtain ⟨t, ht⟩ := List.head?_eq_some_iff.mp hhead
  have hopen := suffix_earlier (i := x.closed + 1) h (by omega) (by omega)
  simp only [stack_succ hm, hk, ht, List.tail_cons] at hopen
  exact Nat.lt_irrefl x.entered (lt_of_stack ht x.entered (hopen.subset (by simp)))

theorem le_closed_of_mem (hx : x.IsCall ms) (h : x.entered ∈ stack (ms.take k)) :
    k ≤ x.closed := by
  obtain ⟨t, s, hs⟩ := List.append_of_mem h
  exact hx.le_closed (s := s) (hs ▸ List.suffix_append _ _)

theorem eq_of_entered {y : Span} (hx : x.IsCall ms) (hy : y.IsCall ms)
    (h : x.entered = y.entered) : x = y := by
  have hle := hx.le_closed (h ▸ hy.suffix)
  have hge := hy.le_closed (h ▸ hx.suffix)
  cases x
  cases y
  simp only [Span.mk.injEq]
  exact ⟨h, Nat.le_antisymm hge hle⟩

/-- A call that was entered first and is still open at the entry of another one is around it. -/
theorem mem_stack (hx : x.IsCall ms) (hi : x.entered < i) (hclosed : i ≤ x.closed) :
    x.entered ∈ stack (ms.take i) :=
  (suffix_earlier hx.suffix hi hclosed).subset (by simp)

/-- A call that was entered inside another one is closed inside it. -/
theorem closed_inside {y : Span} (hx : x.IsCall ms) (hy : y.IsCall ms) (h : x.entered < y.entered)
    (hopen : y.entered < x.closed) : y.closed < x.closed := by
  by_contra hlate
  have hmem := hy.mem_stack hopen (Nat.not_lt.mp hlate)
  obtain ⟨m, -, -, hhead⟩ := hx
  obtain ⟨s, hs⟩ := List.head?_eq_some_iff.mp hhead
  rw [hs] at hmem
  rcases List.mem_cons.mp hmem with hsame | hmem
  · omega
  · have hless := lt_of_stack hs y.entered hmem
    omega

theorem closed_before {c p : Nat} (hx : x.IsCall ms) (h : (c :: p :: s) <:+ stack (ms.take k))
    (hp : p < x.entered) (hc : x.entered < c) : x.closed < c := by
  by_contra hopen
  have hmem := hx.mem_stack hc (Nat.not_lt.mp hopen)
  have hstack := (entered_of_suffix h).1.symm
  rw [hstack] at hmem
  rcases List.mem_cons.mp hmem with hsame | hmem
  · omega
  · have hless := lt_of_stack hstack x.entered hmem
    omega

/-- The event that closes the innermost open call closes no other call. -/
theorem closed_lt {c : Nat} (hx : x.IsCall ms) (hhead : (stack (ms.take k)).head? = some c)
    (hne : x.entered ≠ c) (hclosed : x.closed ≤ k) : x.closed < k := by
  obtain ⟨m, -, -, hhead'⟩ := hx
  by_contra hlate
  obtain heq : x.closed = k := by omega
  rw [heq, hhead, Option.some.injEq] at hhead'
  exact hne hhead'.symm

end Span.IsCall

/-- The calls from below the one that event `r` entered down to `x`. -/
def chain (ms : List Moment) (r : Nat) (x : Span) : List Nat :=
  ((x.entered :: stack (ms.take x.entered)).filter (r < ·)).reverse

theorem chain_self (ms : List Moment) (x : Span) : chain ms x.entered x = [] := by
  have hlt := (stack_sorted ms x.entered).2
  simp only [chain, List.reverse_eq_nil_iff, List.filter_eq_nil_iff, List.mem_cons]
  intro i hi
  rcases hi with rfl | hi
  · simp
  · simpa using Nat.le_of_lt (hlt i hi)

theorem chain_cons {x : Span} {c p : Nat}
    (h : (c :: p :: s) <:+ x.entered :: stack (ms.take x.entered)) :
    chain ms p x = c :: chain ms c x := by
  obtain ⟨before, hbefore⟩ := h
  have hsorted : (x.entered :: stack (ms.take x.entered)).Pairwise (· > ·) :=
    List.pairwise_cons.mpr ⟨(stack_sorted ms x.entered).2, (stack_sorted ms x.entered).1⟩
  rw [← hbefore, List.pairwise_append] at hsorted
  obtain ⟨-, hafter, hboth⟩ := hsorted
  obtain ⟨hc, hp⟩ := List.pairwise_cons.mp hafter
  have hps := (List.pairwise_cons.mp hp).1
  have hlow (j : Nat) (hj : j ∈ p :: s) : ¬p < j := by
    rcases List.mem_cons.mp hj with rfl | hj
    · exact Nat.lt_irrefl j
    · exact Nat.not_lt.mpr (Nat.le_of_lt (hps j hj))
  have hcp : p < c := hc p (by simp)
  have hinner : before.filter (p < ·) = before := List.filter_eq_self.mpr fun j hj => by
    have hjc := hboth j hj c (by simp)
    simpa using Nat.lt_trans hcp hjc
  have hinner' : before.filter (c < ·) = before := List.filter_eq_self.mpr fun j hj => by
    simpa using hboth j hj c (by simp)
  have houter : (p :: s).filter (p < ·) = [] := List.filter_eq_nil_iff.mpr fun j hj => by
    simpa using hlow j hj
  have houter' : (c :: p :: s).filter (c < ·) = [] := List.filter_eq_nil_iff.mpr fun j hj => by
    rcases List.mem_cons.mp hj with rfl | hj
    · simp
    · simpa using Nat.le_of_lt (hc j hj)
  rw [chain, chain, ← hbefore, List.filter_append, List.filter_append, hinner, hinner', houter',
    List.filter_cons_of_pos (by simpa using hcp), houter]
  simp

end CallTree
