import CallTree.Proofs.Delivery

/-!
Nodes that go back to the pool. A call that closes gives back at most its own node and, unless
somebody holds them, those kept below it; a delivered tree that is held is left alone.
-/
namespace CallTree
open Assembler

theorem Pool.release_eq (held : Nat → Bool) (p : Pool) (n : Node) :
    p.release held n = (p.put n).reclaim held n.children := by
  cases n
  rw [Pool.release]

namespace SpanTree

variable (held : Nat → Bool)

mutual

/-- The nodes that go back to the pool with a tree, each with its call. What is held is not among
them, nor what is below it. -/
def loose : SpanTree → Node → List (Span × Node)
  | .node own _ inner, n => (own, n) :: looseIn inner n.children

def looseIn : List SpanTree → List Node → List (Span × Node)
  | t :: ts, n :: ns => (if Pool.isHeld held n then [] else t.loose n) ++ looseIn ts ns
  | _, _ => []

end

variable {R : Span → Span → Frame → Prop} {ms : List Moment}

mutual

theorem Depicts.release_eq (p : Pool) : (t : SpanTree) → {n : Node} → t.Depicts R ms n →
    p.release held n = ((t.loose held n).map (·.2)).foldl Pool.put p
  | .node own _ inner, n, h => by
    rw [Pool.release_eq, SpanTree.loose, List.map_cons, List.foldl_cons]
    exact DepictAll.reclaim_eq _ inner h.2

theorem DepictAll.reclaim_eq (p : Pool) : (ts : List SpanTree) → {caller : Nat} →
    {ns : List Node} → DepictAll R ms caller ts ns →
      p.reclaim held ns = ((looseIn held ts ns).map (·.2)).foldl Pool.put p
  | [], _, [], _ => rfl
  | t :: ts, _, n :: ns, h => by
    obtain ⟨-, hn, -, hns⟩ := h
    rw [Pool.reclaim, looseIn, List.map_append, List.foldl_append]
    cases hheld : Pool.isHeld held n with
    | true => exact DepictAll.reclaim_eq p ts hns
    | false =>
      simp only [Bool.false_eq_true, ↓reduceIte]
      rw [Depicts.release_eq p t hn]
      exact DepictAll.reclaim_eq _ ts hns

end

end SpanTree

namespace Delivery

variable {held : Nat → Bool} {d : Delivery}

mutual

theorem Whole.loose (hheld : Pool.isHeld held d.tree) : (t : SpanTree) → {n : Node} →
    d.Whole t n → Pool.isHeld held n = false → ∀ q ∈ t.loose held n, q.1 ∉ d.calls.spans
  | .node own outer inner, n, .inl ⟨_, hn⟩, hfree, q, _ => by
    rw [hn, hheld] at hfree
    cases hfree
  | .node own outer inner, n, .inr ⟨hown, hinner⟩, _, q, hq => by
    rw [SpanTree.loose] at hq
    rcases List.mem_cons.mp hq with rfl | hq
    · exact hown
    · exact WholeIn.looseIn hheld inner hinner q hq

theorem WholeIn.looseIn (hheld : Pool.isHeld held d.tree) : (ts : List SpanTree) →
    {ns : List Node} → d.WholeIn ts ns → ∀ q ∈ SpanTree.looseIn held ts ns, q.1 ∉ d.calls.spans
  | [], [], _, q, hq => by simp [SpanTree.looseIn] at hq
  | t :: ts, n :: ns, ⟨hn, hns⟩, q, hq => by
    rw [SpanTree.looseIn] at hq
    rcases List.mem_append.mp hq with hq | hq
    · cases hfree : Pool.isHeld held n with
      | true => simp [hfree] at hq
      | false =>
        simp only [hfree, Bool.false_eq_true, ↓reduceIte] at hq
        exact Whole.loose hheld t hn hfree q hq
    · exact WholeIn.looseIn hheld ts hns q hq

end

end Delivery

/-! ### What a closing call gives back -/

namespace Assembler

def Fate.recycled (held : Nat → Bool) (s : Span) (kept : List SpanTree) (n : Node) :
    Fate → List (Span × Node)
  | .discard => SpanTree.looseIn held kept n.children
  | .reject => (SpanTree.node s s kept).loose held n
  | .elide _ => [(s, { n with children := [] })]
  | _ => []

theorem carryOut_pool (held : Nat → Bool) {R : Span → Span → Frame → Prop} {ms : List Moment}
    (a : Assembler) {n : Node} {s : Span} {kept : List SpanTree}
    (hkept : SpanTree.DepictAll R ms s.entered kept n.children) {f : Fate}
    (hf : a.ancestors = [] → f = .discard ∨ f = .leave) :
    let p := ((f.recycled held s kept n).map (·.2)).foldl Pool.put a.pool
    (carryOut held a n f).pool = p ∨ (carryOut held a n f).pool = p.acquire.2 := by
  cases h : a.ancestors with
  | nil =>
    rcases hf h with rfl | rfl
    · exact .inl (hkept.reclaim_eq held a.pool)
    · exact .inr (by simp [carryOut, h, Fate.recycled])
  | cons p ps =>
    left
    cases f with
    | discard => exact hkept.reclaim_eq held a.pool
    | reject =>
      simp only [carryOut, h, Fate.recycled, SpanTree.loose, List.map_cons, List.foldl_cons]
      rw [Pool.release_eq, hkept.reclaim_eq held]
    | elide child => simp [carryOut, h, Fate.recycled, Pool.release_eq, Pool.reclaim]
    | leave => simp [carryOut, h, Fate.recycled]
    | attach => simp [carryOut, h, Fate.recycled]

end Assembler

namespace Moment

def vacated (m : Moment) : List Node :=
  if m.kind = .closes && !m.before.top.isBusy then [m.before.top] else []

/-- The nodes of closed calls that go back to the pool, each with its call. -/
def recycled (ms : List Moment) (k : Nat) (m : Moment) : List (Span × Node) :=
  match m.kind, (register (ms.take k)).calls with
  | .closes, c :: _ => m.fate.recycled m.env.held ⟨c.entered, k⟩ c.kept m.settled.node
  | _, _ => []

theorem vacated_spec {m : Moment} (h : m.before.Sound) :
    ∀ n ∈ m.vacated, n.isBusy = false ∧ n.handle = none ∧ n.children = [] := by
  intro n hn
  unfold vacated at hn
  split at hn
  case isTrue hcond =>
    obtain rfl := List.mem_singleton.mp hn
    simp only [Bool.and_eq_true, Bool.not_eq_true'] at hcond
    refine ⟨hcond.2, ?_⟩
    rw [h.vacant hcond.2]
    exact ⟨rfl, rfl⟩
  case isFalse => simp at hn

theorem vacated_pool {m : Moment} (h : m.before.Sound) (hk : m.kind = .closes) (n : Node) :
    (m.before.closingAs m.env.held n m.outer).pool = m.vacated.foldl Pool.put m.before.pool := by
  unfold closingAs vacated
  cases ht : m.before.top.isBusy with
  | true => simp [hk]
  | false =>
    simp only [Bool.false_eq_true, ↓reduceIte, hk, decide_true, Bool.not_false, Bool.and_self,
      List.foldl_cons, List.foldl_nil]
    rw [Pool.release_eq, h.vacant ht, Pool.reclaim]

theorem pool_of_closes {m : Moment} (h : m.before.Sound) (hk : m.kind = .closes) :
    m.after.pool = (carryOut m.env.held
      { m.before with
        top := m.closing
        ancestors := m.around.modifyHead (rollUp m.closing.frame)
        pool := m.vacated.foldl Pool.put m.before.pool }
      m.settled.node m.fate).pool := by
  rw [after_of_closes h hk, ← vacated_pool h hk m.closing]
  dsimp only
  split <;> rfl

theorem push_pool (a : Assembler) : a.push.pool = a.pool ∨ a.push.pool = a.pool.acquire.2 := by
  unfold push
  split
  · exact .inr rfl
  · exact .inl rfl

theorem pool_of_moment {capacity : Nat} {os : List Occurrence} {k : Nat} {m : Moment}
    (hm : ((new capacity).trail os)[k]? = some m) :
    let p := (m.vacated ++ (m.recycled ((new capacity).trail os) k).map (·.2)).foldl Pool.put
      m.before.pool
    m.after.pool = p ∨ m.after.pool = p.acquire.2 := by
  have hsound := sound_of_trail hm
  cases hk : m.kind with
  | enters =>
    obtain ⟨classId, methodId, signatureId, time, hevent, -⟩ := Moment.enters_spec hsound hk
    have hafter : m.after =
        (m.before.enter m.env.thresholds classId methodId signatureId time).1 := by
      obtain ⟨hon, -⟩ := enter_of_kind hk
      simp [Moment.after, hevent, step, hon, handle]
    simp only [vacated, recycled, hk]
    rw [hafter]
    exact push_pool m.before
  | closes =>
    obtain ⟨c, cs, hcs, -, hc, -⟩ := closing_call (justifies_true _) hm hk
    have hkept := hc.children
    rw [← settled_children] at hkept
    simp only [recycled, hk, hcs, List.foldl_append]
    rw [pool_of_closes hsound hk]
    exact carryOut_pool m.env.held _ (s := ⟨c.entered, k⟩) hkept fun hnil =>
      Moment.fate_of_alone (List.modifyHead_eq_nil_iff.mp hnil)
  | begins =>
    obtain ⟨traceId, clock, flags, -, -, hafter⟩ := Moment.begins_spec hk
    simp only [vacated, recycled, hk]
    rw [hafter]
    exact .inl rfl
  | other =>
    simp only [vacated, recycled, hk]
    exact .inl (Moment.other_spec hk).touches.pool

/-- No node of a delivered tree is recycled as long as somebody holds the tree. -/
theorem recycled_of_held {capacity : Nat} {os : List Occurrence} {j k : Nat} {m : Moment}
    (hm : ((new capacity).trail os)[k]? = some m) (hjk : j ≤ k) {d : Delivery}
    (hd : delivery? ((new capacity).trail os) j = some d)
    (hheld : Pool.isHeld m.env.held d.tree) :
    ∀ q ∈ m.recycled ((new capacity).trail os) k, q.1 ∉ d.calls.spans := by
  intro q hq
  unfold recycled at hq
  split at hq
  case h_2 => simp at hq
  case h_1 c cs hk hcs =>
    have hsound := sound_of_trail hm
    rcases Nat.lt_or_eq_of_le hjk with hlt | rfl
    · -- The tree was delivered before: what closes now has all or nothing of it.
      obtain ⟨hlen, hbefore⟩ := before_of_trail hm
      have hbelow := Delivery.below_of_trail hd hlt (Nat.le_of_lt hlen)
      rw [hcs, ← hbefore, (Moment.closes_spec hsound hk).before] at hbelow
      have hwhole := (List.forall₂_cons.mp hbelow).1
      rw [← settled_children] at hwhole
      have hinner := Delivery.WholeIn.looseIn hheld c.kept hwhole
      have hown : (⟨c.entered, k⟩ : Span) ∉ d.calls.spans := fun hmem =>
        Nat.lt_irrefl k (Nat.lt_of_le_of_lt ((formed_of_delivery hd).closed _ hmem).2 hlt)
      cases hf : m.fate with
      | discard =>
        rw [hf] at hq
        exact hinner q hq
      | reject =>
        rw [hf, Fate.recycled, SpanTree.loose] at hq
        rcases List.mem_cons.mp hq with rfl | hq
        · exact hown
        · exact hinner q hq
      | elide child =>
        rw [hf, Fate.recycled] at hq
        rw [List.mem_singleton.mp hq]
        exact hown
      | _ => simp [hf, Fate.recycled] at hq
    · -- The tree that is being delivered is not taken apart.
      obtain ⟨m', _, _, hm', ht, -⟩ := delivery_eq hd
      obtain rfl : m = m' := Option.some.inj (hm.symm.trans hm')
      obtain ⟨-, hsubmitted, -⟩ := Moment.tree_spec hsound ht
      rcases fateOf_submitted hsubmitted with hf | hf <;>
        simp [Moment.fate, hf, Fate.recycled] at hq

end Moment

end CallTree
