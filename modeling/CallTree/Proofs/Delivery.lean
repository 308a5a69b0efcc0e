import CallTree.Proofs.Presence

/-!
Trees that were handed to the sinks. What is kept below the open calls has such a tree as a whole
and as it was handed over, or nothing of it.
-/
namespace CallTree
open Assembler

namespace SpanTree

mutual

def nodes : SpanTree → Node → List (Span × Node)
  | .node own _ inner, n => (own, n) :: nodesIn inner n.children

def nodesIn : List SpanTree → List Node → List (Span × Node)
  | t :: ts, n :: ns => t.nodes n ++ nodesIn ts ns
  | _, _ => []

end

variable {R : Span → Span → Frame → Prop} {ms : List Moment}

mutual

theorem Depicts.calls_nodes : (t : SpanTree) → {n : Node} → t.Depicts R ms n →
    (t.nodes n).map (·.1) = t.spans
  | .node own _ inner, n, h => by
    rw [SpanTree.nodes, SpanTree.spans, List.map_cons, DepictAll.calls_nodesIn inner h.2]

theorem DepictAll.calls_nodesIn : (ts : List SpanTree) → {caller : Nat} → {ns : List Node} →
    DepictAll R ms caller ts ns → (nodesIn ts ns).map (·.1) = spansIn ts
  | [], _, [], _ => rfl
  | t :: ts, _, n :: ns, h => by
    obtain ⟨-, hn, -, hns⟩ := h
    rw [nodesIn, spansIn, List.map_append, Depicts.calls_nodes t hn,
      DepictAll.calls_nodesIn ts hns]

end

mutual

theorem Depicts.nodes_eq : (t : SpanTree) → {n : Node} → t.Depicts R ms n → (path : List Nat) →
    (t.nodes n).map (·.2) = (n.preorder path).map (·.2)
  | .node own _ inner, ⟨handle, frame, children⟩, h, path => by
    rw [SpanTree.nodes, Node.preorder, List.map_cons, List.map_cons,
      DepictAll.nodesIn_eq inner h.2 path 0]

theorem DepictAll.nodesIn_eq : (ts : List SpanTree) → {caller : Nat} → {ns : List Node} →
    DepictAll R ms caller ts ns → (path : List Nat) → (i : Nat) →
      (nodesIn ts ns).map (·.2) = (Node.preorders path i ns).map (·.2)
  | [], _, [], _, _, _ => rfl
  | t :: ts, _, n :: ns, h, path, i => by
    obtain ⟨-, hn, -, hns⟩ := h
    rw [nodesIn, Node.preorders, List.map_append, List.map_append, Depicts.nodes_eq t hn _,
      DepictAll.nodesIn_eq ts hns path (i + 1)]

end

end SpanTree

/-! ### Open calls share no node -/

theorem spansIn_keep (c p : OpenCall) (k : Nat) (f : Fate) : ∃ passed,
    SpanTree.spansIn (c.keep k f p).kept = SpanTree.spansIn p.kept ++ passed ∧
      passed.Sublist (⟨c.entered, k⟩ :: SpanTree.spansIn c.kept) := by
  cases f with
  | attach =>
    refine ⟨_, ?_, .refl _⟩
    simp [OpenCall.keep, SpanTree.spansIn_append, SpanTree.spansIn, SpanTree.spans]
  | elide child =>
    refine ⟨SpanTree.spansIn c.kept, ?_, List.sublist_cons_self _ _⟩
    simp [OpenCall.keep, SpanTree.spansIn_append, SpanTree.spansIn_widen]
  | _ => exact ⟨[], by simp [OpenCall.keep], List.nil_sublist _⟩

def keptSpans (cs : List OpenCall) : List Span := cs.flatMap fun c => SpanTree.spansIn c.kept

/-- No call is kept twice, and all that are kept were closed before event `k`. -/
def Apart (k : Nat) (cs : List OpenCall) : Prop :=
  (keptSpans cs).Nodup ∧ ∀ x ∈ keptSpans cs, x.closed < k

theorem Apart.later {k : Nat} {cs : List OpenCall} (h : Apart k cs) : Apart (k + 1) cs :=
  ⟨h.1, fun x hx => Nat.lt_succ_of_lt (h.2 x hx)⟩

theorem Apart.close {k : Nat} {c : OpenCall} {cs : List OpenCall} (h : Apart k (c :: cs))
    (f : Fate) : Apart (k + 1) (cs.modifyHead (c.keep k f)) := by
  obtain ⟨hnodup, hclosed⟩ := h
  cases cs with
  | nil => exact ⟨List.nodup_nil, by simp [keptSpans]⟩
  | cons p ps =>
    obtain ⟨passed, hpassed, hsub⟩ := spansIn_keep c p k f
    have hsame : keptSpans ((p :: ps).modifyHead (c.keep k f)) =
        SpanTree.spansIn p.kept ++ passed ++ keptSpans ps := by
      rw [List.modifyHead_cons, keptSpans, List.flatMap_cons, hpassed]
      rfl
    -- Of the calls kept before, those of `c` move behind those of `p`, with its own among them.
    have hold : (keptSpans (c :: p :: ps)).Perm
        (SpanTree.spansIn p.kept ++ SpanTree.spansIn c.kept ++ keptSpans ps) := by
      simp only [keptSpans, List.flatMap_cons, ← List.append_assoc]
      exact List.perm_append_comm.append_right _
    have hnew : (⟨c.entered, k⟩ : Span) ∉ keptSpans (c :: p :: ps) := fun hmem =>
      Nat.lt_irrefl k (hclosed _ hmem)
    have hall : (SpanTree.spansIn p.kept ++ (⟨c.entered, k⟩ :: SpanTree.spansIn c.kept) ++
        keptSpans ps).Perm (⟨c.entered, k⟩ :: keptSpans (c :: p :: ps)) := by
      rw [List.append_assoc, List.cons_append]
      refine List.perm_middle.trans (.cons _ ?_)
      rw [← List.append_assoc]
      exact hold.symm
    have hinto : (SpanTree.spansIn p.kept ++ passed ++ keptSpans ps).Sublist
        (SpanTree.spansIn p.kept ++ (⟨c.entered, k⟩ :: SpanTree.spansIn c.kept) ++ keptSpans ps) :=
      (hsub.append_left _).append_right _
    refine ⟨?_, fun x hx => ?_⟩
    · rw [hsame]
      exact (hall.nodup_iff.mpr (List.nodup_cons.mpr ⟨hnew, hnodup⟩)).sublist hinto
    · rw [hsame] at hx
      rcases List.mem_cons.mp (hall.subset (hinto.subset hx)) with rfl | hx
      · exact Nat.lt_succ_self k
      · exact Nat.lt_succ_of_lt (hclosed x hx)

theorem apart_register (ms : List Moment) (k : Nat) : Apart k (register (ms.take k)).calls :=
  register_induction (P := Apart) (fun _ => ⟨List.nodup_nil, by simp [keptSpans]⟩)
    (fun _ _ _ h => h.later) (fun _ _ _ h => h.later) (fun _ m _ _ _ _ _ h => h.close m.fate)
    (fun _ _ _ _ h => h) k

/-! ### Trees that are handed over -/

structure Delivery where
  calls : SpanTree
  tree : Node

def Delivery.nodes (d : Delivery) : List (Span × Node) := d.calls.nodes d.tree

/-- What event `j` hands to the sinks. -/
def delivery? (ms : List Moment) (j : Nat) : Option Delivery :=
  match ms[j]?.bind (·.tree?), (register (ms.take j)).calls with
  | some tree, c :: _ => some ⟨.node ⟨c.entered, j⟩ ⟨c.entered, j⟩ c.kept, tree⟩
  | _, _ => none

variable {capacity : Nat} {os : List Occurrence} {j k : Nat} {d : Delivery}

theorem delivery_eq {ms : List Moment} (hd : delivery? ms j = some d) :
    ∃ m c cs, ms[j]? = some m ∧ m.tree? = some d.tree ∧ (register (ms.take j)).calls = c :: cs ∧
      d.calls = .node ⟨c.entered, j⟩ ⟨c.entered, j⟩ c.kept := by
  unfold delivery? at hd
  split at hd
  case h_1 tree c cs htree hcs =>
    obtain ⟨m, hm, ht⟩ := Option.bind_eq_some_iff.mp htree
    cases hd
    exact ⟨m, c, cs, hm, ht, hcs, rfl⟩
  case h_2 => cases hd

theorem delivery_of_tree {m : Moment} (hm : ((new capacity).trail os)[k]? = some m) {tree : Node}
    (ht : m.tree? = some tree) :
    ∃ calls, delivery? ((new capacity).trail os) k = some ⟨calls, tree⟩ := by
  obtain ⟨c, cs, hcs, -⟩ :=
    depicts_of_submitted (justifies_true _) (fun _ _ _ _ _ => trivial) hm ht
  refine ⟨.node ⟨c.entered, k⟩ ⟨c.entered, k⟩ c.kept, ?_⟩
  simp [delivery?, hm, ht, hcs]

theorem settled_children (m : Moment) : m.settled.node.children = m.innermost.children := by
  rw [Moment.settled, settle_children, closing_children]

theorem settle_tree {env : Surroundings} {n : Node} {outer : List Node} {tree : Node}
    (h : (settle env n outer).verdict = .submitted tree) :
    tree.handle = some env.handle ∧ tree.isTraceRoot := by
  unfold settle at h
  split at h
  case h_1 => cases h
  case h_2 =>
    dsimp only at h
    split at h <;> cases h
    exact ⟨rfl, rfl⟩

theorem handle_of_close {env : Surroundings} {time : Nat} {error : Option ErrorChain}
    {a : Assembler} {r : Assembler × Outcome} (h : a.close env time error = .ok r) {tree : Node}
    (ht : r.2.verdict = .submitted tree) : tree.handle = some env.handle := by
  unfold close at h
  dsimp only at h
  split at h
  · cases h
  · cases h
    exact (settle_tree ht).1

theorem handle_of_step {env : Surroundings} {a : Assembler} {e : Event} {tree : Node}
    (h : (a.step env e).2.verdict = .submitted tree) : tree.handle = some env.handle := by
  unfold step at h
  split at h
  case isTrue =>
    cases e with
    | exit time =>
      rw [Assembler.handle] at h
      split at h
      case h_1 r hclose => exact handle_of_close hclose h
      case h_2 => cases h
    | fail error time =>
      rw [Assembler.handle] at h
      split at h
      case h_1 r hclose => exact handle_of_close hclose h
      case h_2 => cases h
    | begin traceId clock flags =>
      rw [Assembler.handle] at h
      split at h <;> cases h
    | attr target id value =>
      rw [Assembler.handle] at h
      split at h <;> cases h
    | _ => cases h
  case isFalse =>
    cases e <;> cases h

theorem Moment.handle_of_tree {m : Moment} {tree : Node} (h : m.tree? = some tree) :
    tree.handle = some m.env.handle := handle_of_step (Moment.verdict_of_tree h)

theorem Moment.tree_spec {m : Moment} (hsound : m.before.Sound) {tree : Node}
    (h : m.tree? = some tree) :
    m.settled.node = tree ∧ m.settled.isSubmitted ∧ tree.isTraceRoot := by
  obtain ⟨hk, -, hnode⟩ := Moment.submitted_spec hsound h
  have hsettled : m.settled.verdict = .submitted tree :=
    (Moment.closes_spec hsound hk).verdict.symm.trans (Moment.verdict_of_tree h)
  refine ⟨hnode, ?_, (settle_tree hsettled).2⟩
  rw [Settled.isSubmitted, hsettled]

/-- The nodes of a delivered tree record calls that are closed, each one of its own. -/
structure Delivery.Formed (ms : List Moment) (j : Nat) (d : Delivery) : Prop where
  depicts : d.calls.Depicts (Records ms) ms d.tree
  nodes : d.nodes.map (·.2) = (d.tree.preorder []).map (·.2)
  calls : d.nodes.map (·.1) = d.calls.spans
  apart : d.calls.spans.Nodup
  closed : ∀ x ∈ d.calls.spans, x.IsCall ms ∧ x.closed ≤ j

theorem formed_of_delivery (hd : delivery? ((new capacity).trail os) j = some d) :
    d.Formed ((new capacity).trail os) j := by
  obtain ⟨m, c, cs, hm, ht, hcs, hcalls⟩ := delivery_eq hd
  obtain ⟨c', cs', hcs', hdepicts⟩ := depicts_of_submitted (justifies_records capacity os)
    (fun _ _ hs hm _ => records_settled hs hm) hm ht
  obtain ⟨rfl, rfl⟩ := List.cons.inj (hcs.symm.trans hcs')
  rw [← hcalls] at hdepicts
  have hapart := apart_register ((new capacity).trail os) j
  have hholds := holds_register ((new capacity).trail os) j
  rw [hcs] at hapart hholds
  obtain ⟨hnodup, hclosed⟩ := hapart
  simp only [keptSpans, List.flatMap_cons] at hnodup hclosed
  obtain ⟨hk, -⟩ := Moment.submitted_spec (sound_of_trail hm) ht
  refine ⟨hdepicts, SpanTree.Depicts.nodes_eq _ hdepicts [],
    SpanTree.Depicts.calls_nodes _ hdepicts, ?_, ?_⟩
  · rw [hcalls, SpanTree.spans]
    refine List.nodup_cons.mpr ⟨fun hmem => ?_, (List.nodup_append.mp hnodup).1⟩
    exact Nat.lt_irrefl j (hclosed _ (List.mem_append_left _ hmem))
  · intro x hx
    rw [hcalls, SpanTree.spans] at hx
    rcases List.mem_cons.mp hx with rfl | hx
    · exact ⟨⟨m, hm, hk, by simp [stack, hcs]⟩, Nat.le_refl j⟩
    · exact ⟨((hholds.1 x).mp hx).1.isCall, Nat.le_of_lt ((hholds.1 x).mp hx).2⟩

/-! ### All or nothing of a delivered tree -/

mutual

/-- Wherever the tree has a part of the delivered one, it has all of it, as it was delivered. -/
def Delivery.Whole (d : Delivery) : SpanTree → Node → Prop
  | .node own outer inner, n =>
    (.node own outer inner = d.calls ∧ n = d.tree) ∨
      (own ∉ d.calls.spans ∧ d.WholeIn inner n.children)

def Delivery.WholeIn (d : Delivery) : List SpanTree → List Node → Prop
  | [], [] => True
  | t :: ts, n :: ns => d.Whole t n ∧ d.WholeIn ts ns
  | _, _ => False

end

namespace Delivery

theorem WholeIn.concat {ts : List SpanTree} {ns : List Node} (h : d.WholeIn ts ns) {t : SpanTree}
    {n : Node} (hn : d.Whole t n) : d.WholeIn (ts ++ [t]) (ns ++ [n]) := by
  induction ts generalizing ns with
  | nil =>
    cases ns with
    | nil => exact ⟨hn, trivial⟩
    | cons => exact absurd h id
  | cons s ts ih =>
    cases ns with
    | nil => exact absurd h id
    | cons m ns => exact ⟨h.1, ih h.2⟩

mutual

theorem Whole.mem_nodes : (t : SpanTree) → {n : Node} → d.Whole t n → ∀ q ∈ t.nodes n,
    q.1 ∈ d.calls.spans → q ∈ d.nodes
  | .node own outer inner, n, .inl ⟨hcalls, hn⟩, q, hq, _ => by
    rw [Delivery.nodes, ← hcalls, ← hn]
    exact hq
  | .node own outer inner, n, .inr ⟨hown, hinner⟩, q, hq, hx => by
    rw [SpanTree.nodes] at hq
    rcases List.mem_cons.mp hq with rfl | hq
    · exact absurd hx hown
    · exact WholeIn.mem_nodesIn inner hinner q hq hx

theorem WholeIn.mem_nodesIn : (ts : List SpanTree) → {ns : List Node} → d.WholeIn ts ns →
    ∀ q ∈ SpanTree.nodesIn ts ns, q.1 ∈ d.calls.spans → q ∈ d.nodes
  | [], [], _, q, hq, _ => by simp [SpanTree.nodesIn] at hq
  | t :: ts, n :: ns, ⟨hn, hns⟩, q, hq, hx => by
    rw [SpanTree.nodesIn] at hq
    rcases List.mem_append.mp hq with hq | hq
    · exact Whole.mem_nodes t hn q hq hx
    · exact WholeIn.mem_nodesIn ts hns q hq hx

end

mutual

theorem whole_of_disjoint {R : Span → Span → Frame → Prop} {ms : List Moment} :
    (t : SpanTree) → {n : Node} → t.Depicts R ms n → (∀ x ∈ t.spans, x ∉ d.calls.spans) →
      d.Whole t n
  | .node own outer inner, _, h, hx => by
    rw [SpanTree.spans] at hx
    exact .inr ⟨hx own (by simp), wholeIn_of_disjoint inner h.2 fun x hmem => hx x (by simp [hmem])⟩

theorem wholeIn_of_disjoint {R : Span → Span → Frame → Prop} {ms : List Moment} :
    (ts : List SpanTree) → {caller : Nat} → {ns : List Node} →
      SpanTree.DepictAll R ms caller ts ns →
        (∀ x ∈ SpanTree.spansIn ts, x ∉ d.calls.spans) → d.WholeIn ts ns
  | [], _, [], _, _ => trivial
  | t :: ts, _, n :: ns, h, hx => by
    obtain ⟨-, hn, -, hns⟩ := h
    rw [SpanTree.spansIn] at hx
    exact ⟨whole_of_disjoint t hn fun x hmem => hx x (List.mem_append_left _ hmem),
      wholeIn_of_disjoint ts hns fun x hmem => hx x (List.mem_append_right _ hmem)⟩

end

def Below (d : Delivery) : List OpenCall → List Node → Prop :=
  List.Forall₂ fun c n => d.WholeIn c.kept n.children

theorem Below.touched {cs : List OpenCall} {ns ns' : List Node} (h : d.Below cs ns)
    (hns : AllTouched ns ns') : d.Below cs ns' := by
  refine AllTouched.carry (fun c n n' hn htouched => ?_) h hns
  rw [htouched.children]
  exact hn

/-- A child that takes the place of its parent is in no delivered tree: its place would be that of
the root, and a root keeps its own. -/
theorem WholeIn.of_elide (hroot : d.tree.isTraceRoot) {m : Moment} {child : Node}
    (hf : m.fate = .elide child) {ts : List SpanTree} (h : d.WholeIn ts m.innermost.children) :
    ∃ own outer inner, ts = [.node own outer inner] ∧ own ∉ d.calls.spans ∧
      d.WholeIn inner child.children := by
  obtain ⟨-, flags, hsub⟩ := substitute_of_elide hf
  obtain ⟨honly, hplain⟩ := substitute_spec hsub
  rw [closing_children] at honly
  rw [honly] at h
  cases ts with
  | nil => exact absurd h id
  | cons t ts =>
    cases ts with
    | cons => exact absurd h.2 id
    | nil =>
      obtain ⟨own, outer, inner⟩ := t
      rcases h.1 with ⟨-, htree⟩ | ⟨hown, hinner⟩
      · rw [htree, hroot] at hplain
        cases hplain
      · exact ⟨own, outer, inner, rfl, hown, hinner⟩

theorem WholeIn.keep (hroot : d.tree.isTraceRoot) {m : Moment} {c p : OpenCall} {q : Node}
    (hlate : (⟨c.entered, k⟩ : Span) ∉ d.calls.spans) (hc : d.WholeIn c.kept m.innermost.children)
    (hp : d.WholeIn p.kept q.children) :
    d.WholeIn (c.keep k m.fate p).kept (m.parent q).children := by
  rw [Moment.parent_eq]
  cases hf : m.fate with
  | attach =>
    refine hp.concat (.inr ⟨hlate, ?_⟩)
    rw [settled_children]
    exact hc
  | elide child =>
    obtain ⟨own, outer, inner, hkept, hown, hinner⟩ := hc.of_elide hroot hf
    simp only [OpenCall.keep, hkept]
    refine hp.concat (.inr ⟨hown, ?_⟩)
    rw [promote_children]
    exact hinner
  | _ => exact hp

theorem Below.next {m : Moment} (hroot : d.tree.isTraceRoot)
    (hlate : ∀ x ∈ d.calls.spans, x.closed < k) (hsound : m.before.Sound) {r : Register}
    (h : d.Below r.calls m.before.openCalls) :
    d.Below (r.next m k).calls m.after.openCalls := by
  cases hk : m.kind with
  | enters =>
    obtain ⟨classId, methodId, signatureId, time, -, hentered⟩ := Moment.enters_spec hsound hk
    simp only [Register.next, hk]
    rw [hentered.openCalls]
    exact .cons trivial h
  | closes =>
    have hcloses := Moment.closes_spec hsound hk
    simp only [Register.next, hk]
    rw [hcloses.before] at h
    obtain ⟨c, cs, hc, houter, hcs⟩ := List.forall₂_cons_right_iff.mp h
    have hrest := Below.touched houter m.around_touched
    rw [hcs, hcloses.after]
    generalize m.around = around at hrest
    cases hrest with
    | nil => exact .nil
    | cons hp hrest =>
      exact .cons (hc.keep hroot (fun hmem => Nat.lt_irrefl k (hlate _ hmem)) hp) hrest
  | begins =>
    obtain ⟨traceId, clock, flags, -, -, hafter⟩ := Moment.begins_spec hk
    simp only [Register.next, hk]
    rw [hafter]
    cases ht : m.before.top.isBusy with
    | true =>
      rw [openCalls_of_busy ht] at h
      obtain ⟨c, cs, hc, hrest, hcs⟩ := List.forall₂_cons_right_iff.mp h
      rw [opened_openCalls_of_busy _ _ _ _ ht, hcs]
      exact .cons hc hrest
    | false =>
      rw [opened_openCalls_of_vacant _ _ _ _ ht]
      exact h
  | other =>
    simp only [Register.next, hk]
    exact h.touched (Moment.other_spec hk).touches.openCalls

theorem below_of_delivery (hd : delivery? ((new capacity).trail os) j = some d) {m : Moment}
    (hm : ((new capacity).trail os)[j]? = some m) :
    d.Below ((register (((new capacity).trail os).take j)).next m j).calls m.after.openCalls := by
  obtain ⟨m', c, cs, hm', ht, hcs, hcalls⟩ := delivery_eq hd
  obtain rfl : m = m' := Option.some.inj (hm.symm.trans hm')
  have hsound := sound_of_trail hm
  obtain ⟨hk, -⟩ := Moment.submitted_spec hsound ht
  obtain ⟨hnode, hsubmitted, -⟩ := Moment.tree_spec hsound ht
  have hcloses := Moment.closes_spec hsound hk
  have hagrees := (agrees_of_moment hm).calls
  have hapart := apart_register ((new capacity).trail os) j
  rw [hcs, hcloses.before] at hagrees
  rw [hcs] at hapart
  obtain ⟨-, houter⟩ := List.forall₂_cons.mp hagrees
  -- No other open call keeps a call of the tree.
  have hbefore : d.Below cs m.outer := by
    have hdisjoint : ∀ p ∈ cs, ∀ x ∈ SpanTree.spansIn p.kept, x ∉ d.calls.spans := by
      intro p hp x hx hmem
      have hother : x ∈ keptSpans cs := List.mem_flatMap.mpr ⟨p, hp, hx⟩
      rw [hcalls, SpanTree.spans] at hmem
      simp only [Apart, keptSpans, List.flatMap_cons] at hapart
      rcases List.mem_cons.mp hmem with rfl | hmem
      · exact Nat.lt_irrefl j (hapart.2 _ (List.mem_append_right _ hother))
      · exact (List.nodup_append.mp hapart.1).2.2 x hmem x hother rfl
    refine List.forall₂_iff_zip.mpr ⟨houter.length_eq, fun {p n} hpn => ?_⟩
    exact wholeIn_of_disjoint p.kept ((List.forall₂_iff_zip.mp houter).2 hpn).children
      (hdisjoint p (List.of_mem_zip hpn).1)
  have hrest := hbefore.touched m.around_touched
  simp only [Register.next, hk, hcs]
  rw [hcloses.after]
  generalize m.around = around at hrest
  cases hrest with
  | nil => exact .nil
  | @cons p q ps qs hp hrest =>
    refine .cons ?_ hrest
    rw [Moment.parent_eq]
    rcases fateOf_submitted hsubmitted with hf | hf
    · rw [Moment.fate, hf]
      exact hp
    · rw [Moment.fate, hf]
      exact hp.concat (.inl ⟨hcalls.symm, hnode⟩)

/-- Whatever comes later, every open call has all or nothing of the delivered tree below it. -/
theorem below_of_trail (hd : delivery? ((new capacity).trail os) j = some d) (hjk : j < k)
    (hk : k ≤ os.length) : d.Below (register (((new capacity).trail os).take k)).calls
      ((new capacity).after (os.take k)).openCalls := by
  obtain ⟨m, c, cs, hm, ht, -⟩ := delivery_eq hd
  obtain ⟨-, -, hroot⟩ := Moment.tree_spec (sound_of_trail hm) ht
  -- On the events since the tree was handed over. A call that closes later is not in it.
  induction hjk with
  | refl =>
    rw [register_succ hm, ← after_of_trail hm]
    exact below_of_delivery hd hm
  | @step k hjk ih =>
    have hmk := moment_of_trail (new capacity) hk
    rw [register_succ hmk, ← after_of_trail hmk]
    refine Below.next hroot (fun x hx => ?_) (sound_of_trail hmk) (ih (Nat.le_of_succ_le hk))
    exact Nat.lt_of_le_of_lt ((formed_of_delivery hd).closed x hx).2 hjk

end Delivery

end CallTree
