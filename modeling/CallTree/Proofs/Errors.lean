import CallTree.Proofs.Sharing

/-!
Errors in trees. The node of a call that failed leads to the error of the call: it has this error,
or its last child leads to the same one. This is settled when the call closes. What is kept below
a node does not change later, and a node that takes the place of its parent keeps its error.
-/
namespace CallTree
open Assembler

variable {ms : List Moment} {m : Moment}

theorem ErrorChain.same_self (e : ErrorChain) : same (some e) (some e) := beq_self_eq_true e.handle

theorem ErrorChain.same_comm (a b : Option ErrorChain) : same a b = same b a := by
  cases a <;> cases b <;> simp [same, BEq.comm]

namespace Node

def innerError (n : Node) : Option ErrorChain := n.lastChild?.bind (·.findError)

theorem lastError_eq (ns : List Node) : lastError ns = ns.getLast?.bind (·.findError) := by
  induction ns with
  | nil => rfl
  | cons n ns ih =>
    cases ns with
    | nil => rfl
    | cons m ns => rw [lastError, ih, List.getLast?_cons_cons]

theorem findError_eq (n : Node) : n.findError = match n.frame.error with
    | some e => some e
    | none => if n.frame.flags.has .passesError then n.innerError else none := by
  obtain ⟨handle, frame, children⟩ := n
  rw [findError, lastError_eq]
  rfl

theorem innerError_congr {n n' : Node} (h : n'.children = n.children) :
    n'.innerError = n.innerError := by
  rw [innerError, innerError, lastChild?, lastChild?, h]

/-- The node of a call that ended with error `e`. What its last child leads to is this error, its
direct cause or neither; an error does not cause itself. -/
structure Raises (n : Node) (e : ErrorChain) : Prop where
  found : ErrorChain.same n.findError (some e)
  stored : n.frame.error = if ErrorChain.same (some e) n.innerError then none else some e
  passes : ErrorChain.same (some e) n.innerError → n.frame.flags.has .passesError
  wraps : ∀ cause, n.innerError = some cause → ErrorChain.same (some e) (some cause) = false →
    e.isCausedBy cause → n.frame.flags.has .wrapsError

theorem Raises.of_stored {n : Node} {e : ErrorChain}
    (stored : n.frame.error = if ErrorChain.same (some e) n.innerError then none else some e)
    (passes : ErrorChain.same (some e) n.innerError → n.frame.flags.has .passesError)
    (wraps : ∀ cause, n.innerError = some cause → ErrorChain.same (some e) (some cause) = false →
      e.isCausedBy cause → n.frame.flags.has .wrapsError) : n.Raises e := by
  refine ⟨?_, stored, passes, wraps⟩
  rw [findError_eq, stored]
  by_cases hsame : ErrorChain.same (some e) n.innerError
  · rw [if_pos hsame]
    simpa only [passes hsame, if_true, ErrorChain.same_comm n.innerError] using hsame
  · rw [if_neg hsame]
    exact ErrorChain.same_self e

/-- The node has no error that its last child leads to, and leads to the error of its call, if
this is one that failed. -/
structure Blames (failure : Option ErrorChain) (n : Node) : Prop where
  once : ErrorChain.same n.frame.error n.innerError = false
  raises : ∀ e, failure = some e → n.Raises e

theorem Blames.recorded {failure : Option ErrorChain} {n n' : Node} (h : n.Blames failure)
    (hchildren : n'.children = n.children) (herror : n'.frame.error = n.frame.error)
    (hflags : ∀ x, n.frame.flags.has x → n'.frame.flags.has x) : n'.Blames failure := by
  have hinner := innerError_congr hchildren
  refine ⟨by rw [herror, hinner]; exact h.once, fun e he => ?_⟩
  have hraises := h.raises e he
  refine .of_stored ?_ (fun hsame => ?_) fun cause hcause hother hby => ?_
  · rw [herror, hinner]
    exact hraises.stored
  · rw [hinner] at hsame
    exact hflags _ (hraises.passes hsame)
  · rw [hinner] at hcause
    exact hflags _ (hraises.wraps cause hcause hother hby)

end Node

/-! ### At the close -/

theorem dedupError_children (n : Node) : (dedupError n).children = n.children := by
  obtain ⟨error, flags, heq, -⟩ := dedupError_eq n
  rw [heq]

theorem dedup_raises {n : Node} {e : ErrorChain} (h : n.frame.error = some e) :
    (dedupError n).Raises e := by
  have hinner := Node.innerError_congr (dedupError_children n)
  refine .of_stored ?_ (fun hsame => ?_) fun cause hcause hother hby => ?_ <;> rw [hinner] at *
  · simp only [dedupError, h]
    change (if ErrorChain.same (some e) n.innerError then _ else _ : Node).frame.error = _
    split
    · rfl
    · split <;> exact h
  · simp only [dedupError, h]
    rw [← Node.innerError, if_pos hsame]
    simp [Node.mapFrame, Frame.mark]
  · simp only [dedupError, h]
    rw [← Node.innerError, hcause, if_neg (by simp [hother]), if_pos (by simpa using hby)]
    simp [Node.mapFrame, Frame.mark]

theorem dedup_once (n : Node) :
    ErrorChain.same (dedupError n).frame.error (dedupError n).innerError = false := by
  cases herror : n.frame.error with
  | none => simp [dedupError, herror, ErrorChain.same]
  | some e =>
    rw [(dedup_raises herror).stored]
    split
    · rfl
    · next hother => simpa using hother

theorem closing_blames (m : Moment) : m.closing.Blames m.event.error? := by
  have hclosing : m.closing = dedupError (ended m.event.time m.event.error? m.innermost) := rfl
  rw [hclosing]
  refine ⟨dedup_once _, fun e he => dedup_raises ?_⟩
  simp [ended, he, Node.mapFrame]

theorem settled_blames (m : Moment) : m.settled.node.Blames m.event.error? := by
  have hframe := settle_frame m.env m.closing m.outer
  refine (closing_blames m).recorded (settle_children m.env m.closing m.outer) ?_ fun x hx => ?_
  · rw [Moment.settled, hframe]
  · rw [Moment.settled, hframe]
    exact hx

theorem promoted_blames {failure : Option ErrorChain} (held : Nat → Bool) (parent : Node)
    {child : Node} (h : child.Blames failure) : (promote held parent child).Blames failure := by
  have hframe := promote_frame held parent child
  refine h.recorded (promote_children held parent child) ?_ fun x hx => ?_
  · rw [hframe]
    rfl
  · rw [hframe]
    simp [Frame.mark, Frame.countsFrom, hx]

/-! ### In trees -/

/-- What a node says of its call when the call is settled, and still says in the place of its
parent. -/
structure Lasting (ms : List Moment) (Q : Span → Node → Prop) : Prop where
  settled : ∀ s m, s.IsCall ms → ms[s.closed]? = some m → Q s m.settled.node
  promoted : ∀ s held parent child, Q s child → Q s (promote held parent child)

variable {capacity : Nat} {os : List Occurrence} {k : Nat} {Q : Span → Node → Prop}

theorem Lasting.passed (h : Lasting ms Q) (hm : ms[k]? = some m) {c : OpenCall}
    (hcall : (⟨c.entered, k⟩ : Span).IsCall ms)
    (hkept : SpanTree.DepictAll (fun _ _ _ => True) ms c.entered c.kept m.innermost.children)
    (hinner : ∀ q ∈ SpanTree.nodesIn c.kept m.innermost.children, Q q.1 q.2) :
    ∀ q ∈ m.passed k c, Q q.1 q.2 := by
  intro q hq
  rw [Moment.passed] at hq
  cases hf : m.fate with
  | attach =>
    rw [hf, SpanTree.nodes, settled_children] at hq
    rcases List.mem_cons.mp hq with rfl | hq
    · exact h.settled _ m hcall hm
    · exact hinner q hq
  | elide child =>
    have honly := fateOf_elide hf
    rw [closing_children] at honly
    rw [honly] at hkept hinner
    obtain ⟨⟨own, outer, inner⟩, htree, -⟩ := hkept.singleton
    simp only [htree, SpanTree.nodesIn, SpanTree.nodes] at hinner
    simp only [hf, htree, SpanTree.nodesIn, SpanTree.nodes, promote_children] at hq
    rcases List.mem_cons.mp hq with rfl | hq
    · exact h.promoted own _ _ child (hinner (own, child) List.mem_cons_self)
    · exact hinner q (List.mem_cons_of_mem _ hq)
  | _ => simp [hf] at hq

theorem Lasting.stored (h : Lasting ((new capacity).trail os) Q) (hk : k ≤ os.length) :
    ∀ q ∈ stored ((new capacity).trail os) k ((new capacity).after (os.take k)), Q q.1 q.2 := by
  refine trail_induction capacity os (P := fun k a =>
    ∀ q ∈ CallTree.stored ((new capacity).trail os) k a, Q q.1 q.2) ?_ (fun k m hm _ ih => ?_) hk
  · simp [CallTree.stored, register, keptNodes]
  by_cases hkind : m.kind = .closes
  · -- Only what the closing call passes on is new.
    obtain ⟨c, cs, hcs, hkept, hbefore, hafter⟩ := stored_of_closes hm hkind
    have hcall : (⟨c.entered, k⟩ : Span).IsCall ((new capacity).trail os) :=
      ⟨m, hm, hkind, by simp [stack, hcs]⟩
    rw [hbefore] at ih
    intro q hq
    rcases List.mem_append.mp (hafter.subset hq) with hpassed | hother
    · exact h.passed hm hcall hkept (fun q hq => ih q (List.mem_append_left _ hq)) q hpassed
    · exact ih q (List.mem_append_right _ hother)
  · rw [stored_of_open hm hkind]
    exact ih

theorem Lasting.delivered (h : Lasting ((new capacity).trail os) Q) {d : Delivery}
    (hd : delivery? ((new capacity).trail os) k = some d) : ∀ q ∈ d.nodes, Q q.1 q.2 := by
  intro q hq
  obtain ⟨m, _, _, hm, -⟩ := delivery_eq hd
  have hformed := formed_of_delivery hd
  rcases mem_nodes_of_delivery hd hq with ⟨hclosed, m, hm, hnode⟩ | hstored
  · rw [hnode]
    exact h.settled q.1 m (hformed.closed _ (hformed.mem_spans hq)).1 (hclosed ▸ hm)
  · exact h.stored (Nat.le_of_lt (before_of_trail hm).1) q hstored

def Span.error? (ms : List Moment) (s : Span) : Option ErrorChain :=
  ms[s.closed]?.bind (·.event.error?)

theorem lasting_blames (ms : List Moment) : Lasting ms (fun s n => n.Blames (s.error? ms)) where
  settled s m _ hm := by
    rw [Span.error?, hm, Option.bind_some]
    exact settled_blames m
  promoted _ held parent _ h := promoted_blames held parent h

/-- A node leads to the error of its call when this closes, and in every tree that is submitted,
whatever became of the calls around it and below it. -/
theorem errors_found (capacity : Nat) (os : List Occurrence) :
    (∀ (k : Nat) (m : Moment), ((new capacity).trail os)[k]? = some m → m.kind = .closes →
      m.settled.node.Blames m.event.error?) ∧
    ∀ (k : Nat) (m : Moment) (tree : Node), ((new capacity).trail os)[k]? = some m →
      m.tree? = some tree →
      ∃ calls, delivery? ((new capacity).trail os) k = some ⟨calls, tree⟩ ∧
        Delivery.Formed ((new capacity).trail os) k ⟨calls, tree⟩ ∧
        ∀ q ∈ calls.nodes tree, q.2.Blames (q.1.error? ((new capacity).trail os)) := by
  refine ⟨fun _ m _ _ => settled_blames m, fun k m tree hm ht => ?_⟩
  obtain ⟨calls, hd⟩ := delivery_of_tree hm ht
  exact ⟨calls, hd, formed_of_delivery hd, (lasting_blames _).delivered hd⟩

/-- An error passes through a call that is elided, and wraps one whose first holder came over the
budget. -/
def wrappedError : List Occurrence :=
  let inner : ErrorChain := ⟨⟨1, 9, "inner", []⟩, []⟩
  occurrences { minTraceTime := 0, minMethodTime := 5, maxTraceRecords := 4, dropInterim := true }
    [.enter 1 1 1 0, .begin 7 0 ∅, .enter 2 2 2 10, .enter 3 3 3 29, .enter 4 4 4 30,
      .fail inner 40, .exit 41, .fail inner 45, .enter 5 5 5 50, .enter 6 6 6 51, .fail inner 60,
      .fail inner 70, .fail (.ofCause ⟨2, 9, "outer", []⟩ (some inner)) 100]

theorem errors_found_of_wrappedError :
    ∃ (m : Moment) (d : Delivery), ((new 0).trail wrappedError)[12]? = some m ∧
      m.tree? = some d.tree ∧ d.calls.spans = [⟨0, 12⟩, ⟨2, 7⟩, ⟨4, 5⟩, ⟨8, 11⟩] ∧
      (d.tree.preorder []).map (fun q => (q.2.frame.error.map (·.handle), q.2.frame.flags.toNat)) =
        [(some 2, 10), (none, 4), (some 1, 16), (some 1, 0)] ∧
      ∀ q ∈ d.nodes, q.2.Blames (q.1.error? ((new 0).trail wrappedError)) := by
  obtain ⟨m, d, hm, ht, hd, hspans, hnodes⟩ : ∃ (m : Moment) (d : Delivery),
      ((new 0).trail wrappedError)[12]? = some m ∧ m.tree? = some d.tree ∧
      delivery? ((new 0).trail wrappedError) 12 = some d ∧
      d.calls.spans = [⟨0, 12⟩, ⟨2, 7⟩, ⟨4, 5⟩, ⟨8, 11⟩] ∧
      (d.tree.preorder []).map (fun q => (q.2.frame.error.map (·.handle), q.2.frame.flags.toNat)) =
        [(some 2, 10), (none, 4), (some 1, 16), (some 1, 0)] :=
    ⟨_, _, rfl, rfl, rfl, by decide, by decide⟩
  obtain ⟨calls, hcalls, -, hblames⟩ := (errors_found 0 wrappedError).2 12 m d.tree hm ht
  have hsame : d.calls = calls := congrArg Delivery.calls (Option.some.inj (hd.symm.trans hcalls))
  rw [← hsame] at hblames
  exact ⟨m, d, hm, ht, hspans, hnodes, hblames⟩

end CallTree
