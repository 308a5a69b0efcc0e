import CallTree.Proofs.Accounting
import CallTree.Proofs.Recycling
import Mathlib.Data.List.Nodup

/-!
Delivered trees are shared and never changed. Of the closed nodes an event changes at most one, by
giving it the place of its parent; that one is in no delivered tree and has no other holder. A
delivered tree that is also kept becomes a child as it is, and what is kept of it later is what was
delivered.
-/
namespace CallTree
open Assembler

/-! ### The nodes kept below the open calls -/

def keptNodes (cs : List OpenCall) (ns : List Node) : List (Span × Node) :=
  (cs.zip ns).flatMap fun p => SpanTree.nodesIn p.1.kept p.2.children

theorem keptNodes_cons (c : OpenCall) (cs : List OpenCall) (n : Node) (ns : List Node) :
    keptNodes (c :: cs) (n :: ns) = SpanTree.nodesIn c.kept n.children ++ keptNodes cs ns := rfl

theorem keptNodes_alike {ns ns' : List Node} (h : List.Forall₂ Node.Alike ns ns')
    (cs : List OpenCall) : keptNodes cs ns' = keptNodes cs ns := by
  induction h generalizing cs with
  | nil => rfl
  | cons hn _ ih =>
    cases cs with
    | nil => rfl
    | cons c cs => rw [keptNodes_cons, keptNodes_cons, hn.children, ih]

section Represented

variable {R : Span → Span → Frame → Prop} {ms : List Moment}

theorem keptNodes_calls {cs : List OpenCall} {ns : List Node}
    (h : List.Forall₂ (Represents ms R) cs ns) :
    (keptNodes cs ns).map (·.1) = keptSpans cs := by
  induction h with
  | nil => rfl
  | cons hc _ ih =>
    rw [keptNodes_cons, List.map_append, ih, hc.children.calls_nodesIn]
    rfl

theorem keptNodes_nodes {cs : List OpenCall} {ns : List Node}
    (h : List.Forall₂ (Represents ms R) cs ns) : (keptNodes cs ns).map (·.2) =
      ns.flatMap fun n => (Node.preorders [] 0 n.children).map (·.2) := by
  induction h with
  | nil => rfl
  | cons hc _ ih =>
    rw [keptNodes_cons, List.map_append, ih, hc.children.nodesIn_eq _ [] 0]
    rfl

theorem SpanTree.DepictAll.nodesIn_concat {ts : List SpanTree} {caller : Nat} {ns : List Node}
    (h : DepictAll R ms caller ts ns) (t : SpanTree) (n : Node) :
    nodesIn (ts ++ [t]) (ns ++ [n]) = nodesIn ts ns ++ t.nodes n := by
  induction ts generalizing ns with
  | nil =>
    cases ns with
    | nil => simp [nodesIn]
    | cons => exact absurd h id
  | cons s ts ih =>
    cases ns with
    | nil => exact absurd h id
    | cons m ns =>
      obtain ⟨-, -, -, hrest⟩ := h
      rw [List.cons_append, List.cons_append, nodesIn, nodesIn, ih hrest, List.append_assoc]

end Represented

theorem Delivery.Below.mem_nodes {d : Delivery} {cs : List OpenCall} {ns : List Node}
    (h : d.Below cs ns) : ∀ q ∈ keptNodes cs ns, q.1 ∈ d.calls.spans → q ∈ d.nodes := by
  induction h with
  | nil => simp [keptNodes]
  | cons hc _ ih =>
    intro q hq hx
    rw [keptNodes_cons] at hq
    rcases List.mem_append.mp hq with hq | hq
    · exact WholeIn.mem_nodesIn _ hc q hq hx
    · exact ih q hq hx

/-- The nodes of closed calls that the assembler still has before event `k`. -/
def stored (ms : List Moment) (k : Nat) (a : Assembler) : List (Span × Node) :=
  keptNodes (register (ms.take k)).calls a.openCalls

theorem Delivery.Formed.unique {ms : List Moment} {j : Nat} {d : Delivery} (h : d.Formed ms j)
    {q q' : Span × Node} (hq : q ∈ d.nodes) (hq' : q' ∈ d.nodes) (hsame : q.1 = q'.1) : q = q' :=
  List.inj_on_of_nodup_map (h.calls ▸ h.apart) hq hq' hsame

theorem Delivery.Formed.mem_spans {ms : List Moment} {j : Nat} {d : Delivery} (h : d.Formed ms j)
    {q : Span × Node} (hq : q ∈ d.nodes) : q.1 ∈ d.calls.spans :=
  h.calls ▸ List.mem_map_of_mem hq

structure Frozen (ms : List Moment) (k : Nat) (a : Assembler) : Prop where
  recorded : List.Forall₂ (Represents ms (Records ms)) (register (ms.take k)).calls a.openCalls
  nodes : (stored ms k a).map (·.2) =
    a.openCalls.flatMap fun n => (Node.preorders [] 0 n.children).map (·.2)
  apart : ((stored ms k a).map (·.1)).Nodup
  formed : ∀ j < k, ∀ d, delivery? ms j = some d → d.Formed ms j
  /-- What is still kept of a delivered tree is as it was delivered. -/
  kept : ∀ j < k, ∀ d, delivery? ms j = some d → ∀ q ∈ d.nodes, ∀ q' ∈ stored ms k a,
    q.1 = q'.1 → q = q'
  /-- So is what went into a tree that was delivered later. -/
  passed : ∀ i < k, ∀ j < i, ∀ d d', delivery? ms j = some d → delivery? ms i = some d' →
    ∀ q ∈ d.nodes, ∀ q' ∈ d'.nodes, q.1 = q'.1 → q = q'

section Runs

variable {capacity : Nat} {os : List Occurrence} {j k : Nat}

theorem stored_apart (capacity : Nat) (os : List Occurrence) (hk : k ≤ os.length) :
    ((stored ((new capacity).trail os) k ((new capacity).after (os.take k))).map (·.1)).Nodup ∧
    ∀ q ∈ stored ((new capacity).trail os) k ((new capacity).after (os.take k)),
      q.1.closed < k := by
  obtain ⟨hnodup, hclosed⟩ := apart_register ((new capacity).trail os) k
  rw [← keptNodes_calls (agrees_of_trail capacity os (justifies_true _) hk).calls] at hnodup hclosed
  exact ⟨hnodup, fun q hq => hclosed q.1 (List.mem_map_of_mem hq)⟩

theorem kept_of_delivery {d : Delivery} (hd : delivery? ((new capacity).trail os) j = some d)
    (hjk : j < k) (hk : k ≤ os.length) : ∀ q ∈ d.nodes,
      ∀ q' ∈ stored ((new capacity).trail os) k ((new capacity).after (os.take k)),
        q.1 = q'.1 → q = q' := by
  intro q hq q' hq' hsame
  have hformed := formed_of_delivery hd
  have hx : q'.1 ∈ d.calls.spans := hsame ▸ hformed.mem_spans hq
  exact hformed.unique hq ((Delivery.below_of_trail hd hjk hk).mem_nodes q' hq' hx) hsame

theorem mem_nodes_of_delivery {i : Nat} {d : Delivery}
    (hd : delivery? ((new capacity).trail os) i = some d) {q : Span × Node} (hq : q ∈ d.nodes) :
    (q.1.closed = i ∧ ∃ m, ((new capacity).trail os)[i]? = some m ∧ q.2 = m.settled.node) ∨
      q ∈ stored ((new capacity).trail os) i ((new capacity).after (os.take i)) := by
  obtain ⟨m, c, cs, hm, ht, hcs, hcalls⟩ := delivery_eq hd
  have hsound := sound_of_trail hm
  obtain ⟨hk, -⟩ := Moment.submitted_spec hsound ht
  obtain ⟨hnode, -⟩ := Moment.tree_spec hsound ht
  rw [Delivery.nodes, hcalls, SpanTree.nodes] at hq
  rcases List.mem_cons.mp hq with rfl | hq
  · exact .inl ⟨rfl, m, hm, hnode.symm⟩
  · right
    rw [stored, hcs, ← (before_of_trail hm).2, (Moment.closes_spec hsound hk).before,
      keptNodes_cons]
    rw [← hnode, settled_children] at hq
    exact List.mem_append_left _ hq

theorem passed_of_delivery {i : Nat} {d d' : Delivery} (hji : j < i)
    (hd : delivery? ((new capacity).trail os) j = some d)
    (hd' : delivery? ((new capacity).trail os) i = some d') :
    ∀ q ∈ d.nodes, ∀ q' ∈ d'.nodes, q.1 = q'.1 → q = q' := by
  intro q hq q' hq' hsame
  have hformed := formed_of_delivery hd
  rcases mem_nodes_of_delivery hd' hq' with ⟨hroot, -⟩ | hstored
  · have hclosed := (hformed.closed _ (hformed.mem_spans hq)).2
    rw [hsame] at hclosed
    omega
  · obtain ⟨m, _, _, hm, -⟩ := delivery_eq hd'
    exact kept_of_delivery hd hji (Nat.le_of_lt (before_of_trail hm).1) q hq q' hstored hsame

theorem frozen_of_trail (capacity : Nat) (os : List Occurrence) (hk : k ≤ os.length) :
    Frozen ((new capacity).trail os) k ((new capacity).after (os.take k)) := by
  have hrecorded := (agrees_of_trail capacity os (justifies_records capacity os) hk).calls
  exact ⟨hrecorded, keptNodes_nodes hrecorded, (stored_apart capacity os hk).1,
    fun j _ d => formed_of_delivery, fun j hj d hd => kept_of_delivery hd hj hk,
    fun i _ j hj d d' => passed_of_delivery hj⟩

end Runs

/-! ### What an event changes -/

/-- The nodes that a closing call passes on to its parent, each with its call. -/
def Moment.passed (k : Nat) (m : Moment) (c : OpenCall) : List (Span × Node) :=
  match m.fate with
  | .attach => (SpanTree.node ⟨c.entered, k⟩ ⟨c.entered, k⟩ c.kept).nodes m.settled.node
  | .elide child => SpanTree.nodesIn c.kept [promote m.env.held m.settled.node child]
  | _ => []

section Closes

variable {capacity : Nat} {os : List Occurrence} {k : Nat} {m : Moment}

theorem nodesIn_keep {R : Span → Span → Frame → Prop} {ms : List Moment} {c p : OpenCall} {q : Node}
    (hc : SpanTree.DepictAll R ms c.entered c.kept m.innermost.children)
    (hp : SpanTree.DepictAll R ms p.entered p.kept q.children) :
    SpanTree.nodesIn (c.keep k m.fate p).kept (m.parent q).children =
      SpanTree.nodesIn p.kept q.children ++ m.passed k c := by
  rw [Moment.parent_eq, Moment.passed]
  cases hf : m.fate with
  | attach => exact hp.nodesIn_concat _ _
  | elide child =>
    rw [← closing_children, fateOf_elide hf] at hc
    obtain ⟨⟨own, outer, inner⟩, hkept, -⟩ := hc.singleton
    simp only [OpenCall.keep, hkept, SpanTree.nodesIn, List.append_nil]
    exact hp.nodesIn_concat _ _
  | _ => simp only [OpenCall.keep, Assembler.keep, List.append_nil]; rfl

theorem stored_of_closes (hm : ((new capacity).trail os)[k]? = some m) (hk : m.kind = .closes) :
    ∃ c cs, (register (((new capacity).trail os).take k)).calls = c :: cs ∧
      SpanTree.DepictAll (fun _ _ _ => True) ((new capacity).trail os) c.entered c.kept
        m.innermost.children ∧
      stored ((new capacity).trail os) k m.before =
        SpanTree.nodesIn c.kept m.innermost.children ++ keptNodes cs m.outer ∧
      (stored ((new capacity).trail os) (k + 1) m.after).Perm
        (m.passed k c ++ keptNodes cs m.outer) := by
  obtain ⟨c, cs, hcs, -, hc, houter⟩ := closing_call (justifies_true _) hm hk
  have hcloses := Moment.closes_spec (sound_of_trail hm) hk
  refine ⟨c, cs, hcs, hc.children, by rw [stored, hcs, hcloses.before, keptNodes_cons], ?_⟩
  have hrest := allTouched_represents houter m.around_touched
  have hempty : m.around = [] → m.passed k c = [] := by
    intro hnil
    rcases Moment.fate_of_alone hnil with hf | hf <;> simp [Moment.passed, hf]
  rw [← keptNodes_alike m.around_touched.alike, stored, register_succ hm, hcloses.after]
  simp only [Register.next, hk, hcs]
  generalize m.around = around at hrest hempty ⊢
  cases hrest with
  | nil =>
    rw [hempty rfl]
    rfl
  | cons hp hrest =>
    rw [List.modifyHead_cons, List.modifyHead_cons, keptNodes_cons, keptNodes_cons,
      nodesIn_keep hc.children hp.children, ← List.append_assoc]
    exact List.perm_append_comm.append_right _

end Closes

/-- An open call is in no delivered tree, and of its children only traces can be. -/
structure Node.Unshared (n : Node) : Prop where
  handle : n.handle = none
  children : ∀ child ∈ n.children, child.handle.isSome → child.isTraceRoot

theorem Node.Unshared.alike {ns ns' : List Node} (h : ∀ n ∈ ns, n.Unshared)
    (halike : List.Forall₂ Node.Alike ns ns') : ∀ n ∈ ns', n.Unshared := by
  induction halike with
  | nil => exact h
  | @cons n n' ns ns' hn _ ih =>
    obtain ⟨hhead, htail⟩ := List.forall_mem_cons.mp h
    refine List.forall_mem_cons.mpr ⟨⟨hn.handle.trans hhead.handle, ?_⟩, ih htail⟩
    rw [hn.children]
    exact hhead.children

theorem settle_unshared {env : Surroundings} {n : Node} (h : n.handle = none) (outer : List Node) :
    (settle env n outer).node.handle.isSome → (settle env n outer).node.isTraceRoot := by
  unfold settle
  cases n.frame.marker with
  | none => simp [h]
  | some marker =>
    dsimp only
    split
    · exact fun _ => rfl
    · exact fun _ => rfl

theorem promote_unshared {m : Moment} (h : m.innermost.Unshared) {child : Node}
    (hf : m.fate = .elide child) : m.innermost.children = [child] ∧ child.handle = none ∧
      ∀ held, promote held m.settled.node child = child.mapFrame fun f =>
        (f.countsFrom m.closing.frame).mark (.single .droppedParent) := by
  obtain ⟨-, flags, hsub⟩ := substitute_of_elide hf
  obtain ⟨honly, hplain⟩ := substitute_spec hsub
  rw [closing_children] at honly
  have hhandle : child.handle = none := by
    by_contra hne
    have hroot := h.children child (by simp [honly]) (Option.isSome_iff_ne_none.mpr hne)
    rw [hplain] at hroot
    cases hroot
  refine ⟨honly, hhandle, fun held => ?_⟩
  simp [promote, Pool.isHeld, hhandle, Node.mapFrame, countsFrom_settled]

theorem Node.Unshared.keep {m : Moment} (h : m.innermost.Unshared) {q : Node} (hq : q.Unshared) :
    (m.parent q).Unshared := by
  rw [Moment.parent_eq]
  cases hf : m.fate with
  | attach =>
    refine ⟨hq.handle, fun child hchild => ?_⟩
    rcases List.mem_append.mp hchild with hchild | hchild
    · exact hq.children child hchild
    · rw [List.mem_singleton.mp hchild]
      obtain ⟨error, flags, heq, -⟩ := finish_eq m.event.time m.event.error? m.innermost
      exact settle_unshared (by rw [Moment.closing, heq]; exact h.handle) m.outer
  | elide child =>
    obtain ⟨-, hhandle, hpromote⟩ := promote_unshared h hf
    refine ⟨hq.handle, fun n hn => ?_⟩
    rcases List.mem_append.mp hn with hn | hn
    · exact hq.children n hn
    · rw [List.mem_singleton.mp hn, hpromote, Node.mapFrame, hhandle]
      simp
  | _ => exact ⟨hq.handle, hq.children⟩

theorem Moment.unshared {m : Moment} (hsound : m.before.Sound)
    (h : ∀ n ∈ m.before.openCalls, n.Unshared) : ∀ n ∈ m.after.openCalls, n.Unshared := by
  cases hk : m.kind with
  | enters =>
    obtain ⟨_, _, _, _, -, hentered⟩ := Moment.enters_spec hsound hk
    rw [hentered.openCalls]
    exact List.forall_mem_cons.mpr ⟨⟨rfl, by simp⟩, h⟩
  | closes =>
    have hcloses := Moment.closes_spec hsound hk
    rw [hcloses.before] at h
    obtain ⟨hinner, houter⟩ := List.forall_mem_cons.mp h
    have haround := Node.Unshared.alike houter m.around_touched.alike
    rw [hcloses.after]
    generalize m.around = around at haround
    cases around with
    | nil => exact haround
    | cons q qs =>
      obtain ⟨hq, hqs⟩ := List.forall_mem_cons.mp haround
      exact List.forall_mem_cons.mpr ⟨hinner.keep hq, hqs⟩
  | begins =>
    obtain ⟨traceId, clock, flags, -, -, hafter⟩ := Moment.begins_spec hk
    rw [hafter]
    exact Node.Unshared.alike h (opened_alike _ _ _ _ _)
  | other => exact Node.Unshared.alike h (Moment.other_spec hk).touches.openCalls.alike

theorem unshared_of_trail {capacity : Nat} {os : List Occurrence} {k : Nat} {m : Moment}
    (hm : ((new capacity).trail os)[k]? = some m) : ∀ n ∈ m.before.openCalls, n.Unshared := by
  obtain ⟨hk, hbefore⟩ := before_of_trail hm
  rw [hbefore]
  exact trail_induction capacity os (P := fun _ a => ∀ n ∈ a.openCalls, n.Unshared)
    (by simp [openCalls_new]) (fun _ m _ hsound h => m.unshared hsound h) (Nat.le_of_lt hk)

/-- The closed node `q` takes the place of its parent, as `q'`. -/
structure Moment.Promotes (ms : List Moment) (k : Nat) (m : Moment) (q q' : Span × Node) :
    Prop where
  closes : m.kind = .closes
  fate : m.fate = .elide q.2
  same : q'.1 = q.1
  /-- Nobody but the closing call has it. -/
  only : m.innermost.children = [q.2]
  handle : q.2.handle = none
  apart : ∀ j < k, ∀ d, delivery? ms j = some d → q.1 ∉ d.calls.spans
  /-- It is changed where it is, whatever is held. -/
  inPlace : ∀ held, promote held m.settled.node q.2 = q'.2
  changed : q'.2 = q.2.mapFrame fun f =>
    (f.countsFrom m.closing.frame).mark (.single .droppedParent)

structure Moment.Spares (ms : List Moment) (k : Nat) (m : Moment) : Prop where
  changed : ∀ q ∈ stored ms k m.before, ∀ q' ∈ stored ms (k + 1) m.after, q.1 = q'.1 →
    q' = q ∨ m.Promotes ms k q q'
  promoted : m.kind = .closes → ∀ child, m.fate = .elide child →
    ∃ q ∈ stored ms k m.before, ∃ q' ∈ stored ms (k + 1) m.after,
      q.2 = child ∧ m.Promotes ms k q q'
  /-- A tree is left to the sinks, or its parent gets the very same tree as well. -/
  delivered : ∀ tree, m.tree? = some tree →
    (∃ calls, delivery? ms k = some ⟨calls, tree⟩) ∧ tree.handle = some m.env.handle ∧
      (m.fate = .leave ∨ m.fate = .attach ∧
        ∃ p rest, m.after.openCalls = p :: rest ∧ p.lastChild? = some tree)
  /-- A vacant slot holds the node of no call. -/
  vacated : ∀ n ∈ m.vacated, n.isBusy = false ∧ n.handle = none ∧ n.children = []
  /-- The pool is given the vacant slot and the recycled nodes, and nothing else. -/
  pool : let p := (m.vacated ++ (m.recycled ms k).map (·.2)).foldl Pool.put m.before.pool
    m.after.pool = p ∨ m.after.pool = p.acquire.2
  recycled : ∀ j ≤ k, ∀ d, delivery? ms j = some d → Pool.isHeld m.env.held d.tree →
    ∀ q ∈ m.recycled ms k, q.1 ∉ d.calls.spans

section Moments

variable {capacity : Nat} {os : List Occurrence} {k : Nat} {m : Moment}

theorem stored_of_open (hm : ((new capacity).trail os)[k]? = some m) (hk : m.kind ≠ .closes) :
    stored ((new capacity).trail os) (k + 1) m.after =
      stored ((new capacity).trail os) k m.before := by
  have hsound := sound_of_trail hm
  rw [stored, stored, register_succ hm]
  generalize register (((new capacity).trail os).take k) = r
  cases hkind : m.kind with
  | enters =>
    obtain ⟨_, _, _, _, -, hentered⟩ := Moment.enters_spec hsound hkind
    simp only [Register.next, hkind]
    rw [hentered.openCalls]
    rfl
  | closes => exact absurd hkind hk
  | begins =>
    obtain ⟨traceId, clock, flags, -, -, hafter⟩ := Moment.begins_spec hkind
    have hcalls : keptNodes (r.next m k).calls m.before.openCalls =
        keptNodes r.calls m.before.openCalls := by
      simp only [Register.next, hkind]
      split
      · cases r.calls <;> cases m.before.openCalls <;> rfl
      · rfl
    rw [hafter, keptNodes_alike (opened_alike _ _ _ _ _), hcalls]
  | other =>
    simp only [Register.next, hkind]
    exact keptNodes_alike (Moment.other_spec hkind).touches.openCalls.alike _

theorem promotes_of_elide (hm : ((new capacity).trail os)[k]? = some m) (hk : m.kind = .closes)
    {child : Node} (hf : m.fate = .elide child) {c : OpenCall} {cs : List OpenCall}
    (hcs : (register (((new capacity).trail os).take k)).calls = c :: cs)
    (hkept : SpanTree.DepictAll (fun _ _ _ => True) ((new capacity).trail os) c.entered c.kept
      m.innermost.children) :
    ∃ own outer inner, c.kept = [.node own outer inner] ∧
      m.Promotes ((new capacity).trail os) k (own, child)
        (own, promote m.env.held m.settled.node child) := by
  obtain ⟨hlen, hstate⟩ := before_of_trail hm
  have hopen := (Moment.closes_spec (sound_of_trail hm) hk).before
  have hinner : m.innermost.Unshared := unshared_of_trail hm _ (by simp [hopen])
  obtain ⟨honly, hhandle, hpromote⟩ := promote_unshared hinner hf
  rw [honly] at hkept
  obtain ⟨⟨own, outer, inner⟩, htree, -⟩ := hkept.singleton
  refine ⟨own, outer, inner, htree, hk, hf, rfl, honly, hhandle, fun j hj d hd => ?_,
    fun held => (hpromote held).trans (hpromote m.env.held).symm, hpromote _⟩
  obtain ⟨m', _, _, hm', ht, -⟩ := delivery_eq hd
  obtain ⟨-, -, hroot⟩ := Moment.tree_spec (sound_of_trail hm') ht
  have hbelow := Delivery.below_of_trail hd hj (Nat.le_of_lt hlen)
  rw [hcs, ← hstate, hopen] at hbelow
  obtain ⟨own', outer', inner', htree', hown, -⟩ :=
    (List.forall₂_cons.mp hbelow).1.of_elide hroot hf
  rw [htree] at htree'
  cases htree'
  exact hown

theorem changed_of_moment (hm : ((new capacity).trail os)[k]? = some m) :
    ∀ q ∈ stored ((new capacity).trail os) k m.before,
      ∀ q' ∈ stored ((new capacity).trail os) (k + 1) m.after, q.1 = q'.1 →
        q' = q ∨ m.Promotes ((new capacity).trail os) k q q' := by
  intro q hq q' hq' hsame
  obtain ⟨hlen, hstate⟩ := before_of_trail hm
  obtain ⟨hapart, hclosed⟩ := stored_apart capacity os (Nat.le_of_lt hlen)
  rw [← hstate] at hapart hclosed
  have hold (h : q' ∈ stored ((new capacity).trail os) k m.before) : q' = q :=
    List.inj_on_of_nodup_map hapart h hq hsame.symm
  by_cases hk : m.kind = .closes
  · obtain ⟨c, cs, hcs, hkept, hbefore, hafter⟩ := stored_of_closes hm hk
    have hbelow (h : q' ∈ SpanTree.nodesIn c.kept m.innermost.children) : q' = q :=
      hold (hbefore ▸ List.mem_append_left _ h)
    rcases List.mem_append.mp (hafter.subset hq') with hpassed | hother
    · rw [Moment.passed] at hpassed
      cases hf : m.fate with
      | attach =>
        rw [hf, SpanTree.nodes, settled_children] at hpassed
        rcases List.mem_cons.mp hpassed with rfl | hinner
        · have hlt := hclosed q hq
          rw [hsame] at hlt
          exact absurd hlt (Nat.lt_irrefl k)
        · exact .inl (hbelow hinner)
      | elide child =>
        obtain ⟨own, outer, inner, htree, hpromotes⟩ := promotes_of_elide hm hk hf hcs hkept
        rw [htree, hpromotes.only] at hbelow hbefore
        simp only [hf, htree, SpanTree.nodesIn, SpanTree.nodes, promote_children] at hpassed
        rcases List.mem_cons.mp hpassed with rfl | hinner
        · have hchild : q = (own, child) :=
            List.inj_on_of_nodup_map hapart hq
              (hbefore ▸ List.mem_append_left _ List.mem_cons_self) hsame
          exact .inr (hchild ▸ hpromotes)
        · exact .inl (hbelow (List.mem_cons_of_mem _ hinner))
      | _ => simp [hf] at hpassed
    · exact .inl (hold (hbefore ▸ List.mem_append_right _ hother))
  · rw [stored_of_open hm hk] at hq'
    exact .inl (hold hq')

theorem promoted_of_moment (hm : ((new capacity).trail os)[k]? = some m) (hk : m.kind = .closes)
    {child : Node} (hf : m.fate = .elide child) :
    ∃ q ∈ stored ((new capacity).trail os) k m.before,
      ∃ q' ∈ stored ((new capacity).trail os) (k + 1) m.after,
        q.2 = child ∧ m.Promotes ((new capacity).trail os) k q q' := by
  obtain ⟨c, cs, hcs, hkept, hbefore, hafter⟩ := stored_of_closes hm hk
  obtain ⟨own, outer, inner, htree, hpromotes⟩ := promotes_of_elide hm hk hf hcs hkept
  rw [htree, hpromotes.only] at hbefore
  refine ⟨(own, child), ?_, _, hafter.symm.subset (List.mem_append_left _ ?_), rfl, hpromotes⟩
  · rw [hbefore]
    exact List.mem_append_left _ List.mem_cons_self
  · rw [Moment.passed, hf, htree]
    exact List.mem_cons_self

theorem delivered_of_moment (hm : ((new capacity).trail os)[k]? = some m) {tree : Node}
    (ht : m.tree? = some tree) :
    (∃ calls, delivery? ((new capacity).trail os) k = some ⟨calls, tree⟩) ∧
      tree.handle = some m.env.handle ∧ (m.fate = .leave ∨ m.fate = .attach ∧
        ∃ p rest, m.after.openCalls = p :: rest ∧ p.lastChild? = some tree) := by
  have hsound := sound_of_trail hm
  obtain ⟨hnode, hsubmitted, -⟩ := Moment.tree_spec hsound ht
  obtain ⟨hk, -⟩ := Moment.submitted_spec hsound ht
  refine ⟨delivery_of_tree hm ht, Moment.handle_of_tree ht, ?_⟩
  rcases fateOf_submitted hsubmitted with hf | hf
  · exact .inl hf
  · right
    have hfate : m.fate = .attach := hf
    rw [(Moment.closes_spec hsound hk).after]
    cases haround : m.around with
    | nil =>
      have halone := Moment.fate_of_alone haround
      rw [hfate] at halone
      simp at halone
    | cons q qs =>
      refine ⟨hfate, m.parent q, qs, rfl, ?_⟩
      rw [Moment.parent_eq, hfate, Node.lastChild?]
      simp [Assembler.keep, Node.addChild, hnode]

theorem spares_of_moment (hm : ((new capacity).trail os)[k]? = some m) :
    m.Spares ((new capacity).trail os) k where
  changed := changed_of_moment hm
  promoted hk _ hf := promoted_of_moment hm hk hf
  delivered _ ht := delivered_of_moment hm ht
  vacated := Moment.vacated_spec (sound_of_trail hm)
  pool := Moment.pool_of_moment hm
  recycled _ hjk _ hd hheld := Moment.recycled_of_held hm hjk hd hheld

end Moments

end CallTree
