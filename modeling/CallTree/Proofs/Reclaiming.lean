import CallTree.Pool
import CallTree.Proofs.Traversal
import Mathlib.Data.List.Flatten
import Mathlib.Logic.Function.Iterate

/-!
What a discarded tree gives back to the pool: its nodes down to the trees that somebody holds. A
loop over a list of trees that are yet to be taken apart gives back the same nodes.
-/
namespace CallTree

namespace Pool

variable {p : Pool} {held : Nat → Bool}

theorem isHeld_iff {n : Node} : isHeld held n ↔ ∃ g, n.handle = some g ∧ held g := by
  simp [isHeld, Option.any_eq_true]

/-- Takes back some nodes. They are counted, and kept as far as there is room. -/
def takeBack (p : Pool) (k : Nat) : Pool :=
  let kept := if p.enabled then min k (p.capacity - p.available) else 0
  { p with released := p.released + k, idle := List.replicate kept {} ++ p.idle }

theorem takeBack_zero : p.takeBack 0 = p := by
  simp [takeBack]

theorem takeBack_add (j k : Nat) : (p.takeBack j).takeBack k = p.takeBack (j + k) := by
  have hroom : (if p.enabled then min k (p.capacity - (p.takeBack j).available) else 0) +
      (if p.enabled then min j (p.capacity - p.available) else 0) =
      if p.enabled then min (j + k) (p.capacity - p.available) else 0 := by
    simp only [takeBack, available, List.length_append, List.length_replicate]
    split <;> omega
  simp only [takeBack, Nat.add_assoc, Pool.mk.injEq, true_and]
  rw [← List.append_assoc, List.replicate_append_replicate]
  refine ⟨congrArg (List.replicate · ({} : Node) ++ p.idle) hroom, trivial⟩

theorem put_eq (n : Node) : p.put n = p.takeBack 1 := by
  have hcond : (p.enabled && decide (p.available < p.capacity)) = true ↔
      p.enabled ∧ p.available < p.capacity := by
    rw [Bool.and_eq_true, decide_eq_true_eq]
  by_cases hroom : p.enabled ∧ p.available < p.capacity
  · have hkept : (if p.enabled then min 1 (p.capacity - p.available) else 0) = 1 := by
      rw [if_pos hroom.1]
      omega
    rw [takeBack, hkept]
    exact if_pos (hcond.mpr hroom)
  · have hkept : (if p.enabled then min 1 (p.capacity - p.available) else 0) = 0 := by
      split
      case isTrue hon =>
        have hfull : ¬ p.available < p.capacity := fun hlt => hroom ⟨hon, hlt⟩
        omega
      case isFalse => rfl
    rw [takeBack, hkept]
    exact if_neg (hcond.not.mpr hroom)

theorem foldl_put (ns : List Node) : ns.foldl put p = p.takeBack ns.length := by
  induction ns generalizing p with
  | nil => exact takeBack_zero.symm
  | cons n ns ih => rw [List.foldl_cons, ih, put_eq, takeBack_add, List.length_cons, Nat.add_comm 1]

end Pool

namespace Node

variable (held : Nat → Bool)

/-- Whether the way down from a node leads to a tree that somebody holds, or into one. -/
def isCutOff : Node → List Nat → Bool
  | _, [] => false
  | n, i :: path => n.children[i]?.any fun child => Pool.isHeld held child || isCutOff child path

/-- The nodes that are reached without a held tree on the way, each with its place. -/
def unheld (n : Node) : List (List Nat × Node) :=
  (n.preorder []).filter fun q => !n.isCutOff held q.1

def loose (n : Node) : List Node := (n.unheld held).map (·.2)

def freeChildren (n : Node) : List Node := n.children.filter (!Pool.isHeld held ·)

variable {held}

theorem isCutOff_cons {n child : Node} {i : Nat} (h : n.children[i]? = some child)
    (path : List Nat) :
    n.isCutOff held (i :: path) = (Pool.isHeld held child || child.isCutOff held path) := by
  rw [isCutOff, h]
  rfl

theorem loose_children (n : Node) (i : Nat) (ns : List Node) (h : n.children.drop i = ns) :
    ((preorders [] i ns).filter fun q => !n.isCutOff held q.1).map (·.2) =
      (ns.filter (!Pool.isHeld held ·)).flatMap (loose held) := by
  induction ns generalizing i with
  | nil => rfl
  | cons child ns ih =>
    have hchild : n.children[i]? = some child := by
      rw [← List.head?_drop, h]
      rfl
    have hrest : n.children.drop (i + 1) = ns := by
      rw [← List.tail_drop, h]
      rfl
    have hplaces : child.preorder ([] ++ [i]) = (child.preorder []).map fun q => (i :: q.1, q.2) :=
      preorder_append [i] [] child
    have hcut := @isCutOff_cons held n child i hchild
    rw [preorders, List.filter_append, List.map_append, ih (i + 1) hrest, hplaces, List.filter_map,
      List.map_map]
    cases hheld : Pool.isHeld held child with
    | true => simp [Function.comp_def, hcut, hheld]
    | false => simp [Function.comp_def, hcut, hheld, loose, unheld]

theorem loose_eq (n : Node) :
    n.loose held = n :: (n.freeChildren held).flatMap (loose held) := by
  rw [loose, unheld, preorder_eq]
  exact congrArg (n :: ·) (loose_children n 0 n.children rfl)

end Node

namespace Pool

variable {held : Nat → Bool}

mutual

theorem release_loose (p : Pool) : (n : Node) → p.release held n = (n.loose held).foldl put p
  | ⟨handle, frame, children⟩ => by
    rw [release, Node.loose_eq, List.foldl_cons]
    exact reclaim_loose _ children

theorem reclaim_loose (p : Pool) : (ns : List Node) →
    p.reclaim held ns = ((ns.filter (!isHeld held ·)).flatMap (Node.loose held)).foldl put p
  | [] => rfl
  | n :: ns => by
    rw [reclaim]
    cases hheld : isHeld held n with
    | true =>
      rw [List.filter_cons_of_neg (by simp [hheld])]
      exact reclaim_loose p ns
    | false =>
      rw [List.filter_cons_of_pos (by simp [hheld]), List.flatMap_cons, List.foldl_append,
        if_neg Bool.false_ne_true, release_loose p n]
      exact reclaim_loose _ ns

end

theorem release_eq_takeBack (p : Pool) (n : Node) :
    p.release held n = p.takeBack (n.loose held).length := by
  rw [release_loose, foldl_put]

theorem cleanInPlace_eq_takeBack (p : Pool) (n : Node) :
    p.cleanInPlace held n = ({}, p.takeBack ((n.loose held).length - 1)) := by
  rw [cleanInPlace, reclaim_loose, foldl_put, Node.loose_eq, List.length_cons, Nat.add_sub_cancel]
  rfl

end Pool

/-! ### The loop that takes trees apart -/

structure Dismantling where
  pending : List Node
  taken : List Node := []
  pool : Pool

namespace Dismantling

variable (held : Nat → Bool)

def round (d : Dismantling) : Dismantling :=
  match d.pending with
  | [] => d
  | n :: pending =>
    { pending := (n.freeChildren held).reverse ++ pending
      taken := d.taken ++ [n]
      pool := d.pool.put n }

def rest (d : Dismantling) : List Node := d.pending.flatMap (Node.loose held)

/-- Some rounds have taken as many nodes apart, and no other nodes than were to be taken apart. -/
structure After (d : Dismantling) (k : Nat) (d' : Dismantling) : Prop where
  nodes : (d'.taken ++ d'.rest held).Perm (d.taken ++ d.rest held)
  left : (d'.rest held).length + k = (d.rest held).length
  pool : d'.pool = d.pool.takeBack k

variable {held}

theorem rest_eq_nil {d : Dismantling} : d.rest held = [] ↔ d.pending = [] := by
  rw [rest]
  cases d.pending with
  | nil => simp
  | cons n pending => simp [Node.loose_eq n]

theorem after_round {d : Dismantling} (h : d.pending ≠ []) : After held d 1 (d.round held) := by
  obtain ⟨pending, taken, pool⟩ := d
  cases pending with
  | nil => exact absurd rfl h
  | cons n pending =>
    have hrest : rest held ⟨n :: pending, taken, pool⟩ =
        n :: ((n.freeChildren held).flatMap (Node.loose held) ++
          pending.flatMap (Node.loose held)) := by
      rw [rest, List.flatMap_cons, Node.loose_eq, List.cons_append]
    have hperm : (rest held
        ⟨(n.freeChildren held).reverse ++ pending, taken ++ [n], pool.put n⟩).Perm
        ((n.freeChildren held).flatMap (Node.loose held) ++ pending.flatMap (Node.loose held)) := by
      rw [rest, List.flatMap_append]
      exact ((List.reverse_perm _).flatMap_right _).append_right _
    refine ⟨?_, ?_, Pool.put_eq n⟩
    · rw [hrest]
      exact (List.append_assoc taken [n] _ ▸ (hperm.append_left (taken ++ [n])))
    · rw [hrest, List.length_cons]
      exact congrArg (· + 1) hperm.length_eq

theorem after_rounds (d : Dismantling) {k : Nat} (hk : k ≤ (d.rest held).length) :
    After held d k ((round held)^[k] d) := by
  induction k with
  | zero => exact ⟨.refl _, rfl, Pool.takeBack_zero.symm⟩
  | succ k ih =>
    have before := ih (Nat.le_of_succ_le hk)
    have hpending : ((round held)^[k] d).pending ≠ [] := by
      intro hnil
      have hleft := before.left
      rw [rest_eq_nil.mpr hnil, List.length_nil] at hleft
      omega
    have last : After held _ 1 _ := after_round hpending
    rw [Function.iterate_succ_apply']
    refine ⟨last.nodes.trans before.nodes, ?_, ?_⟩
    · have := before.left
      have := last.left
      omega
    · rw [last.pool, before.pool, Pool.takeBack_add]

theorem rest_start (p : Pool) (n : Node) : rest held ⟨[n], [], p⟩ = n.loose held :=
  List.append_nil _

theorem after_start (p : Pool) (n : Node) {k : Nat} (hk : k ≤ (n.loose held).length) :
    After held ⟨[n], [], p⟩ k ((round held)^[k] ⟨[n], [], p⟩) :=
  after_rounds _ (by rwa [rest_start])

theorem takenApart (p : Pool) (n : Node) :
    ∃ taken, (round held)^[(n.loose held).length] ⟨[n], [], p⟩ = ⟨[], taken, p.release held n⟩ ∧
      taken.Perm (n.loose held) := by
  obtain ⟨hnodes, hleft, hpool⟩ := after_start p n (Nat.le_refl (n.loose held).length)
  generalize (round held)^[(n.loose held).length] ⟨[n], [], p⟩ = d at hnodes hleft hpool ⊢
  rw [rest_start] at hnodes hleft
  have hrest : d.rest held = [] := List.eq_nil_of_length_eq_zero (by omega)
  refine ⟨d.taken, ?_, by simpa [hrest] using hnodes⟩
  rw [Pool.release_eq_takeBack, ← hpool, ← rest_eq_nil.mp hrest]

theorem pending_ne_nil (p : Pool) (n : Node) {j : Nat} (hj : j < (n.loose held).length) :
    ((round held)^[j] ⟨[n], [], p⟩).pending ≠ [] := by
  intro hnil
  have hleft := (after_start p n (Nat.le_of_lt hj)).left
  rw [rest_eq_nil.mpr hnil, rest_start, List.length_nil] at hleft
  omega

end Dismantling

end CallTree
