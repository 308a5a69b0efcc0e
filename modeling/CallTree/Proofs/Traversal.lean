import CallTree.Node

/-!
The nodes of a tree, parents first: how many there are, where they are, and what holds of each.
-/
namespace CallTree.Node

mutual

theorem length_preorder (path : List Nat) : (n : Node) → (n.preorder path).length = n.size
  | ⟨_, _, children⟩ => by
    rw [preorder, size, List.length_cons, length_preorders path 0 children, Nat.add_comm]

theorem length_preorders (path : List Nat) (i : Nat) :
    (ns : List Node) → (preorders path i ns).length = sizes ns
  | [] => rfl
  | n :: ns => by
    rw [preorders, sizes, List.length_append, length_preorder _ n, length_preorders path _ ns]

end

mutual

theorem preorder_append (above path : List Nat) :
    (n : Node) → n.preorder (above ++ path) = (n.preorder path).map fun q => (above ++ q.1, q.2)
  | ⟨_, _, children⟩ => by
    rw [preorder, preorder, List.map_cons, preorders_append above path 0 children]

theorem preorders_append (above path : List Nat) (i : Nat) : (ns : List Node) →
    preorders (above ++ path) i ns = (preorders path i ns).map fun q => (above ++ q.1, q.2)
  | [] => rfl
  | n :: ns => by
    rw [preorders, preorders, List.map_append, List.append_assoc, preorder_append above _ n,
      preorders_append above path _ ns]

end

theorem preorder_eq (n : Node) (path : List Nat) :
    n.preorder path = (path, n) :: preorders path 0 n.children := by
  cases n
  rw [preorder]

theorem mem_preorders_iff {ns : List Node} {i : Nat} {q : List Nat × Node} :
    q ∈ preorders [] i ns ↔ ∃ k child place, ns[k]? = some child ∧
      (place, q.2) ∈ child.preorder [] ∧ q.1 = (i + k) :: place := by
  induction ns generalizing i with
  | nil => simp [preorders]
  | cons n ns ih =>
    have hn : q ∈ n.preorder ([] ++ [i]) ↔
        ∃ place, (place, q.2) ∈ n.preorder [] ∧ q.1 = i :: place := by
      rw [List.nil_append, ← List.append_nil [i], preorder_append, List.mem_map]
      constructor
      · rintro ⟨⟨place, m⟩, hm, rfl⟩
        exact ⟨place, hm, rfl⟩
      · rintro ⟨place, hm, hq⟩
        exact ⟨(place, q.2), hm, Prod.ext hq.symm rfl⟩
    rw [preorders, List.mem_append, hn, ih]
    constructor
    · rintro (⟨place, hm, hq⟩ | ⟨k, child, place, hk, hm, hq⟩)
      · exact ⟨0, n, place, rfl, hm, hq⟩
      · exact ⟨k + 1, child, place, hk, hm, by rw [hq]; congr 1; omega⟩
    · rintro ⟨k, child, place, hk, hm, hq⟩
      cases k with
      | zero =>
        obtain rfl : n = child := by simpa using hk
        exact .inl ⟨place, hm, hq⟩
      | succ k => exact .inr ⟨k, child, place, hk, hm, by rw [hq]; congr 1; omega⟩

/-! ### The trees in a tree -/

/-- The trees that stand in a tree, the whole one among them. -/
def parts (n : Node) : List Node := (n.preorder []).map (·.2)

section Parts

variable {n m : Node}

theorem mem_parts_iff : m ∈ n.parts ↔ m = n ∨ ∃ child ∈ n.children, m ∈ child.parts := by
  simp only [parts, preorder_eq n, List.map_cons, List.mem_cons, List.mem_map]
  refine or_congr_right ⟨?_, ?_⟩
  · rintro ⟨q, hq, rfl⟩
    obtain ⟨k, child, place, hk, hm, -⟩ := mem_preorders_iff.mp hq
    exact ⟨child, List.mem_of_getElem? hk, (place, q.2), hm, rfl⟩
  · rintro ⟨child, hchild, q, hq, rfl⟩
    obtain ⟨k, hk⟩ := List.getElem?_of_mem hchild
    exact ⟨((0 + k) :: q.1, q.2), mem_preorders_iff.mpr ⟨k, child, q.1, hk, hq, rfl⟩, rfl⟩

theorem self_mem_parts : n ∈ n.parts := mem_parts_iff.mpr (.inl rfl)

theorem size_le_sizes {child : Node} {ns : List Node} (h : child ∈ ns) : child.size ≤ sizes ns := by
  induction ns with
  | nil => cases h
  | cons n ns ih =>
    rw [sizes]
    rcases List.mem_cons.mp h with rfl | h
    · omega
    · have := ih h
      omega

theorem size_lt_of_mem_children {child : Node} (h : child ∈ n.children) : child.size < n.size := by
  have hn : n.size = 1 + sizes n.children := by
    cases n
    rw [size]
  have := size_le_sizes h
  omega

@[elab_as_elim]
theorem ofChildren {P : Node → Prop} (step : ∀ n, (∀ child ∈ n.children, P child) → P n)
    (n : Node) : P n :=
  step n fun child hchild =>
    have := size_lt_of_mem_children hchild
    ofChildren step child
termination_by n.size

theorem mem_parts_trans {s : Node} (hm : m ∈ n.parts) (hs : s ∈ m.parts) : s ∈ n.parts := by
  induction n using ofChildren with
  | step n ih =>
    rcases mem_parts_iff.mp hm with rfl | ⟨child, hchild, hm⟩
    · exact hs
    · exact mem_parts_iff.mpr (.inr ⟨child, hchild, ih child hchild hm⟩)

theorem size_le_of_mem_parts (h : m ∈ n.parts) : m.size ≤ n.size := by
  induction n using ofChildren with
  | step n ih =>
    rcases mem_parts_iff.mp h with rfl | ⟨child, hchild, h⟩
    · exact Nat.le_refl _
    · exact Nat.le_trans (ih child hchild h) (Nat.le_of_lt (size_lt_of_mem_children hchild))

end Parts

def Everywhere (P : Frame → Prop) (n : Node) : Prop := ∀ q ∈ n.preorder [], P q.2.frame

theorem everywhere_iff {P : Frame → Prop} {n : Node} :
    n.Everywhere P ↔ P n.frame ∧ ∀ child ∈ n.children, child.Everywhere P := by
  have hparts (n : Node) : n.Everywhere P ↔ ∀ m ∈ n.parts, P m.frame := by
    rw [Everywhere, parts, List.forall_mem_map]
  simp only [hparts]
  constructor
  · exact fun h => ⟨h n self_mem_parts, fun child hchild m hm =>
      h m (mem_parts_iff.mpr (.inr ⟨child, hchild, hm⟩))⟩
  · rintro ⟨hn, hchildren⟩ m hm
    rcases mem_parts_iff.mp hm with rfl | ⟨child, hchild, hm⟩
    · exact hn
    · exact hchildren child hchild m hm

end CallTree.Node
