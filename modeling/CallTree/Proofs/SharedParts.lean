import CallTree.Pool.Workspace
import CallTree.Proofs.Reclaiming
import Mathlib.Data.Finset.Card
import Mathlib.Data.List.Nodup

/-!
Trees in which shared trees stand at several places. Each node counts once, wherever it is reached
from: the tree with every shared tree at its first place only has a place for each of them.
-/
namespace CallTree

/-- Which node it is: the innermost shared tree that it stands in, unless it is none, and the way
down from there. -/
abbrev Locus := Option Nat × List Nat

def Locus.within (handle : Option Nat) (i : Nat) : Locus → Locus
  | (none, path) => (handle, i :: path)
  | (some g, path) => (some g, path)

namespace Node

def locus : Node → List Nat → Locus
  | n, [] => (n.handle, [])
  | n, i :: path =>
    match n.children[i]? with
    | none => (n.handle, i :: path)
    | some child => (locus child path).within n.handle i

/-- The nodes that are reached without a held tree on the way, wherever they are reached from. -/
def reached (held : Nat → Bool) (n : Node) : Finset Locus :=
  ((n.unheld held).map fun q => n.locus q.1).toFinset

/-- Among trees, a handle stands for one tree, and whoever holds a tree holds all that stands in
it. -/
structure Shares (held : Nat → Bool) (among : Node → Prop) : Prop where
  unique : ∀ s t, among s → among t → s.handle.isSome → s.handle = t.handle → s = t
  closed : ∀ t, among t → Pool.isHeld held t → ∀ g ∈ t.handles, held g

section Handles

variable {g : Nat}

mutual

theorem mem_handles_iff : (n : Node) → (g ∈ n.handles ↔ ∃ t ∈ n.parts, t.handle = some g)
  | ⟨handle, frame, children⟩ => by
    rw [handles, List.mem_append, mem_handlesIn_iff children]
    simp only [Option.mem_toList]
    constructor
    · rintro (h | ⟨child, hchild, t, ht, hg⟩)
      · exact ⟨_, self_mem_parts, h⟩
      · exact ⟨t, mem_parts_iff.mpr (.inr ⟨child, hchild, ht⟩), hg⟩
    · rintro ⟨t, ht, hg⟩
      rcases mem_parts_iff.mp ht with rfl | ⟨child, hchild, ht⟩
      · exact .inl hg
      · exact .inr ⟨child, hchild, t, ht, hg⟩

theorem mem_handlesIn_iff : (ns : List Node) →
    (g ∈ handlesIn ns ↔ ∃ child ∈ ns, ∃ t ∈ child.parts, t.handle = some g)
  | [] => by simp [handlesIn]
  | n :: ns => by
    rw [handlesIn, List.mem_append, mem_handles_iff n, mem_handlesIn_iff ns]
    simp

end

end Handles

/-! ### The places of what is reached -/

section Reached

variable {held : Nat → Bool} {n : Node} {l : Locus}

theorem mem_reached : l ∈ n.reached held ↔
    ∃ q ∈ n.preorder [], n.isCutOff held q.1 = false ∧ n.locus q.1 = l := by
  simp only [reached, unheld, List.mem_toFinset, List.mem_map, List.mem_filter, Bool.not_eq_true',
    and_assoc]

theorem locus_cons {child : Node} {k : Nat} (h : n.children[k]? = some child) (path : List Nat) :
    n.locus (k :: path) = (child.locus path).within n.handle k := by
  rw [locus, h]

theorem mem_reached_iff : l ∈ n.reached held ↔ l = (n.handle, []) ∨
    ∃ k child, n.children[k]? = some child ∧ Pool.isHeld held child = false ∧
      ∃ l' ∈ child.reached held, l'.within n.handle k = l := by
  rw [mem_reached, preorder_eq, List.exists_mem_cons_iff]
  refine or_congr ?_ ⟨?_, ?_⟩
  · simp [isCutOff, locus, eq_comm]
  · rintro ⟨q, hq, hcut, rfl⟩
    obtain ⟨k, child, place, hk, hplace, hpath⟩ := mem_preorders_iff.mp hq
    rw [Nat.zero_add] at hpath
    rw [hpath, isCutOff_cons hk, Bool.or_eq_false_iff] at hcut
    refine ⟨k, child, hk, hcut.1, child.locus place,
      mem_reached.mpr ⟨(place, q.2), hplace, hcut.2, rfl⟩, ?_⟩
    rw [hpath, locus_cons hk]
  · rintro ⟨k, child, hk, hheld, l', hl', rfl⟩
    obtain ⟨⟨place, m⟩, hplace, hcut, rfl⟩ := mem_reached.mp hl'
    refine ⟨(k :: place, m), mem_preorders_iff.mpr ⟨k, child, place, hk, hplace, ?_⟩, ?_, ?_⟩
    · rw [Nat.zero_add]
    · rw [isCutOff_cons hk, hheld, hcut]
      rfl
    · exact locus_cons hk place

def ReachedBelow (held : Nat → Bool) (handle : Option Nat) (i : Nat) : List Node → Locus → Prop
  | [], _ => False
  | n :: ns, l => (Pool.isHeld held n = false ∧ ∃ l' ∈ n.reached held, l'.within handle i = l) ∨
      ReachedBelow held handle (i + 1) ns l

theorem reachedBelow_iff {handle : Option Nat} {i : Nat} {ns : List Node} :
    ReachedBelow held handle i ns l ↔ ∃ k child, ns[k]? = some child ∧
      Pool.isHeld held child = false ∧ ∃ l' ∈ child.reached held, l'.within handle (i + k) = l := by
  induction ns generalizing i with
  | nil => simp [ReachedBelow]
  | cons n ns ih =>
    rw [ReachedBelow, ih]
    constructor
    · rintro (hn | ⟨k, child, hk, hchild⟩)
      · exact ⟨0, n, rfl, hn⟩
      · exact ⟨k + 1, child, hk, by rwa [Nat.add_assoc, Nat.add_comm 1 k] at hchild⟩
    · rintro ⟨k, child, hk, hchild⟩
      cases k with
      | zero =>
        obtain rfl : n = child := by simpa using hk
        exact .inl hchild
      | succ k => exact .inr ⟨k, child, hk, by rwa [Nat.add_assoc, Nat.add_comm 1 k]⟩

theorem mem_reached_iff_below : l ∈ n.reached held ↔
    l = (n.handle, []) ∨ ReachedBelow held n.handle 0 n.children l := by
  rw [mem_reached_iff, reachedBelow_iff]
  simp only [Nat.zero_add]

theorem isSome_of_mem_reached (hn : n.handle.isSome) (h : l ∈ n.reached held) : l.1.isSome := by
  rcases mem_reached_iff.mp h with rfl | ⟨k, child, -, -, ⟨g, path⟩, -, rfl⟩
  · exact hn
  · cases g with
    | none => exact hn
    | some g => rfl

theorem held_of_mem_reached {g : Nat} (hn : Pool.isHeld held n = false) (hl : l ∈ n.reached held)
    (hg : l.1 = some g) : held g = false := by
  induction n using ofChildren generalizing l with
  | step n ih =>
    have hown : n.handle = some g → held g = false := by
      intro h
      rw [Pool.isHeld, h] at hn
      exact hn
    rcases mem_reached_iff.mp hl with rfl | ⟨k, child, hk, hfree, ⟨g', path⟩, hl', rfl⟩
    · exact hown hg
    · cases g' with
      | none => exact hown hg
      | some g' => exact ih child (List.mem_of_getElem? hk) hfree hl' hg

end Reached

/-! ### The walk over the first places -/

section Walk

variable (held : Nat → Bool)

mutual

/-- Which nodes are reached, when shared trees that were met before are left out. -/
def visits (met : List Nat) : Node → List Locus
  | ⟨handle, _, children⟩ => (handle, []) :: visitsIn (handle.toList ++ met) handle 0 children

def visitsIn (met : List Nat) (handle : Option Nat) (i : Nat) : List Node → List Locus
  | [] => []
  | n :: ns =>
    if Pool.isHeld met.contains n then visitsIn met handle (i + 1) ns
    else
      (if Pool.isHeld held n then [] else (visits met n).map (Locus.within handle i)) ++
        visitsIn (n.once met).2 handle (i + 1) ns

end

variable {held} {met : List Nat}

theorem once_handle (met : List Nat) (n : Node) : (n.once met).1.handle = n.handle := by
  cases n
  rw [once]

mutual

theorem length_visits (met : List Nat) : (n : Node) →
    (visits held met n).length = ((n.once met).1.loose held).length
  | ⟨handle, _, children⟩ => by
    rw [visits, once, loose_eq, List.length_cons, List.length_cons,
      length_visitsIn _ handle 0 children]
    rfl

theorem length_visitsIn (met : List Nat) (handle : Option Nat) (i : Nat) : (ns : List Node) →
    (visitsIn held met handle i ns).length =
      (((onceIn met ns).1.filter (!Pool.isHeld held ·)).flatMap (loose held)).length
  | [] => rfl
  | n :: ns => by
    rw [visitsIn, onceIn]
    cases Pool.isHeld met.contains n with
    | true => exact length_visitsIn met handle (i + 1) ns
    | false =>
      have hheld : Pool.isHeld held (n.once met).1 = Pool.isHeld held n := by
        rw [Pool.isHeld, once_handle]
        rfl
      simp only [Bool.false_eq_true, if_false]
      rw [List.length_append, length_visitsIn (n.once met).2 handle (i + 1) ns, List.filter_cons,
        hheld]
      cases Pool.isHeld held n with
      | true => simp
      | false => simp [length_visits met n]

end

mutual

theorem mem_once_of_mem {g : Nat} {met : List Nat} (hg : g ∈ met) : (n : Node) → g ∈ (n.once met).2
  | ⟨handle, _, children⟩ => by
    rw [once]
    exact mem_onceIn_of_mem (List.mem_append_right _ hg) children

theorem mem_onceIn_of_mem {g : Nat} {met : List Nat} (hg : g ∈ met) :
    (ns : List Node) → g ∈ (onceIn met ns).2
  | [] => hg
  | n :: ns => by
    rw [onceIn]
    split
    · exact mem_onceIn_of_mem hg ns
    · exact mem_onceIn_of_mem (mem_once_of_mem hg n) ns

end

mutual

theorem mem_of_mem_once {g : Nat} {met : List Nat} : (n : Node) → g ∈ (n.once met).2 →
    g ∈ met ∨ g ∈ n.handles
  | ⟨handle, _, children⟩, hg => by
    rw [once] at hg
    rw [handles, List.mem_append]
    rcases mem_of_mem_onceIn children hg with hg | hg
    · exact (List.mem_append.mp hg).symm.imp_right .inl
    · exact .inr (.inr hg)

theorem mem_of_mem_onceIn {g : Nat} {met : List Nat} : (ns : List Node) → g ∈ (onceIn met ns).2 →
    g ∈ met ∨ g ∈ handlesIn ns
  | [], hg => .inl hg
  | n :: ns, hg => by
    rw [handlesIn, List.mem_append]
    rw [onceIn] at hg
    split at hg
    · exact (mem_of_mem_onceIn ns hg).imp_right .inr
    · rcases mem_of_mem_onceIn ns hg with hg | hg
      · exact (mem_of_mem_once n hg).imp_right .inl
      · exact .inr (.inr hg)

end

/-! ### No node is visited twice -/

theorem within_eq (handle : Option Nat) (i : Nat) (l : Locus) :
    (l.within handle i).1 = handle ∧ l.1 = none ∧ (l.within handle i).2 = i :: l.2 ∨
      l.1.isSome ∧ l.within handle i = l := by
  obtain ⟨g, path⟩ := l
  cases g with
  | none => exact .inl ⟨rfl, rfl, rfl⟩
  | some g => exact .inr ⟨rfl, rfl⟩

theorem within_of_isSome {handle : Option Nat} {i : Nat} {l : Locus} (h : l.1.isSome) :
    l.within handle i = l := by
  rcases within_eq handle i l with ⟨-, hnone, -⟩ | ⟨-, hsame⟩
  · rw [hnone] at h
    cases h
  · exact hsame

def Fresh (before after : List Nat) (l : Locus) : Prop :=
  ∃ g, l.1 = some g ∧ g ∉ before ∧ g ∈ after

theorem Fresh.ne_handle {before after : List Nat} {l : Locus} {handle : Option Nat}
    (h : Fresh before after l) (hhandle : ∀ g, handle = some g → g ∈ before) : l.1 ≠ handle := by
  obtain ⟨g, hl, hg, -⟩ := h
  exact fun heq => hg (hhandle g (heq ▸ hl))

/-- What is visited below a node: each node once, and either of the node's own tree, in the children
from `i` to `k`, or of a shared tree that was not met before. -/
structure Distinct (handle : Option Nat) (i k : Nat) (before after : List Nat)
    (visited : List Locus) : Prop where
  nodup : visited.Nodup
  known : ∀ l ∈ visited, (l.1 = handle ∧ ∃ j path, i ≤ j ∧ j < k ∧ l.2 = j :: path) ∨
    Fresh before after l

section Laws

variable {handle : Option Nat} {i k m : Nat} {before between after : List Nat}
  {visited later : List Locus}

theorem Distinct.nil : Distinct handle i k before after [] :=
  ⟨.nil, fun _ hl => absurd hl List.not_mem_nil⟩

theorem Distinct.within (i : Nat) (hhandle : ∀ g, handle = some g → g ∈ before)
    (hnodup : visited.Nodup) (hfresh : ∀ l ∈ visited, l.1 = none ∨ Fresh before after l) :
    Distinct handle i (i + 1) before after (visited.map (Locus.within handle i)) := by
  have hcases : ∀ l ∈ visited, ((l.within handle i).1 = handle ∧ l.1 = none ∧
      (l.within handle i).2 = i :: l.2) ∨ (l.within handle i = l ∧ Fresh before after l) := by
    intro l hl
    rcases within_eq handle i l with hown | ⟨hsome, heq⟩
    · exact .inl hown
    · refine .inr ⟨heq, (hfresh l hl).resolve_left fun hnone => ?_⟩
      rw [hnone] at hsome
      cases hsome
  refine ⟨hnodup.map_on fun l hl l' hl' heq => ?_, fun l hl => ?_⟩
  · rcases hcases l hl with ⟨hown, hnone, hpath⟩ | ⟨hsame, hf⟩ <;>
      rcases hcases l' hl' with ⟨hown', hnone', hpath'⟩ | ⟨hsame', hf'⟩
    · rw [heq, hpath'] at hpath
      exact Prod.ext (hnone.trans hnone'.symm) (List.cons.inj hpath).2.symm
    · rw [heq, hsame'] at hown
      exact absurd hown (hf'.ne_handle hhandle)
    · rw [← heq, hsame] at hown'
      exact absurd hown' (hf.ne_handle hhandle)
    · rw [← hsame, heq, hsame']
  · obtain ⟨l', hl', rfl⟩ := List.mem_map.mp hl
    rcases hcases l' hl' with ⟨hown, -, hpath⟩ | ⟨hsame, hf⟩
    · exact .inl ⟨hown, i, l'.2, Nat.le_refl i, Nat.lt_succ_self i, hpath⟩
    · rw [hsame]
      exact .inr hf

theorem Distinct.append (hhandle : ∀ g, handle = some g → g ∈ before)
    (hmore : ∀ g ∈ before, g ∈ between) (hmost : ∀ g ∈ between, g ∈ after)
    (him : i ≤ m) (hmk : m ≤ k) (h : Distinct handle i m before between visited)
    (h' : Distinct handle m k between after later) :
    Distinct handle i k before after (visited ++ later) := by
  refine ⟨List.nodup_append.mpr ⟨h.nodup, h'.nodup, fun l hl l' hl' heq => ?_⟩, fun l hl => ?_⟩
  · subst heq
    rcases h.known l hl with ⟨hown, j, path, -, hj, hpath⟩ | hf <;>
      rcases h'.known l hl' with ⟨hown', j', path', hj', -, hpath'⟩ | hf'
    · rw [hpath] at hpath'
      have := (List.cons.inj hpath').1
      omega
    · exact hf'.ne_handle (fun g hg => hmore g (hhandle g hg)) hown
    · exact hf.ne_handle hhandle hown'
    · obtain ⟨g, hg, -, hmet⟩ := hf
      obtain ⟨g', hg', hnew, -⟩ := hf'
      rw [hg, Option.some.injEq] at hg'
      exact hnew (hg' ▸ hmet)
  · rcases List.mem_append.mp hl with hl | hl
    · rcases h.known l hl with ⟨hown, j, path, hij, hj, hpath⟩ | ⟨g, hg, hnew, hmet⟩
      · exact .inl ⟨hown, j, path, hij, Nat.lt_of_lt_of_le hj hmk, hpath⟩
      · exact .inr ⟨g, hg, hnew, hmost g hmet⟩
    · rcases h'.known l hl with ⟨hown, j, path, hij, hj, hpath⟩ | ⟨g, hg, hnew, hmet⟩
      · exact .inl ⟨hown, j, path, Nat.le_trans him hij, hj, hpath⟩
      · exact .inr ⟨g, hg, fun hold => hnew (hmore g hold), hmet⟩

end Laws

mutual

theorem visits_fresh {met : List Nat} : (n : Node) → Pool.isHeld met.contains n = false →
    (visits held met n).Nodup ∧
      ∀ l ∈ visits held met n, l.1 = none ∨ Fresh met (n.once met).2 l
  | ⟨handle, frame, children⟩, hn => by
    have hhandle : ∀ g, handle = some g → g ∈ handle.toList ++ met := by
      rintro g rfl
      exact List.mem_cons_self
    have hbelow := visitsIn_distinct 0 hhandle children
    have hown : ∀ l : Locus, l.1 = handle →
        l.1 = none ∨ Fresh met (once met ⟨handle, frame, children⟩).2 l := by
      intro l hl
      rw [once]
      cases hg : handle with
      | none => exact .inl (hl.trans hg)
      | some g =>
        refine .inr ⟨g, hl.trans hg, ?_, mem_onceIn_of_mem (by simp) children⟩
        simpa [Pool.isHeld, hg] using hn
    rw [visits]
    refine ⟨List.nodup_cons.mpr ⟨fun hmem => ?_, hbelow.nodup⟩, fun l hl => ?_⟩
    · rcases hbelow.known _ hmem with ⟨-, j, path, -, -, hpath⟩ | hf
      · cases hpath
      · exact hf.ne_handle hhandle rfl
    · rcases List.mem_cons.mp hl with rfl | hl
      · exact hown _ rfl
      · rcases hbelow.known l hl with ⟨hl, -⟩ | ⟨g, hl, hg, hafter⟩
        · exact hown l hl
        · refine .inr ⟨g, hl, fun hmet => hg (List.mem_append_right _ hmet), ?_⟩
          rw [once]
          exact hafter

theorem visitsIn_distinct {met : List Nat} {handle : Option Nat} (i : Nat)
    (hhandle : ∀ g, handle = some g → g ∈ met) : (ns : List Node) →
    Distinct handle i (i + ns.length) met (onceIn met ns).2 (visitsIn held met handle i ns)
  | [] => .nil
  | n :: ns => by
    have hlength : i + 1 + ns.length = i + (n :: ns).length := by
      rw [List.length_cons]
      omega
    rw [visitsIn, onceIn]
    cases hn : Pool.isHeld met.contains n with
    | true =>
      have hrest := visitsIn_distinct (i + 1) hhandle ns
      rw [hlength] at hrest
      exact Distinct.append hhandle (fun _ => id) (fun g hg => mem_onceIn_of_mem hg ns)
        (Nat.le_succ i) (by simp) .nil hrest
    | false =>
      have hhandle' : ∀ g, handle = some g → g ∈ (n.once met).2 := fun g hg =>
        mem_once_of_mem (hhandle g hg) n
      have hrest := visitsIn_distinct (i + 1) hhandle' ns
      rw [hlength] at hrest
      simp only [Bool.false_eq_true, if_false]
      refine Distinct.append hhandle (fun g hg => mem_once_of_mem hg n)
        (fun g hg => mem_onceIn_of_mem hg ns) (Nat.le_succ i) (by simp) ?_ hrest
      split
      · exact .nil
      · obtain ⟨hnodup, hfresh⟩ := visits_fresh n hn
        exact .within i hhandle hnodup hfresh

end

/-! ### Every node that is reached is visited -/

mutual

theorem mem_reached_of_visits {l : Locus} {met : List Nat} : (n : Node) → l ∈ visits held met n →
    l ∈ n.reached held
  | ⟨handle, frame, children⟩, hl => by
    rw [visits] at hl
    rw [mem_reached_iff_below]
    exact (List.mem_cons.mp hl).imp_right (reachedBelow_of_visitsIn children)

theorem reachedBelow_of_visitsIn {l : Locus} {met : List Nat} {handle : Option Nat} {i : Nat} :
    (ns : List Node) → l ∈ visitsIn held met handle i ns → ReachedBelow held handle i ns l
  | [], hl => absurd hl List.not_mem_nil
  | n :: ns, hl => by
    rw [visitsIn] at hl
    split at hl
    · exact .inr (reachedBelow_of_visitsIn ns hl)
    · rcases List.mem_append.mp hl with hl | hl
      · split at hl
        case isTrue => cases hl
        case isFalse hfree =>
          obtain ⟨l', hl', rfl⟩ := List.mem_map.mp hl
          exact .inl ⟨Bool.eq_false_iff.mpr hfree, l', mem_reached_of_visits n hl', rfl⟩
      · exact .inr (reachedBelow_of_visitsIn ns hl)

end

section Cover

variable (held) (among : Node → Prop)

/-- A shared tree is held, or all that it reaches was seen. -/
def Done (seen : Locus → Prop) (g : Nat) : Prop :=
  held g ∨ ∀ t, among t → t.handle = some g → ∀ l ∈ t.reached held, seen l

/-- A part of the walk visits what is reached there and was not seen before, and is done with the
trees that it meets. -/
structure Covers (before after : List Nat) (seen : Locus → Prop) (visited : List Locus)
    (reach : Locus → Prop) : Prop where
  reached : ∀ l, reach l → l ∈ visited ∨ l.1.isSome ∧ seen l
  done : ∀ g ∈ after, g ∈ before ∨ Done held among (fun l => l ∈ visited ∨ seen l) g

variable {held among}

section Laws

variable {seen seen' reach : Locus → Prop} {before after : List Nat} {visited : List Locus}

theorem Done.mono {g : Nat} (h : Done held among seen g)
    (hseen : ∀ l : Locus, l.1.isSome → seen l → seen' l) : Done held among seen' g :=
  h.imp_right fun h t ht hg l hl =>
    hseen l (isSome_of_mem_reached (by rw [hg]; rfl) hl) (h t ht hg l hl)

theorem Covers.within (h : Covers held among before after seen visited reach)
    (handle : Option Nat) (i : Nat) :
    Covers held among before after seen (visited.map (Locus.within handle i))
      fun l => ∃ l', reach l' ∧ l'.within handle i = l where
  reached := by
    rintro _ ⟨l, hl, rfl⟩
    rcases h.reached l hl with hl | ⟨hsome, hl⟩
    · exact .inl (List.mem_map_of_mem hl)
    · rw [within_of_isSome hsome]
      exact .inr ⟨hsome, hl⟩
  done g hg := (h.done g hg).imp_right fun hg => hg.mono fun l hsome => Or.imp_left fun hl =>
    List.mem_map.mpr ⟨l, hl, within_of_isSome hsome⟩

theorem Covers.append {later : List Nat} {visited' : List Locus} {reach' : Locus → Prop}
    (h : Covers held among before after seen visited reach)
    (h' : Covers held among after later (fun l => l ∈ visited ∨ seen l) visited' reach') :
    Covers held among before later seen (visited ++ visited') fun l => reach l ∨ reach' l where
  reached := by
    rintro l (hl | hl)
    · exact (h.reached l hl).imp_left (List.mem_append_left _)
    · rcases h'.reached l hl with hl | ⟨hsome, hl | hl⟩
      · exact .inl (List.mem_append_right _ hl)
      · exact .inl (List.mem_append_left _ hl)
      · exact .inr ⟨hsome, hl⟩
  done g hg := by
    rcases h'.done g hg with hg | hg
    · exact (h.done g hg).imp_right fun hg => hg.mono fun l _ =>
        Or.imp_left (List.mem_append_left _)
    · refine .inr (hg.mono fun l _ hl => ?_)
      rcases hl with hl | hl | hl
      · exact .inl (List.mem_append_right _ hl)
      · exact .inl (List.mem_append_left _ hl)
      · exact .inr hl

end Laws

variable (hshares : Shares held among)

include hshares

theorem not_mem_handlesIn {n : Node} {g : Nat} (hn : ∀ t ∈ n.parts, among t)
    (hg : n.handle = some g) : g ∉ handlesIn n.children := by
  intro hin
  obtain ⟨child, hchild, t, ht, hgt⟩ := (mem_handlesIn_iff n.children).mp hin
  have hsame : t = n :=
    hshares.unique t n (hn t (mem_parts_iff.mpr (.inr ⟨child, hchild, ht⟩))) (hn n self_mem_parts)
      (by rw [hgt]; rfl) (hgt.trans hg.symm)
  have hle := size_le_of_mem_parts ht
  have hlt := size_lt_of_mem_children hchild
  rw [hsame] at hle
  omega

mutual

theorem visits_cover {met : List Nat} {seen : Locus → Prop} :
    (n : Node) → (∀ t ∈ n.parts, among t) → (∀ g ∈ met, g ∈ n.handles → Done held among seen g) →
    Covers held among met (n.once met).2 seen (visits held met n) (· ∈ n.reached held)
  | ⟨handle, frame, children⟩, hn, hmet => by
    have hself : among ⟨handle, frame, children⟩ := hn _ self_mem_parts
    have hbelow : ∀ g ∈ handle.toList ++ met, g ∈ handlesIn children → Done held among seen g := by
      intro g hg hin
      rcases List.mem_append.mp hg with hown | hg
      · exact absurd hin (not_mem_handlesIn hshares hn (Option.mem_toList.mp hown))
      · exact hmet g hg (by rw [handles]; exact List.mem_append_right _ hin)
    have hchildren := visitsIn_cover handle 0 children (fun child hchild t ht =>
      hn t (mem_parts_iff.mpr (.inr ⟨child, hchild, ht⟩))) hbelow
    have hreached : ∀ l ∈ (⟨handle, frame, children⟩ : Node).reached held,
        l ∈ visits held met ⟨handle, frame, children⟩ ∨ l.1.isSome ∧ seen l := by
      intro l hl
      rw [visits]
      rcases mem_reached_iff_below.mp hl with rfl | hl
      · exact .inl List.mem_cons_self
      · exact (hchildren.reached l hl).imp_left (List.mem_cons_of_mem _)
    refine ⟨hreached, fun g hg => ?_⟩
    rw [once] at hg
    rcases hchildren.done g hg with hg | hg
    · rcases List.mem_append.mp hg with hown | hg
      · refine .inr (.inr fun t ht hgt l hl => ?_)
        have hsame : t = ⟨handle, frame, children⟩ :=
          hshares.unique _ _ ht hself (by rw [hgt]; rfl)
            (hgt.trans (Option.mem_toList.mp hown).symm)
        exact (hreached l (hsame ▸ hl)).imp_right And.right
      · exact .inl hg
    · refine .inr (hg.mono fun l _ => Or.imp_left fun hl => ?_)
      rw [visits]
      exact List.mem_cons_of_mem _ hl

theorem visitsIn_cover {met : List Nat} {seen : Locus → Prop} (handle : Option Nat) (i : Nat) :
    (ns : List Node) → (∀ n ∈ ns, ∀ t ∈ n.parts, among t) →
    (∀ g ∈ met, g ∈ handlesIn ns → Done held among seen g) →
    Covers held among met (onceIn met ns).2 seen (visitsIn held met handle i ns)
      (ReachedBelow held handle i ns)
  | [], _, _ => ⟨fun _ hl => hl.elim, fun g hg => .inl hg⟩
  | n :: ns, hns, hmet => by
    have hn := hns n List.mem_cons_self
    have hrest : ∀ n ∈ ns, ∀ t ∈ n.parts, among t := fun m hm => hns m (List.mem_cons_of_mem _ hm)
    have hmetn : ∀ g ∈ met, g ∈ n.handles → Done held among seen g := fun g hg hin =>
      hmet g hg (by rw [handlesIn]; exact List.mem_append_left _ hin)
    have hmetns : ∀ g ∈ met, g ∈ handlesIn ns → Done held among seen g := fun g hg hin =>
      hmet g hg (by rw [handlesIn]; exact List.mem_append_right _ hin)
    rw [visitsIn, onceIn]
    cases hbefore : Pool.isHeld met.contains n with
    | true =>
      -- The tree stood at an earlier place, so all of it was seen there.
      have hnow : Covers held among met met seen []
          fun l => Pool.isHeld held n = false ∧ ∃ l' ∈ n.reached held, l'.within handle i = l := by
        obtain ⟨g, hg, hgmet⟩ := Pool.isHeld_iff.mp hbefore
        refine ⟨?_, fun g hg => .inl hg⟩
        rintro _ ⟨hfree, l, hl, rfl⟩
        have hsome : l.1.isSome := isSome_of_mem_reached (by rw [hg]; rfl) hl
        rw [within_of_isSome hsome]
        rcases hmetn g (List.contains_iff_mem.mp hgmet)
          ((mem_handles_iff n).mpr ⟨n, self_mem_parts, hg⟩) with hheld | hseen
        · exact absurd (Pool.isHeld_iff.mpr ⟨g, hg, hheld⟩) (Bool.eq_false_iff.mp hfree)
        · exact .inr ⟨hsome, hseen n (hn n self_mem_parts) hg l hl⟩
      exact hnow.append (visitsIn_cover handle (i + 1) ns hrest fun g hg hin =>
        (hmetns g hg hin).mono fun _ _ => .inr)
    | false =>
      simp only [Bool.false_eq_true, if_false]
      generalize hfirst : (if Pool.isHeld held n then [] else
        (visits held met n).map (Locus.within handle i)) = first
      have hnow : Covers held among met (n.once met).2 seen first
          fun l => Pool.isHeld held n = false ∧ ∃ l' ∈ n.reached held, l'.within handle i = l := by
        rw [← hfirst]
        cases hfree : Pool.isHeld held n with
        | true =>
          refine ⟨fun l hl => absurd hl.1 Bool.noConfusion, fun g hg => ?_⟩
          exact (mem_of_mem_once n hg).imp_right fun hin =>
            Or.inl (hshares.closed n (hn n self_mem_parts) hfree g hin)
        | false =>
          have hchild := (visits_cover n hn hmetn).within handle i
          exact ⟨fun l hl => hchild.reached l hl.2, hchild.done⟩
      exact hnow.append (visitsIn_cover handle (i + 1) ns hrest fun g hg hin =>
        (hnow.done g hg).elim (fun hg => (hmetns g hg hin).mono fun _ _ => .inr) id)

end

/-- A tree with every shared tree at its first place has a place for each node that is reached. -/
theorem card_reached {n : Node} (hn : ∀ t ∈ n.parts, among t) :
    (n.reached held).card = ((n.once []).1.loose held).length := by
  have hfresh : Pool.isHeld ([] : List Nat).contains n = false := by
    cases hg : n.handle <;> simp [Pool.isHeld, hg]
  have hnodup : (visits held [] n).Nodup := (visits_fresh n hfresh).1
  have hcover : ∀ l ∈ n.reached held, l ∈ visits held [] n ∨ l.1.isSome ∧ False :=
    (visits_cover hshares n hn fun g hg => absurd hg List.not_mem_nil).reached
  have hvisits : n.reached held = (visits held [] n).toFinset := by
    ext l
    rw [List.mem_toFinset]
    exact ⟨fun hl => (hcover l hl).elim id fun h => h.2.elim, mem_reached_of_visits n⟩
  rw [hvisits, List.toFinset_card_of_nodup hnodup, length_visits]

end Cover

end Walk

end Node

end CallTree
