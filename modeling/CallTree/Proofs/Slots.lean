import CallTree.Assembler.Step
import Mathlib.Data.List.Forall2

/-!
What happens to a slot while its call stays open: its trace, flags and attributes may change, and
what was recorded of the call does not. Flags are never taken back.
-/
namespace CallTree

structure Marker.Grows (m m' : Marker) : Prop where
  traceId : m'.traceId = m.traceId
  clock : m'.clock = m.clock
  flags : ∀ x, m.flags.has x → m'.flags.has x

theorem Marker.Grows.refl (m : Marker) : m.Grows m := ⟨rfl, rfl, fun _ h => h⟩

theorem Marker.Grows.trans {m m' m'' : Marker} (h : m.Grows m') (h' : m'.Grows m'') :
    m.Grows m'' :=
  ⟨h'.traceId.trans h.traceId, h'.clock.trans h.clock, fun x hx => h'.flags x (h.flags x hx)⟩

theorem Marker.grows_mark (m : Marker) (flags : MarkerFlags) : m.Grows (m.mark flags) :=
  ⟨rfl, rfl, fun x hx => by simp [Marker.mark, hx]⟩

theorem Marker.grows_inherit (m : Marker) (inner : MarkerFlags) : m.Grows (m.inherit inner) :=
  m.grows_mark _

theorem Marker.grows_minimumTime (m : Marker) (nanos : Nat) :
    m.Grows { m with minimumTime := nanos } := ⟨rfl, rfl, fun _ h => h⟩

theorem Marker.grows_context (m : Marker) (context : TraceContext) :
    m.Grows { m with context := some context } := ⟨rfl, rfl, fun _ h => h⟩

theorem relGrows_refl (m : Option Marker) : Option.Rel Marker.Grows m m := by
  cases m with
  | none => exact .none
  | some m => exact .some (.refl m)

theorem relGrows_trans {a b c : Option Marker} (h : Option.Rel Marker.Grows a b)
    (h' : Option.Rel Marker.Grows b c) : Option.Rel Marker.Grows a c := by
  cases h with
  | none => exact h'
  | some h =>
    cases h' with
    | some h' => exact .some (h.trans h')

theorem rel_toList {α β : Type} {Q : α → β → Prop} {a : Option α} {b : Option β}
    (h : Option.Rel Q a b) : List.Forall₂ Q a.toList b.toList := by
  cases h with
  | none => exact .nil
  | some hab => exact .cons hab .nil

theorem rel_isSome {α β : Type} {Q : α → β → Prop} {a : Option α} {b : Option β}
    (h : Option.Rel Q a b) : b.isSome = a.isSome := by
  cases h <;> rfl

section Related

variable {Q : Marker → Marker → Prop} {a b a' b' : Option Marker} (h : Option.Rel Q a b)
include h

theorem rel_map {β : Type} {f g : Marker → β} (hfg : ∀ m m', Q m m' → f m = g m') :
    a.map f = b.map g := by
  cases h with
  | none => rfl
  | some hm => exact congrArg some (hfg _ _ hm)

theorem rel_any {f g : Marker → Bool} (hfg : ∀ m m', Q m m' → f m = g m') :
    a.any f = b.any g := by
  cases h with
  | none => rfl
  | some hm => exact hfg _ _ hm

theorem rel_changed {g : Marker → Marker} (hg : ∀ m m', Q m m' → Q (g m) m') :
    Option.Rel Q (a.map g) b := by
  cases h with
  | none => exact .none
  | some hm => exact .some (hg _ _ hm)

theorem rel_or (h' : Option.Rel Q a' b') : Option.Rel Q (a.or a') (b.or b') := by
  cases h with
  | none => exact h'
  | some hm => exact .some hm

end Related

def Node.mapMarker (g : Marker → Marker) (n : Node) : Node :=
  n.mapFrame fun f => { f with marker := f.marker.map g }

theorem Node.size_eq (n : Node) : n.size = 1 + Node.sizes n.children := by
  cases n
  rfl

structure Node.Alike (n n' : Node) : Prop where
  handle : n'.handle = n.handle
  record : n'.frame = { n.frame with
    flags := n'.frame.flags, attributes := n'.frame.attributes, marker := n'.frame.marker }
  children : n'.children = n.children

/-- The same call, in a trace that went on and with no flag less. -/
structure Node.Touched (n n' : Node) : Prop extends Node.Alike n n' where
  flags : ∀ x, n.frame.flags.has x → n'.frame.flags.has x
  marker : Option.Rel Marker.Grows n.frame.marker n'.frame.marker

theorem Node.Alike.eq {n n' : Node} (h : n.Alike n') : n' = ⟨n.handle, { n.frame with
    flags := n'.frame.flags, attributes := n'.frame.attributes, marker := n'.frame.marker },
    n.children⟩ := by
  rw [← h.handle, ← h.record, ← h.children]
  cases n'
  rfl

theorem Node.Alike.isBusy {n n' : Node} (h : n.Alike n') : n'.isBusy = n.isBusy := by
  unfold Node.isBusy
  rw [h.record]
  rfl

theorem Node.Alike.size {n n' : Node} (h : n.Alike n') : n'.size = n.size := by
  rw [Node.size_eq, Node.size_eq, h.children]

theorem Node.Touched.refl (n : Node) : n.Touched n :=
  ⟨⟨rfl, rfl, rfl⟩, fun _ h => h, relGrows_refl _⟩

theorem Node.Touched.trans {n n' n'' : Node} (h : n.Touched n') (h' : n'.Touched n'') :
    n.Touched n'' := by
  refine ⟨⟨h'.handle.trans h.handle, ?_, h'.children.trans h.children⟩,
    fun x hx => h'.flags x (h.flags x hx), relGrows_trans h.marker h'.marker⟩
  rw [h'.record, h.record]

theorem Node.Touched.isTraceRoot {n n' : Node} (h : n.Touched n') :
    n'.isTraceRoot = n.isTraceRoot := rel_isSome h.marker

namespace Assembler

abbrev AllTouched : List Node → List Node → Prop := List.Forall₂ Node.Touched

theorem AllTouched.refl (ns : List Node) : AllTouched ns ns :=
  List.forall₂_same.mpr fun n _ => .refl n

theorem AllTouched.trans {ns ns' ns'' : List Node} (h : AllTouched ns ns')
    (h' : AllTouched ns' ns'') : AllTouched ns ns'' := by
  induction h generalizing ns'' with
  | nil => exact h'
  | cons hn _ ih =>
    cases h' with
    | cons hn' hns' => exact .cons (hn.trans hn') (ih hns')

theorem AllTouched.alike {ns ns' : List Node} (h : AllTouched ns ns') :
    List.Forall₂ Node.Alike ns ns' :=
  List.Forall₂.imp (fun _ _ hn => hn.toAlike) h

/-- What a touch cannot undo carries over to all slots. -/
theorem AllTouched.carry {α : Type} {P : α → Node → Prop}
    (hP : ∀ c n n', P c n → n.Touched n' → P c n') {cs : List α} {ns ns' : List Node}
    (h : List.Forall₂ P cs ns) (hns : AllTouched ns ns') : List.Forall₂ P cs ns' := by
  induction h generalizing ns' with
  | nil =>
    cases hns
    exact .nil
  | cons hc _ ih =>
    cases hns with
    | cons hn hns => exact .cons (hP _ _ _ hc hn) (ih hns)

theorem AllTouched.forall_mem {P : Node → Prop} (hP : ∀ n n', P n → n.Touched n' → P n')
    {ns ns' : List Node} (h : AllTouched ns ns') (hns : ∀ n ∈ ns, P n) : ∀ n ∈ ns', P n := by
  induction h with
  | nil => exact hns
  | cons hn _ ih =>
    obtain ⟨hfirst, hrest⟩ := List.forall_mem_cons.mp hns
    exact List.forall_mem_cons.mpr ⟨hP _ _ hfirst hn, ih hrest⟩

theorem nearest_cons (n : Node) (ns : List Node) :
    nearest? (n :: ns) = n.frame.marker.or (nearest? ns) := by
  unfold nearest?
  rw [List.findSome?_cons]
  cases n.frame.marker <;> rfl

theorem any_isTraceRoot (ns : List Node) : ns.any (·.isTraceRoot) = (nearest? ns).isSome := by
  induction ns with
  | nil => rfl
  | cons n ns ih => rw [List.any_cons, ih, nearest_cons, Option.isSome_or]; rfl

theorem nearest_rel {Q : Marker → Marker → Prop} {ns ns' : List Node}
    (h : List.Forall₂ (fun n n' => Option.Rel Q n.frame.marker n'.frame.marker) ns ns') :
    Option.Rel Q (nearest? ns) (nearest? ns') := by
  induction h with
  | nil => exact .none
  | cons hm _ ih =>
    rw [nearest_cons, nearest_cons]
    exact rel_or hm ih

theorem AllTouched.nearest {ns ns' : List Node} (h : AllTouched ns ns') :
    Option.Rel Marker.Grows (nearest? ns) (nearest? ns') :=
  nearest_rel (List.Forall₂.imp (fun _ _ hn => hn.marker) h)

theorem AllTouched.any_isTraceRoot {ns ns' : List Node} (h : AllTouched ns ns') :
    ns'.any (·.isTraceRoot) = ns.any (·.isTraceRoot) := by
  rw [Assembler.any_isTraceRoot, Assembler.any_isTraceRoot]
  exact rel_isSome h.nearest

/-! ### Changing one slot -/

theorem updateFirst_forall₂ {Q : Node → Node → Prop} (hQ : ∀ n, Q n n) {p : Node → Bool}
    {g : Node → Node} (hg : ∀ n, Q n (g n)) {ns ns' : List Node}
    (h : updateFirst p g ns = some ns') : List.Forall₂ Q ns ns' := by
  induction ns generalizing ns' with
  | nil => cases h
  | cons n ns ih =>
    rw [updateFirst] at h
    split at h
    case isTrue =>
      cases h
      exact .cons (hg n) (List.forall₂_same.mpr fun n _ => hQ n)
    case isFalse =>
      obtain ⟨ns'', hns, rfl⟩ := Option.map_eq_some_iff.mp h
      exact .cons (hQ n) (ih hns)

theorem touched_mapMarker {g : Marker → Marker} (hg : ∀ m : Marker, m.Grows (g m)) (n : Node) :
    n.Touched (n.mapMarker g) := by
  refine ⟨⟨rfl, rfl, rfl⟩, fun _ h => h, ?_⟩
  show Option.Rel Marker.Grows n.frame.marker (n.frame.marker.map g)
  cases n.frame.marker with
  | none => exact .none
  | some m => exact .some (hg m)

def adjustNearest (g : Marker → Marker) (ns : List Node) : List Node :=
  (updateMarker (fun _ => true) g ns).getD ns

theorem adjustNearest_forall₂ {Q : Node → Node → Prop} (hQ : ∀ n, Q n n) {g : Marker → Marker}
    (hg : ∀ n : Node, Q n (n.mapMarker g)) (ns : List Node) :
    List.Forall₂ Q ns (adjustNearest g ns) := by
  unfold adjustNearest
  cases h : updateMarker (fun _ => true) g ns with
  | none => exact List.forall₂_same.mpr fun n _ => hQ n
  | some ns' => exact updateFirst_forall₂ hQ hg h

theorem adjustNearest_touched {g : Marker → Marker} (hg : ∀ m : Marker, m.Grows (g m))
    (ns : List Node) : AllTouched ns (adjustNearest g ns) :=
  adjustNearest_forall₂ .refl (touched_mapMarker hg) ns

theorem updateFirst_cons (p : Node → Bool) (g : Node → Node) (n : Node) (ns : List Node) :
    (updateFirst p g (n :: ns)).getD (n :: ns) =
      if p n then g n :: ns else n :: (updateFirst p g ns).getD ns := by
  rw [updateFirst]
  split
  · rfl
  · cases updateFirst p g ns <;> rfl

theorem nearest_adjustNearest (g : Marker → Marker) (ns : List Node) :
    nearest? (adjustNearest g ns) = (nearest? ns).map g := by
  induction ns with
  | nil => rfl
  | cons n ns ih =>
    cases h : n.frame.marker with
    | none =>
      have hrest : adjustNearest g (n :: ns) = n :: adjustNearest g ns := by
        rw [adjustNearest, updateMarker, updateFirst_cons, if_neg (by simp [h])]
        rfl
      rw [hrest]
      simpa [nearest?, h] using ih
    | some m => simp [adjustNearest, updateMarker, updateFirst, nearest?, Node.mapFrame, h]

end Assembler

end CallTree
