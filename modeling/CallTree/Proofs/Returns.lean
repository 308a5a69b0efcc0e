import CallTree.Proofs.SharedParts

/-!
What a workspace gives back to its pool: the nodes that are reached from the released one without a
tree that another name holds, each of them once. What stands below other names stays as it is.
-/
namespace CallTree.Workspace

def trees (w : Workspace) : List Node := w.nodes.flatMap (·.2.parts)

/-- A handle stands for one tree. -/
def Coherent (w : Workspace) : Prop :=
  ∀ s ∈ w.trees, ∀ t ∈ w.trees, s.handle.isSome → s.handle = t.handle → s = t

variable {w : Workspace} {name : String} {n : Node}

theorem holds_iff {g : Nat} : w.holds g ↔ ∃ t ∈ w.trees, t.handle = some g := by
  simp only [holds, trees, List.any_eq_true, List.contains_iff_mem, List.mem_flatMap,
    Node.mem_handles_iff]
  constructor
  · rintro ⟨e, he, t, ht, hg⟩
    exact ⟨t, ⟨e, he, ht⟩, hg⟩
  · rintro ⟨t, ⟨e, he, ht⟩, hg⟩
    exact ⟨e, he, t, ht, hg⟩

theorem node?_drop (other : String) :
    (w.drop name).node? other = if other = name then none else w.node? other :=
  Keyed.lookup_erase name other w.nodes

theorem node?_put (other : String) :
    (w.put name n).node? other = if other = name then some n else w.node? other :=
  Keyed.lookup_put name other n w.nodes

theorem trees_drop {t : Node} (h : t ∈ (w.drop name).trees) : t ∈ w.trees := by
  obtain ⟨e, he, ht⟩ := List.mem_flatMap.mp h
  exact List.mem_flatMap.mpr ⟨e, List.mem_of_mem_filter he, ht⟩

theorem parts_of_node? (h : w.node? name = some n) : ∀ t ∈ n.parts, t ∈ w.trees := by
  intro t ht
  obtain ⟨before, after, hnodes, -⟩ := List.lookup_eq_some_iff.mp h
  have he : (name, n) ∈ w.nodes := by simp [hnodes]
  exact List.mem_flatMap.mpr ⟨_, he, ht⟩

theorem shares (hw : w.Coherent) (name : String) :
    Node.Shares (w.drop name).holds (· ∈ w.trees) where
  unique s t hs ht := hw s hs t ht
  closed t ht hheld g hg := by
    obtain ⟨h, hh, hholds⟩ := Pool.isHeld_iff.mp hheld
    obtain ⟨t', ht', hsame⟩ := holds_iff.mp hholds
    obtain rfl : t = t' := hw t ht t' (trees_drop ht') (by rw [hh]; rfl) (hh.trans hsame.symm)
    obtain ⟨s, hs, hsg⟩ := (Node.mem_handles_iff t).mp hg
    obtain ⟨e, he, hte⟩ := List.mem_flatMap.mp ht'
    exact holds_iff.mpr ⟨s, List.mem_flatMap.mpr ⟨e, he, Node.mem_parts_trans hte hs⟩, hsg⟩

theorem release_pool (hw : w.Coherent) (hn : w.node? name = some n)
    (hfree : Pool.isHeld (w.drop name).holds n = false) :
    (w.release name).pool = w.pool.takeBack (n.reached (w.drop name).holds).card := by
  rw [Node.card_reached (w.shares hw name) (parts_of_node? hn), ← Pool.release_eq_takeBack]
  simp only [release, hn, hfree]
  rfl

theorem clean_pool (hw : w.Coherent) (hn : w.node? name = some n) (hown : n.handle = none) :
    (w.clean name).pool = w.pool.takeBack ((n.reached (w.drop name).holds).card - 1) ∧
      (w.clean name).node? name = some {} := by
  rw [Node.card_reached (w.shares hw name) (parts_of_node? hn)]
  obtain ⟨handle, frame, children⟩ := n
  obtain rfl : handle = none := hown
  simp only [clean, hn, Pool.cleanInPlace_eq_takeBack]
  exact ⟨rfl, (node?_put name).trans (if_pos rfl)⟩

theorem node?_release {other : String} (h : other ≠ name) :
    (w.release name).node? other = w.node? other := by
  have hdrop : (w.drop name).node? other = w.node? other := (node?_drop other).trans (if_neg h)
  rw [release]
  split
  · rfl
  · dsimp only
    split <;> exact hdrop

theorem node?_clean {other : String} (h : other ≠ name) :
    (w.clean name).node? other = w.node? other := by
  rw [clean]
  split
  · exact (node?_put other).trans (if_neg h)
  · rfl

/-! ### Workspaces that come about -/

inductive Reachable (p : Pool) : Workspace → Prop where
  | start : Reachable p { pool := p }
  | place {w : Workspace} (name : String) {n : Node} : n.handles = [] → Reachable p w →
      Reachable p (w.put name n)
  | acquire {w : Workspace} (name : String) : Reachable p w → Reachable p (w.acquire name)
  | share {w : Workspace} (name : String) : Reachable p w → Reachable p (w.share name)
  | add {w : Workspace} (name child : String) : Reachable p w → Reachable p (w.add name child)
  | release {w : Workspace} (name : String) : Reachable p w → Reachable p (w.release name)
  | clean {w : Workspace} (name : String) : Reachable p w → Reachable p (w.clean name)
  | drop {w : Workspace} (name : String) : Reachable p w → Reachable p (w.drop name)

/-- Handles are given out one after another, and none of them is left on an idle node. -/
structure Sound (w : Workspace) : Prop where
  coherent : w.Coherent
  below : ∀ t ∈ w.trees, ∀ g, t.handle = some g → g < w.nextHandle
  idle : ∀ n ∈ w.pool.idle, n.handles = []

theorem handle_of_parts (hn : n.handles = []) : ∀ t ∈ n.parts, t.handle.isSome = false := by
  intro t ht
  cases h : t.handle with
  | none => rfl
  | some g =>
    have := (Node.mem_handles_iff n).mpr ⟨t, ht, h⟩
    rw [hn] at this
    cases this

theorem trees_put {t : Node} (h : t ∈ (w.put name n).trees) : t ∈ n.parts ∨ t ∈ w.trees := by
  obtain ⟨e, he, ht⟩ := List.mem_flatMap.mp h
  rcases Keyed.mem_put he with rfl | he
  · exact .inl ht
  · exact .inr (List.mem_flatMap.mpr ⟨e, he, ht⟩)

namespace Sound

variable {w' : Workspace}

theorem of_trees (hw : w.Sound) (htrees : ∀ t ∈ w'.trees, t.handle.isSome → t ∈ w.trees)
    (hnext : w'.nextHandle = w.nextHandle) (hidle : ∀ n ∈ w'.pool.idle, n.handles = []) :
    w'.Sound where
  coherent s hs t ht hsome hsame :=
    hw.coherent s (htrees s hs hsome) t (htrees t ht (hsame ▸ hsome)) hsome hsame
  below t ht g hg := hnext ▸ hw.below t (htrees t ht (by rw [hg]; rfl)) g hg
  idle := hidle

theorem takeBack (hw : w.Sound) (k : Nat) : Sound { w with pool := w.pool.takeBack k } := by
  refine hw.of_trees (fun _ ht _ => ht) rfl fun n hn => ?_
  rcases List.mem_append.mp hn with hn | hn
  · rw [List.eq_of_mem_replicate hn]
    rfl
  · exact hw.idle n hn

theorem put (hw : w.Sound) (name : String) (hn : ∀ t ∈ n.parts, t.handle.isSome → t ∈ w.trees) :
    (w.put name n).Sound :=
  hw.of_trees (fun t ht hsome => (trees_put ht).elim (fun ht => hn t ht hsome) id) rfl hw.idle

theorem place (hw : w.Sound) (name : String) (hn : n.handles = []) : (w.put name n).Sound := by
  refine hw.put name fun t ht hsome => ?_
  rw [handle_of_parts hn t ht] at hsome
  cases hsome

theorem acquire (hw : w.Sound) (name : String) : (w.acquire name).Sound := by
  have hpool : w.pool.acquire.1.handles = [] ∧ ∀ n ∈ w.pool.acquire.2.idle, n.handles = [] := by
    have hidle := hw.idle
    rw [Pool.acquire]
    cases h : w.pool.idle with
    | nil =>
      exact ⟨rfl, fun n hn => absurd hn List.not_mem_nil⟩
    | cons n ns =>
      rw [h] at hidle
      exact ⟨hidle n List.mem_cons_self, fun m hm => hidle m (List.mem_cons_of_mem _ hm)⟩
  have hrest : Sound { w with pool := w.pool.acquire.2 } :=
    hw.of_trees (fun _ ht _ => ht) rfl hpool.2
  exact hrest.place name hpool.1

theorem share (hw : w.Sound) (name : String) : (w.share name).Sound := by
  rw [Workspace.share]
  split
  case h_1 frame children hn =>
    have htrees : ∀ t ∈ ({ w with nextHandle := w.nextHandle + 1 }.put name
        ⟨some w.nextHandle, frame, children⟩).trees,
        t = ⟨some w.nextHandle, frame, children⟩ ∨ t ∈ w.trees := by
      intro t ht
      rcases trees_put ht with ht | ht
      · refine (Node.mem_parts_iff.mp ht).imp_right fun hbelow => ?_
        exact parts_of_node? hn t (Node.mem_parts_iff.mpr (.inr hbelow))
      · exact .inr ht
    -- The handle of the new tree is above those of all others.
    have hnew : ∀ t ∈ w.trees, t.handle ≠ some w.nextHandle := fun t ht hg =>
      Nat.lt_irrefl _ (hw.below t ht _ hg)
    refine ⟨fun s hs t ht hsome hsame => ?_, fun t ht g hg => ?_, hw.idle⟩
    · rcases htrees s hs with rfl | hs <;> rcases htrees t ht with rfl | ht
      · rfl
      · exact absurd hsame.symm (hnew t ht)
      · exact absurd hsame (hnew s hs)
      · exact hw.coherent s hs t ht hsome hsame
    · rcases htrees t ht with rfl | ht
      · rw [← Option.some.inj hg]
        exact Nat.lt_succ_self _
      · exact Nat.lt_succ_of_lt (hw.below t ht g hg)
  case h_2 => exact hw

theorem add (hw : w.Sound) (name child : String) : (w.add name child).Sound := by
  rw [Workspace.add]
  split
  case h_2 => exact hw
  case h_1 parent n hparent hn =>
    split
    case isTrue => exact hw
    case isFalse hown =>
      have hparts : ∀ t ∈ (parent.addChild n).parts, t.handle.isSome → t ∈ w.trees := by
        intro t ht hsome
        rcases Node.mem_parts_iff.mp ht with rfl | ⟨c, hc, ht⟩
        · exact absurd hsome hown
        · rcases List.mem_append.mp hc with hc | hc
          · exact parts_of_node? hparent t (Node.mem_parts_iff.mpr (.inr ⟨c, hc, ht⟩))
          · rw [List.mem_singleton.mp hc] at ht
            exact parts_of_node? hn t ht
      refine hw.of_trees (fun t ht hsome => ?_) ?_ ?_
      · rcases trees_put ht with ht | ht
        · exact hparts t ht hsome
        · split at ht
          · exact ht
          · exact trees_drop ht
      · split <;> rfl
      · split <;> exact hw.idle

theorem drop (hw : w.Sound) (name : String) : (w.drop name).Sound :=
  hw.of_trees (fun _ ht _ => trees_drop ht) rfl hw.idle

theorem release (hw : w.Sound) (name : String) : (w.release name).Sound := by
  rw [Workspace.release]
  split
  case h_1 => exact hw
  case h_2 =>
    dsimp only
    split
    · exact hw.drop name
    · rw [Pool.release_eq_takeBack]
      exact (hw.drop name).takeBack _

theorem clean (hw : w.Sound) (name : String) : (w.clean name).Sound := by
  rw [Workspace.clean]
  split
  case h_1 =>
    simp only [Pool.cleanInPlace_eq_takeBack]
    exact (hw.takeBack _).place name rfl
  case h_2 => exact hw

end Sound

theorem Reachable.sound {p : Pool} (hp : ∀ n ∈ p.idle, n.handles = []) (h : Reachable p w) :
    w.Sound := by
  induction h with
  | start => exact ⟨by simp [Coherent, trees], by simp [trees], hp⟩
  | place name hn _ ih => exact ih.place name hn
  | acquire name _ ih => exact ih.acquire name
  | share name _ ih => exact ih.share name
  | add name child _ ih => exact ih.add name child
  | release name _ ih => exact ih.release name
  | clean name _ ih => exact ih.clean name
  | drop name _ ih => exact ih.drop name

end CallTree.Workspace

namespace CallTree
open Dismantling Workspace

/-- Released, a tree goes back to the pool down to the trees that somebody else holds, a node at a
time, and the loop that does this ends. Where shared trees stand at several places, each node goes
back once, and only if no other name holds it. A node that is cleaned in place gives back the same,
but for itself. -/
theorem release_reclaims_unheld :
    (∀ (held : Nat → Bool) (p : Pool) (n : Node),
      let k := (n.unheld held).length
      (∃ taken, (round held)^[k] ⟨[n], [], p⟩ = ⟨[], taken, p.release held n⟩ ∧
        taken.Perm ((n.unheld held).map (·.2))) ∧
      (∀ j < k, ((round held)^[j] ⟨[n], [], p⟩).pending ≠ []) ∧
      p.release held n = p.takeBack k ∧ p.cleanInPlace held n = ({}, p.takeBack (k - 1))) ∧
    ∀ (w : Workspace) (name : String) (n : Node), w.Coherent → w.node? name = some n →
      let others := w.drop name
      let k := (n.reached others.holds).card
      (Pool.isHeld others.holds n = false →
        (w.release name).pool = w.pool.takeBack k ∧
        ∀ l ∈ n.reached others.holds, ∀ g, l.1 = some g → others.holds g = false) ∧
      (n.handle = none → (w.clean name).pool = w.pool.takeBack (k - 1) ∧
        (w.clean name).node? name = some {}) ∧
      ∀ other ≠ name, (w.release name).node? other = w.node? other ∧
        (w.clean name).node? other = w.node? other := by
  refine ⟨fun held p n => ?_, fun w name n hw hn => ?_⟩
  · have hlength : (n.unheld held).length = (n.loose held).length := (List.length_map _).symm
    dsimp only
    rw [hlength]
    refine ⟨takenApart p n, fun j hj => pending_ne_nil p n hj, Pool.release_eq_takeBack p n,
      Pool.cleanInPlace_eq_takeBack p n⟩
  · exact ⟨fun hfree => ⟨release_pool hw hn hfree, fun l hl g hg =>
        Node.held_of_mem_reached hfree hl hg⟩, fun hown => clean_pool hw hn hown,
      fun other hother => ⟨node?_release hother, node?_clean hother⟩⟩

/-- A workspace where a shared leaf stands at two places of a tree, next to a leaf of its own and
one that has a name. -/
def sharedLeaves : Workspace :=
  let empty : Workspace := { pool := Pool.ofCapacity 2 }
  let named := (((empty.acquire "leaf").share "leaf").acquire "named").share "named"
  let parent := ((named.acquire "parent").add "parent" "leaf").add "parent" "named"
  ((parent.acquire "own").add "parent" "own").add "parent" "leaf" |>.drop "leaf"

theorem coherent_sharedLeaves : sharedLeaves.Coherent := by
  have h : Reachable (Pool.ofCapacity 2) sharedLeaves :=
    .drop _ (.add _ _ (.add _ _ (.acquire _ (.add _ _ (.add _ _ (.acquire _ (.share _ (.acquire _
      (.share _ (.acquire _ .start))))))))))
  exact (h.sound fun n hn => absurd hn List.not_mem_nil).coherent

/-- The parent, the leaf of its own and the shared leaf go back, and there is room for two. -/
theorem release_reclaims_unheld_of_sharedLeaves :
    (sharedLeaves.release "parent").pool = sharedLeaves.pool.takeBack 3 ∧
      (sharedLeaves.release "parent").pool.available = 2 := by
  obtain ⟨n, hn⟩ : ∃ n, sharedLeaves.node? "parent" = some n := ⟨_, rfl⟩
  obtain ⟨hrelease, -⟩ := release_reclaims_unheld.2 sharedLeaves "parent" n coherent_sharedLeaves hn
  have hpool := (hrelease (by cases hn; rfl)).1
  have hcard : (n.reached (sharedLeaves.drop "parent").holds).card = 3 := by
    cases hn
    decide
  rw [hcard] at hpool
  exact ⟨hpool, by rw [hpool]; rfl⟩

end CallTree
