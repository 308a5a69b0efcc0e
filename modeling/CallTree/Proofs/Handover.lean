import CallTree.Proofs.Sharing

/-!
What the sinks have. A sink that collects keeps every tree as it got it, the trees of a run are
numbered one after the other, and what a sink has is held. Together with what becomes of closed
nodes: delivered trees are never changed, and they are shared with the trees around them.
-/
namespace CallTree
open Assembler

namespace Session

/-- Each sink that collects still has what it had, and got nothing but some of the trees. -/
def Collects (given : List Node) (s s' : Session) : Prop :=
  ∀ (id : SinkId) (name : String) (trees : List Node) (closed : Bool),
    s.sinks[id]? = some ⟨name, .collect trees closed⟩ →
      ∃ more, s'.sinks[id]? = some ⟨name, .collect (trees ++ more) closed⟩ ∧
        ∀ tree ∈ more, tree ∈ given

theorem Collects.of_sinks {s s' : Session} (h : s'.sinks = s.sinks) (given : List Node) :
    Collects given s s' := by
  intro id name trees closed hsink
  exact ⟨[], by rw [h, List.append_nil]; exact hsink, by simp⟩

theorem Collects.trans {given : List Node} {s s' s'' : Session} (h : Collects given s s')
    (h' : Collects given s' s'') : Collects given s s'' := by
  intro id name trees closed hsink
  obtain ⟨more, hmore, hgiven⟩ := h id name trees closed hsink
  obtain ⟨more', hmore', hgiven'⟩ := h' id name (trees ++ more) closed hmore
  refine ⟨more ++ more', by rw [← List.append_assoc]; exact hmore', fun tree htree => ?_⟩
  rcases List.mem_append.mp htree with htree | htree
  · exact hgiven tree htree
  · exact hgiven' tree htree

theorem Collects.mono {given given' : List Node} {s s' : Session} (h : Collects given s s')
    (hsub : given ⊆ given') : Collects given' s s' := by
  intro id name trees closed hsink
  obtain ⟨more, hmore, hgiven⟩ := h id name trees closed hsink
  exact ⟨more, hmore, fun tree htree => hsub (hgiven tree htree)⟩

theorem getElem?_setSink {s : Session} {id : SinkId} {sink : Sink} (h : s.sinks[id]? = some sink)
    (behaviour : SinkBehaviour) (i : SinkId) : (s.setSink id behaviour).sinks[i]? =
      if i = id then some { sink with behaviour } else s.sinks[i]? := by
  rw [setSink, List.getElem?_modify]
  by_cases hi : i = id
  · simp [hi, h]
  · simp [hi, Ne.symm hi]

theorem collects_accept (tree : Node) (id : SinkId) (s : Session) :
    Collects [tree] s (accept tree id s).2 := by
  unfold accept
  split
  case h_1 => exact .of_sinks rfl _
  case h_2 sink hsink =>
    dsimp only
    split
    case h_1 => exact .of_sinks rfl _
    case h_2 trees closed hbehaviour =>
      split
      · exact .of_sinks rfl _
      · intro i name trees' closed' hi
        rw [getElem?_setSink hsink]
        by_cases heq : i = id
        · subst heq
          obtain rfl := Option.some.inj (hsink.symm.trans hi)
          cases hbehaviour
          exact ⟨[tree], by simp, by simp⟩
        · exact ⟨[], by simp [heq, hi], by simp⟩
    case h_6 => exact .of_sinks rfl _
    case h_7 tracer _ =>
      split
      case h_1 => exact .of_sinks rfl _
      case h_2 s' hs' =>
        obtain ⟨e, -, hentered⟩ := Option.bind_eq_some_iff.mp hs'
        obtain ⟨table, -, rfl⟩ := Option.map_eq_some_iff.mp hentered
        exact .of_sinks rfl _
    case h_8 queue hbehaviour =>
      intro i name trees' closed' hi
      dsimp only
      rw [getElem?_setSink hsink]
      by_cases heq : i = id
      · subst heq
        obtain rfl := Option.some.inj (hsink.symm.trans hi)
        cases hbehaviour
      · exact ⟨[], by simp [heq, hi], by simp⟩
    all_goals exact .of_sinks rfl _

theorem collects_submit (s : Session) (e : EngineId) (tree : Node) :
    Collects [{ tree with handle := some s.nextTree }] s (s.submit e tree).1 := by
  unfold submit
  split
  case h_1 => exact .of_sinks rfl _
  case h_2 engine _ =>
    have hasked := askAll_keeps (fun s => Collects.of_sinks (rfl : s.sinks = s.sinks) _)
      (fun h h' => Collects.trans h h')
      (collects_accept { tree with handle := some s.nextTree }) engine.sinks
      { s with nextTree := s.nextTree + 1 }
    exact hasked

theorem collects_event {s : Session} {m : Member} {engine : Engine} (hm : s.member? = some m)
    (hengine : s.engine? m.engine = some engine) (e : Event) :
    Collects (Moment.tree? ⟨⟨s.surroundings engine, e⟩, m.assembler⟩).toList s (s.event e) := by
  have htook := took_event hm hengine e
  cases ht : Moment.tree? ⟨⟨s.surroundings engine, e⟩, m.assembler⟩ with
  | none => exact .of_sinks (htook.unseen ht).sinks _
  | some tree =>
    obtain ⟨s₀, hunseen, hsubmit, -⟩ := htook.broadcast tree ht
    have hhandle : tree.handle = some s₀.nextTree := by
      rw [hunseen.nextTree]
      exact Moment.handle_of_tree ht
    have htree : { tree with handle := some s₀.nextTree } = tree := by
      cases tree
      rw [← hhandle]
    have hcollects := collects_submit s₀ m.engine tree
    rw [htree, ← hsubmit] at hcollects
    exact (Collects.of_sinks hunseen.sinks _).trans hcollects

def submitted (ms : List Moment) : List Node := ms.filterMap (·.tree?)

theorem submitted_cons (a : Assembler) (o : Occurrence) (os : List Occurrence) :
    submitted (a.trail (o :: os)) =
      (Moment.tree? ⟨o, a⟩).toList ++ submitted ((Moment.after ⟨o, a⟩).trail os) := by
  rw [submitted, trail, List.filterMap_cons]
  cases Moment.tree? ⟨o, a⟩ <;> rfl

theorem collects_run {s : Session} {m : Member} {engine : Engine} (hm : s.member? = some m)
    (hengine : s.engine? m.engine = some engine) (es : List Event) :
    let trees := submitted (m.assembler.trail (s.occurrences es))
    Collects trees s (es.foldl event s) ∧
      trees.map (·.handle) = (List.range' s.nextTree trees.length).map some := by
  induction es generalizing s m engine with
  | nil => exact ⟨.of_sinks rfl _, rfl⟩
  | cons e es ih =>
    have htook := took_event hm hengine e
    obtain ⟨engine', hengine', -⟩ := htook.engine
    obtain ⟨hcollects, hnumbered⟩ := ih htook.member hengine'
    have hevent := collects_event hm hengine e
    rw [occurrences_cons hm hengine, submitted_cons, List.foldl_cons]
    dsimp only at hcollects hnumbered
    generalize submitted _ = later at hcollects hnumbered ⊢
    refine ⟨(hevent.mono (List.subset_append_left _ _)).trans
      (hcollects.mono (List.subset_append_right _ _)), ?_⟩
    cases ht : Moment.tree? ⟨⟨s.surroundings engine, e⟩, m.assembler⟩ with
    | none =>
      rw [(htook.unseen ht).nextTree] at hnumbered
      exact hnumbered
    | some tree =>
      obtain ⟨-, -, -, hnext⟩ := htook.broadcast tree ht
      rw [hnext] at hnumbered
      rw [Option.toList_some, List.singleton_append, List.map_cons, hnumbered, List.length_cons,
        List.range'_succ, List.map_cons, Moment.handle_of_tree ht]
      rfl

/-- What a sink has collected is held as long as the sink is. -/
theorem held_of_collected {s : Session} {engine : Engine} {id : SinkId} {name : String}
    {trees : List Node} {closed : Bool} (hsink : s.sinks[id]? = some ⟨name, .collect trees closed⟩)
    (halive : s.isSinkAlive id) {tree : Node} (htree : tree ∈ trees)
    (hhandle : tree.handle.isSome) : Pool.isHeld (s.surroundings engine).held tree := by
  obtain ⟨h, hh⟩ := Option.isSome_iff_exists.mp hhandle
  have hmem : h ∈ s.heldTrees := by
    refine List.mem_flatMap.mpr ⟨(⟨name, .collect trees closed⟩, id), ?_, ?_⟩
    · exact List.mem_zipIdx_iff_getElem?.mpr hsink
    · simp only [halive, ↓reduceIte]
      exact List.mem_filterMap.mpr ⟨tree, htree, hh⟩
  simpa [Pool.isHeld, hh, surroundings] using hmem

end Session

open Session

/-- Once a tree is handed over, none of its nodes is changed, and it is not taken apart as long as
somebody holds it. If its parent keeps it, it keeps the very same tree; the only closed node that
is ever changed is one that nobody but its parent has. -/
theorem delivered_trees_frozen (capacity : Nat) :
    (∀ os : List Occurrence,
      (∀ k ≤ os.length, Frozen ((new capacity).trail os) k ((new capacity).after (os.take k))) ∧
      ∀ (k : Nat) (m : Moment), ((new capacity).trail os)[k]? = some m →
        m.Spares ((new capacity).trail os) k) ∧
    ∀ (s : Session) (m : Member) (engine : Engine), s.member? = some m →
      s.engine? m.engine = some engine →
      (∀ (id : SinkId) (name : String) (trees : List Node) (closed : Bool),
        s.sinks[id]? = some ⟨name, .collect trees closed⟩ → s.isSinkAlive id →
          ∀ tree ∈ trees, tree.handle.isSome →
            Pool.isHeld (s.surroundings engine).held tree) ∧
      ∀ es : List Event,
        let trees := submitted (m.assembler.trail (s.occurrences es))
        s.Collects trees (es.foldl event s) ∧
          trees.map (·.handle) = (List.range' s.nextTree trees.length).map some := by
  refine ⟨fun os => ⟨fun k => frozen_of_trail capacity os, fun k m => spares_of_moment⟩,
    fun s m engine hm hengine => ⟨?_, collects_run hm hengine⟩⟩
  intro id name trees closed hsink halive tree htree hhandle
  exact held_of_collected hsink halive htree hhandle

/-- A trace with an inner trace, a short call around another one, and a discarded call that has an
inner trace and a forced call. -/
def sharedTraces : List Event :=
  [.enter 1 1 1 0, .begin 7 0 (.single .dropInterim), .enter 2 2 2 10, .begin 8 0 ∅, .exit 40,
    .enter 3 3 3 50, .enter 4 4 4 51, .exit 70, .exit 71, .enter 5 5 5 80, .enter 6 6 6 80,
    .markFrame (.single .forced), .exit 81, .enter 7 7 7 81, .begin 9 0 ∅,
    .markFrame (.single .forced), .exit 82, .exit 83, .exit 300]

def sharedConfig : Config := { minTraceTime := 0, minMethodTime := 5 }

def sharedRun : List Occurrence :=
  sharedTraces.zipIdx.map fun (event, k) =>
    { env := { thresholds := .ofConfig sharedConfig, held := fun _ => true, handle := k }, event }

def collectingEngine : Engine := { Engine.ofConfig sharedConfig with sinks := [0] }

def collecting : Session :=
  { singleUse sharedConfig with
    engines := [collectingEngine]
    sinks := [⟨"k", .collect [{ handle := some 0 }] false⟩]
    sinkNames := [("k", 0, true)]
    nextTree := 1 }

theorem delivered_trees_frozen_of_sharedTraces :
    let ms := (new 3).trail sharedRun
    let run := (new 0).trail (collecting.occurrences sharedTraces)
    (∃ d d', delivery? ms 4 = some d ∧ delivery? ms 18 = some d' ∧ d.tree.handle = some 4 ∧
      (⟨2, 4⟩, d.tree) ∈ d'.nodes) ∧
    (∃ m, ms[8]? = some m ∧ ∃ q q', m.Promotes ms 8 q q') ∧
    (∃ m d, ms[17]? = some m ∧ delivery? ms 16 = some d ∧
      (m.recycled ms 17).map (·.1) = [⟨10, 12⟩] ∧ ∀ q ∈ m.recycled ms 17, q.1 ∉ d.calls.spans) ∧
    Pool.isHeld (collecting.surroundings collectingEngine).held { handle := some 0 } ∧
    (submitted run).map (·.handle) = [some 1, some 2, some 3] ∧
    ∃ trees ⊆ submitted run, (sharedTraces.foldl event collecting).sinks[0]? =
      some ⟨"k", .collect ([{ handle := some 0 }] ++ trees) false⟩ := by
  intro ms run
  obtain ⟨hruns, hsessions⟩ := delivered_trees_frozen 3
  obtain ⟨hfrozen, hspares⟩ := hruns sharedRun
  obtain ⟨hheld, hcollects⟩ := hsessions collecting _ collectingEngine rfl rfl
  obtain ⟨hkept, hnumbered⟩ := hcollects sharedTraces
  have hlength : (submitted run).length = 3 := by decide +kernel
  obtain ⟨trees, htrees, hgiven⟩ := hkept 0 "k" _ false rfl
  refine ⟨?_, ?_, ?_, hheld 0 "k" _ false rfl rfl _ (by simp) rfl, ?_, trees, hgiven, htrees⟩
  · obtain ⟨d, hd, hown⟩ := Option.map_eq_some_iff.mp
      (show (delivery? ms 4).map (fun d => (d.calls.own, d.tree.handle)) =
        some (⟨2, 4⟩, some 4) by decide +kernel)
    obtain ⟨d', hd', hin⟩ := Option.map_eq_some_iff.mp
      (show (delivery? ms 18).map (fun d => decide (⟨2, 4⟩ ∈ d.calls.spans)) = some true by
        decide +kernel)
    have hfinal := hfrozen 19 (by decide)
    have hmem := of_decide_eq_true hin
    rw [← (hfinal.formed 18 (by decide) d' hd').calls] at hmem
    obtain ⟨q', hq', hsame⟩ := List.mem_map.mp hmem
    have hroot : (d.calls.own, d.tree) ∈ d.nodes := by
      rw [Delivery.nodes]
      cases d.calls
      exact List.mem_cons_self
    obtain ⟨hown, hhandle⟩ := Prod.mk.inj hown
    rw [hown] at hroot
    have heq := hfinal.passed 18 (by decide) 4 (by decide) d d' hd hd' _ hroot q' hq' hsame.symm
    exact ⟨d, d', hd, hd', hhandle, heq ▸ hq'⟩
  · obtain ⟨q, -, q', -, -, hpromotes⟩ := (hspares 8 _ rfl).promoted rfl _ rfl
    exact ⟨_, rfl, q, q', hpromotes⟩
  · obtain ⟨d, hd, hhandle⟩ := Option.map_eq_some_iff.mp
      (show (delivery? ms 16).map (·.tree.handle) = some (some 16) by decide +kernel)
    obtain ⟨m, hm, hpair⟩ := Option.map_eq_some_iff.mp
      (show ms[17]?.map (fun m => ((m.recycled ms 17).map (·.1), m.env.held 16)) =
        some ([⟨10, 12⟩], true) by decide +kernel)
    obtain ⟨hrecycled, hheld⟩ := Prod.mk.inj hpair
    have htree : Pool.isHeld m.env.held d.tree := by
      rw [Pool.isHeld, hhandle]
      exact hheld
    exact ⟨m, d, hm, hd, hrecycled, (hspares 17 m hm).recycled 16 (by decide) d hd htree⟩
  · rw [hlength] at hnumbered
    exact hnumbered

end CallTree
