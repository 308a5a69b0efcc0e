import CallTree.Proofs.SideBySide

/-!
Two runs of the same events, the second of which keeps only longer calls. It submits trees for the
same traces, and its trees are those of the first run with whole subtrees missing: what is kept of a
call does not depend on what is kept below it.
-/
namespace CallTree
open Assembler

mutual

/-- The second tree is the first one without some of the subtrees below its root. -/
inductive Prunes : Node → Node → Prop
  | node {n n' : Node} (frame : n.frame.Echoes n'.frame)
    (children : PrunesAll n.children n'.children) : Prunes n n'

inductive PrunesAll : List Node → List Node → Prop
  | nil : PrunesAll [] []
  | drop (n : Node) {ns ns' : List Node} (h : PrunesAll ns ns') : PrunesAll (n :: ns) ns'
  | keep {n n' : Node} {ns ns' : List Node} (hn : Prunes n n') (h : PrunesAll ns ns') :
    PrunesAll (n :: ns) (n' :: ns')

end

theorem PrunesAll.append {ns ns' : List Node} : PrunesAll ns ns' → ∀ {ms ms' : List Node},
    PrunesAll ms ms' → PrunesAll (ns ++ ms) (ns' ++ ms')
  | .nil, _, _, h => h
  | .drop n hns, _, _, h => .drop n (hns.append h)
  | .keep hn hns, _, _, h => .keep hn (hns.append h)

variable {m m' : Moment}

theorem Frame.eliding_false (f : Frame) : f.eliding false = f := by
  have hmarker : f.marker.map (·.eliding false) = f.marker := by
    cases f.marker with
    | none => rfl
    | some marker => exact congrArg some marker.mark_empty
  rw [eliding, hmarker]

theorem Moment.Alongside.prunes (h : m.Alongside false PrunesAll m') :
    Prunes m.settled.node m'.settled.node := by
  have hframe := h.settled_frame
  rw [Frame.eliding_false] at hframe
  exact .node hframe h.settled_children

theorem Moment.Alongside.kept (h : m.Alongside false PrunesAll m')
    (hplain : (traceFlags (m.closing :: m.outer)).has .dropInterim = false)
    (hplain' : (traceFlags (m'.closing :: m'.outer)).has .dropInterim = false)
    (hle : m.env.thresholds.minMethodTime ≤ m'.env.thresholds.minMethodTime) :
    PrunesAll m.kept m'.kept := by
  have hretained : isRetained m'.env.thresholds m.closing.frame
        (traceFlags (m.closing :: m.outer)) →
      isRetained m.env.thresholds m.closing.frame (traceFlags (m.closing :: m.outer)) := by
    simp only [isRetained, Bool.or_eq_true, decide_eq_true_eq]
    rintro (((hlong | herror) | hforced) | hall)
    · exact .inl (.inl (.inl (Nat.lt_of_le_of_lt hle hlong)))
    · exact .inl (.inl (.inr herror))
    · exact .inl (.inr hforced)
    · exact .inr hall
  rw [m.kept_plain hplain, m'.kept_plain hplain', h.isTraceRoot, h.retained,
    h.flags (x := .overflow) (by simp) (by simp)]
  by_cases hkept' : (m.outer.any (·.isTraceRoot) && isRetained m'.env.thresholds m.closing.frame
    (traceFlags (m.closing :: m.outer)) && !m.closing.frame.flags.has .overflow)
  · rw [if_pos hkept', if_pos (by simp_all)]
    exact .keep h.prunes .nil
  · rw [if_neg hkept']
    split
    · exact .drop _ .nil
    · exact .nil

variable {t : Thresholds} {os os' : List Occurrence} {capacity capacity' k : Nat}

/-- Each trace is opened right after its call was entered. -/
def BeginsOnEntry (ms : List Moment) : Prop :=
  ∀ k m, ms[k]? = some m → m.event.isBegin →
    ∃ j m₀, k = j + 1 ∧ ms[j]? = some m₀ ∧ m₀.kind = .enters

theorem busy_of_entry {j : Nat} {m₀ : Moment} (hm₀ : ((new capacity).trail os)[j]? = some m₀)
    (hk : m₀.kind = .enters) (hm : ((new capacity).trail os)[j + 1]? = some m) :
    m.before.top.isBusy := by
  obtain ⟨_, _, _, _, -, hentered⟩ := Moment.enters_spec (sound_of_trail hm₀) hk
  rw [(before_of_trail hm).2, ← after_of_trail hm₀]
  exact hentered.busy

theorem enters_of_same (hsame : os.map (·.event) = os'.map (·.event))
    (hm : ((new capacity).trail os)[k]? = some m)
    (hm' : ((new capacity').trail os')[k]? = some m') (hk : m.kind = .enters) :
    m'.kind = .enters := by
  obtain ⟨hlt, hbefore⟩ := before_of_trail hm
  obtain ⟨-, hbefore'⟩ := before_of_trail hm'
  have henabled := (stack_of_same hsame capacity capacity' (Nat.le_of_lt hlt)).1
  have hevent : m.event = m'.event := by
    have heq := congrArg (·[k]?) hsame
    simpa [occurrence_of_trail hm, occurrence_of_trail hm'] using heq
  obtain ⟨hon, _, _, _, _, he⟩ := enter_of_kind hk
  rw [← hbefore, ← hbefore', hon] at henabled
  simp only [Moment.kind, Assembler.kind, ← henabled, ← hevent, he, if_true]

/-- The second run submits trees for the same traces, each the tree of the first run with some of
the subtrees below its root missing. -/
theorem trees_pruned (t : Thresholds) (longer : Nat) (capacity capacity' : Nat)
    (os os' : List Occurrence) (hevents : os.map (·.event) = os'.map (·.event))
    (hos : ∀ o ∈ os, o.env.thresholds = t)
    (hos' : ∀ o ∈ os', o.env.thresholds = { t with minMethodTime := longer })
    (hle : t.minMethodTime ≤ longer) (hdrop : t.dropInterim = false)
    (hflags : ∀ o ∈ os, o.event.markerFlags.has .dropInterim = false)
    (hroom : os.countP (·.event.isEnter) ≤ t.maxTraceRecords)
    (hbegins : BeginsOnEntry ((new capacity).trail os)) :
    ∀ (k : Nat) (m m' : Moment), ((new capacity).trail os)[k]? = some m →
      ((new capacity').trail os')[k]? = some m' → Option.Rel Prunes m.tree? m'.tree? := by
  have hruns : Runs t { t with minMethodTime := longer } os os' :=
    ⟨hevents, hos, hos', ⟨rfl, rfl, hdrop⟩, hroom, hroom⟩
  have hplain : ∀ o ∈ os, o.Plain := fun o ho => ⟨by rw [hos o ho, hdrop], hflags o ho⟩
  have hplain' : ∀ o ∈ os', o.Plain := fun o ho =>
    ⟨by rw [hos' o ho, hdrop], hruns.flags hflags o ho⟩
  have hmatches (k : Nat) (m m' : Moment) (hm : ((new capacity).trail os)[k]? = some m)
      (hm' : ((new capacity').trail os')[k]? = some m')
      (h : InStep false PrunesAll m.before m'.before) : m.Matches false PrunesAll m' := by
    have hmatch := hruns.matches (R := PrunesAll) hm hm'
    rw [hdrop] at hmatch
    refine hmatch h fun hbegin _ => ?_
    obtain ⟨j, m₀, rfl, hm₀, hk⟩ := hbegins k m hm hbegin
    have hlt : j < os'.length := by
      have hlt := (before_of_trail hm').1
      omega
    have hk' := enters_of_same hevents hm₀ (moment_of_trail (new capacity') hlt) hk
    rw [busy_of_entry hm₀ hk hm, busy_of_entry (moment_of_trail (new capacity') hlt) hk' hm']
  have hinStep {k : Nat} (hk : k ≤ os.length) : InStep false PrunesAll
      ((new capacity).after (os.take k)) ((new capacity').after (os'.take k)) := by
    refine both_induction hevents (inStep_new .nil) (fun k m m' hm hm' h => ?_) hk
    refine (hmatches k m m' hm hm' h).next .nil fun hcloses halong cs cs' hcs => hcs.append ?_
    refine halong.kept (traceFlags_closing hplain hm hcloses)
      (traceFlags_closing hplain' hm' ((hmatches k m m' hm hm' h).kind ▸ hcloses)) ?_
    rw [hos _ (List.mem_of_getElem? (occurrence_of_trail hm)),
      hos' _ (List.mem_of_getElem? (occurrence_of_trail hm'))]
    exact hle
  intro k m m' hm hm'
  obtain ⟨hlt, hbefore⟩ := before_of_trail hm
  have hmatch := hmatches k m m' hm hm' (by
    rw [hbefore, (before_of_trail hm').2]
    exact hinStep (Nat.le_of_lt hlt))
  exact hmatch.trees fun halong => halong.prunes

/-- A traced call with a longer and a shorter call in it, each of which has calls of its own. -/
def unevenBranches : List Event :=
  [.enter 1 1 1 0, .begin 7 0 ∅, .enter 2 2 2 10, .enter 3 3 3 20, .exit 30, .exit 200,
    .enter 4 4 4 210, .enter 5 5 5 220, .exit 240, .exit 260, .exit 900]

theorem trees_pruned_of_unevenBranches :
    let run (c : Config) := (new 0).trail (occurrences c unevenBranches)
    ∃ m m' tree tree', (run { minMethodTime := 5, minTraceTime := 0 })[10]? = some m ∧
      (run { minMethodTime := 50, minTraceTime := 0 })[10]? = some m' ∧
      m.tree? = some tree ∧ m'.tree? = some tree' ∧ Prunes tree tree' ∧
      tree.size = 5 ∧ tree'.size = 2 ∧ tree'.frame.calls = 5 := by
  intro run
  let c : Config := { minMethodTime := 5, minTraceTime := 0 }
  let c' : Config := { minMethodTime := 50, minTraceTime := 0 }
  have hbegins : BeginsOnEntry (run c) := by
    intro k m hm hbegin
    have hlt : k < 11 := (before_of_trail hm).1
    have ho := occurrence_of_trail hm
    rw [occurrences, List.getElem?_map] at ho
    obtain ⟨e, he, ho⟩ := Option.map_eq_some_iff.mp ho
    have hfirst : ∀ k < 11, unevenBranches[k]?.any (·.isBegin) → k = 1 := by decide
    obtain rfl := hfirst k hlt (by rw [he, Option.any_some, ← hbegin, ← ho])
    exact ⟨0, _, rfl, rfl, rfl⟩
  obtain ⟨m, hm⟩ : ∃ m, (run c)[10]? = some m := ⟨_, rfl⟩
  obtain ⟨m', hm'⟩ : ∃ m', (run c')[10]? = some m' := ⟨_, rfl⟩
  have hrel := trees_pruned (.ofConfig c) 50 0 0 (occurrences c unevenBranches)
    (occurrences c' unevenBranches) rfl (thresholds_occurrences c _) (thresholds_occurrences c' _)
    (by decide) rfl (by simp [occurrences, unevenBranches, Event.markerFlags]) (by decide) hbegins
    10 m m' hm hm'
  have hsize : m.tree?.map Node.size = some 5 := by
    have h : ((run c)[10]?.bind (·.tree?)).map Node.size = some 5 := by decide +kernel
    rwa [hm] at h
  have hsize' : m'.tree?.map (fun n => (n.size, n.frame.calls)) = some (2, 5) := by
    have h : ((run c')[10]?.bind (·.tree?)).map (fun n => (n.size, n.frame.calls)) =
      some (2, 5) := by decide +kernel
    rwa [hm'] at h
  obtain ⟨tree, htree, hsize⟩ := Option.map_eq_some_iff.mp hsize
  obtain ⟨tree', htree', hsize'⟩ := Option.map_eq_some_iff.mp hsize'
  obtain ⟨hnodes, hcalls⟩ := Prod.mk.inj hsize'
  rw [htree, htree', Option.rel_some_some] at hrel
  exact ⟨m, m', tree, tree', hm, hm', htree, htree', hrel, hsize, hnodes, hcalls⟩

end CallTree
