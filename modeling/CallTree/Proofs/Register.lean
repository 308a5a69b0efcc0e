import CallTree.Proofs.Run

/-!
The register of a run: which event entered each open call, which one opened its trace, and which
calls are kept below it. Every tree that is submitted depicts a tree of registered calls.
-/
namespace CallTree
open Assembler

/-- A call of a run, named by the events that entered and closed it. -/
structure Span where
  entered : Nat
  closed : Nat
deriving DecidableEq

/-- A tree of calls. A node has its own call and the outermost one whose place it took. -/
inductive SpanTree where
  | node (own outer : Span) (inner : List SpanTree)

namespace SpanTree

def own : SpanTree → Span
  | .node own _ _ => own

def outer : SpanTree → Span
  | .node _ outer _ => outer

def widen (s : Span) : SpanTree → SpanTree
  | .node own _ inner => .node own s inner

@[simp] theorem own_widen (s : Span) (t : SpanTree) : (t.widen s).own = t.own := by
  cases t
  rfl

@[simp] theorem outer_widen (s : Span) (t : SpanTree) : (t.widen s).outer = s := by
  cases t
  rfl

end SpanTree

/-- An open call, by the events that entered it and opened its trace. -/
structure OpenCall where
  entered : Nat
  begun : Option Nat := none
  kept : List SpanTree := []

structure Register where
  calls : List OpenCall := []
  waiting : Option Nat := none

def OpenCall.keep (c : OpenCall) (i : Nat) : Fate → OpenCall → OpenCall
  | .attach, p => { p with kept := p.kept ++ [.node ⟨c.entered, i⟩ ⟨c.entered, i⟩ c.kept] }
  | .elide _, p => { p with kept := p.kept ++ c.kept.map (·.widen ⟨c.entered, i⟩) }
  | _, p => p

namespace Register

def next (r : Register) (m : Moment) (i : Nat) : Register :=
  match m.kind with
  | .enters => ⟨⟨i, r.waiting, []⟩ :: r.calls, none⟩
  | .closes =>
    match r.calls with
    | [] => r
    | c :: cs => ⟨cs.modifyHead (c.keep i m.fate), none⟩
  | .begins =>
    if m.before.top.isBusy then { r with calls := r.calls.modifyHead ({ · with begun := some i }) }
    else { r with waiting := some i }
  | .other => r

end Register

def register (ms : List Moment) : Register :=
  ms.zipIdx.foldl (fun r (m, i) => r.next m i) {}

/-- The events that entered the open calls, the latest first. -/
def stack (ms : List Moment) : List Nat := (register ms).calls.map (·.entered)

theorem register_succ {ms : List Moment} {k : Nat} {m : Moment} (hm : ms[k]? = some m) :
    register (ms.take (k + 1)) = (register (ms.take k)).next m k := by
  have hlength : (ms.take k).length = k :=
    List.length_take_of_le (Nat.le_of_lt (List.getElem?_eq_some_iff.mp hm).1)
  rw [List.take_add_one, hm]
  simp [register, List.zipIdx_append, List.foldl_append, hlength]

theorem take_succ_of_none {ms : List Moment} {k : Nat} (hm : ms[k]? = none) :
    ms.take (k + 1) = ms.take k := by
  rw [List.take_add_one, hm, Option.toList_none, List.append_nil]

theorem stack_succ {ms : List Moment} {k : Nat} {m : Moment} (hm : ms[k]? = some m) :
    stack (ms.take (k + 1)) = match m.kind with
      | .enters => k :: stack (ms.take k)
      | .closes => (stack (ms.take k)).tail
      | _ => stack (ms.take k) := by
  simp only [stack, register_succ hm]
  generalize register (ms.take k) = r
  cases hk : m.kind with
  | enters => simp only [Register.next, hk, List.map_cons]
  | closes =>
    simp only [Register.next, hk]
    cases hcs : r.calls with
    | nil => simp [hcs]
    | cons c cs =>
      cases cs with
      | nil => rfl
      | cons p ps => cases m.fate <;> rfl
  | begins =>
    simp only [Register.next, hk]
    split
    · cases r.calls <;> rfl
    · rfl
  | other => simp only [Register.next, hk]

theorem register_induction {ms : List Moment} {P : Nat → List OpenCall → Prop}
    (empty : ∀ k, P k [])
    (later : ∀ k cs, (∀ m, ms[k]? = some m → m.kind ≠ .closes) → P k cs → P (k + 1) cs)
    (enters : ∀ k begun cs, P k cs → P (k + 1) (⟨k, begun, []⟩ :: cs))
    (closes : ∀ k m c cs, ms[k]? = some m → m.kind = .closes →
      stack (ms.take k) = c.entered :: cs.map (·.entered) → P k (c :: cs) →
        P (k + 1) (cs.modifyHead (c.keep k m.fate)))
    (begins : ∀ k begun c cs, P k (c :: cs) → P k ({ c with begun } :: cs)) (k : Nat) :
    P k (register (ms.take k)).calls := by
  induction k with
  | zero => exact empty 0
  | succ k ih =>
    cases hm : ms[k]? with
    | none =>
      rw [take_succ_of_none hm]
      exact later k _ (by simp [hm]) ih
    | some m =>
      have hlater (hk : m.kind ≠ .closes) {cs : List OpenCall} (h : P k cs) : P (k + 1) cs := by
        refine later k cs (fun m' hm' => ?_) h
        rw [hm] at hm'
        rwa [← Option.some.inj hm']
      have hstack : stack (ms.take k) = (register (ms.take k)).calls.map (·.entered) := rfl
      rw [register_succ hm]
      generalize register (ms.take k) = r at ih hstack
      cases hk : m.kind with
      | enters =>
        simp only [Register.next, hk]
        exact enters k _ _ ih
      | closes =>
        simp only [Register.next, hk]
        cases hcs : r.calls with
        | nil =>
          simp only [hcs]
          exact empty (k + 1)
        | cons c cs =>
          rw [hcs] at ih hstack
          exact closes k m c cs hm hk hstack ih
      | begins =>
        simp only [Register.next, hk]
        split
        · cases hcs : r.calls with
          | nil => exact empty (k + 1)
          | cons c cs =>
            rw [hcs] at ih
            exact hlater (by simp [hk]) (begins k (some k) c cs ih)
        · exact hlater (by simp [hk]) ih
      | other =>
        simp only [Register.next, hk]
        exact hlater (by simp [hk]) ih

/-- One event closed the call that the other one entered. -/
def Span.IsCall (ms : List Moment) (s : Span) : Prop :=
  ∃ m, ms[s.closed]? = some m ∧ m.kind = .closes ∧ (stack (ms.take s.closed)).head? = some s.entered

/-! ### Trees of calls and trees of nodes -/

mutual

/-- Node by node the tree has what `R` says of the calls, each below the call that called it and
after its elder siblings. -/
def SpanTree.Depicts (R : Span → Span → Frame → Prop) (ms : List Moment) :
    SpanTree → Node → Prop
  | .node own outer inner, n =>
    R own outer n.frame ∧ SpanTree.DepictAll R ms own.entered inner n.children

def SpanTree.DepictAll (R : Span → Span → Frame → Prop) (ms : List Moment) (caller : Nat) :
    List SpanTree → List Node → Prop
  | [], [] => True
  | t :: ts, n :: ns =>
    (stack (ms.take t.outer.entered)).head? = some caller ∧ t.Depicts R ms n ∧
      (∀ s ∈ ts, t.outer.closed < s.outer.entered) ∧ SpanTree.DepictAll R ms caller ts ns
  | _, _ => False

end

namespace SpanTree

variable {R : Span → Span → Frame → Prop} {ms : List Moment}

theorem DepictAll.concat {caller : Nat} {ts : List SpanTree} {ns : List Node}
    (h : DepictAll R ms caller ts ns) {t : SpanTree} {n : Node}
    (hcaller : (stack (ms.take t.outer.entered)).head? = some caller) (ht : t.Depicts R ms n)
    (hlate : ∀ s ∈ ts, s.outer.closed < t.outer.entered) :
    DepictAll R ms caller (ts ++ [t]) (ns ++ [n]) := by
  induction ts generalizing ns with
  | nil =>
    cases ns with
    | nil => simp [DepictAll, hcaller, ht]
    | cons => simp [DepictAll] at h
  | cons s ts ih =>
    cases ns with
    | nil => simp [DepictAll] at h
    | cons m ns =>
      simp only [DepictAll] at h
      obtain ⟨hs, hm, hts, hrest⟩ := h
      simp only [List.cons_append, DepictAll]
      refine ⟨hs, hm, ?_, ih hrest fun s' hs' => hlate s' (by simp [hs'])⟩
      intro s' hs'
      rcases List.mem_append.mp hs' with hs' | hs'
      · exact hts s' hs'
      · rw [List.mem_singleton.mp hs']
        exact hlate s (by simp)

theorem DepictAll.singleton {caller : Nat} {ts : List SpanTree} {n : Node}
    (h : DepictAll R ms caller ts [n]) : ∃ t, ts = [t] ∧ t.Depicts R ms n := by
  cases ts with
  | nil => simp [DepictAll] at h
  | cons t ts =>
    cases ts with
    | nil => exact ⟨t, rfl, by simpa [DepictAll] using h.2.1⟩
    | cons => simp [DepictAll] at h

end SpanTree

/-! ### The order of the register -/

structure SpanTree.Inside (lo hi : Nat) (t : SpanTree) : Prop where
  entered : lo < t.outer.entered
  inner : t.outer.entered ≤ t.own.entered
  closed : t.own.closed ≤ t.outer.closed
  done : t.outer.closed < hi

theorem SpanTree.Inside.mono {lo hi hi' : Nat} {t : SpanTree} (h : t.Inside lo hi)
    (hhi : hi ≤ hi') : t.Inside lo hi' :=
  ⟨h.entered, h.inner, h.closed, Nat.lt_of_lt_of_le h.done hhi⟩

namespace Register

def Quiet (ms : List Moment) (b k : Nat) : Prop :=
  ∀ j m, b < j → j < k → ms[j]? = some m → m.kind ≠ .enters

theorem Quiet.succ {ms : List Moment} {b k : Nat} (h : Quiet ms b k) {m : Moment}
    (hm : ms[k]? = some m) (hk : m.kind ≠ .enters) : Quiet ms b (k + 1) := by
  intro j m' hb hj hm'
  by_cases hlast : j = k
  · subst hlast
    rw [hm] at hm'
    rwa [← Option.some.inj hm']
  · exact h j m' hb (by omega) hm'

/-- Each call was entered below those around it, and all that concerns one of these was over
before. A trace is opened on the innermost call or for the next one to be entered. -/
def Nested (ms : List Moment) : Nat → List OpenCall → Prop
  | _, [] => True
  | hi, c :: cs =>
    c.entered < hi ∧ stack (ms.take c.entered) = cs.map (·.entered) ∧
      (∀ b ∈ c.begun, b < hi ∧ Quiet ms b c.entered) ∧
      (∀ t ∈ c.kept, t.Inside c.entered hi) ∧ Nested ms c.entered cs

theorem Nested.mono {ms : List Moment} {hi hi' : Nat} {cs : List OpenCall} (h : Nested ms hi cs)
    (hhi : hi ≤ hi') : Nested ms hi' cs := by
  cases cs with
  | nil => trivial
  | cons c cs =>
    obtain ⟨hc, hstack, hbegun, hkept, hrest⟩ := h
    exact ⟨Nat.lt_of_lt_of_le hc hhi, hstack,
      fun b hb => ⟨Nat.lt_of_lt_of_le (hbegun b hb).1 hhi, (hbegun b hb).2⟩,
      fun t ht => (hkept t ht).mono hhi, hrest⟩

theorem inside_keep {c p : OpenCall} {i : Nat} (hc : c.entered < i) (hp : p.entered < c.entered)
    (hck : ∀ t ∈ c.kept, t.Inside c.entered i) (hpk : ∀ t ∈ p.kept, t.Inside p.entered c.entered)
    (f : Fate) : ∀ t ∈ (c.keep i f p).kept, t.Inside p.entered (i + 1) := by
  have hold : ∀ t ∈ p.kept, t.Inside p.entered (i + 1) := fun t ht => (hpk t ht).mono (by omega)
  cases f with
  | attach =>
    intro t ht
    rcases List.mem_append.mp ht with ht | ht
    · exact hold t ht
    · rw [List.mem_singleton.mp ht]
      exact ⟨hp, Nat.le_refl _, Nat.le_refl _, Nat.lt_succ_self i⟩
  | elide child =>
    intro t ht
    rcases List.mem_append.mp ht with ht | ht
    · exact hold t ht
    · obtain ⟨s, hs, rfl⟩ := List.mem_map.mp ht
      obtain ⟨hentered, hinner, hclosed, hdone⟩ := hck s hs
      refine ⟨?_, ?_, ?_, ?_⟩ <;>
        simp only [SpanTree.outer_widen, SpanTree.own_widen] <;> omega
  | _ => exact hold

theorem keep_entered (c p : OpenCall) (i : Nat) (f : Fate) :
    (c.keep i f p).entered = p.entered ∧ (c.keep i f p).begun = p.begun := by
  cases f <;> exact ⟨rfl, rfl⟩

theorem keep_calls (c : OpenCall) (i : Nat) (f : Fate) (cs : List OpenCall) :
    (cs.modifyHead (c.keep i f)).map (fun c => (c.entered, c.begun)) =
      cs.map fun c => (c.entered, c.begun) := by
  cases cs with
  | nil => rfl
  | cons p ps => simp [keep_entered c p i f]

def Orderly (ms : List Moment) (k : Nat) (r : Register) : Prop :=
  Nested ms k r.calls ∧ ∀ b ∈ r.waiting, b < k ∧ Quiet ms b k

theorem Orderly.next {ms : List Moment} {k : Nat} {m : Moment} (hm : ms[k]? = some m)
    {r : Register} (h : r.Orderly ms k) (hstack : stack (ms.take k) = r.calls.map (·.entered)) :
    (r.next m k).Orderly ms (k + 1) := by
  obtain ⟨calls, waiting⟩ := r
  obtain ⟨hcalls, hwaiting⟩ := h
  have hlater (hk : m.kind ≠ .enters) : ∀ b ∈ waiting, b < k + 1 ∧ Quiet ms b (k + 1) :=
    fun b hb => ⟨Nat.lt_succ_of_lt (hwaiting b hb).1, (hwaiting b hb).2.succ hm hk⟩
  unfold Register.next
  cases hk : m.kind with
  | enters =>
    exact ⟨⟨Nat.lt_succ_self k, hstack,
      fun b hb => ⟨Nat.lt_succ_of_lt (hwaiting b hb).1, (hwaiting b hb).2⟩, by simp, hcalls⟩,
      by simp⟩
  | closes =>
    cases calls with
    | nil => exact ⟨trivial, hlater (by simp [hk])⟩
    | cons c cs =>
      refine ⟨?_, by simp⟩
      obtain ⟨hc, -, -, hck, hrest⟩ := hcalls
      cases cs with
      | nil => trivial
      | cons p ps =>
        obtain ⟨hp, hpstack, hpbegun, hpk, hps⟩ := hrest
        have hkeep := keep_entered c p k m.fate
        simp only [List.modifyHead_cons, Nested, hkeep]
        refine ⟨by omega, hpstack, fun b hb => ⟨?_, (hpbegun b hb).2⟩, inside_keep hc hp hck hpk
          m.fate, hps⟩
        have hlt := (hpbegun b hb).1
        omega
  | begins =>
    dsimp only
    split
    · cases calls with
      | nil => exact ⟨trivial, hlater (by simp [hk])⟩
      | cons c cs =>
        obtain ⟨hc, hcstack, -, hck, hrest⟩ := hcalls
        refine ⟨⟨Nat.lt_succ_of_lt hc, hcstack, ?_, fun t ht => (hck t ht).mono (Nat.le_succ k),
          hrest⟩, hlater (by simp [hk])⟩
        intro b hb
        obtain rfl := Option.some.inj hb
        exact ⟨Nat.lt_succ_self k, fun j m hj hj' => by dsimp only at hj'; omega⟩
    · refine ⟨hcalls.mono (Nat.le_succ k), ?_⟩
      intro b hb
      obtain rfl := Option.some.inj hb
      exact ⟨Nat.lt_succ_self k, fun j m hj hj' => by omega⟩
  | other => exact ⟨hcalls.mono (Nat.le_succ k), hlater (by simp [hk])⟩

theorem orderly_of_trail (capacity : Nat) (os : List Occurrence) {k : Nat} (hk : k ≤ os.length) :
    (register (((new capacity).trail os).take k)).Orderly ((new capacity).trail os) k := by
  refine trail_induction capacity os (P := fun k _ =>
    (register (((new capacity).trail os).take k)).Orderly ((new capacity).trail os) k)
    ⟨trivial, by simp [register]⟩ (fun j m hm _ h => ?_) hk
  rw [register_succ hm]
  exact h.next hm rfl

end Register

end CallTree
