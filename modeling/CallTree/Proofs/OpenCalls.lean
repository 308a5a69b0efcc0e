import CallTree.Proofs.Slots

/-!
The open calls of an assembler, without the slots that only keep a place, and what entering a call
does to them. Idle nodes are as good as new, so it does not matter which one backs a call.
-/
namespace CallTree

namespace Pool

def Clean (p : Pool) : Prop := ∀ n ∈ p.idle, n = {}

theorem Clean.acquire {p : Pool} (h : p.Clean) : p.acquire.1 = {} ∧ p.acquire.2.Clean := by
  unfold Pool.acquire
  cases hidle : p.idle with
  | nil => exact ⟨rfl, fun n hn => by simp at hn⟩
  | cons n ns =>
    have hns : ∀ m ∈ n :: ns, m = {} := by rw [← hidle]; exact h
    exact ⟨hns n (by simp), fun m hm => hns m (by simp [show m ∈ ns from hm])⟩

theorem Clean.put {p : Pool} (h : p.Clean) (n : Node) : (p.put n).Clean := by
  unfold Pool.put
  dsimp only
  split
  · intro m hm
    rcases List.mem_cons.mp hm with rfl | hm
    · exact clean_eq n
    · exact h m hm
  · exact h

mutual

theorem Clean.release (held : Nat → Bool) {p : Pool} (h : p.Clean) :
    (n : Node) → (p.release held n).Clean
  | ⟨_, _, children⟩ => by
    unfold Pool.release
    exact Clean.reclaim held (h.put _) children

theorem Clean.reclaim (held : Nat → Bool) {p : Pool} (h : p.Clean) :
    (ns : List Node) → (p.reclaim held ns).Clean
  | [] => by
    unfold Pool.reclaim
    exact h
  | n :: ns => by
    unfold Pool.reclaim
    split
    · exact Clean.reclaim held h ns
    · exact Clean.reclaim held (Clean.release held h n) ns

end

end Pool

namespace Assembler

/-- The open calls, the innermost first. -/
def openCalls (a : Assembler) : List Node := if a.top.isBusy then a.slots else a.ancestors

/-- What the next call finds in its slot. -/
def awaited (a : Assembler) : Frame := if a.top.isBusy then {} else a.top.frame

structure Sound (a : Assembler) : Prop where
  busy : ∀ n ∈ a.ancestors, n.isBusy
  /-- A slot whose call is not entered yet has at most a trace, flags and attributes. -/
  vacant : a.top.isBusy = false → a.top = { frame := {
    flags := a.top.frame.flags
    attributes := a.top.frame.attributes
    marker := a.top.frame.marker } }
  placeholder : a.isPlaceholder → a.top = {}
  clean : a.pool.Clean

theorem openCalls_of_busy {a : Assembler} (h : a.top.isBusy) : a.openCalls = a.top :: a.ancestors :=
  if_pos h

theorem openCalls_of_vacant {a : Assembler} (h : a.top.isBusy = false) :
    a.openCalls = a.ancestors := by
  simp [openCalls, h]

theorem awaited_of_busy {a : Assembler} (h : a.top.isBusy) : a.awaited = {} := if_pos h

theorem openCalls_subset (a : Assembler) : a.openCalls ⊆ a.slots := by
  unfold openCalls
  split
  · exact List.Subset.refl _
  · exact List.subset_cons_self _ _

theorem length_openCalls (a : Assembler) : a.openCalls.length = a.depth := by
  unfold openCalls depth
  split <;> simp [slots]

theorem Sound.isBusy {a : Assembler} (h : a.Sound) : ∀ n ∈ a.openCalls, n.isBusy := by
  intro n hn
  cases ht : a.top.isBusy with
  | false =>
    rw [openCalls_of_vacant ht] at hn
    exact h.busy n hn
  | true =>
    rw [openCalls_of_busy ht] at hn
    rcases List.mem_cons.mp hn with rfl | hn
    · exact ht
    · exact h.busy n hn

theorem sound_new (capacity : Nat) : (new capacity).Sound where
  busy := by simp [new]
  vacant _ := rfl
  placeholder _ := rfl
  clean := by simp [new, Pool.Clean, Pool.ofCapacity, Pool.acquire]

theorem openCalls_new (capacity : Nat) : (new capacity).openCalls = [] := rfl

/-! ### Entering -/

def counts (a : Assembler) : Bool := 0 < a.nodeCount || a.awaited.isTraceRoot

def arrival (t : Thresholds) (classId methodId signatureId : SymbolId) (time : Nat)
    (a : Assembler) : Frame :=
  let f := { a.awaited with classId, methodId, signatureId, startTime := some time, calls := 1 }
  if a.counts && t.maxTraceRecords < a.nodeCount + 1 then f.mark (.single .overflow) else f

/-- A new call has what its slot was given before, and nothing of a call before it. -/
theorem arrival_eq {a : Assembler} (h : a.Sound) (t : Thresholds)
    (classId methodId signatureId : SymbolId) (time : Nat) : ∃ flags,
    a.arrival t classId methodId signatureId time = {
      classId, methodId, signatureId
      startTime := some time
      calls := 1
      flags
      attributes := a.awaited.attributes
      marker := a.awaited.marker } := by
  have hawaited : a.awaited = {
      flags := a.awaited.flags
      attributes := a.awaited.attributes
      marker := a.awaited.marker } := by
    cases ht : a.top.isBusy with
    | false =>
      simp only [awaited, ht]
      exact congrArg Node.frame (h.vacant ht)
    | true => simp [awaited, ht]
  simp only [arrival]
  rw [hawaited]
  split <;> exact ⟨_, rfl⟩

theorem push_eq {a : Assembler} (h : a.Sound) : ∃ pool : Pool, pool.Clean ∧
    a.push = { a with top := { frame := a.awaited }, ancestors := a.openCalls, pool } := by
  unfold push awaited openCalls
  cases ht : a.top.isBusy with
  | false =>
    refine ⟨a.pool, h.clean, ?_⟩
    have hv := h.vacant ht
    simp only [Bool.false_eq_true, ↓reduceIte]
    rw [show ({ frame := a.top.frame } : Node) = a.top by rw [hv]]
  | true =>
    refine ⟨a.pool.acquire.2, h.clean.acquire.2, ?_⟩
    simp only [↓reduceIte, slots]
    rw [h.clean.acquire.1]

private theorem enter_eq {a : Assembler} (h : a.Sound) (t : Thresholds)
    (classId methodId signatureId : SymbolId) (time : Nat) : ∃ pool : Pool, pool.Clean ∧
    (a.enter t classId methodId signatureId time).1 = {
      top := { frame := a.arrival t classId methodId signatureId time }
      ancestors := a.openCalls
      nodeCount := if a.counts then a.nodeCount + 1 else a.nodeCount
      enabled := a.enabled
      pool } := by
  obtain ⟨pool, hpool, hpush⟩ := push_eq h
  refine ⟨pool, hpool, ?_⟩
  have hcalls : a.awaited.calls = 0 := by
    cases ht : a.top.isBusy with
    | false =>
      simp only [awaited, ht]
      rw [h.vacant ht]
      rfl
    | true => simp [awaited, ht]
  unfold enter arrival counts
  rw [hpush]
  by_cases hin : (0 < a.nodeCount || a.awaited.isTraceRoot)
  · simp [hin, hcalls, Node.isTraceRoot, Node.mapFrame]
    split <;> simp_all
  · simp [hin, hcalls, Node.isTraceRoot, Node.mapFrame]

structure Entered (t : Thresholds) (classId methodId signatureId : SymbolId) (time : Nat)
    (a a' : Assembler) : Prop where
  sound : a'.Sound
  openCalls : a'.openCalls =
    { frame := a.arrival t classId methodId signatureId time } :: a.openCalls
  busy : a'.top.isBusy
  nodeCount : a'.nodeCount = if a.counts then a.nodeCount + 1 else a.nodeCount
  enabled : a'.enabled = a.enabled

theorem enter_entered {a : Assembler} (h : a.Sound) (t : Thresholds)
    (classId methodId signatureId : SymbolId) (time : Nat) :
    Entered t classId methodId signatureId time a
      (a.enter t classId methodId signatureId time).1 := by
  obtain ⟨pool, hpool, heq⟩ := enter_eq h t classId methodId signatureId time
  have hbusy : Node.isBusy { frame := a.arrival t classId methodId signatureId time } := by
    obtain ⟨flags, harrival⟩ := arrival_eq h t classId methodId signatureId time
    rw [harrival]
    rfl
  rw [heq]
  exact ⟨⟨h.isBusy, fun ht => by simp [hbusy] at ht, fun hp => by simp [isPlaceholder, hbusy] at hp,
    hpool⟩, openCalls_of_busy hbusy, hbusy, rfl, rfl⟩

end Assembler

end CallTree
