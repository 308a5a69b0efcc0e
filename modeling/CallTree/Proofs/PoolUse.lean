import CallTree.Proofs.Reclaiming
import CallTree.Proofs.Recycling

/-!
What a run asks of its pool. Every node that was given back is idle, or was handed out again, or
came when the pool was full, and the idle ones are as good as new.
-/
namespace CallTree
open Assembler

namespace Pool

inductive Use where
  | acquire
  | put (n : Node)

def use (p : Pool) : Use → Pool
  | .acquire => p.acquire.2
  | .put n => p.put n

def isFull (p : Pool) : Bool := p.capacity ≤ p.available

def turnsAway (p : Pool) : Use → Bool
  | .acquire => false
  | .put _ => p.isFull

def turnedAway (p : Pool) : List Use → Nat
  | [] => 0
  | u :: us => (p.turnsAway u).toNat + (p.use u).turnedAway us

/-- The idle nodes are as good as new, and no more than there is room for. A pool is disabled only
if there is none. -/
structure Regular (p : Pool) : Prop where
  enabled : p.enabled = decide (0 < p.capacity)
  bounded : p.available ≤ p.capacity
  clean : p.Clean

theorem regular_ofCapacity (capacity : Nat) : (ofCapacity capacity).Regular where
  enabled := rfl
  bounded := Nat.zero_le capacity
  clean := by simp [Pool.Clean, ofCapacity]

/-- What uses make of a pool: the same room, and the nodes that were given back are idle, were
handed out again or found no room. A pool without room has none to hand out. -/
structure Used (p : Pool) (us : List Use) (q : Pool) : Prop where
  regular : q.Regular
  capacity : q.capacity = p.capacity
  balance : q.available + q.hits + p.turnedAway us + p.released =
    p.available + p.hits + q.released
  hits : p.capacity = 0 → q.hits = p.hits

variable {p : Pool}

theorem acquire_eq : p.acquire.2 = { p with
    idle := p.idle.tail
    hits := p.hits + min 1 p.available
    misses := p.misses + (1 - p.available) } := by
  unfold acquire available
  cases hidle : p.idle with
  | nil => simp
  | cons n ns => simp

theorem Regular.acquire (h : p.Regular) : Used p [.acquire] p.acquire.2 := by
  have hbounded := h.bounded
  have hclean := h.clean.acquire.2
  have havailable : p.idle.tail.length = p.available - 1 := List.length_tail
  rw [acquire_eq] at hclean ⊢
  refine ⟨⟨h.enabled, ?_, hclean⟩, rfl, ?_, fun hnone => ?_⟩
  · show p.idle.tail.length ≤ p.capacity
    omega
  · show p.idle.tail.length + (p.hits + min 1 p.available) + 0 + p.released =
      p.available + p.hits + p.released
    omega
  · show p.hits + min 1 p.available = p.hits
    omega

theorem Regular.available_put (h : p.Regular) (n : Node) :
    (p.put n).available + p.isFull.toNat = p.available + 1 := by
  have havailable : (p.takeBack 1).available =
      (if p.enabled then min 1 (p.capacity - p.available) else 0) + p.available := by
    simp [takeBack, available]
  rw [put_eq, havailable, h.enabled]
  -- A disabled pool has no room, so that it is full says all.
  cases hfull : p.isFull with
  | true =>
    have hle : p.capacity ≤ p.available := by simpa [isFull] using hfull
    simp only [Nat.sub_eq_zero_of_le hle, Nat.min_zero, ite_self, Bool.toNat_true]
    omega
  | false =>
    have hlt : p.available < p.capacity := by simpa [isFull] using hfull
    have hpos : 0 < p.capacity := by omega
    simp only [hpos, decide_true, ↓reduceIte, Bool.toNat_false]
    omega

theorem Regular.put (h : p.Regular) (n : Node) : Used p [.put n] (p.put n) := by
  have hclean := h.clean.put n
  have hbounded := h.bounded
  have havailable := h.available_put n
  have hroom : p.isFull = false → p.available < p.capacity := by simp [isFull]
  rw [put_eq] at hclean havailable ⊢
  refine ⟨⟨h.enabled, ?_, hclean⟩, rfl, ?_, fun _ => rfl⟩
  · show (p.takeBack 1).available ≤ p.capacity
    cases hfull : p.isFull with
    | true =>
      rw [hfull, Bool.toNat_true] at havailable
      omega
    | false =>
      have := hroom hfull
      rw [hfull, Bool.toNat_false] at havailable
      omega
  · show (p.takeBack 1).available + p.hits + p.isFull.toNat + p.released =
      p.available + p.hits + (p.released + 1)
    omega

theorem Regular.use (h : p.Regular) (u : Use) : Used p [u] (p.use u) := by
  cases u with
  | acquire => exact h.acquire
  | put n => exact h.put n

theorem Regular.uses (h : p.Regular) (us : List Use) : Used p us (us.foldl Pool.use p) := by
  induction us generalizing p with
  | nil => exact ⟨h, rfl, by simp [turnedAway], fun _ => rfl⟩
  | cons u us ih =>
    have first := h.use u
    have rest := ih first.regular
    refine ⟨rest.regular, rest.capacity.trans first.capacity, ?_, fun hnone => ?_⟩
    · have hfirst := first.balance
      have hrest := rest.balance
      simp only [turnedAway] at hfirst ⊢
      simp only [List.foldl_cons]
      omega
    · exact (rest.hits (first.capacity.trans hnone)).trans (first.hits hnone)

theorem foldl_use_put (ns : List Node) : (ns.map .put).foldl use p = ns.foldl Pool.put p := by
  rw [List.foldl_map]
  rfl

end Pool

/-! ### What an event asks of the pool -/

/-- What a closed call asks of the pool. The last one open leaves its slot to another node. -/
def Assembler.Fate.uses (held : Nat → Bool) (n : Node) (alone : Bool) : Fate → List Pool.Use
  | .discard => ((n.freeChildren held).flatMap (Node.loose held)).map .put
  | .leave => if alone then [.acquire] else []
  | .reject => (n.loose held).map .put
  | .attach => []
  | .elide _ => [.put { n with children := [] }]

theorem Assembler.carryOut_uses (held : Nat → Bool) (a : Assembler) (n : Node) {f : Fate}
    (hf : a.ancestors = [] → f = .discard ∨ f = .leave) :
    (carryOut held a n f).pool = (f.uses held n a.ancestors.isEmpty).foldl Pool.use a.pool := by
  have hdiscard : (carryOut held a n .discard).pool =
      (Fate.uses held n a.ancestors.isEmpty .discard).foldl Pool.use a.pool := by
    rw [Fate.uses, Pool.foldl_use_put]
    exact Pool.reclaim_loose a.pool n.children
  cases h : a.ancestors with
  | nil =>
    rcases hf h with rfl | rfl
    · exact h ▸ hdiscard
    · simp [carryOut, h, Fate.uses, Pool.use]
  | cons parent rest =>
    cases f with
    | discard => exact h ▸ hdiscard
    | leave => simp [carryOut, h, Fate.uses]
    | reject =>
      rw [Fate.uses, Pool.foldl_use_put, ← Pool.release_loose]
      simp [carryOut, h]
    | attach => simp [carryOut, h, Fate.uses]
    | elide child => simp [carryOut, h, Fate.uses, Pool.release_eq, Pool.reclaim, Pool.use]

namespace Moment

/-- What an event asks of the pool: a node for a call that is entered above an open one, and room
for what a closing call leaves behind. -/
def uses (m : Moment) : List Pool.Use :=
  match m.kind with
  | .enters => if m.before.top.isBusy then [.acquire] else []
  | .closes => m.vacated.map .put ++ m.fate.uses m.env.held m.settled.node m.outer.isEmpty
  | _ => []

theorem pool_after {m : Moment} (h : m.before.Sound) :
    m.after.pool = m.uses.foldl Pool.use m.before.pool := by
  cases hk : m.kind with
  | enters =>
    obtain ⟨classId, methodId, signatureId, time, hevent, -⟩ := Moment.enters_spec h hk
    have hafter : m.after.pool = m.before.push.pool := by
      obtain ⟨hon, -⟩ := enter_of_kind hk
      simp [Moment.after, hevent, step, hon, handle, enter]
    rw [hafter, uses, hk, push]
    cases m.before.top.isBusy <;> rfl
  | closes =>
    have hempty : (m.around.modifyHead (rollUp m.closing.frame)).isEmpty = m.outer.isEmpty := by
      have hlength := m.around_touched.length_eq
      cases haround : m.around <;> cases houter : m.outer <;> simp_all
    rw [pool_of_closes h hk, carryOut_uses, uses, hk, hempty, List.foldl_append,
      Pool.foldl_use_put]
    exact fun hnil => Moment.fate_of_alone (List.modifyHead_eq_nil_iff.mp hnil)
  | begins =>
    obtain ⟨traceId, clock, flags, -, -, hafter⟩ := Moment.begins_spec hk
    rw [hafter, uses, hk]
    rfl
  | other =>
    rw [uses, hk]
    exact (Moment.other_spec hk).touches.pool

end Moment

def poolUses (capacity : Nat) (os : List Occurrence) : List Pool.Use :=
  .acquire :: ((new capacity).trail os).flatMap Moment.uses

theorem Assembler.Sound.pool_after {a : Assembler} (h : a.Sound) (os : List Occurrence) :
    (a.after os).pool = ((a.trail os).flatMap Moment.uses).foldl Pool.use a.pool := by
  induction os generalizing a with
  | nil => rfl
  | cons o os ih =>
    have hstep := Moment.pool_after (m := ⟨o, a⟩) h
    rw [Assembler.trail, List.flatMap_cons, List.foldl_append, ← hstep]
    exact ih (h.step o.env o.event)

/-- The pool of a run is what the run's uses make of it. Idle nodes are as good as new, and no more
than there is room for. With the hits they come to no more than was given back, and to just that
unless a node found the pool full. A pool without room hands nothing out again. -/
theorem pool_balanced (capacity : Nat) (os : List Occurrence) :
    let start := Pool.ofCapacity capacity
    let uses := poolUses capacity os
    let p := ((new capacity).after os).pool
    p = uses.foldl Pool.use start ∧
    (∀ n ∈ p.idle, n = {}) ∧
    p.capacity = capacity ∧ p.available ≤ capacity ∧
    p.available + p.hits ≤ p.released ∧
    (p.enabled → (p.available + p.hits = p.released ↔ start.turnedAway uses = 0)) ∧
    (capacity = 0 → p.available = 0 ∧ p.hits = 0) := by
  intro start uses p
  have hp : p = uses.foldl Pool.use start := (sound_new capacity).pool_after os
  have hstart : start.Regular := Pool.regular_ofCapacity capacity
  have hused : Pool.Used start uses p := hp ▸ hstart.uses uses
  have hcapacity : p.capacity = capacity := hused.capacity
  have hbounded : p.available ≤ p.capacity := hused.regular.bounded
  -- The inequality and its case of equality are both read off this balance.
  have hbalance : p.available + p.hits + start.turnedAway uses = p.released :=
    hused.balance.trans (Nat.zero_add _)
  refine ⟨hp, hused.regular.clean, hcapacity, hcapacity ▸ hbounded, by omega, fun _ => by omega,
    fun hnone => ⟨by omega, hused.hits hnone⟩⟩

/-- A trace that is dropped with calls kept below it, among them one with a trace of its own, and
two calls that are discarded. -/
def droppedTrace : List Occurrence :=
  occurrences { minTraceTime := 10000, minMethodTime := 5 }
    [.enter 1 1 1 0, .begin 7 0 ∅, .enter 2 2 2 1, .begin 8 0 (.single .drop), .enter 3 3 3 2,
      .exit 12, .enter 4 4 4 13, .exit 14, .exit 14, .enter 5 5 5 20, .exit 21, .exit 1000]

theorem pool_balanced_of_droppedTrace :
    let pool (capacity : Nat) := ((new capacity).after droppedTrace).pool
    let turnedAway (capacity : Nat) :=
      (Pool.ofCapacity capacity).turnedAway (poolUses capacity droppedTrace)
    ((pool 3).enabled ∧ turnedAway 3 = 0 ∧ (pool 3).hits = 1 ∧
      (pool 3).available + (pool 3).hits = (pool 3).released) ∧
    ((pool 2).enabled ∧ turnedAway 2 = 1 ∧
      (pool 2).available + (pool 2).hits ≠ (pool 2).released) ∧
    (pool 0).released = 4 ∧ (pool 0).available = 0 ∧ (pool 0).hits = 0 := by
  intro pool turnedAway
  have hroom : turnedAway 3 = 0 := by decide +kernel
  have hfull : turnedAway 2 = 1 := by decide +kernel
  obtain ⟨-, -, -, -, -, hthree, -⟩ := pool_balanced 3 droppedTrace
  obtain ⟨-, -, -, -, -, htwo, -⟩ := pool_balanced 2 droppedTrace
  obtain ⟨-, -, -, -, -, -, hnone⟩ := pool_balanced 0 droppedTrace
  refine ⟨⟨by decide +kernel, hroom, by decide +kernel, (hthree (by decide +kernel)).mpr hroom⟩,
    ⟨by decide +kernel, hfull, fun heq => ?_⟩, by decide +kernel, hnone rfl⟩
  have hkept : turnedAway 2 = 0 := (htwo (by decide +kernel)).mp heq
  omega

end CallTree
