import CallTree.Sink.Queue
import Mathlib.Data.List.Basic

/-!
A queue under every schedule of those who offer trees, of the one who closes it and of the
consumer's thread. No accepted tree is lost or handed over twice, and closing ends with the
consumer having them all, in the order in which they were accepted.
-/
namespace CallTree

inductive QueueStep where
  | offer (tree : Node)
  /-- The consumer's thread reads whether the queue is closing, takes a tree or ends a batch. -/
  | work
  /-- Closing begins: from now on no tree is accepted. -/
  | shut
  /-- Closing ends, unless it has to go on waiting for the thread. -/
  | join

namespace QueueStep

def isWork : QueueStep → Bool
  | work => true
  | _ => false

def isShut : QueueStep → Bool
  | shut => true
  | _ => false

end QueueStep

def Worker.taken : Worker → Nat
  | .draining _ taken => taken
  | _ => 0

namespace Queue

def act (q : Queue) : QueueStep → Queue
  | .offer tree => (q.offer tree).2.1
  | .work => q.advance
  | .shut => { q with closed := true }
  | .join => if q.worker = .stopped then { q with joined := true } else q

def follow (q : Queue) : List QueueStep → Queue
  | [] => q
  | x :: xs => (q.act x).follow xs

def accepted (q : Queue) : List QueueStep → List Node
  | [] => []
  | .offer tree :: xs =>
    (if (q.offer tree).1 then [tree] else []) ++ (q.act (.offer tree)).accepted xs
  | x :: xs => (q.act x).accepted xs

/-- What a queue has to show for the trees that it accepted so far. -/
structure Holds (capacity : Nat) (trees : List Node) (q : Queue) : Prop where
  capacity : q.capacity = max capacity 1
  room : q.waiting.length ≤ q.capacity
  kept : q.received ++ q.waiting = trees
  pushed : q.pushed = trees.length + q.dropped
  delivered : q.delivered + q.worker.taken = q.received.length
  closing : ∀ taken, q.worker = .draining true taken → q.closed
  stopped : q.worker = .stopped → q.closed ∧ q.waiting = []
  joined : q.joined → q.worker = .stopped
  reliable : q.failsOn = none
  alive : q.worker ≠ .panicked

variable {capacity : Nat} {trees : List Node} {q : Queue}

theorem holds_ofCapacity (capacity : Nat) : Holds capacity [] (ofCapacity capacity) where
  capacity := rfl
  room := Nat.zero_le _
  kept := rfl
  pushed := rfl
  delivered := rfl
  closing := by simp [ofCapacity]
  stopped := by simp [ofCapacity]
  joined := by simp [ofCapacity]
  reliable := rfl
  alive := by simp [ofCapacity]

/-! ### One step -/

theorem Holds.answer (h : Holds capacity trees q) (tree : Node) :
    (q.closed → q.offer tree = (false, q, [])) ∧
    (q.closed = false → ((q.offer tree).1 ↔ q.waiting.length ≠ max capacity 1)) := by
  refine ⟨fun hclosed => by simp [Queue.offer, hclosed], fun hopen => ?_⟩
  have hroom := h.room
  rw [h.capacity] at hroom
  simp only [Queue.offer, hopen, Bool.false_eq_true, ↓reduceIte, h.capacity]
  split
  case isTrue hlt => exact ⟨fun _ => Nat.ne_of_lt hlt, fun _ => rfl⟩
  case isFalse hge => exact ⟨nofun, fun hne => by omega⟩

theorem act_offer_of_closed (hclosed : q.closed) (tree : Node) : q.act (.offer tree) = q := by
  simp [act, Queue.offer, hclosed]

theorem act_join (hstopped : q.worker = .stopped) : q.act .join = { q with joined := true } :=
  if_pos hstopped

theorem Holds.offer (h : Holds capacity trees q) (tree : Node) :
    Holds capacity (trees ++ if (q.offer tree).1 then [tree] else []) (q.act (.offer tree)) := by
  cases hclosed : q.closed with
  | true => simpa [act, Queue.offer, hclosed] using h
  | false =>
    have hpushed := h.pushed
    by_cases hroom : q.waiting.length < q.capacity
    · simp only [act, Queue.offer, hclosed, Bool.false_eq_true, ↓reduceIte, hroom]
      exact {
        capacity := h.capacity
        room := by rw [List.length_append]; exact hroom
        kept := by rw [← h.kept, List.append_assoc]
        pushed := by rw [List.length_append, List.length_singleton]; dsimp only; omega
        delivered := h.delivered
        closing := fun taken hworker => hclosed ▸ h.closing taken hworker
        -- The thread ends only when the queue is closed.
        stopped := fun hworker => absurd (h.stopped hworker).1 (by simp [hclosed])
        joined := h.joined
        reliable := h.reliable
        alive := h.alive }
    · simp only [act, Queue.offer, hclosed, Bool.false_eq_true, ↓reduceIte, hroom, List.append_nil]
      exact {
        capacity := h.capacity
        room := h.room
        kept := h.kept
        pushed := by dsimp only; omega
        delivered := h.delivered
        closing := fun taken hworker => hclosed ▸ h.closing taken hworker
        stopped := fun hworker => absurd (h.stopped hworker).1 (by simp [hclosed])
        joined := h.joined
        reliable := h.reliable
        alive := h.alive }

theorem Holds.finishBatch (h : Holds capacity trees q) {closing : Bool} {taken : Nat}
    (hworker : q.worker = .draining closing taken) (hempty : closing → q.waiting = []) :
    Holds capacity trees (q.finishBatch closing taken) where
  capacity := h.capacity
  room := h.room
  kept := h.kept
  pushed := h.pushed
  delivered := by
    have hdelivered := h.delivered
    rw [hworker] at hdelivered
    cases closing <;> exact hdelivered
  closing := by cases closing <;> simp [Queue.finishBatch]
  stopped := by
    cases closing with
    | true => exact fun _ => ⟨h.closing taken hworker, hempty rfl⟩
    | false => simp [Queue.finishBatch]
  joined hjoined := by simp [h.joined hjoined] at hworker
  reliable := h.reliable
  alive := by cases closing <;> simp [Queue.finishBatch]

theorem Holds.advance (h : Holds capacity trees q) : Holds capacity trees q.advance := by
  have hdelivered := h.delivered
  have hjoined := h.joined
  unfold Queue.advance
  cases hworker : q.worker with
  | resting =>
    rw [hworker] at hdelivered hjoined
    exact {
      capacity := h.capacity
      room := h.room
      kept := h.kept
      pushed := h.pushed
      delivered := hdelivered
      closing := fun taken heq => by simp only [Worker.draining.injEq] at heq; exact heq.1
      stopped := nofun
      joined := fun hj => by cases hjoined hj
      reliable := h.reliable
      alive := nofun }
  | draining closing taken =>
    rw [hworker] at hdelivered hjoined
    dsimp only
    split
    case isTrue =>
      cases hwaiting : q.waiting with
      | nil => exact h.finishBatch hworker fun _ => hwaiting
      | cons tree rest =>
        have hroom := h.room
        have hkept := h.kept
        rw [hwaiting] at hroom hkept
        simp only [h.reliable, reduceCtorEq, ↓reduceIte]
        exact {
          capacity := h.capacity
          room := Nat.le_of_succ_le hroom
          kept := by rw [← hkept, List.append_assoc, List.singleton_append]
          pushed := h.pushed
          delivered := by
            rw [List.length_append, List.length_singleton, ← hdelivered]
            rfl
          closing := fun taken' heq => by
            simp only [Worker.draining.injEq] at heq
            exact h.closing taken (hworker.trans (by rw [heq.1]))
          stopped := nofun
          joined := fun hj => by cases hjoined hj
          reliable := rfl
          alive := nofun }
    case isFalse hfull =>
      -- A batch of a queue that is closing ends only when nothing waits.
      refine h.finishBatch hworker fun hclosing => ?_
      simp [hclosing] at hfull
  | stopped => exact h
  | panicked => exact h

theorem Holds.shut (h : Holds capacity trees q) : Holds capacity trees (q.act .shut) where
  capacity := h.capacity
  room := h.room
  kept := h.kept
  pushed := h.pushed
  delivered := h.delivered
  closing _ _ := rfl
  stopped hworker := ⟨rfl, (h.stopped hworker).2⟩
  joined := h.joined
  reliable := h.reliable
  alive := h.alive

theorem Holds.join (h : Holds capacity trees q) : Holds capacity trees (q.act .join) := by
  by_cases hstopped : q.worker = .stopped
  · rw [act_join hstopped]
    exact {
      capacity := h.capacity
      room := h.room
      kept := h.kept
      pushed := h.pushed
      delivered := h.delivered
      closing := h.closing
      stopped := h.stopped
      joined := fun _ => hstopped
      reliable := h.reliable
      alive := h.alive }
  · rwa [act, if_neg hstopped]

theorem Holds.follow (h : Holds capacity trees q) (xs : List QueueStep) :
    Holds capacity (trees ++ q.accepted xs) (q.follow xs) := by
  induction xs generalizing q trees with
  | nil =>
    rw [accepted, List.append_nil]
    exact h
  | cons x xs ih =>
    cases x with
    | offer tree =>
      rw [accepted, ← List.append_assoc]
      exact ih (h.offer tree)
    | work => exact ih h.advance
    | shut => exact ih h.shut
    | join => exact ih h.join

theorem Holds.all_received (h : Holds capacity trees q) (hjoined : q.joined) :
    q.received = trees ∧ q.waiting = [] ∧ q.delivered + q.dropped = q.pushed := by
  have hstopped := h.joined hjoined
  have hkept := h.kept
  have hdelivered := h.delivered
  rw [(h.stopped hstopped).2, List.append_nil] at hkept
  rw [hstopped, hkept] at hdelivered
  refine ⟨hkept, (h.stopped hstopped).2, ?_⟩
  rw [h.pushed, ← hdelivered]
  rfl

/-! ### Closing comes to its end -/

theorem closed_advance (q : Queue) : q.advance.closed = q.closed := by
  unfold Queue.advance
  split
  · rfl
  · split
    · split <;> rfl
    · rfl
  · rfl
  · rfl

theorem closed_act (q : Queue) (x : QueueStep) : (q.act x).closed = (q.closed || x.isShut) := by
  cases x with
  | offer tree =>
    refine Eq.trans ?_ (Bool.or_false q.closed).symm
    cases hclosed : q.closed with
    | true => rw [act_offer_of_closed hclosed, hclosed]
    | false =>
      simp only [act, Queue.offer, hclosed, Bool.false_eq_true, ↓reduceIte]
      split <;> rfl
  | work => simp [act, closed_advance, QueueStep.isShut]
  | shut => simp [act, QueueStep.isShut]
  | join =>
    refine Eq.trans ?_ (Bool.or_false q.closed).symm
    rw [act]
    split <;> rfl

theorem closed_follow (q : Queue) (xs : List QueueStep) :
    (q.follow xs).closed = (q.closed || xs.any (·.isShut)) := by
  induction xs generalizing q with
  | nil => simp [follow]
  | cons x xs ih => rw [Queue.follow, ih, closed_act, List.any_cons, Bool.or_assoc]

/-- A bound on the steps that the consumer's thread still makes once the queue is closed. -/
def stepsLeft (q : Queue) : Nat :=
  match q.worker with
  | .resting => q.waiting.length + 2
  | .draining true _ => q.waiting.length + 1
  | .draining false _ => q.waiting.length + 3
  | _ => 0

theorem stepsLeft_le (q : Queue) : q.stepsLeft ≤ q.waiting.length + 3 := by
  unfold stepsLeft
  split <;> omega

theorem stepsLeft_advance (h : Holds capacity trees q) (hclosed : q.closed) :
    q.advance.stepsLeft ≤ q.stepsLeft - 1 := by
  unfold Queue.advance
  cases hworker : q.worker with
  | resting => simp [stepsLeft, hworker, hclosed]
  | draining closing taken =>
    dsimp only
    split
    case isTrue =>
      cases hwaiting : q.waiting with
      | nil => cases closing <;> simp [stepsLeft, finishBatch, hworker, hwaiting]
      | cons tree rest =>
        simp only [h.reliable, reduceCtorEq, ↓reduceIte]
        cases closing <;> simp [stepsLeft, hworker, hwaiting]
    case isFalse hfull =>
      cases closing with
      | true => simp at hfull
      | false => simp [stepsLeft, finishBatch, hworker]
  | stopped => simp [stepsLeft, hworker]
  | panicked => exact absurd hworker h.alive

theorem stopped_of_stepsLeft (h : Holds capacity trees q) (hleft : q.stepsLeft = 0) :
    q.worker = .stopped := by
  unfold stepsLeft at hleft
  split at hleft
  case h_4 hresting hlast hother =>
    cases hworker : q.worker with
    | resting => exact absurd hworker hresting
    | draining closing taken => cases closing <;> simp_all
    | stopped => rfl
    | panicked => exact absurd hworker h.alive
  all_goals omega

theorem Holds.ends (h : Holds capacity trees q) (hclosed : q.closed) (xs : List QueueStep)
    (hwork : q.stepsLeft ≤ xs.countP (·.isWork)) : (q.follow xs).worker = .stopped := by
  induction xs generalizing q trees with
  | nil => exact stopped_of_stepsLeft h (Nat.le_zero.mp hwork)
  | cons x xs ih =>
    have hclosed' : (q.act x).closed := by simp [closed_act, hclosed]
    cases x with
    | offer tree =>
      rw [Queue.follow, act_offer_of_closed hclosed]
      exact ih h hclosed hwork
    | work =>
      have hleft := stepsLeft_advance h hclosed
      rw [List.countP_cons_of_pos rfl] at hwork
      refine ih h.advance hclosed' ?_
      simp only [act]
      omega
    | shut => exact ih h.shut hclosed' hwork
    | join =>
      refine ih h.join hclosed' ?_
      simp only [act]
      split <;> exact hwork

theorem run_eq_follow (n : Nat) (q : Queue) : run n q = q.follow (List.replicate n .work) := by
  induction n generalizing q with
  | zero => rfl
  | succ n ih => exact ih q.advance

theorem follow_append (q : Queue) (xs ys : List QueueStep) :
    q.follow (xs ++ ys) = (q.follow xs).follow ys := by
  induction xs generalizing q with
  | nil => rfl
  | cons x xs ih => exact ih (q.act x)

theorem advance_of_stopped (h : q.worker = .stopped) : q.advance = q := by
  simp [Queue.advance, h]

theorem run_add_of_stopped {n : Nat} (h : (run n q).worker = .stopped) (k : Nat) :
    run (n + k) q = run n q := by
  rw [run_eq_follow, List.replicate_add, follow_append, ← run_eq_follow, ← run_eq_follow]
  generalize run n q = q' at h
  induction k with
  | zero => rfl
  | succ k ih => rw [run, advance_of_stopped h, ih]

/-- Closing as one step is closing with the thread's steps in between, however many more there
are than it takes. -/
theorem Holds.close_eq (h : Holds capacity trees q) (hjoined : q.joined = false) {n : Nat}
    (hn : ((q.act .shut).follow (List.replicate n .work)).worker = .stopped) :
    q.close.1 = ((q.act .shut).follow (List.replicate n .work)).act .join := by
  have hend : (run (q.waiting.length + 4) (q.act .shut)).worker = .stopped := by
    rw [run_eq_follow]
    refine h.shut.ends rfl _ ?_
    have hle := stepsLeft_le (q.act .shut)
    have hcount : (List.replicate (q.waiting.length + 4) QueueStep.work).countP (·.isWork) =
        q.waiting.length + 4 := by simp [List.countP_replicate, QueueStep.isWork]
    rw [hcount]
    simp only [act] at hle ⊢
    omega
  rw [← run_eq_follow] at hn ⊢
  have hsame : run n (q.act .shut) = run (q.waiting.length + 4) (q.act .shut) := by
    rcases Nat.le_total n (q.waiting.length + 4) with hle | hle
    · rw [← run_add_of_stopped hn (q.waiting.length + 4 - n), Nat.add_sub_cancel' hle]
    · rw [← run_add_of_stopped hend (n - (q.waiting.length + 4)), Nat.add_sub_cancel' hle]
  rw [hsame, act_join hend, close]
  dsimp only
  rw [if_neg (by simp [hjoined])]
  rfl

/-- Under every schedule an offer is accepted just when the queue is open and not full, no more
trees wait than there is room for, and closing ends. Once it has, the consumer has got the accepted
trees, each once and in their order, and the counters add up. -/
theorem accepted_received (capacity : Nat) (xs : List QueueStep) :
    let q := (ofCapacity capacity).follow xs
    (∀ tree, (xs.any (·.isShut) → q.offer tree = (false, q, [])) ∧
      (xs.any (·.isShut) = false → ((q.offer tree).1 ↔ q.waiting.length ≠ max capacity 1))) ∧
    q.waiting.length ≤ max capacity 1 ∧
    (q.joined → q.received = (ofCapacity capacity).accepted xs ∧ q.waiting = [] ∧
      q.delivered + q.dropped = q.pushed) ∧
    (∀ ys, xs.any (·.isShut) → q.waiting.length + 3 ≤ ys.countP (·.isWork) →
      ((q.follow ys).act .join).joined) ∧
    (q.joined = false → ∀ n, ((q.act .shut).follow (List.replicate n .work)).worker = .stopped →
      q.close.1 = ((q.act .shut).follow (List.replicate n .work)).act .join) := by
  intro q
  have h : Holds capacity ((ofCapacity capacity).accepted xs) q :=
    (holds_ofCapacity capacity).follow xs
  have hclosed : q.closed = xs.any (·.isShut) := closed_follow (ofCapacity capacity) xs
  rw [← hclosed]
  refine ⟨h.answer, ?_, h.all_received, fun ys hshut hwork => ?_, fun hjoined n hn =>
    h.close_eq hjoined hn⟩
  · rw [← h.capacity]
    exact h.room
  · have hend := h.ends hshut ys (Nat.le_trans (stepsLeft_le q) hwork)
    rw [act_join hend]

def soleCall (classId : SymbolId) : Node := { frame := { classId, calls := 1 } }

/-- Trees are offered to a full queue, in a batch, and while the queue is being closed. -/
def lateOffers : List QueueStep :=
  [.offer (soleCall 1), .offer (soleCall 2), .work, .work, .offer (soleCall 3), .shut,
    .offer (soleCall 4), .work, .join, .work, .work, .work, .join]

theorem accepted_received_of_lateOffers :
    let q := (ofCapacity 1).follow lateOffers
    q.joined ∧ q.received = [soleCall 1, soleCall 3] ∧ q.waiting = [] ∧
      q.delivered + q.dropped = q.pushed ∧ q.dropped = 1 ∧
      q.offer (soleCall 5) = (false, q, []) ∧
      (((ofCapacity 1).follow [.shut]).follow (List.replicate 3 .work) |>.act .join).joined := by
  intro q
  obtain ⟨hanswer, -, hreceived, -⟩ := accepted_received 1 lateOffers
  obtain ⟨htrees, hwaiting, hcounts⟩ := hreceived rfl
  exact ⟨rfl, htrees, hwaiting, hcounts, rfl, (hanswer (soleCall 5)).1 rfl,
    (accepted_received 1 [.shut]).2.2.2.1 _ rfl (by decide)⟩

end Queue

end CallTree
