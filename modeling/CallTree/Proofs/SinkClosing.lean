import CallTree.Proofs.FanOut

/-!
How often sinks are shut down. Ending the registrations of an engine shuts each of them down, in
their order and whatever the others make of it; removing a sink shuts nothing down. So a sink is
shut down once when it leaves the engine just if it leaves with all others and was there once.
-/
namespace CallTree

variable {σ : Type}

def SinkCall.closes (id : SinkId) (call : SinkCall) : Bool := call.sink == id && call.tree?.isNone

namespace Operation

def isShutdown : Operation → Bool
  | .shutdown => true
  | _ => false

theorem isShutdown_iff (op : Operation) : op.isShutdown ↔ op = .shutdown := by
  cases op <;> simp [isShutdown]

def endByShutdown (id : SinkId) : List Operation → Bool
  | [] => false
  | op :: ops => if op.ends id then op.isShutdown else endByShutdown id ops

/-- The sinks of the registrations that a shutdown has ended, in their order. -/
def shutDown : List Operation → List SinkId
  | [] => []
  | .addSink id :: ops => (if endByShutdown id ops then [id] else []) ++ shutDown ops
  | _ :: ops => shutDown ops

def added : Operation → List SinkId
  | .addSink id => [id]
  | _ => []

theorem standing_concat (ops : List Operation) (op : Operation) :
    standing (ops ++ [op]) = (standing ops).filter (!op.ends ·) ++ op.added := by
  induction ops with
  | nil => cases op <;> simp [standing, added]
  | cons o ops ih =>
    cases o with
    | addSink id =>
      simp only [List.cons_append, standing, ih, List.any_append, List.any_cons, List.any_nil]
      cases ops.any (ends id) <;> cases hend : op.ends id <;> simp [hend]
    | _ => exact ih

theorem leaves_iff {ops : List Operation} {id : SinkId} (h : id ∈ standing ops) (op : Operation) :
    id ∉ standing (ops ++ [op]) ↔ op = .removeSink id ∨ op = .shutdown := by
  rw [standing_concat]
  cases op <;> simp [h, ends, added]

end Operation

namespace Engine

open Operation

def Deal.closings (id : SinkId) (d : Deal) : Nat := d.calls.countP (·.closes id)

variable (sinks : Sinks σ) (e : Engine) (s : σ)

theorem countP_closes {calls : List SinkCall} {ids : List SinkId} {tree? : Option Node}
    (h : calls.map (fun call => (call.sink, call.tree?)) = ids.map (·, tree?)) (id : SinkId) :
    calls.countP (·.closes id) = if tree?.isNone then ids.count id else 0 := by
  have hcount := congrArg (List.countP fun p => p.1 == id && p.2.isNone) h
  rw [List.countP_map, List.countP_map] at hcount
  refine hcount.trans ?_
  cases tree? <;> simp [Function.comp_def, List.count]

theorem closings_deal (op : Operation) (id : SinkId) :
    (e.deal sinks s op).closings id = if op.isShutdown then e.sinks.count id else 0 := by
  have hreaches := e.reaches_deal sinks s op
  cases hshutdown : op.isShutdown with
  | true =>
    obtain rfl := op.isShutdown_iff.mp hshutdown
    exact countP_closes (hreaches.shutdown rfl) id
  | false =>
    cases htree : op.tree? with
    | some tree => exact countP_closes (hreaches.tree tree htree).1 id
    | none =>
      have hne : op ≠ .shutdown := fun h => by simp [h, isShutdown] at hshutdown
      rw [Deal.closings, hreaches.quiet htree hne]
      rfl

theorem count_filter_ite (p : SinkId → Bool) (ids : List SinkId) (id : SinkId) :
    (ids.filter p).count id = if p id then ids.count id else 0 := by
  split
  case isTrue h => exact List.count_filter h
  case isFalse h => exact List.count_eq_zero_of_not_mem fun hmem => h (List.mem_filter.mp hmem).2

theorem sinks_operate (op : Operation) :
    (e.operate sinks s op).engine.sinks = e.sinks.filter (!op.ends ·) ++ op.added := by
  rw [(handles_operate sinks e s op).sinks]
  cases op <;> rfl

theorem count_shutDown_cons (op : Operation) (ops : List Operation) (id : SinkId) :
    (shutDown (op :: ops)).count id =
      (if endByShutdown id ops then op.added.count id else 0) + (shutDown ops).count id := by
  cases op with
  | addSink id' =>
    have hone : (if endByShutdown id' ops then [id'] else []) =
        [id'].filter (endByShutdown · ops) := by
      cases h : endByShutdown id' ops <;> simp [h]
    rw [shutDown, List.count_append, hone, count_filter_ite]
    rfl
  | _ => simp [shutDown, added]

theorem closings_of_run (ops : List Operation) (id : SinkId) :
    ((e.deals sinks s ops).map (·.closings id)).sum =
      (e.sinks.filter (endByShutdown · ops)).count id + (shutDown ops).count id := by
  induction ops generalizing e s with
  | nil => simp [deals, endByShutdown, shutDown]
  | cons op ops ih =>
    rw [deals, List.map_cons, List.sum_cons, closings_deal, ih, sinks_operate, count_shutDown_cons]
    simp only [List.filter_append, List.count_append, count_filter_ite, endByShutdown]
    -- A registration ends by this operation or by a later one.
    cases hends : op.ends id with
    | true => cases op.isShutdown <;> simp
    | false =>
      have hno : op.isShutdown = false := by
        cases op with
        | shutdown => cases hends
        | _ => rfl
      rw [hno]
      simp [Nat.add_assoc]

end Engine

open Operation

/-- A sink leaves an engine when it is removed or when all registrations end. Only the latter shuts
sinks down: each one as often as it is registered and in their order, whatever the others make of
it. Over a run a sink is shut down once for each of its registrations that end by a shutdown. -/
theorem closings_accounted (sinks : Sinks σ) (c : Config) (s : σ) (ops : List Operation) :
    let e := Engine.ofConfig c
    let r := e.run sinks s ops
    (∀ id, id ∈ standing ops → ∀ op,
      (id ∉ standing (ops ++ [op]) ↔ op = .removeSink id ∨ op = .shutdown)) ∧
    (∀ op id, (r.1.deal sinks r.2 op).closings id =
      if op.isShutdown then (standing ops).count id else 0) ∧
    (r.1.deal sinks r.2 .shutdown).calls.map (·.sink) = standing ops ∧
    ∀ id, ((e.deals sinks s ops).map (·.closings id)).sum = (shutDown ops).count id := by
  intro e r
  have hstanding : r.1.sinks = standing ops := e.sinks_of_run sinks s ops
  refine ⟨fun id h => leaves_iff h, fun op id => ?_, ?_, fun id => ?_⟩
  · rw [Engine.closings_deal, hstanding]
  · have hcalls := congrArg (List.map Prod.fst) (Engine.deal_of_shutdown sinks r.1 r.2)
    simpa [hstanding, Function.comp_def] using hcalls
  · have hnone : e.sinks = [] := rfl
    rw [Engine.closings_of_run, hnone, List.filter_nil, List.count_nil, Nat.zero_add]

/-- Sink 2 panics when it is shut down, and is there twice. Sink 0 is removed. -/
def severalEnds : List Operation :=
  [.addSink 2, .addSink 0, .addSink 1, .removeSink 0, .addSink 2]

theorem closings_accounted_of_severalEnds :
    let r := (Engine.ofConfig {}).run mixedSinks () severalEnds
    1 ∈ standing severalEnds ∧ 1 ∉ standing (severalEnds ++ [.shutdown]) ∧
      (r.1.deal mixedSinks r.2 .shutdown).closings 1 = 1 ∧
      (r.1.deal mixedSinks r.2 .shutdown).closings 2 = 2 ∧
      (r.1.deal mixedSinks r.2 .shutdown).calls.map (·.sink) = [2, 1, 2] := by
  intro r
  obtain ⟨hleaves, hclosings, hcalls, -⟩ := closings_accounted mixedSinks {} () severalEnds
  exact ⟨by decide, (hleaves 1 (by decide) .shutdown).mpr (.inr rfl), hclosings .shutdown 1,
    hclosings .shutdown 2, hcalls⟩

/-- A sink that is removed is not shut down, and one that was registered twice is shut down
twice. -/
theorem sinks_not_closed_once :
    let after (ops : List Operation) := (Engine.ofConfig {}).run mixedSinks () ops
    let closings (ops : List Operation) (op : Operation) (id : SinkId) :=
      ((after ops).1.deal mixedSinks (after ops).2 op).closings id
    (0 ∈ standing [.addSink 0] ∧ 0 ∉ standing [.addSink 0, .removeSink 0] ∧
      closings [.addSink 0] (.removeSink 0) 0 = 0) ∧
    (0 ∈ standing [.addSink 0, .addSink 0] ∧ 0 ∉ standing [.addSink 0, .addSink 0, .shutdown] ∧
      closings [.addSink 0, .addSink 0] .shutdown 0 = 2) ∧
    ¬∀ ops op id, id ∈ standing ops →
      closings ops op id = if id ∈ standing (ops ++ [op]) then 0 else 1 := by
  intro after closings
  refine ⟨by decide, by decide, fun h => ?_⟩
  exact absurd (h [.addSink 0] (.removeSink 0) 0 (by decide)) (by decide)

end CallTree
