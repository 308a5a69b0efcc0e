import CallTree.Proofs.Run

/-!
As long as nobody asks for it, no trace elides the calls that add little to their only child.
-/
namespace CallTree

def Event.markerFlags : Event → MarkerFlags
  | .begin _ _ flags => flags
  | .markTrace _ flags => flags
  | _ => ∅

def Marker.Plain (m : Marker) : Prop := m.flags.has .dropInterim = false

theorem Marker.Plain.mark {m : Marker} (h : m.Plain) {flags : MarkerFlags}
    (hflags : flags.has .dropInterim = false) : (m.mark flags).Plain := by
  unfold Plain at h ⊢
  simp [Marker.mark, h, hflags]

theorem Marker.Plain.inherit {m : Marker} (h : m.Plain) (inner : MarkerFlags) :
    (m.inherit inner).Plain := by
  refine h.mark ?_
  simp [MarkerFlags.inheritable, FlagSet.insert]

theorem Marker.Plain.remark {m : Marker} (h : m.Plain) {e : Event}
    (he : e.markerFlags.has .dropInterim = false) : (e.remark m).Plain := by
  cases e with
  | markTrace traceId flags => exact h.mark he
  | _ => exact h

def Node.Plain (n : Node) : Prop := ∀ marker, n.frame.marker = some marker → marker.Plain

namespace Assembler

def AllPlain (ns : List Node) : Prop := ∀ n ∈ ns, n.Plain

theorem allPlain_cons {n : Node} {ns : List Node} : AllPlain (n :: ns) ↔ n.Plain ∧ AllPlain ns :=
  List.forall_mem_cons

theorem AllPlain.transfer {ns ns' : List Node} (h : AllPlain ns)
    (hns : List.Forall₂ (fun n n' => n.Plain → n'.Plain) ns ns') : AllPlain ns' := by
  induction hns with
  | nil => exact h
  | cons hn _ ih =>
    obtain ⟨hplain, hrest⟩ := allPlain_cons.mp h
    exact allPlain_cons.mpr ⟨hn hplain, ih hrest⟩

theorem plain_mapMarker {g : Marker → Marker} (hg : ∀ m : Marker, m.Plain → (g m).Plain)
    (n : Node) (hn : n.Plain) : (n.mapMarker g).Plain := by
  intro marker hmarker
  obtain ⟨m, hm, rfl⟩ := Option.map_eq_some_iff.mp hmarker
  exact hg m (hn m hm)

theorem adjustNearest_plain {g : Marker → Marker} (hg : ∀ m : Marker, m.Plain → (g m).Plain)
    {ns : List Node} (h : AllPlain ns) : AllPlain (adjustNearest g ns) :=
  h.transfer (adjustNearest_forall₂ (fun _ hn => hn) (plain_mapMarker hg) ns)

theorem settle_plain (env : Surroundings) (n : Node) {outer : List Node} (h : AllPlain outer) :
    AllPlain (settle env n outer).ancestors := by
  unfold settle
  cases n.frame.marker with
  | none => exact h
  | some m =>
    dsimp only
    split <;> exact adjustNearest_plain (fun m hm => hm.inherit _) h

theorem around_plain (env : Surroundings) (n : Node) {outer : List Node} (h : AllPlain outer) :
    AllPlain (around env n outer) := by
  have hsettle := settle_plain env n h
  unfold around
  split
  · exact adjustNearest_plain (fun m hm => hm.mark (by simp)) hsettle
  · exact hsettle

theorem newMarker_plain {t : Thresholds} (ht : t.dropInterim = false) (traceId : SymbolId)
    (clock : Nat) {flags : MarkerFlags} (hflags : flags.has .dropInterim = false)
    {outer : Option Marker} (h : ∀ m, outer = some m → m.Plain) :
    (newMarker t traceId clock flags outer).Plain := by
  unfold newMarker
  simp only [ht, Bool.false_eq_true, ↓reduceIte]
  refine Marker.Plain.mark ?_ hflags
  cases outer with
  | none => simp [Marker.Plain]
  | some m => exact h m rfl

theorem nearest_plain {ns : List Node} (h : AllPlain ns) {marker : Marker}
    (hm : nearest? ns = some marker) : marker.Plain := by
  obtain ⟨n, hn, hmarker⟩ := List.exists_of_findSome?_eq_some hm
  exact h n hn marker hmarker

theorem traceFlags_plain {ns : List Node} (h : AllPlain ns) :
    (traceFlags ns).has .dropInterim = false := by
  unfold traceFlags
  cases hm : nearest? ns with
  | none => exact FlagSet.has_empty _
  | some marker => exact nearest_plain h hm

theorem fateOf_plain {env : Surroundings} {n : Node} {outer : List Node}
    (h : AllPlain (n :: outer)) (hflag : n.frame.flags.has .overflow = false) :
    fateOf env n outer =
      if outer.any (·.isTraceRoot) &&
        isRetained env.thresholds n.frame (traceFlags (n :: outer)) then .attach
      else if (settle env n outer).isSubmitted then .leave
      else .discard := by
  simp only [fateOf, fate, hflag, substitute?, traceFlags_plain h, Bool.false_and,
    Bool.false_eq_true, ↓reduceIte, ite_self]

structure PlainTraces (a : Assembler) : Prop where
  calls : AllPlain a.openCalls
  awaited : ∀ marker, a.awaited.marker = some marker → marker.Plain

variable {a a' : Assembler}

theorem plainTraces_slots : a.PlainTraces ↔ AllPlain a.slots := by
  cases ht : a.top.isBusy with
  | true =>
    have hopen : a.openCalls = a.slots := openCalls_of_busy ht
    refine ⟨fun h => hopen ▸ h.calls, fun h => ⟨hopen ▸ h, ?_⟩⟩
    rw [awaited_of_busy ht]
    simp
  | false =>
    have hawaited : a.awaited = a.top.frame := by simp [Assembler.awaited, ht]
    constructor
    · intro h
      refine allPlain_cons.mpr ⟨fun marker hm => h.awaited marker (hawaited ▸ hm), ?_⟩
      exact openCalls_of_vacant ht ▸ h.calls
    · intro h
      obtain ⟨htop, hancestors⟩ := allPlain_cons.mp h
      exact ⟨openCalls_of_vacant ht ▸ hancestors, fun marker hm => htop marker (hawaited ▸ hm)⟩

theorem Retouches.plainTraces {e : Event} (h : Retouches e a a')
    (he : e.markerFlags.has .dropInterim = false) (ha : a.PlainTraces) : a'.PlainTraces := by
  rw [plainTraces_slots] at ha ⊢
  refine ha.transfer (h.forall₂ (fun _ hn => hn) (plain_mapMarker fun m hm => hm.remark he) ?_)
  intro n hn marker hm
  refine hn marker ?_
  cases e <;> exact hm

end Assembler

open Assembler

structure Occurrence.Plain (o : Occurrence) : Prop where
  threshold : o.env.thresholds.dropInterim = false
  flags : o.event.markerFlags.has .dropInterim = false

theorem Moment.plainTraces {m : Moment} (hsound : m.before.Sound) (hm : m.toOccurrence.Plain)
    (h : m.before.PlainTraces) : m.after.PlainTraces := by
  cases hk : m.kind with
  | enters =>
    obtain ⟨classId, methodId, signatureId, time, -, hentered⟩ := Moment.enters_spec hsound hk
    obtain ⟨flags, harrival⟩ := arrival_eq hsound m.env.thresholds classId methodId signatureId time
    refine ⟨?_, by rw [awaited_of_busy hentered.busy]; simp⟩
    rw [hentered.openCalls, harrival]
    exact allPlain_cons.mpr ⟨h.awaited, h.calls⟩
  | closes =>
    have hcloses := Moment.closes_spec hsound hk
    have hcalls := h.calls
    rw [hcloses.before] at hcalls
    have haround : AllPlain m.around := around_plain _ _ (allPlain_cons.mp hcalls).2
    refine ⟨?_, by rw [hcloses.awaited]; simp⟩
    rw [hcloses.after]
    generalize m.around = around at haround
    cases around with
    | nil => exact haround
    | cons q qs =>
      obtain ⟨hq, hqs⟩ := allPlain_cons.mp haround
      refine allPlain_cons.mpr ⟨fun marker hmarker => hq marker ?_, hqs⟩
      rw [m.parent_frame] at hmarker
      exact hmarker
  | begins =>
    obtain ⟨traceId, clock, flags, hevent, -, hafter⟩ := Moment.begins_spec hk
    have hflags := hm.flags
    rw [hevent] at hflags
    rw [plainTraces_slots] at h ⊢
    obtain ⟨-, hancestors⟩ := allPlain_cons.mp h
    rw [hafter]
    refine allPlain_cons.mpr ⟨fun marker hmarker => ?_, hancestors⟩
    rw [← Option.some.inj hmarker]
    exact newMarker_plain hm.threshold traceId clock hflags fun m hm => nearest_plain hancestors hm
  | other => exact (Moment.other_spec hk).plainTraces hm.flags h

theorem plainTraces_of_trail (capacity : Nat) {os : List Occurrence} (hos : ∀ o ∈ os, o.Plain)
    {k : Nat} (hk : k ≤ os.length) : ((new capacity).after (os.take k)).PlainTraces := by
  refine trail_induction capacity os (P := fun _ a => a.PlainTraces)
    ⟨by simp [AllPlain, openCalls_new], ?_⟩ (fun j m hm hsound h => ?_) hk
  · simp [Assembler.awaited, new, Pool.ofCapacity, Pool.acquire]
  · have hplain := hos m.toOccurrence (List.mem_of_getElem? (occurrence_of_trail hm))
    exact Moment.plainTraces hsound hplain h

end CallTree
