import CallTree.Proofs.FlagTally

/-!
How flags leave a trace. When its call closes, the nearest trace around it is told of an overflow
and of an error, and this one tells the next when it closes itself.
-/
namespace CallTree
open Assembler

variable {capacity : Nat} {os : List Occurrence} {ms : List Moment} {k : Nat} {m : Moment}

/-! ### The traces of the open calls -/

/-- The traces of the open calls, the innermost first. -/
def rooted (ms : List Moment) (k : Nat) : List Nat :=
  (register (ms.take k)).calls.filterMap (·.begun)

theorem rooted_held : rooted ms k ⊆ held ms k := fun _ hb => List.mem_append_right _ hb

theorem rooted_of_closes (hm : ((new capacity).trail os)[k]? = some m) (hk : m.kind = .closes) :
    rooted ((new capacity).trail os) (k + 1) = held ((new capacity).trail os) (k + 1) := by
  obtain ⟨c, cs, hcs, -, -⟩ := calls_of_closes hm hk
  rw [rooted, held, Register.held, register_succ hm]
  simp [Register.next, hk, hcs]

theorem rooted_of_open (hm : ((new capacity).trail os)[k]? = some m) (hk : m.kind ≠ .closes) :
    rooted ((new capacity).trail os) k ⊆ rooted ((new capacity).trail os) (k + 1) := by
  have hfree := (traced_of_moment hm).free
  unfold rooted
  rw [register_succ hm]
  unfold Register.next
  cases hkind : m.kind with
  | enters =>
    rw [filterMap_cons_toList]
    exact List.subset_append_right _ _
  | closes => exact absurd hkind hk
  | begins =>
    cases hbusy : m.before.top.isBusy with
    | true =>
      -- The call that gets the trace had none.
      obtain ⟨c, cs, hcs, hc⟩ := (hfree hkind).2 hbusy
      rw [hcs, filterMap_cons_toList, hc]
      exact List.subset_cons_self _ _
    | false => exact List.Subset.refl _
  | other => exact List.Subset.refl _

theorem rooted_succ (hm : ((new capacity).trail os)[k]? = some m) {b : Nat}
    (hb : b ∈ rooted ((new capacity).trail os) k) :
    b ∈ rooted ((new capacity).trail os) (k + 1) ∨ m.kind = .closes ∧
      ∃ c cs, (register (((new capacity).trail os).take k)).calls = c :: cs ∧ c.begun = some b := by
  by_cases hk : m.kind = .closes
  · obtain ⟨c, cs, hcs, -, hheld⟩ := calls_of_closes hm hk
    rw [rooted, hcs, filterMap_cons_toList, ← hheld, List.mem_append, Option.mem_toList] at hb
    rw [rooted_of_closes hm hk]
    rcases hb with hb | hb
    · exact .inr ⟨hk, c, cs, hcs, hb⟩
    · exact .inl hb
  · exact .inl (rooted_of_open hm hk hb)

theorem begun_ne_of_held (hm : ((new capacity).trail os)[k]? = some m) {b : Nat}
    (hb : b ∈ held ((new capacity).trail os) (k + 1)) (hk : m.kind = .closes) {c : OpenCall}
    {cs : List OpenCall}
    (hcs : (register (((new capacity).trail os).take k)).calls = c :: cs) : c.begun ≠ some b :=
  fun hc => not_ended (before_of_trail hm).1 hb _ (ended_of_begun hm hk hcs hc)

/-! ### The way outwards -/

/-- Bit `j` has reached the trace of event `b` or one inside it, on an open call. -/
def Reached (ms : List Moment) (k b j : Nat) : Prop :=
  ∃ b' ∈ rooted ms k, b ≤ b' ∧ Given ms k b' j

theorem reached_of_told (hm : ((new capacity).trail os)[k]? = some m) (hk : m.kind = .closes)
    {b j : Nat} (hb : b ∈ held ((new capacity).trail os) (k + 1)) (h : m.told.holds j) :
    Reached ((new capacity).trail os) (k + 1) b j := by
  have hlt := (before_of_trail hm).1
  have hsorted := (sorted_of_moment hm).2
  have haround := around_of_closes hm hk
  have hopen {b' : Nat} (hb' : b' ∈ held ((new capacity).trail os) (k + 1)) := not_ended hlt hb'
  rw [Reached, rooted_of_closes hm hk]
  generalize held ((new capacity).trail os) (k + 1) = bs at *
  cases bs with
  | nil => cases hb
  | cons b' bs =>
    obtain ⟨s, hs, hj⟩ := (told_iff hm hk haround (hopen List.mem_cons_self) j).mp h
    refine ⟨b', List.mem_cons_self, ?_, k, Nat.lt_succ_self k, s, hs, hj⟩
    rcases List.mem_cons.mp hb with rfl | hb
    · exact Nat.le_refl b
    · exact Nat.le_of_lt ((List.pairwise_cons.mp hsorted).1 b hb)

theorem told_of_inner {inner : Marker} (hinner : m.settled.node.frame.marker = some inner) {j : Nat}
    (hj : MarkerFlags.inheritable.holds j) (h : inner.flags.holds j) : m.told.holds j := by
  simp [Moment.told, hinner, hj, h]

theorem reached_succ (hm : ((new capacity).trail os)[k]? = some m) {b j : Nat}
    (hj : MarkerFlags.inheritable.holds j)
    (hb : b ∈ rooted ((new capacity).trail os) (k + 1))
    (h : Reached ((new capacity).trail os) k b j) :
    Reached ((new capacity).trail os) (k + 1) b j := by
  obtain ⟨b', hb', hle, hgiven⟩ := h
  obtain hstays | ⟨hk, c, cs, hcs, hc⟩ := rooted_succ hm hb'
  · exact ⟨b', hstays, hle, hgiven.mono (Nat.le_succ k)⟩
  · obtain ⟨inner, hinner, -, hflagged⟩ := flagged_at_close hm hk hcs hc
    have hflag := (hflagged j).mpr (hgiven.mono (Nat.le_succ k))
    exact reached_of_told hm hk (rooted_held hb) (told_of_inner hinner hj hflag)

theorem held_back (hm : ((new capacity).trail os)[k]? = some m) {b : Nat} (hlt : b < k)
    (hb : b ∈ held ((new capacity).trail os) (k + 1)) : b ∈ held ((new capacity).trail os) k := by
  rcases List.mem_cons.mp ((held_suffix hm).subset hb) with rfl | hb
  · exact absurd hlt (Nat.lt_irrefl b)
  · exact hb

theorem rooted_while_held {b : Nat} (hbk : b < k) (hb : b ∈ rooted ((new capacity).trail os) k)
    {i : Nat} (hi : k ≤ i) (hlt : i ≤ os.length) (hheld : b ∈ held ((new capacity).trail os) i) :
    b ∈ rooted ((new capacity).trail os) i := by
  induction hi with
  | refl => exact hb
  | @step i hi ih =>
    have hle : k ≤ i := hi
    have hm := moment_of_trail (new capacity) hlt
    obtain hstays | ⟨hk, c, cs, hcs, hc⟩ :=
      rooted_succ hm (ih (by omega) (held_back hm (by omega) hheld))
    · exact hstays
    · exact absurd hc (begun_ne_of_held hm hheld hk hcs)

theorem reached_while_held {b j : Nat} (hj : MarkerFlags.inheritable.holds j) (hbk : b < k)
    (hb : b ∈ rooted ((new capacity).trail os) k) (h : Reached ((new capacity).trail os) k b j)
    {i : Nat} (hi : k ≤ i) (hlt : i ≤ os.length) (hheld : b ∈ held ((new capacity).trail os) i) :
    Reached ((new capacity).trail os) i b j := by
  induction hi with
  | refl => exact h
  | @step i hi ih =>
    have hle : k ≤ i := hi
    have hm := moment_of_trail (new capacity) hlt
    exact reached_succ hm hj (rooted_while_held hbk hb (Nat.le_succ_of_le hle) hlt hheld)
      (ih (by omega) (held_back hm (by omega) hheld))

theorem lt_of_around (hm : ((new capacity).trail os)[k]? = some m) {c : OpenCall}
    {cs : List OpenCall}
    (hcs : (register (((new capacity).trail os).take k)).calls = c :: cs) {b : Nat}
    (hb : c.begun = some b) : ∀ b' ∈ cs.filterMap (·.begun), b' < b := by
  have hsorted : (rooted ((new capacity).trail os) k).Pairwise (· > ·) :=
    (sorted_of_moment hm).1.sublist (List.sublist_append_right _ _)
  rw [rooted, hcs, filterMap_cons_toList, hb] at hsorted
  exact (List.pairwise_cons.mp hsorted).1

/-- A bit that has reached the trace of a call, or one inside it, is on its marker at the close. -/
theorem holds_at_close (hm : ((new capacity).trail os)[k]? = some m) (hk : m.kind = .closes)
    {c : OpenCall} {cs : List OpenCall}
    (hcs : (register (((new capacity).trail os).take k)).calls = c :: cs) {b j : Nat}
    (hb : c.begun = some b) (h : Reached ((new capacity).trail os) k b j) :
    ∃ marker, m.settled.node.frame.marker = some marker ∧ Marks ((new capacity).trail os) b marker ∧
      marker.flags.holds j := by
  obtain ⟨marker, hmarker, hmarks, hflagged⟩ := flagged_at_close hm hk hcs hb
  obtain ⟨b', hb', hle, hgiven⟩ := h
  rw [rooted, hcs, filterMap_cons_toList, hb, Option.toList_some] at hb'
  refine ⟨marker, hmarker, hmarks, (hflagged j).mpr (Given.mono ?_ (Nat.le_succ k))⟩
  rcases List.mem_cons.mp hb' with rfl | hb'
  · exact hgiven
  · have hlt := lt_of_around hm hcs hb b' hb'
    omega

/-! ### At the close of a call -/

/-- The flags of traces at event `k`, which closes a call: those of its own trace are the union of
all that was given to it, and the nearest trace around it is told of the overflow and the error
and of nothing else. These two reach every trace around it by the time this one closes. -/
structure Moment.Flags (m : Moment) (ms : List Moment) (k : Nat) : Prop where
  union : ∀ marker, m.settled.node.frame.marker = some marker →
    ∃ b way, (b, way) ∈ endedAt ms k ∧ way ≠ .abandoned ∧ Marks ms b marker ∧
      Flagged ms (k + 1) b marker.flags
  outwards : m.after.markers.map (·.flags) =
    ((m.outer.filterMap (·.frame.marker)).map (·.flags)).modifyHead (· ∪ m.told)
  told : ∀ j, m.told.holds j → j = Flag.bit MarkerFlag.overflow ∨ j = Flag.bit MarkerFlag.error
  reach : ∀ marker, m.settled.node.frame.marker = some marker → ∀ f,
    f = .overflow ∨ f = .error → marker.flags.has f →
      ∀ b ∈ held ms (k + 1), ∀ k' m' way, ms[k']? = some m' → (b, way) ∈ endedAt ms k' →
        way ≠ .abandoned ∧ ∃ marker', m'.settled.node.frame.marker = some marker' ∧
          Marks ms b marker' ∧ marker'.flags.has f

theorem told_inheritable (m : Moment) (j : Nat) (h : m.told.holds j) :
    j = Flag.bit MarkerFlag.overflow ∨ j = Flag.bit MarkerFlag.error := by
  rw [Moment.told, FlagSet.holds_union, Bool.or_eq_true] at h
  rcases h with h | h
  · cases hinner : m.settled.node.frame.marker with
    | none => simp [hinner] at h
    | some inner =>
      simp only [hinner, Option.map_some, Option.getD_some, FlagSet.holds_inter,
        Bool.and_eq_true] at h
      exact (MarkerFlags.holds_inheritable j).mp h.2
  · split at h
    · exact .inl ((MarkerFlags.holds_single _ j).mp h)
    · simp at h

theorem begun_of_marker (hm : ((new capacity).trail os)[k]? = some m) (hk : m.kind = .closes)
    {marker : Marker} (h : m.settled.node.frame.marker = some marker) :
    ∃ c cs b, (register (((new capacity).trail os).take k)).calls = c :: cs ∧ c.begun = some b := by
  obtain ⟨c, cs, hcs, hcarries, -⟩ := calls_of_closes hm hk
  rw [settled_marker, closing_marker] at h
  obtain ⟨marker', hmarker', -⟩ := Option.map_eq_some_iff.mp h
  rw [Carries, hmarker'] at hcarries
  cases hc : c.begun with
  | none =>
    rw [hc] at hcarries
    cases hcarries
  | some b => exact ⟨c, cs, b, hcs, hc⟩

theorem begun_of_ended (hm : ((new capacity).trail os)[k]? = some m) {b : Nat} {way : Ending}
    (hb : b ∈ rooted ((new capacity).trail os) k)
    (h : (b, way) ∈ endedAt ((new capacity).trail os) k) : way ≠ .abandoned ∧ m.kind = .closes ∧
      ∃ c cs, (register (((new capacity).trail os).take k)).calls = c :: cs ∧ c.begun = some b := by
  obtain ⟨m', c, cs, hm', hk, hcs, ⟨hwaiting, -⟩ | ⟨hc, hway⟩⟩ := mem_endedAt h
  · -- One that waits is on no call.
    have hsorted := (sorted_of_moment hm).1
    rw [held, Register.held, hwaiting] at hsorted
    exact absurd ((List.pairwise_cons.mp hsorted).1 b hb) (Nat.lt_irrefl b)
  · obtain rfl := Option.some.inj (hm.symm.trans hm')
    refine ⟨?_, hk, c, cs, hcs, hc⟩
    rw [hway]
    split <;> simp

theorem marker_flags (capacity : Nat) (os : List Occurrence) (k : Nat) (m : Moment)
    (hm : ((new capacity).trail os)[k]? = some m) (hk : m.kind = .closes) :
    m.Flags ((new capacity).trail os) k where
  union marker hmarker := by
    obtain ⟨c, cs, b, hcs, hb⟩ := begun_of_marker hm hk hmarker
    obtain ⟨marker', hmarker', hmarks, hflagged⟩ := flagged_at_close hm hk hcs hb
    obtain rfl := Option.some.inj (hmarker'.symm.trans hmarker)
    refine ⟨b, _, ended_of_begun hm hk hcs hb, ?_, hmarks, hflagged⟩
    split <;> simp
  outwards := (Moment.closes_spec (sound_of_trail hm) hk).flags
  told := told_inheritable m
  reach marker hmarker f hf hflag b hb k' m' way hm' hended := by
    have hj : MarkerFlags.inheritable.holds (Flag.bit f) :=
      (MarkerFlags.holds_inheritable _).mpr (by rcases hf with rfl | rfl <;> simp)
    have hlt := (before_of_trail hm).1
    have hlt' := (before_of_trail hm').1
    have hlater : k + 1 ≤ k' := by
      by_contra hearlier
      exact ((accounted_of_trail capacity os hlt).held_iff b).mp hb |>.2 k' (by omega) way hended
    have hstart := reached_of_told hm hk hb (told_of_inner hmarker hj hflag)
    have hbk := (held_sorted hlt).2 b hb
    rw [← rooted_of_closes hm hk] at hb
    have hheld := held_of_ended hended
    have hrooted := rooted_while_held hbk hb hlater (Nat.le_of_lt hlt') hheld
    have hreached := reached_while_held hj hbk hb hstart hlater (Nat.le_of_lt hlt') hheld
    obtain ⟨hway, hk', c, cs, hcs, hc⟩ := begun_of_ended hm' hrooted hended
    exact ⟨hway, holds_at_close hm' hk' hcs hc hreached⟩

/-- A trace inside another one overflows, and its call fails. -/
def failingTrace : List Occurrence :=
  occurrences { minTraceTime := 0, maxTraceRecords := 3, dropInterim := true }
    [.enter 1 1 1 0, .begin 7 0 ∅, .enter 2 2 2 10, .begin 8 0 ∅, .enter 3 3 3 11, .enter 4 4 4 12,
      .exit 30, .exit 31, .markTrace (some 7) (.single .traceCalls),
      .fail ⟨⟨1, 9, "", []⟩, []⟩ 40, .exit 100]

theorem marker_flags_of_failingTrace :
    let ms := (new 0).trail failingTrace
    ∃ m inner m' outer, ms[9]? = some m ∧ m.kind = .closes ∧
      m.settled.node.frame.marker = some inner ∧ inner.flags = .ofNat 4105 ∧
      Flagged ms 10 3 inner.flags ∧ ms[10]? = some m' ∧
      m'.settled.node.frame.marker = some outer ∧ Marks ms 1 outer ∧
      outer.flags.has .overflow ∧ outer.flags.has .error := by
  intro ms
  obtain ⟨m, inner, hm, hk, hinner, hflags⟩ : ∃ m inner, ms[9]? = some m ∧ m.kind = .closes ∧
      m.settled.node.frame.marker = some inner ∧ inner.flags = .ofNat 4105 :=
    ⟨_, _, rfl, by decide, rfl, by decide⟩
  obtain ⟨m', hm'⟩ : ∃ m', ms[10]? = some m' := ⟨_, rfl⟩
  have hends : endedAt ms 9 = [(3, .submitted)] := by decide
  have hclose := marker_flags 0 failingTrace 9 m hm hk
  obtain ⟨b, way, hended, -, -, hflagged⟩ := hclose.union inner hinner
  rw [hends, List.mem_singleton] at hended
  cases hended
  have houter (f : MarkerFlag) (hf : f = .overflow ∨ f = .error) : ∃ outer,
      m'.settled.node.frame.marker = some outer ∧ Marks ms 1 outer ∧ outer.flags.has f :=
    (hclose.reach inner hinner f hf (by rw [hflags]; rcases hf with rfl | rfl <;> decide) 1
      (by decide) 10 m' .submitted hm' (by decide)).2
  obtain ⟨outer, hmarker, hmarks, hover⟩ := houter .overflow (.inl rfl)
  obtain ⟨outer', hmarker', -, herror⟩ := houter .error (.inr rfl)
  obtain rfl := Option.some.inj (hmarker.symm.trans hmarker')
  exact ⟨m, inner, m', outer, hm, hk, hinner, hflags, hflagged, hm', hmarker, hmarks, hover, herror⟩

end CallTree
