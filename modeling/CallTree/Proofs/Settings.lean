import CallTree.Config.Toml
import CallTree.Proofs.TomlLines
import Mathlib.Data.List.Nodup

/-!
Configurations survive being written as TOML, and settings that are left out of a document have
their own values.
-/
namespace CallTree

inductive Measure where
  | maxTraceRecords
  | minMethodTime
  | minTraceTime
  | minTraceCalls
  | poolCapacity
deriving DecidableEq

namespace Measure

def key : Measure → String
  | maxTraceRecords => "max_trace_records"
  | minMethodTime => "min_method_time"
  | minTraceTime => "min_trace_time"
  | minTraceCalls => "min_trace_calls"
  | poolCapacity => "pool_capacity"

def of (c : Config) : Measure → Nat
  | maxTraceRecords => c.maxTraceRecords
  | minMethodTime => c.minMethodTime
  | minTraceTime => c.minTraceTime
  | minTraceCalls => c.minTraceCalls
  | poolCapacity => c.poolCapacity

theorem key_injective {m m' : Measure} (h : m.key = m'.key) : m = m' := by
  cases m <;> cases m' <;> first | rfl | exact absurd h (by decide)

theorem key_ne_dropInterim (m : Measure) : m.key ≠ "drop_interim" := by
  cases m <;> decide

theorem isBareKey (m : Measure) : Toml.IsBareKey m.key := by
  cases m <;> exact ⟨by decide, List.all_eq_true.mp (by decide)⟩

end Measure

inductive Setting where
  | number (m : Measure) (n : Nat)
  | dropInterim (on : Bool)

namespace Setting

def key : Setting → String
  | number m _ => m.key
  | dropInterim _ => "drop_interim"

def text : Setting → String
  | number _ n => Nat.repr n
  | dropInterim on => if on then "true" else "false"

def document (ss : List Setting) : String := String.join (ss.map fun s => Config.line s.key s.text)

def Fits : Setting → Prop
  | number _ n => n ≤ Config.tomlLimit
  | dropInterim _ => True

def HoldsOf (c : Config) : Setting → Prop
  | number m n => m.of c = n
  | dropInterim on => c.dropInterim = on

def scalar : Setting → Toml.Scalar
  | number _ n => .integer n
  | dropInterim on => .boolean on

def assignment (s : Setting) : Toml.Assignment := ⟨s.key, s.text.toList, s.scalar⟩

theorem wellFormed {s : Setting} (h : s.Fits) : s.assignment.WellFormed := by
  cases s with
  | number m n =>
    have hn : n < Nat.pow 2 63 := Nat.lt_of_le_of_lt h (by decide)
    refine ⟨m.isBareKey, ?_⟩
    rw [assignment, text, Nat.repr_eq_ofList_toDigits, String.toList_ofList]
    exact Toml.writes_integer hn
  | dropInterim on =>
    have hkey : Toml.IsBareKey "drop_interim" := ⟨by decide, List.all_eq_true.mp (by decide)⟩
    cases on with
    | false => exact ⟨hkey, Toml.writes_boolean false⟩
    | true => exact ⟨hkey, Toml.writes_boolean true⟩

theorem toList_document (ss : List Setting) :
    (document ss).toList = (ss.map assignment).flatMap Toml.Assignment.line := by
  rw [document, String.toList_join, List.flatMap_map, List.flatMap_map]
  refine List.flatMap_congr fun s _ => ?_
  simp [Config.line, assignment, Toml.Assignment.line]

theorem parse?_document {ss : List Setting} (hfits : ∀ s ∈ ss, s.Fits)
    (hkeys : (ss.map key).Nodup) :
    Toml.parse? (document ss).toList = some (ss.map fun s => (s.key, .scalar s.scalar)) := by
  have hlines : ∀ a ∈ ss.map assignment, a.WellFormed := by
    intro a ha
    obtain ⟨s, hs, rfl⟩ := List.mem_map.mp ha
    exact wellFormed (hfits s hs)
  have hnodup : ((ss.map assignment).map Toml.Assignment.key).Nodup := by
    rwa [List.map_map]
  rw [toList_document, Toml.parse?_assignments hlines hnodup, List.map_map]
  rfl

def number? (m : Measure) : Setting → Option Nat
  | number m' n => if m' = m then some n else none
  | dropInterim _ => none

def dropInterim? : Setting → Option Bool
  | number _ _ => none
  | dropInterim on => some on

section Pick

variable {α : Type} {pick : Setting → Option α} {item : α → Toml.Item} {k : String}
  (hpick : ∀ s, (pick s).map item = if s.key = k then some (.scalar s.scalar) else none)
  {ss : List Setting} {s : Setting} {a : α}

include hpick

theorem key_of_pick (h : pick s = some a) : s.key = k := by
  have hs := hpick s
  rw [h] at hs
  refine Decidable.byContradiction fun hk => ?_
  rw [if_neg hk] at hs
  cases hs

theorem pick_eq_none (h : s.key ≠ k) : pick s = none := by
  have hs := hpick s
  rwa [if_neg h, Option.map_eq_none_iff] at hs

theorem lookup_entries (ss : List Setting) :
    (ss.map fun s => (s.key, Toml.Item.scalar s.scalar)).lookup k =
      (ss.findSome? pick).map item := by
  induction ss with
  | nil => rfl
  | cons s ss ih =>
    rw [List.map_cons, List.lookup_cons, List.findSome?_cons]
    by_cases hk : s.key = k
    · have hs := hpick s
      rw [if_pos hk] at hs
      obtain ⟨a, ha, hitem⟩ := Option.map_eq_some_iff.mp hs
      rw [beq_iff_eq.mpr hk.symm, ha]
      exact congrArg some hitem.symm
    · rw [beq_eq_false_iff_ne.mpr (Ne.symm hk), pick_eq_none hpick hk]
      exact ih

theorem findSome?_of_mem (hkeys : (ss.map key).Nodup) (hs : s ∈ ss) (ha : pick s = some a) :
    ss.findSome? pick = some a := by
  obtain ⟨b, hb⟩ : ∃ b, ss.findSome? pick = some b := by
    refine Option.ne_none_iff_exists'.mp fun hnone => ?_
    rw [List.findSome?_eq_none_iff.mp hnone s hs] at ha
    cases ha
  obtain ⟨t, ht, hpicked⟩ := List.exists_of_findSome?_eq_some hb
  have hkey : t.key = s.key := (key_of_pick hpick hpicked).trans (key_of_pick hpick ha).symm
  rw [List.inj_on_of_nodup_map hkeys ht hs hkey, ha] at hpicked
  rw [hb, hpicked]

theorem findSome?_of_not_mem (hs : k ∉ ss.map key) : ss.findSome? pick = none := by
  rw [List.findSome?_eq_none_iff]
  intro t ht
  exact pick_eq_none hpick fun hk => hs (List.mem_map.mpr ⟨t, ht, hk⟩)

end Pick

theorem eq_of_number? {m : Measure} {s : Setting} {n : Nat} (h : s.number? m = some n) :
    s = number m n := by
  cases s with
  | number m' n' =>
    obtain ⟨rfl, rfl⟩ : m' = m ∧ n' = n := by simpa [number?] using h
    rfl
  | dropInterim on => cases h

theorem map_number? (m : Measure) (s : Setting) :
    ((s.number? m).map fun n : Nat => Toml.Item.scalar (.integer n)) =
      if s.key = m.key then some (.scalar s.scalar) else none := by
  cases s with
  | number m' n =>
    by_cases hm : m' = m
    · subst hm
      simp [number?, key, scalar]
    · have hkey : m'.key ≠ m.key := fun h => hm (Measure.key_injective h)
      simp [number?, key, hm, hkey]
  | dropInterim on => simp [number?, key, m.key_ne_dropInterim.symm]

theorem map_dropInterim? (s : Setting) :
    (s.dropInterim?.map fun on => Toml.Item.scalar (.boolean on)) =
      if s.key = "drop_interim" then some (.scalar s.scalar) else none := by
  cases s with
  | number m n => simp [dropInterim?, key, m.key_ne_dropInterim]
  | dropInterim on => rfl

end Setting

namespace Config

def settings (c : Config) : List Setting :=
  [.number .maxTraceRecords c.maxTraceRecords, .number .minMethodTime c.minMethodTime,
    .number .minTraceTime c.minTraceTime, .number .minTraceCalls c.minTraceCalls,
    .dropInterim c.dropInterim, .number .poolCapacity c.poolCapacity]

def ofSettings (ss : List Setting) : Config :=
  let number (m : Measure) : Nat := (ss.findSome? (Setting.number? m)).getD (m.of {})
  { maxTraceRecords := number .maxTraceRecords
    minMethodTime := number .minMethodTime
    minTraceTime := number .minTraceTime
    minTraceCalls := number .minTraceCalls
    dropInterim := (ss.findSome? Setting.dropInterim?).getD ({} : Config).dropInterim
    poolCapacity := number .poolCapacity }

theorem of_ofSettings (ss : List Setting) (m : Measure) :
    m.of (ofSettings ss) = (ss.findSome? (Setting.number? m)).getD (m.of {}) := by
  cases m <;> rfl

theorem ofSettings_settings (c : Config) : ofSettings c.settings = c := rfl

theorem toToml_eq {c : Config} (h : ∀ m : Measure, m.of c ≤ tomlLimit) :
    c.toToml = .ok (Setting.document c.settings) := by
  have hfits : [c.maxTraceRecords, c.minMethodTime, c.minTraceTime, c.minTraceCalls,
      c.poolCapacity].all (· ≤ tomlLimit) := by
    simp only [List.all_eq_true, decide_eq_true_eq]
    simpa using ⟨h .maxTraceRecords, h .minMethodTime, h .minTraceTime, h .minTraceCalls,
      h .poolCapacity⟩
  rw [toToml, if_pos hfits]
  simp [Setting.document, settings, Setting.key, Measure.key, Setting.text, String.append_assoc]

section Read

variable (ss : List Setting)

theorem number_entries (m : Measure) (default : Nat) :
    number (ss.map fun s => (s.key, .scalar s.scalar)) m.key default =
      .ok ((ss.findSome? (Setting.number? m)).getD default) := by
  rw [number, Setting.lookup_entries (Setting.map_number? m)]
  cases ss.findSome? (Setting.number? m) with
  | none => rfl
  | some n => exact if_pos (Int.natCast_nonneg n)

theorem switch_entries (default : Bool) :
    switch (ss.map fun s => (s.key, .scalar s.scalar)) "drop_interim" default =
      .ok ((ss.findSome? Setting.dropInterim?).getD default) := by
  rw [switch, Setting.lookup_entries Setting.map_dropInterim?]
  cases ss.findSome? Setting.dropInterim? <;> rfl

theorem ofEntries_settings :
    ofEntries (ss.map fun s => (s.key, .scalar s.scalar)) = .ok (ofSettings ss) := by
  rw [ofEntries,
    show number _ "max_trace_records" _ = _ from number_entries ss .maxTraceRecords _,
    show number _ "min_method_time" _ = _ from number_entries ss .minMethodTime _,
    show number _ "min_trace_time" _ = _ from number_entries ss .minTraceTime _,
    show number _ "min_trace_calls" _ = _ from number_entries ss .minTraceCalls _,
    switch_entries,
    show number _ "pool_capacity" _ = _ from number_entries ss .poolCapacity _]
  rfl

variable {ss}

/-- A document is read as its settings, unless they leave no nodes to a trace. -/
theorem ofToml_document (hfits : ∀ s ∈ ss, s.Fits) (hkeys : (ss.map Setting.key).Nodup) :
    ofToml (Setting.document ss) =
      if (ofSettings ss).maxTraceRecords = 0 then .error .noBudget else .ok (ofSettings ss) := by
  have hread : ofToml (Setting.document ss) =
      (ofSettings ss).validate.bind fun _ => .ok (ofSettings ss) := by
    rw [ofToml, Setting.parse?_document hfits hkeys]
    simp only [ofEntries_settings]
    rfl
  rw [hread, validate]
  by_cases h : (ofSettings ss).maxTraceRecords = 0
  · rw [if_pos h, if_pos h]
    rfl
  · rw [if_neg h, if_neg h]
    rfl

theorem holdsOf_ofSettings {s : Setting} (hkeys : (ss.map Setting.key).Nodup) (hs : s ∈ ss) :
    s.HoldsOf (ofSettings ss) := by
  cases s with
  | number m n =>
    rw [Setting.HoldsOf, of_ofSettings,
      Setting.findSome?_of_mem (Setting.map_number? m) hkeys hs (if_pos rfl)]
    rfl
  | dropInterim on =>
    rw [Setting.HoldsOf, ofSettings,
      Setting.findSome?_of_mem Setting.map_dropInterim? hkeys hs rfl]
    rfl

theorem holdsOf_default {s : Setting} (hdefault : s.HoldsOf {}) (hs : s.key ∉ ss.map Setting.key) :
    s.HoldsOf (ofSettings ss) := by
  cases s with
  | number m n =>
    rw [Setting.HoldsOf, of_ofSettings, Setting.findSome?_of_not_mem (Setting.map_number? m) hs]
    exact hdefault
  | dropInterim on =>
    rw [Setting.HoldsOf, ofSettings, Setting.findSome?_of_not_mem Setting.map_dropInterim? hs]
    exact hdefault

theorem settings_fit {c : Config} (h : ∀ m : Measure, m.of c ≤ tomlLimit) :
    ∀ s ∈ c.settings, s.Fits := by
  intro s hs
  simp only [settings, List.mem_cons, List.not_mem_nil, or_false] at hs
  rcases hs with rfl | rfl | rfl | rfl | rfl | rfl
  · exact h .maxTraceRecords
  · exact h .minMethodTime
  · exact h .minTraceTime
  · exact h .minTraceCalls
  · trivial
  · exact h .poolCapacity

theorem nodup_keys (c : Config) : (c.settings.map Setting.key).Nodup := by
  have hnames : ["max_trace_records", "min_method_time", "min_trace_time", "min_trace_calls",
      "drop_interim", "pool_capacity"].Nodup := by decide
  exact hnames

theorem maxTraceRecords_ne_zero (h : .number .maxTraceRecords 0 ∉ ss) :
    (ofSettings ss).maxTraceRecords ≠ 0 := by
  have hnumber : (ofSettings ss).maxTraceRecords =
      (ss.findSome? (Setting.number? .maxTraceRecords)).getD 4096 :=
    of_ofSettings ss .maxTraceRecords
  cases hfind : ss.findSome? (Setting.number? .maxTraceRecords) with
  | none =>
    rw [hnumber, hfind]
    decide
  | some n =>
    obtain ⟨s, hs, hn⟩ := List.exists_of_findSome?_eq_some hfind
    rw [hnumber, hfind]
    rintro rfl
    exact h (Setting.eq_of_number? hn ▸ hs)

end Read

end Config

/-- Written as TOML and read back, a configuration whose numbers are among the integers of the
format is the same, unless it leaves no nodes to a trace. Reading any of the settings, in any order,
gives the written values to these settings, and to all others the values of their own. -/
theorem configuration_read_back :
    (∀ c : Config, (∀ m : Measure, m.of c ≤ Config.tomlLimit) → ∃ text, c.toToml = .ok text ∧
      (Config.ofToml text = .ok c ↔ 0 < c.maxTraceRecords) ∧
      (Config.ofToml text = .error .noBudget ↔ ¬ 0 < c.maxTraceRecords)) ∧
    ∀ ss : List Setting, (ss.map Setting.key).Nodup → (∀ s ∈ ss, s.Fits) →
      .number .maxTraceRecords 0 ∉ ss →
      ∃ c, Config.ofToml (Setting.document ss) = .ok c ∧ (∀ s ∈ ss, s.HoldsOf c) ∧
        ∀ s : Setting, s.HoldsOf {} → s.key ∉ ss.map Setting.key → s.HoldsOf c := by
  refine ⟨fun c hc => ⟨_, Config.toToml_eq hc, ?_⟩, fun ss hkeys hfits hbudget => ?_⟩
  · rw [Config.ofToml_document (Config.settings_fit hc) c.nodup_keys, Config.ofSettings_settings]
    by_cases h : c.maxTraceRecords = 0
    · simp [h]
    · simp [h, Nat.pos_of_ne_zero h]
  · refine ⟨Config.ofSettings ss, ?_, fun s hs => Config.holdsOf_ofSettings hkeys hs,
      fun s => Config.holdsOf_default⟩
    rw [Config.ofToml_document hfits hkeys, if_neg (Config.maxTraceRecords_ne_zero hbudget)]

/-- The settings of their own are read back, and two settings in an order of their own are read. -/
theorem configuration_read_back_of_defaults :
    (∃ text, ({} : Config).toToml = .ok text ∧ Config.ofToml text = .ok {}) ∧
    ∃ c, Config.ofToml (Setting.document [.dropInterim true, .number .minTraceCalls 7]) = .ok c ∧
      c.dropInterim = true ∧ c.minTraceCalls = 7 ∧ c.maxTraceRecords = 4096 := by
  obtain ⟨hall, hsome⟩ := configuration_read_back
  constructor
  · obtain ⟨text, hwrite, hread, -⟩ := hall {} (by intro m; cases m <;> decide)
    exact ⟨text, hwrite, hread.mpr (by decide)⟩
  · have hfits : ∀ s ∈ [Setting.dropInterim true, .number .minTraceCalls 7], s.Fits := by
      simp only [List.forall_mem_cons, Setting.Fits, List.not_mem_nil, false_implies, implies_true,
        and_true, true_and]
      decide
    obtain ⟨c, hread, hwritten, hdefault⟩ := hsome _ (by decide) hfits (by simp)
    refine ⟨c, hread, hwritten (.dropInterim true) (by simp),
      hwritten (.number .minTraceCalls 7) (by simp),
      hdefault (.number .maxTraceRecords 4096) rfl (by decide)⟩

end CallTree
