import CallTree.Json
import CallTree.Proofs.FlagWords

/-!
Values read back from their JSON. A reader has room for a value if it may enter as many arrays and
objects as the value nests. The fields of a record are found under their keys, and those that are
left out when they say nothing are found missing.
-/
namespace CallTree.Json

/-! ### How deep a value nests -/

mutual

def depth : Json → Nat
  | .array items => depthOfItems items + 1
  | .object fields => depthOfFields fields + 1
  | _ => 0

def depthOfItems : List Json → Nat
  | [] => 0
  | j :: js => max j.depth (depthOfItems js)

def depthOfFields : List (String × Json) → Nat
  | [] => 0
  | (_, j) :: fields => max j.depth (depthOfFields fields)

end

theorem depth_le_of_item {items : List Json} {j : Json} (h : j ∈ items) :
    j.depth ≤ depthOfItems items := by
  induction items with
  | nil => cases h
  | cons i items ih =>
    rw [depthOfItems]
    rcases List.mem_cons.mp h with rfl | h
    · exact Nat.le_max_left _ _
    · exact Nat.le_trans (ih h) (Nat.le_max_right _ _)

theorem depth_le_of_field {fields : List (String × Json)} {key : String} {j : Json}
    (h : (key, j) ∈ fields) : j.depth ≤ depthOfFields fields := by
  induction fields with
  | nil => cases h
  | cons field fields ih =>
    rw [depthOfFields]
    rcases List.mem_cons.mp h with rfl | h
    · exact Nat.le_max_left _ _
    · exact Nat.le_trans (ih h) (Nat.le_max_right _ _)

/-! ### Readers -/

/-- A reader with room for the value reads it so. -/
def ReadsAs {α : Type} (read : Nat → Json → Option α) (j : Json) (a : α) : Prop :=
  ∀ room, j.depth ≤ room → read room j = some a

variable {α β : Type}

theorem nat?_nat {n bound : Nat} (h : n < bound) : (nat n).nat? bound = some n := by
  have hrange : (0 : Int) ≤ n ∧ (n : Int) < bound := by omega
  rw [nat, nat?, if_pos hrange, Int.toNat_natCast]

theorem word32?_nat {n : Nat} (h : n < 2 ^ 32) : (nat n).word32? = some n := nat?_nat h

theorem word64?_nat {n : Nat} (h : n < 2 ^ 64) : (nat n).word64? = some n := nat?_nat h

theorem required_eq {read : Json → Option α} {j : Json} {a : α} (h : read j = some a) :
    required read (some j) = some a := by
  rw [required, Option.bind_some, h]

theorem readsAs_array {item : Nat → Json → Option β} {write : α → Json} {value : α → β}
    {as : List α} (h : ∀ a ∈ as, ReadsAs item (write a) (value a)) :
    ReadsAs (fun room j => j.array? room item) (.array (as.map write)) (as.map value) := by
  intro room hroom
  cases room with
  | zero => simp [depth] at hroom
  | succ room =>
    refine mapM_map fun a ha => h a ha room ?_
    have hitem := depth_le_of_item (List.mem_map_of_mem (f := write) ha)
    rw [depth] at hroom
    omega

theorem optional_map {read : Json → Option β} {write : α → Json} {value : α → β} {o : Option α}
    (hnull : ∀ a, write a ≠ .null) (h : ∀ a ∈ o, read (write a) = some (value a)) :
    optional read (o.map write) = some (o.map value) := by
  cases o with
  | none => rfl
  | some a =>
    rw [Option.map_some, optional, h a rfl]
    · rfl
    · exact hnull a

theorem optional_getD {read : Json → Option β} {write : α → Json} {value : α → β} {o : Option α}
    (hnull : ∀ a, write a ≠ .null) (h : ∀ a ∈ o, read (write a) = some (value a)) :
    optional read (some ((o.map write).getD .null)) = some (o.map value) := by
  cases o with
  | none => rfl
  | some a =>
    have hread := optional_map (o := some a) hnull h
    exact hread

def unlessEmpty (write : α → Json) (as : List α) : Option Json :=
  if as.isEmpty then none else some (.array (as.map write))

theorem orElse_unlessEmpty {item : Nat → Json → Option β} {write : α → Json} {value : α → β}
    {as : List α} {room : Nat} (h : ∀ a ∈ as, ReadsAs item (write a) (value a))
    (hroom : ∀ j ∈ unlessEmpty write as, j.depth ≤ room) :
    orElse [] (·.array? room item) (unlessEmpty write as) = some (as.map value) := by
  unfold unlessEmpty at hroom ⊢
  split
  case isTrue hempty => rw [List.isEmpty_iff.mp hempty]; rfl
  case isFalse hne =>
    rw [if_neg hne] at hroom
    exact readsAs_array h room (hroom _ rfl)

/-! ### Records -/

def present (entries : List (String × Option Json)) : List (String × Json) :=
  entries.filterMap fun e => e.2.map (e.1, ·)

theorem mem_keys_present {entries : List (String × Option Json)} {key : String} :
    key ∈ (present entries).map (·.1) ↔ ∃ j, (key, some j) ∈ entries := by
  simp only [present, List.mem_map, List.mem_filterMap, Option.map_eq_some_iff]
  constructor
  · rintro ⟨_, ⟨e, he, j, hj, rfl⟩, rfl⟩
    exact ⟨j, hj ▸ he⟩
  · rintro ⟨j, hj⟩
    exact ⟨(key, j), ⟨_, hj, j, rfl, rfl⟩, rfl⟩

theorem valuesOf_absent {entries : List (String × Option Json)} {key : String}
    (h : key ∉ entries.map (·.1)) : valuesOf key (present entries) = [] := by
  induction entries with
  | nil => rfl
  | cons e entries ih =>
    obtain ⟨k, v⟩ := e
    obtain ⟨hk, hrest⟩ := not_or.mp (mt List.mem_cons.mpr h)
    cases v with
    | none => exact ih hrest
    | some j =>
      have hne : (k == key) = false := by simpa using Ne.symm hk
      have := ih hrest
      unfold valuesOf present at this ⊢
      simpa [hne] using this

theorem valuesOf_present {entries : List (String × Option Json)}
    (hunique : (entries.map (·.1)).Nodup) {key : String} {v : Option Json}
    (h : (key, v) ∈ entries) : valuesOf key (present entries) = v.toList := by
  induction entries with
  | nil => cases h
  | cons e entries ih =>
    obtain ⟨hfirst, hunique⟩ := List.nodup_cons.mp hunique
    rcases List.mem_cons.mp h with rfl | h
    · have habsent := valuesOf_absent hfirst
      cases v <;> unfold valuesOf present at habsent ⊢ <;> simpa using habsent
    · have hne : (e.1 == key) = false := by
        simp only [beq_eq_false_iff_ne, ne_eq]
        rintro rfl
        exact hfirst (List.mem_map.mpr ⟨_, h, rfl⟩)
      have := ih hunique h
      unfold valuesOf present at this ⊢
      cases hv : e.2 with
      | none => simpa [hv] using this
      | some j => simpa [hv, hne] using this

theorem record?_present {entries : List (String × Option Json)}
    (hunique : (entries.map (·.1)).Nodup) :
    (Json.object (present entries)).record? (entries.map (·.1)) = some (entries.map (·.2)) := by
  refine mapM_map fun e he => ?_
  obtain ⟨key, v⟩ := e
  rw [valuesOf_present hunique he]
  cases v <;> rfl

theorem room_of_record {entries : List (String × Option Json)} {room : Nat}
    (hroom : (Json.object (present entries)).depth ≤ room) :
    ∃ inside, room = inside + 1 ∧
      ∀ key j, (key, some j) ∈ entries → j.depth ≤ inside := by
  rw [depth] at hroom
  refine ⟨room - 1, by omega, fun key j h => ?_⟩
  have hfield : (key, j) ∈ present entries := List.mem_filterMap.mpr ⟨_, h, rfl⟩
  have := depth_le_of_field hfield
  omega

end CallTree.Json
