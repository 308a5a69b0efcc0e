/-!
Values under keys, in the order in which the keys came up first.
-/
namespace CallTree.Keyed

variable {κ α : Type} [DecidableEq κ]

def put (key : κ) (value : α) : List (κ × α) → List (κ × α)
  | [] => [(key, value)]
  | (k, v) :: rest => if k = key then (k, value) :: rest else (k, v) :: put key value rest

def erase (key : κ) (entries : List (κ × α)) : List (κ × α) := entries.filter (·.1 ≠ key)

private theorem lookup_cons (k k' : κ) (v : α) (entries : List (κ × α)) :
    List.lookup k ((k', v) :: entries) = if k = k' then some v else entries.lookup k := by
  by_cases h : k = k'
  · simp [h]
  · have hb : (k == k') = false := by simpa using h
    simp [List.lookup_cons, hb, h]

theorem lookup_put (key k : κ) (value : α) (entries : List (κ × α)) :
    (put key value entries).lookup k = if k = key then some value else entries.lookup k := by
  induction entries with
  | nil => simp [put, lookup_cons]
  | cons e es ih =>
    obtain ⟨k', v⟩ := e
    unfold put
    split <;> simp only [lookup_cons, ih] <;> grind

theorem mem_put {key : κ} {value : α} {entries : List (κ × α)} {e : κ × α}
    (h : e ∈ put key value entries) : e = (key, value) ∨ e ∈ entries := by
  induction entries with
  | nil => exact .inl (List.mem_singleton.mp h)
  | cons e' es ih =>
    obtain ⟨k, v⟩ := e'
    unfold put at h
    split at h
    case isTrue hk =>
      rcases List.mem_cons.mp h with rfl | h
      · exact .inl (hk ▸ rfl)
      · exact .inr (List.mem_cons_of_mem _ h)
    case isFalse =>
      rcases List.mem_cons.mp h with rfl | h
      · exact .inr List.mem_cons_self
      · exact (ih h).imp_right (List.mem_cons_of_mem _)

theorem lookup_erase (key k : κ) (entries : List (κ × α)) :
    (erase key entries).lookup k = if k = key then none else entries.lookup k := by
  induction entries with
  | nil => simp [erase]
  | cons e es ih =>
    obtain ⟨k', v⟩ := e
    unfold erase at ih ⊢
    rw [List.filter_cons]
    split <;> simp only [lookup_cons, ih] <;> grind

/-- A key keeps its place, and a new one comes last. -/
theorem keys_put (key : κ) (value : α) (entries : List (κ × α)) :
    (put key value entries).map (·.1) =
      if key ∈ entries.map (·.1) then entries.map (·.1) else entries.map (·.1) ++ [key] := by
  induction entries with
  | nil => rfl
  | cons e es ih =>
    obtain ⟨k, v⟩ := e
    by_cases hk : k = key
    · simp [put, hk]
    · have hk' : ¬ key = k := fun h => hk h.symm
      simp only [put, hk, ↓reduceIte, List.map_cons, ih, List.mem_cons, hk', false_or]
      split <;> simp

end CallTree.Keyed
