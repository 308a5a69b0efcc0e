import CallTree.Flag.Text
import CallTree.Proofs.Header

/-!
The text of a flag set is read back as the set, with all the bits that no flag names.
-/
namespace CallTree

theorem mapM_map {α β γ : Type} {read : β → Option γ} {write : α → β} {value : α → γ} {as : List α}
    (h : ∀ a ∈ as, read (write a) = some (value a)) :
    (as.map write).mapM read = some (as.map value) := by
  induction as with
  | nil => rfl
  | cons a as ih =>
    rw [List.map_cons, List.mapM_cons, h a List.mem_cons_self,
      ih fun a ha => h a (List.mem_cons_of_mem _ ha)]
    rfl

theorem Digits.exists_toDigits (base : Nat) (hbase : 1 < base) (n : Nat) :
    ∃ ds : List Nat, ds ≠ [] ∧ (∀ d ∈ ds, d < base) ∧ ofDigits base ds = n ∧
      Nat.toDigits base n = ds.map toChar := by
  induction n using Nat.strongRecOn with
  | ind n ih =>
    rw [Nat.toDigits_eq_if hbase]
    split
    case isTrue hn => exact ⟨[n], by simp, by simpa using hn, by simp [ofDigits], rfl⟩
    case isFalse hn =>
      obtain ⟨ds, -, hlt, hvalue, hds⟩ := ih (n / base) (Nat.div_lt_self (by omega) hbase)
      refine ⟨ds ++ [n % base], by simp, ?_, ?_, ?_⟩
      · intro d hd
        rcases List.mem_append.mp hd with hd | hd
        · exact hlt d hd
        · rw [List.mem_singleton.mp hd]
          exact Nat.mod_lt n (by omega)
      · rw [ofDigits_concat, hvalue, Nat.mul_comm]
        exact Nat.div_add_mod n base
      · rw [hds, List.map_append]
        rfl

namespace Text

/-- A text that stands alone between bars and blanks. -/
structure IsWord (cs : List Char) : Prop where
  ne_nil : cs ≠ []
  plain : ∀ c ∈ cs, c ≠ '|' ∧ isBlank c = false

theorem isWord_of_all {cs : List Char} (hne : cs ≠ [])
    (hall : cs.all fun c => c != '|' && !isBlank c) : IsWord cs := by
  refine ⟨hne, fun c hc => ?_⟩
  simpa using List.all_eq_true.mp hall c hc

theorem splitOn_words {before : List Char} (hbefore : ∀ c ∈ before, isBlank c)
    {ws : List (List Char)} (hne : ws ≠ []) (hws : ∀ w ∈ ws, IsWord w) :
    (splitOn '|' (before ++ join " | ".toList ws)).map trim = ws := by
  induction ws generalizing before with
  | nil => exact absurd rfl hne
  | cons w ws ih =>
    obtain ⟨hw, hplain⟩ := hws w List.mem_cons_self
    have hfirst : ∀ c ∈ w.head?, isBlank c = false := fun c hc =>
      (hplain c (List.mem_of_head? hc)).2
    have hlast : ∀ c ∈ w.getLast?, isBlank c = false := fun c hc =>
      (hplain c (List.mem_of_getLast? hc)).2
    have hbar : '|' ∉ before ++ w := by
      intro hc
      rcases List.mem_append.mp hc with hc | hc
      · exact absurd (hbefore _ hc) (by decide)
      · exact (hplain _ hc).1 rfl
    cases ws with
    | nil =>
      have htrim : trim (before ++ w ++ []) = w :=
        trim_append hbefore (by simp) hfirst hlast hw
      rw [List.append_nil] at htrim
      rw [join, splitOn_of_not_mem hbar, List.map_singleton, htrim]
    | cons v vs =>
      have hjoin : before ++ join " | ".toList (w :: v :: vs) =
          (before ++ w ++ [' ']) ++ ['|'] ++ ([' '] ++ join " | ".toList (v :: vs)) := by
        simp [join]
      have hbar' : '|' ∉ before ++ w ++ [' '] := by simpa using hbar
      have hblank : ∀ c ∈ [' '], isBlank c := List.forall_mem_singleton.mpr (by decide)
      rw [hjoin, splitOn_append hbar', List.map_cons,
        trim_append hbefore hblank hfirst hlast hw,
        ih hblank (by simp) fun w hw => hws w (List.mem_cons_of_mem _ hw)]

theorem trim_join_ne_nil (sep : List Char) {ws : List (List Char)} (hne : ws ≠ [])
    (hws : ∀ w ∈ ws, IsWord w) : trim (join sep ws) ≠ [] := by
  obtain ⟨w, vs, rfl⟩ := List.exists_cons_of_ne_nil hne
  obtain ⟨hw, hplain⟩ := hws w List.mem_cons_self
  obtain ⟨c, cs, rfl⟩ := List.exists_cons_of_ne_nil hw
  have hc : c ∈ join sep ((c :: cs) :: vs) := by cases vs <;> simp [join]
  intro htrim
  obtain ⟨before, after, hbefore, hafter, htext⟩ := exists_of_trim (join sep ((c :: cs) :: vs))
  rw [htrim, List.append_nil] at htext
  have hblank : isBlank c := by
    rcases List.mem_append.mp (htext ▸ hc) with hc | hc
    · exact hbefore c hc
    · exact hafter c hc
  rw [(hplain c List.mem_cons_self).2] at hblank
  cases hblank

theorem mem_join {sep : List Char} {ps : List (List Char)} {c : Char} (h : c ∈ join sep ps) :
    c ∈ sep ∨ ∃ p ∈ ps, c ∈ p := by
  induction ps with
  | nil => simp [join] at h
  | cons p ps ih =>
    cases ps with
    | nil => exact .inr ⟨p, List.mem_cons_self, h⟩
    | cons q qs =>
      simp only [join, List.append_assoc, List.mem_append] at h
      rcases h with h | h | h
      · exact .inr ⟨p, List.mem_cons_self, h⟩
      · exact .inl h
      · obtain h | ⟨r, hr, hc⟩ := ih h
        · exact .inl h
        · exact .inr ⟨r, List.mem_cons_of_mem _ hr, hc⟩

end Text

/-- A vocabulary whose names can be told apart in a text. -/
class Flag.Legible (α : Type) [Flag α] : Prop where
  bit_lt : ∀ f : α, Flag.bit f < 32
  isWord : ∀ f : α, Text.IsWord (Flag.name f).toList
  ofWord : ∀ f : α, FlagSet.ofWord? (Flag.name f).toList = some (.single f)

instance : Flag.Legible NodeFlag where
  bit_lt f := by cases f <;> decide
  isWord f := by cases f <;> exact Text.isWord_of_all (by decide) (by decide)
  ofWord f := by cases f <;> decide

instance : Flag.Legible MarkerFlag where
  bit_lt f := by cases f <;> decide
  isWord f := by cases f <;> exact Text.isWord_of_all (by decide) (by decide)
  ofWord f := by cases f <;> decide

namespace FlagSet

variable {α : Type} [Flag α]

theorem isWord_hexWord (n : Nat) : Text.IsWord (hexWord n) := by
  obtain ⟨ds, -, hlt, -, hds⟩ := Digits.exists_toDigits 16 (by decide) n
  have hdigit : ∀ d < 16, Digits.toChar d ≠ '|' ∧ Text.isBlank (Digits.toChar d) = false := by
    decide
  refine ⟨by simp [hexWord], fun c hc => ?_⟩
  simp only [hexWord, hds, List.mem_cons, List.mem_map] at hc
  rcases hc with rfl | rfl | ⟨d, hd, rfl⟩
  · decide
  · decide
  · exact hdigit d (hlt d hd)

theorem ofWord?_hexWord {n : Nat} (hn : n < 2 ^ 32) :
    ofWord? (hexWord n) = some (ofNat n : FlagSet α) := by
  obtain ⟨ds, hne, hlt, hvalue, hds⟩ := Digits.exists_toDigits 16 (by decide) n
  have hread : Digits.read? 16 (Nat.toDigits 16 n) = some n := by
    rw [hds, Digits.read?_toChar hne hlt, hvalue]
  have hsign : ∀ rest, Nat.toDigits 16 n ≠ '+' :: rest := by
    intro rest hplus
    have hmem : '+' ∈ ds.map Digits.toChar := hds ▸ hplus ▸ List.mem_cons_self
    obtain ⟨d, hd, hc⟩ := List.mem_map.mp hmem
    have hdigit : ∀ d < 16, Digits.toChar d ≠ '+' := by decide
    exact hdigit d (hlt d hd) hc
  have hbits : hexBits? (Nat.toDigits 16 n) = some n := by
    unfold hexBits?
    split
    case h_1 rest hplus => exact absurd hplus (hsign rest)
    case h_2 => simpa [hread] using hn
  rw [hexWord, ofWord?, hbits]
  rfl

def unnamed (s : FlagSet α) : FlagSet α := s \ known

def parts (s : FlagSet α) : List (FlagSet α) :=
  (Flag.all.filter s.has).map single ++ if s.unnamed.isEmpty then [] else [s.unnamed]

theorem words_eq (s : FlagSet α) :
    s.words = ((Flag.all.filter s.has).map fun f : α => (Flag.name f).toList) ++
      if s.unnamed.isEmpty then [] else [hexWord s.unnamed.toNat] := by
  unfold words unnamed
  simp only
  split <;> simp

omit [Flag α] in
theorem getLsbD_unions (ss : List (FlagSet α)) (s : FlagSet α) (j : Nat) :
    (ss.foldl (· ∪ ·) s).bits.getLsbD j = (s.bits.getLsbD j || ss.any (·.bits.getLsbD j)) := by
  induction ss generalizing s with
  | nil => simp
  | cons t ss ih =>
    have hunion : (s ∪ t).bits.getLsbD j = (s.bits.getLsbD j || t.bits.getLsbD j) :=
      BitVec.getLsbD_or
    rw [List.foldl_cons, ih, hunion, List.any_cons, Bool.or_assoc]

variable [Flag.Legible α]

theorem isWord_of_mem {s : FlagSet α} {w : List Char} (h : w ∈ s.words) : Text.IsWord w := by
  rw [words_eq] at h
  rcases List.mem_append.mp h with h | h
  · obtain ⟨f, -, rfl⟩ := List.mem_map.mp h
    exact Flag.Legible.isWord f
  · split at h
    · cases h
    · rw [List.mem_singleton.mp h]
      exact isWord_hexWord _

theorem mapM_words (s : FlagSet α) : s.words.mapM ofWord? = some s.parts := by
  have hnamed : ((Flag.all.filter s.has).map fun f : α => (Flag.name f).toList).mapM ofWord? =
      some ((Flag.all.filter s.has).map single) :=
    mapM_map fun f _ => Flag.Legible.ofWord f
  have hrest : ofWord? (hexWord s.unnamed.toNat) = some s.unnamed := by
    rw [ofWord?_hexWord (show s.unnamed.toNat < 2 ^ 32 from s.unnamed.bits.isLt)]
    exact congrArg some (congrArg mk (BitVec.ofNat_toNat 32 s.unnamed.bits))
  rw [words_eq, List.mapM_append, hnamed, parts]
  split
  case isTrue => rfl
  case isFalse =>
    rw [List.mapM_cons, hrest]
    rfl

theorem getLsbD_single (f : α) (j : Nat) :
    (single f).bits.getLsbD j = decide (Flag.bit f = j) := by
  simp [single, BitVec.getLsbD_twoPow, Flag.Legible.bit_lt f]

theorem getLsbD_known (j : Nat) : (known : FlagSet α).bits.getLsbD j =
    (Flag.all (α := α)).any fun f => decide (Flag.bit f = j) := by
  have hfold : (known : FlagSet α) = ((Flag.all (α := α)).map single).foldl (· ∪ ·) ∅ := by
    rw [List.foldl_map]
    rfl
  rw [hfold, getLsbD_unions, List.any_map]
  simp [EmptyCollection.emptyCollection, Function.comp_def, getLsbD_single]

theorem union_parts (s : FlagSet α) : s.parts.foldl (· ∪ ·) ∅ = s := by
  have hrest : ∀ j, (if s.unnamed.isEmpty then [] else [s.unnamed]).any (·.bits.getLsbD j) =
      s.unnamed.bits.getLsbD j := by
    intro j
    split
    case isTrue hempty =>
      rw [eq_of_beq (a := s.unnamed.bits) hempty]
      simp
    case isFalse => simp
  have hnamed : ∀ j, ((Flag.all.filter s.has).map single).any (·.bits.getLsbD j) =
      (s.bits.getLsbD j && (known : FlagSet α).bits.getLsbD j) := by
    intro j
    rw [getLsbD_known, Bool.eq_iff_iff]
    simp only [List.any_map, List.any_filter, List.any_eq_true, Function.comp_apply,
      getLsbD_single, Bool.and_eq_true, decide_eq_true_eq, has]
    grind
  have hunnamed : ∀ j, s.unnamed.bits.getLsbD j =
      (s.bits.getLsbD j && !(known : FlagSet α).bits.getLsbD j) := by
    intro j
    simp only [unnamed, SDiff.sdiff, BitVec.getLsbD_and, BitVec.getLsbD_not]
    by_cases hj : j < 32
    · simp [hj]
    · simp [BitVec.getLsbD_of_ge s.bits j (by omega)]
  suffices hbits : (s.parts.foldl (· ∪ ·) ∅).bits = s.bits from congrArg mk hbits
  refine BitVec.eq_of_getLsbD_eq fun j _ => ?_
  rw [getLsbD_unions, parts, List.any_append, hnamed, hrest, hunnamed]
  cases s.bits.getLsbD j <;> cases (known : FlagSet α).bits.getLsbD j <;>
    simp [EmptyCollection.emptyCollection]

theorem ofText?_toText (s : FlagSet α) : ofText? s.toText = some s := by
  have hparts : (s.words.mapM ofWord?).map (·.foldl (· ∪ ·) ∅) = some s := by
    rw [mapM_words, Option.map_some, union_parts]
  rw [ofText?, toText, String.toList_ofList, ofChars?, toChars]
  by_cases hwords : s.words = []
  · rw [hwords] at hparts ⊢
    exact hparts
  · have hsplit : (Text.splitOn '|' ([] ++ Text.join " | ".toList s.words)).map Text.trim =
        s.words :=
      Text.splitOn_words (by simp) hwords fun w hw => isWord_of_mem hw
    have htrim := Text.trim_join_ne_nil " | ".toList hwords fun w hw => isWord_of_mem hw
    rw [List.nil_append] at hsplit
    rw [if_neg (by simpa using htrim), ← hparts]
    conv_rhs => rw [← hsplit, List.mapM_map]
    rfl

end FlagSet

end CallTree
