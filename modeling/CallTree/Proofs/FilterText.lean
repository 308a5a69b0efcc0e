import CallTree.Notice.Filter
import CallTree.Proofs.FlagWords
import CallTree.Proofs.Header
import Mathlib.Data.List.Basic

/-!
The text of a log filter. Directives of all forms, written one after another with commas between
them, are read as what they say. A text is read as a whole just if there is nothing to complain of.
-/
namespace CallTree

theorem mapM_eq_some_iff {α β : Type} {read : α → Option β} {as : List α} {bs : List β} :
    as.mapM read = some bs ↔ (∀ a ∈ as, (read a).isSome) ∧ as.filterMap read = bs := by
  induction as generalizing bs with
  | nil => simp
  | cons a as ih =>
    cases hread : read a with
    | none => simp [List.mapM_cons, hread]
    | some b =>
      have hcons : (a :: as).mapM read = (as.mapM read).map (b :: ·) := by
        rw [List.mapM_cons, hread]
        cases as.mapM read <;> rfl
      rw [hcons, Option.map_eq_some_iff, List.filterMap_cons_some hread]
      simp [ih, hread, and_assoc]

namespace Text

theorem byteSize_append (xs ys : List Char) : byteSize (xs ++ ys) = byteSize xs + byteSize ys := by
  induction xs with
  | nil => simp [byteSize]
  | cons c cs ih => simp [byteSize, ih, Nat.add_assoc]

theorem byteSize_concat (xs : List Char) {c : Char} (hc : c.utf8Size = 1) :
    byteSize (xs ++ [c]) = byteSize xs + 1 := by
  simp [byteSize_append, byteSize, hc]

theorem cut_append (front xs rest : List Char) :
    cut (byteSize front) (byteSize front + byteSize xs) (front ++ (xs ++ rest)) = xs := by
  rw [cut, dropBytes_append, Nat.add_sub_cancel_left, takeBytes_append]

theorem cut_start (xs rest : List Char) : cut 0 (byteSize xs) (xs ++ rest) = xs := by
  rw [cut, dropBytes, Nat.sub_zero, takeBytes_append]

theorem takeWhile_of_stop {p : Char → Bool} {xs rest : List Char} (h : ∀ x ∈ xs, p x)
    (hstop : ∀ c ∈ rest.head?, p c = false) : (xs ++ rest).takeWhile p = xs := by
  rw [List.takeWhile_append_of_pos h]
  cases rest with
  | nil => simp
  | cons c cs => simp [hstop c rfl]

theorem trim_of_ends {cs : List Char} (hne : cs ≠ [])
    (hfirst : ∀ c ∈ cs.head?, isBlank c = false)
    (hlast : ∀ c ∈ cs.getLast?, isBlank c = false) : trim cs = cs := by
  have hnone : ∀ c ∈ ([] : List Char), isBlank c := by simp
  have htrim := trim_append hnone hnone hfirst hlast hne
  rwa [List.nil_append, List.append_nil] at htrim

end Text

/-! ### Directives -/

namespace Directive

def levelName (level : Option Level) : List Char :=
  ((levels.find? (·.2 == level)).map (·.1)).getD []

theorem level?_levelName (level : Option Level) : level? (levelName level) = some level := by
  rcases level with _ | level
  · decide
  · cases level <;> decide

/-- A word that a directive may begin with. -/
structure IsWord (word : List Char) : Prop where
  plain : ∀ c ∈ word, c ≠ '=' ∧ c ≠ '[' ∧ Text.isBlank c = false
  first : ∃ c cs, word = c :: cs ∧ isFirst c

theorem IsWord.ne_nil {word : List Char} (h : IsWord word) : word ≠ [] := by
  obtain ⟨c, cs, rfl, -⟩ := h.first
  exact List.cons_ne_nil c cs

theorem IsWord.last {word : List Char} (h : IsWord word) :
    ∀ c ∈ word.getLast?, Text.isBlank c = false :=
  fun c hc => (h.plain c (List.mem_of_getLast? hc)).2.2

theorem toNat_lt_of_isAlphanum {c : Char} (h : c.isAlphanum) : c.toNat < 128 := by
  by_cases hdigit : c.isDigit
  · have hle : c.toNat ≤ 57 := of_decide_eq_true (Bool.and_eq_true_iff.mp hdigit).2
    omega
  by_cases hupper : c.isUpper
  · have hle : c.toNat ≤ 90 := (of_decide_eq_true hupper).2
    omega
  have hletter := (Bool.or_eq_true_iff.mp h).resolve_right hdigit
  have hlower : c.isLower := (Bool.or_eq_true_iff.mp hletter).resolve_left hupper
  have hle : c.toNat ≤ 122 := of_decide_eq_true (Bool.and_eq_true_iff.mp hlower).2
  omega

theorem plain_of_isAlphanum {c : Char} (h : c.isAlphanum) :
    c ≠ '=' ∧ c ≠ '[' ∧ Text.isBlank c = false := by
  have hascii : ∀ n < 128, (Char.ofNat n).isAlphanum → Char.ofNat n ≠ '=' ∧
      Char.ofNat n ≠ '[' ∧ Text.isBlank (Char.ofNat n) = false := by decide +kernel
  have hc := hascii c.toNat (toNat_lt_of_isAlphanum h)
  rw [Char.ofNat_toNat] at hc
  exact hc h

/-- The path of a module is a word if its names are of ASCII. -/
theorem isWord_of_isAlphanum {word : List Char} (hne : word ≠ [])
    (h : word.all fun c => c.isAlphanum || c == ':' || c == '_') : IsWord word := by
  have hpath : ∀ c ∈ word, c.isAlphanum ∨ c = ':' ∨ c = '_' := by
    simpa [or_assoc] using h
  have hplain : ∀ c ∈ word, c ≠ '=' ∧ c ≠ '[' ∧ Text.isBlank c = false := by
    intro c hc
    rcases hpath c hc with hc | rfl | rfl
    · exact plain_of_isAlphanum hc
    · decide
    · decide
  cases word with
  | nil => exact absurd rfl hne
  | cons c cs =>
    refine ⟨hplain, c, cs, rfl, ?_⟩
    rcases hpath c List.mem_cons_self with hc | rfl | rfl
    · simp [isFirst, Text.isAlphanumeric_of_isAlphanum hc]
    · rfl
    · rfl

theorem isWord_levelName (level : Option Level) : IsWord (levelName level) := by
  rcases level with _ | level
  · exact isWord_of_isAlphanum (by decide) (by decide)
  · cases level <;> exact isWord_of_isAlphanum (by decide) (by decide)

/-- What can be written down as a directive. A field may be asked for by its name alone or with a
value. -/
structure Wording where
  target : List Char := []
  span : List Char := []
  field : Option (List Char × Option (List Char)) := none
  level : Option (Option Level) := none

namespace Wording

def valueText (value : Option (List Char)) : List Char := (value.map ('=' :: ·)).getD []

def fieldText : Option (List Char × Option (List Char)) → List Char
  | none => []
  | some (name, value) => '\x7b' :: (name ++ valueText value) ++ ['\x7d']

def enclosed (w : Wording) : List Char := w.span ++ fieldText w.field

def brackets (w : Wording) : List Char := if w.enclosed = [] then [] else '[' :: w.enclosed ++ [']']

def ending : Option (Option Level) → List Char
  | none => []
  | some level => '=' :: levelName level

/-- A level with nothing before it has no equals sign. -/
def toChars (w : Wording) : List Char :=
  if w.target ++ w.brackets = [] then (w.level.map levelName).getD []
  else w.target ++ w.brackets ++ ending w.level

def directive (w : Wording) : Directive where
  target := w.target
  span := if w.span.isEmpty then none else some w.span
  field := w.field.map fun (name, value) => (name, value.isSome)
  level := w.level.getD (some .trace)

/-- No part has a mark in it that ends the part, and a word that stands alone is not taken for a
level. -/
structure Readable (w : Wording) : Prop where
  target : w.target = [] ∨ IsWord w.target
  span : ∀ c ∈ w.span, c ≠ ']' ∧ c ≠ '\x7b'
  field : ∀ name, w.field = some (name, none) → name ≠ [] ∧ ∀ c ∈ name, c ≠ '=' ∧ c ≠ '\x7d'
  value : ∀ name value, w.field = some (name, some value) →
    (∀ c ∈ name ++ value, c ≠ '=' ∧ c ≠ '\x7d') ∧
      (Text.isPattern value ∨ isNumber (skipPlus value))
  word : w.brackets = [] → w.level = none → w.target ≠ [] ∧ level? w.target = none

end Wording

open Wording

theorem ofLevel_levelName (d : Directive) (level : Option Level) :
    d.ofLevel (levelName level) = .ok { d with level } := by
  have hne : (levelName level).isEmpty = false := by simp [(isWord_levelName level).ne_nil]
  rw [ofLevel, hne, level?_levelName]
  rfl

theorem afterBrackets_ending (front : List Char) (level : Option (Option Level)) {d : Directive}
    (hd : d.level = some .trace) :
    afterBrackets (front ++ ending level) d (Text.byteSize front) (ending level) =
      .ok { d with level := level.getD (some .trace) } := by
  cases level with
  | none =>
    rw [ending, afterBrackets, Option.getD_none, ← hd]
  | some level =>
    have hrest : front ++ '=' :: levelName level = front ++ ['='] ++ levelName level := by simp
    rw [ending, afterBrackets, ← Text.byteSize_concat front (c := '=') rfl, hrest,
      Text.dropBytes_append, ofLevel_levelName, Option.getD_some]

variable {w : Wording}

theorem ofField_of_readable (h : w.Readable) (d : Directive) {name : List Char}
    {value : Option (List Char)} (hfield : w.field = some (name, value)) :
    d.ofField (name ++ valueText value) =
      .ok { d with field := some (name, value.isSome) } := by
  cases value with
  | none =>
    obtain ⟨hne, hname⟩ := h.field name hfield
    have hsplit : Text.splitOn '=' name = [name] :=
      Text.splitOn_of_not_mem fun hc => (hname _ hc).1 rfl
    simp [ofField, valueText, hsplit, hne]
  | some value =>
    obtain ⟨hparts, hvalue⟩ := h.value name value hfield
    have hsplit : Text.splitOn '=' (name ++ '=' :: value) = [name, value] := by
      have hname : '=' ∉ name := fun hc => (hparts _ (List.mem_append_left _ hc)).1 rfl
      have hvalue : '=' ∉ value := fun hc => (hparts _ (List.mem_append_right _ hc)).1 rfl
      have hcut := Text.splitOn_append hname value
      rwa [List.append_assoc, List.singleton_append, Text.splitOn_of_not_mem hvalue] at hcut
    simp [ofField, valueText, hsplit, hvalue]

theorem valueText_ends (h : w.Readable) {name : List Char} {value : Option (List Char)}
    (hfield : w.field = some (name, value)) : ∀ c ∈ name ++ valueText value, c ≠ '\x7d' := by
  intro c hc
  cases value with
  | none =>
    rw [valueText, Option.map_none, Option.getD_none, List.append_nil] at hc
    exact ((h.field name hfield).2 c hc).2
  | some value =>
    have hparts := (h.value name value hfield).1
    rcases List.mem_append.mp hc with hc | hc
    · exact (hparts c (List.mem_append_left _ hc)).2
    · rcases List.mem_cons.mp hc with rfl | hc
      · decide
      · exact (hparts c (List.mem_append_right _ hc)).2

theorem inBrackets_of_readable (h : w.Readable) (henclosed : w.enclosed ≠ []) (front : List Char) :
    inBrackets (front ++ (w.enclosed ++ ']' :: ending w.level)) { target := w.target }
      (Text.byteSize front) (w.enclosed ++ ']' :: ending w.level) = .ok w.directive := by
  cases hfield : w.field with
  | none =>
    have hspan : w.enclosed = w.span := by simp [enclosed, hfield, fieldText]
    rw [hspan] at henclosed ⊢
    have hname : (w.span ++ ']' :: ending w.level).takeWhile (fun c => c != ']' && c != '\x7b') =
        w.span :=
      Text.takeWhile_of_stop (fun c hc => by simp [h.span c hc]) (by simp)
    have htext : front ++ (w.span ++ ']' :: ending w.level) =
        front ++ w.span ++ [']'] ++ ending w.level := by simp
    simp only [inBrackets, hname, Text.cut_append, List.drop_left]
    rw [htext, ← Text.byteSize_append, ← Text.byteSize_concat _ (c := ']') rfl,
      afterBrackets_ending _ _ rfl]
    simp [directive, hfield, henclosed]
  | some field =>
    obtain ⟨name, value⟩ := field
    have hfinds := ofField_of_readable h { target := w.target, span := w.directive.span } hfield
    have hends := valueText_ends h hfield
    generalize hbody : name ++ valueText value = body at hfinds hends
    have hinside : w.enclosed ++ ']' :: ending w.level =
        w.span ++ '\x7b' :: (body ++ '\x7d' :: ']' :: ending w.level) := by
      simp [enclosed, hfield, fieldText, ← hbody]
    have hname : (w.span ++ '\x7b' :: (body ++ '\x7d' :: ']' :: ending w.level)).takeWhile
        (fun c => c != ']' && c != '\x7b') = w.span :=
      Text.takeWhile_of_stop (fun c hc => by simp [h.span c hc]) (by simp)
    have hfieldEnd : (body ++ '\x7d' :: ']' :: ending w.level).takeWhile (· != '\x7d') = body :=
      Text.takeWhile_of_stop (fun c hc => by simp [hends c hc]) (by simp)
    -- The text is cut once more where the field begins, and once where the brackets end.
    let opened := front ++ w.span ++ ['\x7b']
    have hopened : front ++ (w.span ++ '\x7b' :: (body ++ '\x7d' :: ']' :: ending w.level)) =
        opened ++ (body ++ '\x7d' :: ']' :: ending w.level) := by simp [opened]
    have hclosed : opened ++ (body ++ '\x7d' :: ']' :: ending w.level) =
        opened ++ body ++ ['\x7d'] ++ [']'] ++ ending w.level := by simp
    have hplace : Text.byteSize opened + Text.byteSize body + 2 =
        Text.byteSize (opened ++ body ++ ['\x7d'] ++ [']']) := by
      rw [Text.byteSize_concat _ (c := ']') rfl, Text.byteSize_concat _ (c := '\x7d') rfl,
        Text.byteSize_append opened body]
    rw [hinside]
    simp only [inBrackets, hname, Text.cut_append, List.drop_left, hfieldEnd]
    rw [hopened, ← Text.byteSize_append, ← Text.byteSize_concat _ (c := '\x7b') rfl,
      Text.cut_append]
    simp only [directive] at hfinds
    rw [hfinds]
    dsimp only [bind, Except.bind]
    rw [hclosed, hplace, afterBrackets_ending _ _ rfl]
    simp [directive, hfield]

section Word

variable {word : List Char} (h : IsWord word)
include h

theorem IsWord.takeWhile {rest : List Char} (hrest : ∀ c ∈ rest.head?, c = '=' ∨ c = '[') :
    (word ++ rest).takeWhile (fun c => c != '=' && c != '[') = word :=
  Text.takeWhile_of_stop (fun c hc => by simp [h.plain c hc])
    fun c hc => by rcases hrest c hc with rfl | rfl <;> rfl

theorem IsWord.trim {rest : List Char} (hlast : ∀ c ∈ rest.getLast?, Text.isBlank c = false) :
    Text.trim (word ++ rest) = word ++ rest := by
  obtain ⟨c, cs, rfl, -⟩ := h.first
  refine Text.trim_of_ends (by simp) (fun d hd => ?_) fun d hd => ?_
  · rw [← Option.some.inj hd]
    exact (h.plain c List.mem_cons_self).2.2
  · rw [List.getLast?_append, Option.mem_def, Option.or_eq_some_iff] at hd
    rcases hd with hd | ⟨-, hd⟩
    · exact hlast d hd
    · exact h.last d hd

/-- A word that stands alone is a level if it can be, and a target otherwise. -/
theorem ofChars_word : ofChars word =
    match level? word with
    | some level => .ok { level }
    | none => .ok { target := word } := by
  have htrim : Text.trim (word ++ []) = word ++ [] := h.trim (by simp)
  have htake : (word ++ []).takeWhile (fun c => c != '=' && c != '[') = word :=
    h.takeWhile (by simp)
  rw [List.append_nil] at htrim htake
  obtain ⟨c, cs, rfl, hc⟩ := h.first
  have hopen := (h.plain c List.mem_cons_self).2.1
  rw [ofChars, htrim]
  cases level? (c :: cs) <;> simp [htake, hc]

theorem ofChars_level (level : Option Level) :
    ofChars (word ++ '=' :: levelName level) = .ok { target := word, level } := by
  have hlast : ∀ c ∈ ('=' :: levelName level).getLast?, Text.isBlank c = false := by
    rw [List.getLast?_cons_of_ne_nil (isWord_levelName level).ne_nil]
    exact (isWord_levelName level).last
  have htrim := h.trim hlast
  have htake : (word ++ '=' :: levelName level).takeWhile (fun c => c != '=' && c != '[') = word :=
    h.takeWhile (by simp)
  have hcut := Text.cut_start word ('=' :: levelName level)
  have hrest : word ++ '=' :: levelName level = word ++ ['='] ++ levelName level := by simp
  have hlevel : Text.dropBytes (Text.byteSize word + 1) (word ++ '=' :: levelName level) =
      levelName level := by
    rw [hrest, ← Text.byteSize_concat word (c := '=') rfl, Text.dropBytes_append]
  have hdrop : (word ++ '=' :: levelName level).drop word.length = '=' :: levelName level :=
    List.drop_left
  obtain ⟨c, cs, rfl, hc⟩ := h.first
  have hopen := (h.plain c List.mem_cons_self).2.1
  rw [ofChars, htrim]
  simp only [htake, hcut, hdrop, hlevel, ofLevel_levelName]
  simp [hc]

theorem ofChars_brackets {inside : List Char}
    (hlast : ∀ c ∈ ('[' :: inside).getLast?, Text.isBlank c = false) :
    ofChars (word ++ '[' :: inside) =
      inBrackets (word ++ '[' :: inside) { target := word } (Text.byteSize word + 1) inside := by
  have htrim := h.trim hlast
  have htake : (word ++ '[' :: inside).takeWhile (fun c => c != '=' && c != '[') = word :=
    h.takeWhile (by simp)
  have hcut := Text.cut_start word ('[' :: inside)
  have hdrop : (word ++ '[' :: inside).drop word.length = '[' :: inside := List.drop_left
  obtain ⟨c, cs, rfl, hc⟩ := h.first
  have hopen := (h.plain c List.mem_cons_self).2.1
  rw [ofChars, htrim]
  simp only [htake, hcut, hdrop]
  simp [hc]

end Word

theorem ending_last (level : Option (Option Level)) :
    ∀ c ∈ (']' :: ending level).getLast?, Text.isBlank c = false := by
  cases level with
  | none => simp [ending]; rfl
  | some level =>
    rw [ending, List.getLast?_cons_cons,
      List.getLast?_cons_of_ne_nil (isWord_levelName level).ne_nil]
    exact (isWord_levelName level).last

theorem ofChars_toChars (h : w.Readable) : ofChars w.toChars = .ok w.directive := by
  by_cases henclosed : w.enclosed = []
  · have hbrackets : w.brackets = [] := by rw [brackets, if_pos henclosed]
    obtain ⟨hspan, hfield⟩ : w.span = [] ∧ w.field = none := by
      obtain ⟨hspan, hfield⟩ := List.append_eq_nil_iff.mp henclosed
      refine ⟨hspan, ?_⟩
      cases hw : w.field with
      | none => rfl
      | some field => simp [hw, fieldText] at hfield
    rcases h.target with htarget | hword
    · cases hlevel : w.level with
      | none => exact absurd htarget (h.word hbrackets hlevel).1
      | some level =>
        have htext : w.toChars = levelName level := by
          simp [toChars, hbrackets, htarget, hlevel]
        rw [htext, ofChars_word (isWord_levelName level), level?_levelName]
        simp [directive, htarget, hspan, hfield, hlevel]
    · have htext : w.toChars = w.target ++ ending w.level := by
        simp [toChars, hbrackets, hword.ne_nil]
      rw [htext]
      cases hlevel : w.level with
      | none =>
        rw [ending, List.append_nil, ofChars_word hword, (h.word hbrackets hlevel).2]
        simp [directive, hspan, hfield, hlevel]
      | some level =>
        rw [ending, ofChars_level hword]
        simp [directive, hspan, hfield, hlevel]
  · have htext : w.toChars = w.target ++ '[' :: (w.enclosed ++ ']' :: ending w.level) := by
      simp [toChars, brackets, henclosed]
    have hlast : ∀ c ∈ ('[' :: (w.enclosed ++ ']' :: ending w.level)).getLast?,
        Text.isBlank c = false := by
      rw [← List.cons_append, List.getLast?_append_cons]
      exact ending_last w.level
    rw [htext]
    rcases h.target with htarget | hword
    · have htrim : Text.trim ('[' :: (w.enclosed ++ ']' :: ending w.level)) =
          '[' :: (w.enclosed ++ ']' :: ending w.level) :=
        Text.trim_of_ends (by simp) (by simp; rfl) hlast
      have hinside := inBrackets_of_readable h henclosed ['[']
      rw [htarget] at hinside ⊢
      rw [List.nil_append, ofChars, htrim]
      exact hinside
    · rw [ofChars_brackets hword hlast]
      have hinside := inBrackets_of_readable h henclosed (w.target ++ ['['])
      rw [Text.byteSize_concat _ (c := '[') rfl, List.append_assoc] at hinside
      exact hinside

theorem toChars_ne_nil (h : w.Readable) : w.toChars ≠ [] := by
  intro hnil
  have hread := ofChars_toChars h
  rw [hnil] at hread
  cases hread

theorem target_cases (n : Notice) : n.row.target = "calltrace::assembler" ∨
    n.row.target = "calltrace::engine" ∨ n.row.target = "calltrace::queued_sink" := by
  cases n <;> simp only [Notice.row] <;> decide

theorem isWord_target (n : Notice) : IsWord n.row.target.toList := by
  rcases target_cases n with h | h | h <;> rw [h] <;>
    exact isWord_of_isAlphanum (by decide) (by decide)

theorem comma_not_mem_target (n : Notice) : ',' ∉ n.row.target.toList := by
  rcases target_cases n with h | h | h <;> rw [h] <;> decide

theorem comma_not_mem_levelName (level : Option Level) : ',' ∉ levelName level := by
  rcases level with _ | level
  · decide
  · cases level <;> decide

end Directive

/-! ### Whole filters -/

namespace LogFilter

open Directive

theorem parts_join {ws : List (List Char)} (h : ∀ w ∈ ws, w ≠ [] ∧ ',' ∉ w) :
    parts (String.ofList (Text.join [','] ws)) = ws := by
  rw [parts, String.toList_ofList]
  by_cases hne : ws = []
  · rw [hne]
    rfl
  · rw [Text.splitOn_join hne fun w hw => (h w hw).2, List.filter_eq_self]
    intro w hw
    simp [(h w hw).1]

theorem ofText?_join {ws : List Wording} (h : ∀ w ∈ ws, w.Readable ∧ ',' ∉ w.toChars) :
    ofText? (String.ofList (Text.join [','] (ws.map Wording.toChars))) =
      some (ws.map Wording.directive) := by
  have hparts : parts (String.ofList (Text.join [','] (ws.map Wording.toChars))) =
      ws.map Wording.toChars := by
    refine parts_join (List.forall_mem_map.mpr fun w hw => ?_)
    exact ⟨toChars_ne_nil (h w hw).1, (h w hw).2⟩
  rw [ofText?, hparts]
  refine mapM_map fun w hw => ?_
  rw [ofChars_toChars (h w hw).1]
  rfl

/-- Nothing of a text is passed over in silence: a part is a directive, or there is a complaint. -/
theorem length_ofTextLossy_add_complaints (s : String) :
    (ofTextLossy s).length + (complaints s).length = (parts s).length := by
  have hok (d : Directive) : (.ok d : Except DirectiveError Directive).toOption = some d := rfl
  have herror (e : DirectiveError) : (.error e : Except DirectiveError Directive).toOption = none :=
    rfl
  rw [ofTextLossy, complaints]
  induction parts s with
  | nil => rfl
  | cons p ps ih => cases hp : ofChars p <;> simp +arith [hp, hok, herror, ← ih]

theorem complaints_eq_nil_iff (s : String) :
    complaints s = [] ↔ ∀ p ∈ parts s, ((ofChars p).toOption).isSome := by
  rw [complaints, List.filterMap_eq_nil_iff]
  refine forall₂_congr fun p _ => ?_
  cases ofChars p <;> simp [Except.toOption]

theorem ofText?_eq_some_iff (s : String) (f : LogFilter) :
    ofText? s = some f ↔ complaints s = [] ∧ ofTextLossy s = f := by
  rw [ofText?, mapM_eq_some_iff, ← complaints_eq_nil_iff]
  rfl

end LogFilter

end CallTree
