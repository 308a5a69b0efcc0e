import CallTree.Text.Pattern
import Mathlib.Data.List.Basic

/-!
The text of a pattern is read from left to right, and what is left over gets shorter with every
part. So the rounds allowed for it never run out, and a text is a pattern just if it can be read
item after item to its end.
-/
namespace CallTree.Text

namespace Pattern

variable {m : Mode} {c : Char} {cs rest : List Char}

theorem skipRemarks_suffix (inComment : Bool) (cs : List Char) :
    skipRemarks inComment cs <:+ cs := by
  induction cs generalizing inComment with
  | nil => exact List.suffix_refl []
  | cons c cs ih =>
    have hcons := List.suffix_cons c cs
    unfold skipRemarks
    split
    · exact (ih _).trans hcons
    · split
      · exact (ih _).trans hcons
      · split
        · exact (ih _).trans hcons
        · exact List.suffix_refl _

theorem Mode.skip_suffix (m : Mode) (cs : List Char) : m.skip cs <:+ cs := by
  unfold skip
  split
  · exact skipRemarks_suffix false cs
  · exact List.suffix_refl cs

theorem Mode.suffix_of_skip (h : m.skip cs = c :: rest) : rest <:+ cs :=
  (List.suffix_cons c rest).trans (h ▸ m.skip_suffix cs)

theorem hexDigits?_suffix {n value count : Nat} (h : hexDigits? m n count cs = some (value, rest)) :
    rest <:+ cs := by
  induction count generalizing n cs with
  | zero =>
    rw [hexDigits?, Option.some.injEq, Prod.mk.injEq] at h
    exact h.2 ▸ List.suffix_refl cs
  | succ count ih =>
    unfold hexDigits? at h
    split at h
    · cases h
    next c rest hskip =>
      obtain ⟨digit, -, h⟩ := Option.bind_eq_some_iff.mp h
      exact (ih h).trans (Mode.suffix_of_skip hskip)

theorem scalar?_suffix {count : Nat} {e : Escape} (h : scalar? m count cs = some (e, rest)) :
    rest <:+ cs := by
  obtain ⟨⟨n, left⟩, hdigits, h⟩ := Option.bind_eq_some_iff.mp h
  obtain ⟨-, heq⟩ := Option.ite_none_right_eq_some.mp h
  cases heq
  exact hexDigits?_suffix hdigits

theorem escape?_suffix {e : Escape} (h : escape? m cs = some (e, rest)) : rest <:+ cs.tail := by
  unfold escape? at h
  split at h
  case h_1 => cases h
  case h_2 | h_3 | h_4 => exact scalar?_suffix h
  case h_11 c cs _ _ _ _ _ _ _ _ _ =>
    have hrest : rest = cs := by
      iterate 5
        split at h
        · cases h
          rfl
      cases h
    exact hrest ▸ List.suffix_refl _
  all_goals
    cases h
    exact List.suffix_refl _

theorem classItem?_suffix {e : Escape} (h : classItem? m cs = some (e, rest)) :
    rest <:+ cs.tail := by
  unfold classItem? at h
  split at h
  case h_1 => cases h
  case h_2 cs => exact (escape?_suffix h).trans cs.tail_suffix
  case h_3 =>
    cases h
    exact List.suffix_refl _

theorem classRange?_suffix (h : classRange? m cs = some rest) : rest <:+ cs.tail := by
  obtain ⟨⟨first, left⟩, hfirst, h⟩ := Option.bind_eq_some_iff.mp h
  refine List.IsSuffix.trans ?_ (classItem?_suffix hfirst)
  have hsingle (h : (if first.isItem m then some left else none) = some rest) : rest <:+ left := by
    obtain ⟨-, heq⟩ := Option.ite_none_right_eq_some.mp h
    cases heq
    exact List.suffix_refl _
  dsimp only at h
  split at h
  case h_1 after hskip =>
    split at h
    · exact hsingle h
    · obtain ⟨⟨last, left'⟩, hlast, h⟩ := Option.bind_eq_some_iff.mp h
      have hrest : rest = left' := by
        dsimp only at h
        split at h
        · obtain ⟨-, heq⟩ := Option.ite_none_right_eq_some.mp h
          cases heq
          rfl
        · cases h
      have hafter := (classItem?_suffix hlast).trans (List.tail_suffix _)
      exact hrest ▸ hafter.trans ((m.skip_suffix after).trans (Mode.suffix_of_skip hskip))
  case h_2 => exact hsingle h

theorem suffix_of_drop {n : Nat} (front : List Char) (h : cs.drop n = front ++ rest) :
    rest <:+ cs :=
  (List.suffix_append front rest).trans (h ▸ List.drop_suffix n cs)

theorem namedClass?_suffix {negated : Bool} (h : namedClass? cs = some (negated, rest)) :
    rest <:+ cs := by
  unfold namedClass? at h
  split at h
  case h_1 cs =>
    dsimp only at h
    split at h
    case h_1 left hdrop =>
      obtain ⟨-, heq⟩ := Option.ite_none_right_eq_some.mp h
      cases heq
      exact (suffix_of_drop [':', ']'] hdrop).trans ⟨[':', '^'], rfl⟩
    case h_2 => cases h
  case h_2 cs _ =>
    dsimp only at h
    split at h
    case h_1 left hdrop =>
      obtain ⟨-, heq⟩ := Option.ite_none_right_eq_some.mp h
      cases heq
      exact (suffix_of_drop [':', ']'] hdrop).trans (List.suffix_cons ':' cs)
    case h_2 => cases h
  case h_3 => cases h

theorem setOperator?_suffix {op : SetOperator} (h : setOperator? cs = some (op, rest)) :
    rest <:+ cs.tail := by
  unfold setOperator? at h
  split at h
  case h_4 => cases h
  all_goals
    cases h
    exact List.suffix_cons _ _

theorem OpenClass.read_suffix (m : Mode) (cs : List Char) : (OpenClass.read m cs).2 <:+ cs := by
  unfold read
  split
  case h_1 hskip => exact Mode.suffix_of_skip hskip
  case h_2 => exact m.skip_suffix cs

theorem classRest?_suffix {fuel : Nat} {k : OpenClass} {part : ClassPart}
    (h : classRest? m fuel k cs = some (part, rest)) : rest <:+ cs := by
  induction fuel generalizing k part cs rest with
  | zero => cases h
  | succ fuel ih =>
    unfold classRest? at h
    split at h
    case h_1 => cases h
    case h_2 c left hskip =>
      refine List.IsSuffix.trans ?_ (Mode.suffix_of_skip hskip)
      split at h
      · exact ih (Option.ite_none_right_eq_some.mp h).2
      split at h
      · obtain ⟨closed, -, heq⟩ := Option.map_eq_some_iff.mp h
        cases heq
        exact List.suffix_refl _
      split at h
      · split at h
        case h_1 hnamed =>
          have hrest := ih (Option.ite_none_right_eq_some.mp h).2
          exact hrest.trans (namedClass?_suffix hnamed)
        case h_2 =>
          obtain ⟨⟨inner, left'⟩, hinner, h⟩ := Option.bind_eq_some_iff.mp h
          exact (ih h).trans ((ih hinner).trans (OpenClass.read_suffix m left))
      · split at h
        case h_1 hop => exact (ih h).trans (setOperator?_suffix hop)
        case h_2 =>
          obtain ⟨left', hrange, h⟩ := Option.bind_eq_some_iff.mp h
          exact (ih h).trans (classRange?_suffix hrange)

theorem class?_suffix {part : ClassPart} (h : class? m cs = some (part, rest)) : rest <:+ cs :=
  (classRest?_suffix h).trans (OpenClass.read_suffix m cs)

/-- The rounds allowed for a class do not decide about it, if there are more of them than there are
characters. -/
theorem classRest?_fuel {fuel fuel' : Nat} (h : cs.length < fuel) (h' : cs.length < fuel')
    (k : OpenClass) : classRest? m fuel k cs = classRest? m fuel' k cs := by
  induction fuel generalizing fuel' k cs with
  | zero => cases h
  | succ fuel ih =>
    obtain ⟨fuel', rfl⟩ := Nat.exists_eq_add_one_of_ne_zero (Nat.ne_of_gt (Nat.zero_lt_of_lt h'))
    unfold classRest?
    split
    case h_1 => rfl
    case h_2 c left hskip =>
      have hlength := (hskip ▸ m.skip_suffix cs).length_le
      -- Both bounds hold for whatever a part leaves over, as the part takes its first character.
      have hnext {rest : List Char} (hrest : rest <:+ left) (k : OpenClass) :
          classRest? m fuel k rest = classRest? m fuel' k rest := by
        have hle := hrest.length_le
        rw [List.length_cons] at hlength
        exact ih (by omega) (by omega) k
      split
      · rw [hnext (List.suffix_refl left)]
      split
      · rfl
      split
      · split
        case h_1 hnamed => rw [hnext (namedClass?_suffix hnamed)]
        case h_2 =>
          have hread := OpenClass.read_suffix m left
          generalize OpenClass.read m left = opened at hread
          dsimp only
          rw [hnext hread]
          refine Option.bind_congr fun (inner, left') hinner => ?_
          exact hnext ((classRest?_suffix hinner).trans hread) _
      · split
        case h_1 hop => exact hnext (setOperator?_suffix hop) _
        case h_2 => exact Option.bind_congr fun left' hrange => hnext (classRange?_suffix hrange) _

/-! ### Items, one after another -/

theorem groupName?_suffix {name : List Char} (h : groupName? cs = some (name, rest)) :
    rest <:+ cs := by
  unfold groupName? at h
  dsimp only at h
  split at h
  case h_1 last left _ hdrop =>
    obtain ⟨-, heq⟩ := Option.ite_none_right_eq_some.mp h
    cases heq
    exact suffix_of_drop [last] hdrop
  case h_2 => cases h

theorem opening?_suffix {o : Opening} (h : opening? m cs = some (o, rest)) : rest <:+ cs := by
  refine List.IsSuffix.trans ?_ (m.skip_suffix cs)
  unfold opening? at h
  dsimp only at h
  split at h
  case h_1 cs hskip =>
    obtain ⟨⟨name, left⟩, hname, heq⟩ := Option.map_eq_some_iff.mp h
    cases heq
    exact hskip ▸ (groupName?_suffix hname).trans ⟨['?', 'P', '<'], rfl⟩
  case h_2 cs hskip =>
    obtain ⟨⟨name, left⟩, hname, heq⟩ := Option.map_eq_some_iff.mp h
    cases heq
    exact hskip ▸ (groupName?_suffix hname).trans ⟨['?', '<'], rfl⟩
  case h_3 cs _ _ hskip =>
    rw [hskip]
    refine List.IsSuffix.trans ?_ (List.suffix_cons '?' cs)
    split at h
    · cases h
    split at h
    case h_1 hdrop =>
      cases h
      exact suffix_of_drop [':'] hdrop
    case h_2 hdrop =>
      split at h
      · cases h
      · cases h
        exact suffix_of_drop [')'] hdrop
    case h_3 => cases h
  case h_4 =>
    cases h
    exact List.suffix_refl _

namespace Scan

inductive Next (s : Scan) : Scan → Prop where
  | inside (branches : Branches) : Next s { s with branches }
  | enter (o : Opening) {t : Scan} : s.enter? o = some t → Next s t
  | leave {t : Scan} : s.leave? = some t → Next s t

theorem step?_next {s t : Scan} (h : s.step? c cs = some (t, rest)) : s.Next t ∧ rest <:+ cs := by
  have hitem {isAdmitted : Bool} {left : List Char} (hleft : left <:+ cs)
      (h : (if isAdmitted then some (s.add {}, left) else none) = some (t, rest)) :
      s.Next t ∧ rest <:+ cs := by
    obtain ⟨-, heq⟩ := Option.ite_none_right_eq_some.mp h
    cases heq
    exact ⟨.inside _, hleft⟩
  unfold step? at h
  dsimp only at h
  split at h
  case h_1 =>
    obtain ⟨⟨opening, left⟩, hopening, h⟩ := Option.bind_eq_some_iff.mp h
    obtain ⟨inside, henter, heq⟩ := Option.bind_eq_some_iff.mp h
    cases heq
    exact ⟨.enter opening henter, opening?_suffix hopening⟩
  case h_2 =>
    obtain ⟨outside, hleave, heq⟩ := Option.map_eq_some_iff.mp h
    cases heq
    exact ⟨.leave hleave, List.suffix_refl _⟩
  case h_3 =>
    cases h
    exact ⟨.inside _, List.suffix_refl _⟩
  case h_4 =>
    obtain ⟨⟨part, left⟩, hclass, heq⟩ := Option.map_eq_some_iff.mp h
    cases heq
    exact ⟨.inside _, class?_suffix hclass⟩
  case h_5 =>
    obtain ⟨⟨e, left⟩, hescape, h⟩ := Option.bind_eq_some_iff.mp h
    exact hitem ((escape?_suffix hescape).trans (List.tail_suffix _)) h
  case h_6 => cases h
  case h_7 | h_8 | h_9 => exact hitem (List.suffix_refl _) h
  case h_10 =>
    split at h
    · obtain ⟨branches, -, heq⟩ := Option.bind_eq_some_iff.mp h
      cases heq
      refine ⟨.inside branches, ?_⟩
      split
      · exact List.tail_suffix _
      · exact List.suffix_refl _
    · exact hitem (List.suffix_refl _) h

/-- Reading a text to its end, item after item. -/
inductive Reads : Scan → List Char → Scan → Prop where
  | done {s : Scan} {cs : List Char} : s.mode.skip cs = [] → Reads s cs s
  | item {s t last : Scan} {cs rest left : List Char} {c : Char} : s.mode.skip cs = c :: rest →
      s.step? c rest = some (t, left) → Reads t left last → Reads s cs last

theorem isCompletedBy_iff {fuel : Nat} {s : Scan} (h : cs.length < fuel) :
    s.isCompletedBy fuel cs ↔ ∃ last, s.Reads cs last ∧ last.isComplete := by
  induction fuel generalizing s cs with
  | zero => cases h
  | succ fuel ih =>
    unfold isCompletedBy
    split
    case h_1 hskip =>
      constructor
      · exact fun hcomplete => ⟨s, .done hskip, hcomplete⟩
      · rintro ⟨last, hreads, hcomplete⟩
        cases hreads with
        | done => exact hcomplete
        | item hnext => simp [hskip] at hnext
    case h_2 c rest hskip =>
      have hlength := (hskip ▸ s.mode.skip_suffix cs).length_le
      rw [Option.any_eq_true]
      constructor
      · rintro ⟨⟨t, left⟩, hstep, hcompleted⟩
        have hle := (step?_next hstep).2.length_le
        rw [List.length_cons] at hlength
        obtain ⟨last, hreads, hcomplete⟩ := (ih (by omega)).mp hcompleted
        exact ⟨last, .item hskip hstep hreads, hcomplete⟩
      · rintro ⟨last, hreads, hcomplete⟩
        cases hreads with
        | done hdone => simp [hskip] at hdone
        | item hnext hstep hreads =>
          rw [hskip] at hnext
          cases hnext
          have hle := (step?_next hstep).2.length_le
          rw [List.length_cons] at hlength
          exact ⟨_, hstep, (ih (by omega)).mpr ⟨last, hreads, hcomplete⟩⟩

theorem Next.nodup {s t : Scan} (h : s.Next t) (hs : s.names.Nodup) : t.names.Nodup := by
  cases h with
  | inside => exact hs
  | enter o h =>
    cases o with
    | flags m =>
      cases h
      exact hs
    | group m name =>
      by_cases hfresh : name.any s.names.contains
      · simp [enter?, hfresh] at h
      · rw [enter?, if_neg hfresh, Option.some.injEq] at h
        cases name with
        | none => exact h ▸ hs
        | some name =>
          have hnew : name ∉ s.names := by simpa using hfresh
          exact h ▸ List.nodup_cons.mpr ⟨hnew, hs⟩
  | leave h =>
    unfold leave? at h
    split at h
    · cases h
    · cases h
      exact hs

/-- No two groups of a pattern have the same name. -/
theorem Reads.nodup {s last : Scan} (h : s.Reads cs last) (hs : s.names.Nodup) :
    last.names.Nodup := by
  induction h with
  | done => exact hs
  | item _ hstep _ ih => exact ih ((step?_next hstep).1.nodup hs)

end Scan

/-! ### Plain texts -/

/-- A character that stands for itself, wherever it comes. -/
def isLiteral (c : Char) : Bool := !"()|[\\\x7b.^$*+?".toList.contains c

theorem sideBySide_of_zeros {ns : List Nat} (h : ∀ n ∈ ns, n = 0) : sideBySide ns ≤ 1 := by
  have hmax : ns.foldl max 0 = 0 := by
    induction ns with
    | nil => rfl
    | cons n ns ih =>
      have hn : n = 0 := h n List.mem_cons_self
      rw [List.foldl_cons, hn, Nat.max_self]
      exact ih fun m hm => h m (List.mem_cons_of_mem n hm)
  match ns with
  | [] => exact Nat.zero_le 1
  | [n] => simp [sideBySide, h n]
  | _ :: _ :: _ => exact Nat.succ_le_succ (Nat.le_of_eq hmax)

namespace Branches

/-- There is one alternative, with nothing nested in it. -/
def Flat (b : Branches) : Prop := b.complete = [] ∧ ∀ item ∈ b.items, item.nesting = 0

theorem Flat.nesting_le {b : Branches} (h : b.Flat) : b.nesting ≤ 1 := by
  rw [nesting, h.1, sideBySide, lastNesting]
  refine sideBySide_of_zeros fun n hn => ?_
  obtain ⟨item, hitem, rfl⟩ := List.mem_map.mp hn
  exact h.2 item hitem

theorem Flat.add {b : Branches} (h : b.Flat) : (b.add {}).Flat :=
  ⟨h.1, List.forall_mem_cons.mpr ⟨rfl, h.2⟩⟩

end Branches

namespace Scan

theorem step?_of_isLiteral {s : Scan} (hmode : s.mode = {}) (hc : isLiteral c)
    (rest : List Char) : s.step? c rest = some (s.add {}, rest) := by
  unfold step?
  split <;> simp_all [isLiteral, Mode.admits]

theorem reads_of_isLiteral (h : ∀ c ∈ cs, isLiteral c) {s : Scan} (hmode : s.mode = {})
    (hflat : s.branches.Flat) :
    ∃ last, s.Reads cs last ∧ last.outer = s.outer ∧ last.branches.Flat := by
  induction cs generalizing s with
  | nil => exact ⟨s, .done (by simp [Mode.skip, hmode]), rfl, hflat⟩
  | cons c cs ih =>
    have hskip : s.mode.skip (c :: cs) = c :: cs := by simp [Mode.skip, hmode]
    have hstep := step?_of_isLiteral hmode (h c List.mem_cons_self) cs
    obtain ⟨last, hreads, hlast⟩ :=
      ih (fun d hd => h d (List.mem_cons_of_mem c hd)) (s := s.add {}) hmode hflat.add
    exact ⟨last, .item hskip hstep hreads, hlast⟩

end Scan

end Pattern

theorem isPattern_iff (cs : List Char) :
    isPattern cs ↔ ∃ last, Pattern.Scan.Reads {} cs last ∧ last.isComplete :=
  Pattern.Scan.isCompletedBy_iff (Nat.lt_succ_self _)

/-- A text without any of the marks of patterns is a pattern for itself. -/
theorem isPattern_of_isLiteral {cs : List Char} (h : ∀ c ∈ cs, Pattern.isLiteral c) :
    isPattern cs := by
  obtain ⟨last, hreads, houter, hflat⟩ :=
    Pattern.Scan.reads_of_isLiteral h (s := {}) rfl ⟨rfl, by simp⟩
  have hnesting : last.branches.nesting ≤ Pattern.Scan.nestingLimit :=
    Nat.le_trans hflat.nesting_le (by decide)
  have hcomplete : last.isComplete := by simp [Pattern.Scan.isComplete, houter, hnesting]
  exact (isPattern_iff cs).mpr ⟨last, hreads, hcomplete⟩

end CallTree.Text
