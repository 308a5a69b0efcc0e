import CallTree.Toml.Parser

/-!
TOML documents of plain lines, each of which gives a scalar to a bare key: such a document is read
as the table of its lines.
-/
namespace CallTree.Toml

/-! ### Decimal integers -/

structure IsNumeral (ds : List Char) : Prop where
  ne_nil : ds ≠ []
  isDigit : ∀ d ∈ ds, d.isDigit
  zero : ds.head? = some '0' → ds = ['0']

theorem eq_zero_of_head_toDigits {n : Nat} (h : (Nat.toDigits 10 n).head? = some '0') : n = 0 := by
  induction n using Nat.strongRecOn with
  | ind n ih =>
    rw [Nat.toDigits_eq_if (by decide)] at h
    split at h
    case isTrue hn =>
      have hfirst : ∀ d < 10, d.digitChar = '0' → d = 0 := by decide
      exact hfirst n hn (by simpa using h)
    case isFalse hn =>
      rw [List.head?_append, List.head?_eq_some_head Nat.toDigits_ne_nil, Option.some_or,
        ← List.head?_eq_some_head] at h
      have := ih (n / 10) (Nat.div_lt_self (by omega) (by decide)) h
      omega

theorem isNumeral_toDigits (n : Nat) : IsNumeral (Nat.toDigits 10 n) where
  ne_nil := Nat.toDigits_ne_nil
  isDigit _ hd := Nat.isDigit_of_mem_toDigits (by decide) (by decide) hd
  zero h := by
    rw [eq_zero_of_head_toDigits h]
    rfl

section Decimal

variable {ds : List Char} {rest : List Char}

theorem digitRun_line (h : ∀ d ∈ ds, d.isDigit) :
    digitRun Char.isDigit (ds ++ '\n' :: rest) = (ds, '\n' :: rest) := by
  induction ds with
  | nil => cases rest <;> rfl
  | cons d ds ih =>
    have hd : d.isDigit := h d List.mem_cons_self
    have hbar : d ≠ '_' := by
      rintro rfl
      exact absurd hd (by decide)
    rw [List.cons_append, digitRun.eq_3 _ _ _ (by rintro c cs rfl; exact absurd rfl hbar),
      if_pos hd, ih fun d hd => h d (List.mem_cons_of_mem _ hd)]

theorem IsNumeral.wholeDigits (h : IsNumeral ds) :
    wholeDigits (ds ++ '\n' :: rest) = some (ds, '\n' :: rest) := by
  obtain ⟨d, ds, rfl⟩ := List.exists_cons_of_ne_nil h.ne_nil
  by_cases hd : d = '0'
  · subst hd
    rw [h.zero rfl]
    rfl
  · have hfirst : d.isDigit := h.isDigit d List.mem_cons_self
    rw [List.cons_append, Toml.wholeDigits.eq_2 _ (by rintro cs ⟨⟩; exact hd rfl), digits,
      if_pos hfirst, ← List.cons_append, digitRun_line h.isDigit]

theorem one_line (h : ∀ d ∈ ds, d.isDigit) {c : Char} (hc : c.isDigit = false) (hend : c ≠ '\n') :
    one c (ds ++ '\n' :: rest) = none := by
  cases ds with
  | nil => exact if_neg hend.symm
  | cons d ds =>
    refine if_neg ?_
    rintro rfl
    rw [h d List.mem_cons_self] at hc
    cases hc

theorem fixedNumber_line (h : ∀ d ∈ ds, d.isDigit) {width n : Nat} {after : List Char}
    (hread : fixedNumber width (ds ++ '\n' :: rest) = some (n, after)) :
    ∃ ds', (∀ d ∈ ds', d.isDigit) ∧ after = ds' ++ '\n' :: rest := by
  rw [fixedNumber] at hread
  split at hread
  case isFalse => cases hread
  case isTrue hall =>
    obtain ⟨hlength, hdigits⟩ := hall
    have hwidth : width ≤ ds.length := by
      refine Nat.le_of_not_lt fun hlt => ?_
      obtain ⟨k, hk⟩ : ∃ k, width - ds.length = k + 1 := ⟨width - ds.length - 1, by omega⟩
      rw [List.take_append, hk, List.take_succ_cons, List.all_append, List.all_cons] at hdigits
      simp [Char.isDigit] at hdigits
    rw [List.drop_append_of_le_length hwidth] at hread
    cases hread
    exact ⟨ds.drop width, fun d hd => h d (List.mem_of_mem_drop hd), rfl⟩

/-- A date has a bar after four digits, and a time of day a colon after two. -/
theorem time_line (h : ∀ d ∈ ds, d.isDigit) : time (ds ++ '\n' :: rest) = none := by
  have hdate : date (ds ++ '\n' :: rest) = none := by
    rw [date]
    cases hyear : fixedNumber 4 (ds ++ '\n' :: rest) with
    | none => rfl
    | some year =>
      obtain ⟨ds', hds', hafter⟩ := fixedNumber_line h hyear
      simp [hafter, one_line hds']
  have htime : timeOfDay (ds ++ '\n' :: rest) = none := by
    rw [timeOfDay]
    cases hhour : within 0 23 (ds ++ '\n' :: rest) with
    | none => rfl
    | some hour =>
      obtain ⟨hread, -⟩ := Option.filter_eq_some_iff.mp hhour
      obtain ⟨ds', hds', hafter⟩ := fixedNumber_line h hread
      simp [hafter, one_line hds']
  rw [time, hdate]
  exact htime

theorem IsNumeral.sign (h : IsNumeral ds) : sign (ds ++ rest) = (false, ds ++ rest) := by
  obtain ⟨d, ds, rfl⟩ := List.exists_cons_of_ne_nil h.ne_nil
  have hfirst : d.isDigit := h.isDigit d List.mem_cons_self
  refine Toml.sign.eq_3 _ ?_ ?_
  · rintro cs ⟨⟩
    exact absurd hfirst (by decide)
  · rintro cs ⟨⟩
    exact absurd hfirst (by decide)

theorem IsNumeral.float (h : IsNumeral ds) : float (ds ++ '\n' :: rest) = none := by
  simp [Toml.float, h.sign, h.wholeDigits, exponent]

/-- After a leading zero the line ends, so that no letter of another base follows. -/
theorem IsNumeral.not_based (h : IsNumeral ds) {c : Char} {cs : List Char} (hend : c ≠ '\n') :
    ds ++ '\n' :: rest ≠ '0' :: c :: cs := by
  intro heq
  obtain ⟨d, es, rfl⟩ := List.exists_cons_of_ne_nil h.ne_nil
  obtain ⟨rfl, htail⟩ := List.cons.inj heq
  obtain ⟨-, rfl⟩ := List.cons.inj (h.zero rfl)
  exact hend (List.cons.inj htail).1.symm

theorem IsNumeral.integer (h : IsNumeral ds) {n : Int} (hn : integer? (decimal ds) = some n) :
    integer (ds ++ '\n' :: rest) = some (n, '\n' :: rest) := by
  rw [Toml.integer.eq_4 _ (fun _ => h.not_based (by decide)) (fun _ => h.not_based (by decide))
    (fun _ => h.not_based (by decide)), h.sign]
  simp only [h.wholeDigits]
  rw [Option.bind_eq_bind, Option.bind_some, if_neg Bool.false_ne_true, hn]
  rfl

theorem IsNumeral.number (h : IsNumeral ds) {n : Int} (hn : integer? (decimal ds) = some n) :
    number (ds ++ '\n' :: rest) = some (.integer n, '\n' :: rest) := by
  rw [Toml.number, time_line h.isDigit, h.float, h.integer hn]
  rfl

end Decimal

/-! ### Scalars and keys on a line of their own -/

/-- Text that is read as a scalar if a line ends after it. -/
structure Writes (text : List Char) (s : Scalar) : Prop where
  /-- No blank, bracket or brace, so that nothing but a scalar is read. -/
  first : ∃ c cs, text = c :: cs ∧ c.isAlphanum
  read : ∀ rest, scalar (text ++ '\n' :: rest) = some (s, '\n' :: rest)

theorem scalar_of_isDigit {d : Char} {cs : List Char} (hd : d.isDigit) :
    scalar (d :: cs) = number (d :: cs) := by
  rw [scalar]
  all_goals
    rintro _ ⟨⟩
    exact absurd hd (by decide)

theorem writes_integer {n : Nat} (hn : n < Nat.pow 2 63) :
    Writes (Nat.toDigits 10 n) (.integer n) := by
  have h := isNumeral_toDigits n
  have hvalue : decimal (Nat.toDigits 10 n) = n := Nat.ofDigitChars_ten_toDigits
  have hfits : integer? (decimal (Nat.toDigits 10 n)) = some (n : Int) := by
    rw [hvalue, integer?, if_pos]
    exact ⟨by omega, Int.ofNat_lt.mpr hn⟩
  obtain ⟨d, ds, hds⟩ := List.exists_cons_of_ne_nil h.ne_nil
  have hd : d.isDigit := h.isDigit d (hds ▸ List.mem_cons_self)
  refine ⟨⟨d, ds, hds, by simp [Char.isAlphanum, hd]⟩, fun rest => ?_⟩
  rw [← h.number hfits, hds, List.cons_append, scalar_of_isDigit hd]

theorem writes_boolean (b : Bool) :
    Writes (if b then "true".toList else "false".toList) (.boolean b) := by
  cases b with
  | false => exact ⟨⟨'f', "alse".toList, rfl, rfl⟩, fun _ => rfl⟩
  | true => exact ⟨⟨'t', "rue".toList, rfl, rfl⟩, fun _ => rfl⟩

structure IsBareKey (k : String) : Prop where
  ne_nil : k.toList ≠ []
  isBare : ∀ c ∈ k.toList, Toml.isBare c

structure Assignment where
  key : String
  text : List Char
  value : Scalar

namespace Assignment

def line (a : Assignment) : List Char := a.key.toList ++ " = ".toList ++ a.text ++ ['\n']

def entry (a : Assignment) : String × Item := (a.key, .scalar a.value)

structure WellFormed (a : Assignment) : Prop where
  key : IsBareKey a.key
  text : Writes a.text a.value

end Assignment

section Key

variable {k : String} {c : Char} {rest : List Char}

theorem isBare_ne {d : Char} (hc : isBare c) (hd : isBare d = false) : c ≠ d := by
  rintro rfl
  rw [hc] at hd
  cases hd

theorem IsBareKey.exists_cons (h : IsBareKey k) : ∃ c cs, k.toList = c :: cs ∧ Toml.isBare c := by
  obtain ⟨c, cs, hk⟩ := List.exists_cons_of_ne_nil h.ne_nil
  exact ⟨c, cs, hk, h.isBare c (hk ▸ List.mem_cons_self)⟩

theorem skipSpace_bare (hc : isBare c) : skipSpace (c :: rest) = c :: rest := by
  have hspace : isSpace c = false := by
    simp [isSpace, isBare_ne hc (d := ' ') (by decide), isBare_ne hc (d := '\t') (by decide)]
  exact List.dropWhile_cons_of_neg (by simp [hspace])

theorem keyPart_bare (h : IsBareKey k) :
    keyPart (k.toList ++ ' ' :: rest) = some (k, ' ' :: rest) := by
  obtain ⟨c, cs, hk, hc⟩ := h.exists_cons
  have hquotes : ∀ q cs, isBare q = false → k.toList ++ ' ' :: rest ≠ q :: cs := by
    intro q cs hq heq
    rw [hk] at heq
    exact isBare_ne hc hq (List.cons.inj heq).1
  have htake : (k.toList ++ ' ' :: rest).takeWhile isBare = k.toList := by
    rw [List.takeWhile_append_of_pos h.isBare]
    exact List.append_nil _
  have hdrop : (k.toList ++ ' ' :: rest).dropWhile isBare = ' ' :: rest :=
    List.dropWhile_append_of_pos h.isBare
  rw [keyPart.eq_3 _ (fun cs => hquotes _ cs (by decide)) (fun cs => hquotes _ cs (by decide))]
  simp only [htake, hdrop]
  rw [if_neg (by simpa using h.ne_nil), String.ofList_toList]

theorem key_bare (h : IsBareKey k) :
    key (k.toList ++ ' ' :: '=' :: rest) = some (([], k), '=' :: rest) := by
  obtain ⟨c, cs, hk, hc⟩ := h.exists_cons
  have hstart : skipSpace (k.toList ++ ' ' :: '=' :: rest) = k.toList ++ ' ' :: '=' :: rest := by
    rw [hk]
    exact skipSpace_bare hc
  have hparts : ∀ fuel, keyParts (fuel + 1) (k.toList ++ ' ' :: '=' :: rest) =
      some ([k], '=' :: rest) := by
    intro fuel
    rw [keyParts, hstart, keyPart_bare h]
    rfl
  rw [key, hparts]
  rfl

theorem Writes.value {text : List Char} {s : Scalar} (h : Writes text s) (fuel room : Nat) :
    value (fuel + 1) room (text ++ '\n' :: rest) = some (.scalar s, '\n' :: rest) := by
  obtain ⟨c, cs, htext, hc⟩ := h.first
  have hopen : ∀ b cs, b.isAlphanum = false → text ++ '\n' :: rest ≠ b :: cs := by
    intro b cs hb heq
    rw [htext] at heq
    rw [← (List.cons.inj heq).1, hc] at hb
    cases hb
  rw [Toml.value.eq_6 _ _ _ (fun cs => hopen _ cs (by decide)) (fun cs => hopen _ cs (by decide)),
    h.read]
  rfl

end Key

namespace Document

variable {d : Document} {a : Assignment} {rest : List Char}

theorem line_assignment (h : a.WellFormed) :
    d.line (a.line ++ rest) = (d.insert [] a.key (.scalar a.value)).map fun d => (d, rest) := by
  obtain ⟨c, cs, hk, hc⟩ := h.key.exists_cons
  obtain ⟨b, bs, htext, hb⟩ := h.text.first
  have hline : a.line ++ rest =
      a.key.toList ++ ' ' :: '=' :: ' ' :: (a.text ++ '\n' :: rest) := by
    simp [Assignment.line]
  have hbare : isBare b := by simp [isBare, hb]
  have hvalue : skipSpace (' ' :: (a.text ++ '\n' :: rest)) = a.text ++ '\n' :: rest := by
    rw [htext]
    exact skipSpace_bare hbare
  have hkey : ∀ cs, a.key.toList ++ ' ' :: '=' :: ' ' :: (a.text ++ '\n' :: rest) ≠ '[' :: cs := by
    intro cs heq
    rw [hk] at heq
    exact isBare_ne hc (by decide) (List.cons.inj heq).1
  rw [hline, line.eq_3 _ _ (fun _ => hkey _) (fun _ => hkey _), key_bare h.key]
  simp only [one, if_pos, Option.bind_eq_bind, Option.bind_some, hvalue, h.text.value]
  cases d.insert [] a.key (.scalar a.value) <;> rfl

theorem lines_of_isBare {c : Char} (hc : isBare c) (fuel : Nat) (cs : List Char) :
    lines (fuel + 1) d (c :: cs) = (d.line (c :: cs)).bind fun (d, cs) => lines fuel d cs := by
  rw [lines, skipSpace_bare hc]
  split
  case h_1 heq => cases heq
  case h_5 heq => rfl
  all_goals
    rename_i heq
    exact absurd (List.cons.inj heq).1 (isBare_ne hc (by decide))

theorem lines_assignments {ls : List Assignment} (h : ∀ a ∈ ls, a.WellFormed) {fuel : Nat}
    (hfuel : ls.length < fuel) :
    lines fuel d (ls.flatMap Assignment.line) =
      ls.foldlM (fun d a => d.insert [] a.key (.scalar a.value)) d := by
  induction ls generalizing d fuel with
  | nil =>
    obtain ⟨fuel, rfl⟩ := Nat.exists_eq_add_one_of_ne_zero (Nat.ne_of_gt hfuel)
    rfl
  | cons a ls ih =>
    obtain ⟨fuel, rfl⟩ := Nat.exists_eq_add_one_of_ne_zero (Nat.ne_zero_of_lt hfuel)
    have ha := h a List.mem_cons_self
    obtain ⟨c, cs, hk, hc⟩ := ha.key.exists_cons
    obtain ⟨cs', hline⟩ : ∃ cs', a.line ++ ls.flatMap Assignment.line = c :: cs' :=
      ⟨_, by rw [Assignment.line, hk]; rfl⟩
    rw [List.flatMap_cons, hline, lines_of_isBare hc, ← hline, line_assignment ha,
      List.foldlM_cons, Option.bind_map]
    refine congrArg _ (funext fun d => ?_)
    exact ih (fun a ha => h a (List.mem_cons_of_mem _ ha)) (Nat.lt_of_succ_lt_succ hfuel)

theorem foldlM_insert {ls : List Assignment} (root : Entries)
    (hkeys : (root.map (·.1) ++ ls.map Assignment.key).Nodup) :
    ls.foldlM (fun d a => d.insert [] a.key (.scalar a.value)) ({ root } : Document) =
      some { root := root ++ ls.map Assignment.entry } := by
  induction ls generalizing root with
  | nil => simp
  | cons a ls ih =>
    have hnew : root.lookup a.key = none := by
      rw [List.lookup_eq_none_iff]
      intro e he
      have := (List.nodup_append.mp hkeys).2.2 e.1 (List.mem_map_of_mem he) a.key (by simp)
      simpa using Ne.symm this
    have hadd : root.add a.key (.scalar a.value) = some (root ++ [a.entry]) := by
      rw [Entries.add, hnew]
      rfl
    have hinsert : insert { root } [] a.key (.scalar a.value) =
        some { root := root ++ [a.entry] } := by
      rw [insert, Entries.changeAt, Entries.insert, hadd]
      rfl
    have hrest := ih (root ++ [a.entry]) (by simpa [Assignment.entry] using hkeys)
    rw [List.foldlM_cons, hinsert, Option.bind_eq_bind, Option.bind_some, hrest]
    simp

end Document

theorem length_le_lines (ls : List Assignment) :
    ls.length ≤ (ls.flatMap Assignment.line).length := by
  induction ls with
  | nil => exact Nat.le_refl 0
  | cons a ls ih =>
    rw [List.flatMap_cons, Assignment.line, List.length_cons]
    simp only [List.length_append, List.length_singleton]
    omega

theorem parse?_assignments {ls : List Assignment} (h : ∀ a ∈ ls, a.WellFormed)
    (hkeys : (ls.map Assignment.key).Nodup) :
    parse? (ls.flatMap Assignment.line) = some (ls.map Assignment.entry) := by
  have hmark : skipMark (ls.flatMap Assignment.line) = ls.flatMap Assignment.line := by
    refine skipMark.eq_2 _ fun cs heq => ?_
    cases ls with
    | nil => cases heq
    | cons a ls =>
      obtain ⟨c, cs', hk, hc⟩ := (h a List.mem_cons_self).key.exists_cons
      rw [List.flatMap_cons, Assignment.line, hk] at heq
      exact isBare_ne hc (by decide) (List.cons.inj heq).1
  rw [parse?, hmark, Document.lines_assignments h (Nat.lt_succ_of_le (length_le_lines ls)),
    Document.foldlM_insert [] hkeys]
  rfl

end CallTree.Toml
