import CallTree.TraceContext.Header
import Mathlib.Algebra.GroupWithZero.Nat
import Mathlib.Data.List.Induction
import Mathlib.Data.List.TakeWhile

/-!
The `traceparent` header is read just where it was written: what is read is the header of the
context, white space around it apart, and the header of a context is read as that context. The
parent span is not part of the header.
-/
namespace CallTree

namespace Digits

theorem fixed_lt {base : Nat} (hbase : 0 < base) (width n : Nat) :
    ∀ d ∈ fixed base width n, d < base := by
  induction width generalizing n with
  | zero => simp [fixed]
  | succ width ih =>
    intro d hd
    rcases List.mem_append.mp hd with hd | hd
    · exact ih _ d hd
    · rw [List.mem_singleton.mp hd]
      exact Nat.mod_lt n hbase

theorem ofDigits_concat (base : Nat) (ds : List Nat) (d : Nat) :
    ofDigits base (ds ++ [d]) = ofDigits base ds * base + d := by
  simp [ofDigits]

theorem ofDigits_lt {base : Nat} {ds : List Nat} (h : ∀ d ∈ ds, d < base) :
    ofDigits base ds < base ^ ds.length := by
  induction ds using List.reverseRecOn with
  | nil => simp [ofDigits]
  | append_singleton ds d ih =>
    have hds := ih fun d hd => h d (by simp [hd])
    have hd : d < base := h d (by simp)
    rw [ofDigits_concat, List.length_append, List.length_singleton, Nat.pow_succ]
    calc ofDigits base ds * base + d < (ofDigits base ds + 1) * base := by
          rw [Nat.add_mul]
          omega
      _ ≤ base ^ ds.length * base := Nat.mul_le_mul_right base hds

theorem fixed_ofDigits {base : Nat} {ds : List Nat} (h : ∀ d ∈ ds, d < base) :
    fixed base ds.length (ofDigits base ds) = ds := by
  induction ds using List.reverseRecOn with
  | nil => rfl
  | append_singleton ds d ih =>
    have hds := ih fun d hd => h d (by simp [hd])
    have hd : d < base := h d (by simp)
    have hdiv : (ofDigits base ds * base + d) / base = ofDigits base ds := by
      rw [Nat.mul_comm, Nat.mul_add_div (by omega), Nat.div_eq_of_lt hd, Nat.add_zero]
    have hmod : (ofDigits base ds * base + d) % base = d := by
      rw [Nat.mul_comm, Nat.mul_add_mod, Nat.mod_eq_of_lt hd]
    rw [ofDigits_concat, List.length_append, List.length_singleton, fixed, hdiv, hmod, hds]

theorem value?_toChar : ∀ d < 16, value? 16 (toChar d) = some d := by decide

theorem mapM_value? {ds : List Nat} (h : ∀ d ∈ ds, d < 16) :
    (ds.map toChar).mapM (value? 16) = some ds := by
  induction ds with
  | nil => rfl
  | cons d ds ih =>
    rw [List.map_cons, List.mapM_cons, value?_toChar d (h d (by simp)),
      ih fun d hd => h d (by simp [hd])]
    rfl

theorem read?_toChar {ds : List Nat} (hne : ds ≠ []) (h : ∀ d ∈ ds, d < 16) :
    read? 16 (ds.map toChar) = some (ofDigits 16 ds) := by
  have hempty : (ds.map toChar).isEmpty = false := by simpa using hne
  rw [read?, hempty, mapM_value? h]
  rfl

end Digits

namespace Text

theorem splitOn_of_not_mem {sep : Char} {cs : List Char} (h : sep ∉ cs) :
    splitOn sep cs = [cs] := by
  induction cs with
  | nil => rfl
  | cons c cs ih =>
    obtain ⟨hc, hcs⟩ := not_or.mp (mt List.mem_cons.mpr h)
    rw [splitOn, if_neg (Ne.symm hc), ih hcs]

theorem splitOn_append {sep : Char} {cs : List Char} (h : sep ∉ cs) (rest : List Char) :
    splitOn sep (cs ++ [sep] ++ rest) = cs :: splitOn sep rest := by
  induction cs with
  | nil => simp [splitOn]
  | cons c cs ih =>
    obtain ⟨hc, hcs⟩ := not_or.mp (mt List.mem_cons.mpr h)
    rw [List.cons_append, List.cons_append, splitOn, if_neg (Ne.symm hc), ih hcs]

theorem splitOn_join {sep : Char} {ps : List (List Char)} (hne : ps ≠ [])
    (h : ∀ p ∈ ps, sep ∉ p) : splitOn sep (join [sep] ps) = ps := by
  induction ps with
  | nil => exact absurd rfl hne
  | cons p ps ih =>
    cases ps with
    | nil => exact splitOn_of_not_mem (h p (by simp))
    | cons q qs =>
      rw [join, splitOn_append (h p (by simp)), ih (by simp) fun r hr => h r (by simp [hr])]

/-! ### White space around a text -/

theorem dropWhile_blank {before cs : List Char} (hbefore : ∀ c ∈ before, isBlank c)
    (hcs : ∀ c ∈ cs.head?, isBlank c = false) : (before ++ cs).dropWhile isBlank = cs := by
  rw [List.dropWhile_append_of_pos hbefore]
  cases cs with
  | nil => rfl
  | cons c cs => rw [List.dropWhile_cons_of_neg (by simp [hcs c rfl])]

theorem trim_append {before cs after : List Char} (hbefore : ∀ c ∈ before, isBlank c)
    (hafter : ∀ c ∈ after, isBlank c) (hfirst : ∀ c ∈ cs.head?, isBlank c = false)
    (hlast : ∀ c ∈ cs.getLast?, isBlank c = false) (hne : cs ≠ []) :
    trim (before ++ cs ++ after) = cs := by
  have hhead : (cs ++ after).head? = cs.head? := by
    cases cs with
    | nil => exact absurd rfl hne
    | cons => rfl
  have hstart : trimStart (before ++ cs ++ after) = cs ++ after := by
    rw [List.append_assoc]
    exact dropWhile_blank hbefore (by rwa [hhead])
  have hend : (after.reverse ++ cs.reverse).dropWhile isBlank = cs.reverse :=
    dropWhile_blank (by simpa using hafter) (by simpa using hlast)
  rw [trim, hstart, trimEnd, List.reverse_append, hend, List.reverse_reverse]

theorem exists_of_trim (text : List Char) : ∃ before after, (∀ c ∈ before, isBlank c) ∧
    (∀ c ∈ after, isBlank c) ∧ text = before ++ trim text ++ after := by
  let start := trimStart text
  refine ⟨text.takeWhile isBlank, (start.reverse.takeWhile isBlank).reverse,
    fun c hc => List.mem_takeWhile_imp hc,
    fun c hc => List.mem_takeWhile_imp (List.mem_reverse.mp hc), ?_⟩
  have hend : trim text ++ (start.reverse.takeWhile isBlank).reverse = start := by
    rw [trim, trimEnd, ← List.reverse_append, List.takeWhile_append_dropWhile,
      List.reverse_reverse]
  rw [List.append_assoc, hend]
  exact List.takeWhile_append_dropWhile.symm

end Text

namespace TraceContext

/-! ### One field -/

theorem isLowerHex_toChar : ∀ d < 16, isLowerHex (Digits.toChar d) := by decide

theorem toChar_of_isLowerHex {c : Char} (h : isLowerHex c) : ∃ d < 16, Digits.toChar d = c := by
  have hascii : ∀ n < 103, isLowerHex (Char.ofNat n) →
      ∃ d < 16, Digits.toChar d = Char.ofNat n := by decide
  have hrange : (48 ≤ c.toNat ∧ c.toNat ≤ 57) ∨ (97 ≤ c.toNat ∧ c.toNat ≤ 102) := by
    simpa [isLowerHex, Char.le_def, UInt32.le_iff_toNat_le] using h
  rw [← Char.ofNat_toNat c] at h ⊢
  exact hascii c.toNat (by omega) h

structure IsField (width : Nat) (cs : List Char) : Prop where
  length : cs.length = width
  digits : ∀ c ∈ cs, isLowerHex c

theorem isField_hex (width n : Nat) : IsField width (Digits.hex width n) where
  length := by simp [Digits.hex]
  digits c hc := by
    obtain ⟨d, hd, rfl⟩ := List.mem_map.mp hc
    exact isLowerHex_toChar d (Digits.fixed_lt (by decide) width n d hd)

theorem IsField.exists_digits {width : Nat} {cs : List Char} (h : IsField width cs) :
    ∃ ds : List Nat, ds.length = width ∧ (∀ d ∈ ds, d < 16) ∧ ds.map Digits.toChar = cs := by
  obtain ⟨hlength, hdigits⟩ := h
  induction cs generalizing width with
  | nil => exact ⟨[], hlength, by simp, rfl⟩
  | cons c cs ih =>
    obtain ⟨d, hd, rfl⟩ := toChar_of_isLowerHex (hdigits c (by simp))
    obtain ⟨ds, hds, hlt, rfl⟩ := ih rfl fun c hc => hdigits c (by simp [hc])
    exact ⟨d :: ds, by simpa using hlength, by simpa using ⟨hd, hlt⟩, rfl⟩

theorem IsField.exists_number {width : Nat} {cs : List Char} (h : IsField width cs) :
    ∃ n < 16 ^ width, Digits.hex width n = cs := by
  obtain ⟨ds, rfl, hlt, rfl⟩ := h.exists_digits
  exact ⟨_, Digits.ofDigits_lt hlt, by rw [Digits.hex, Digits.fixed_ofDigits hlt]⟩

theorem field?_hex {width n : Nat} (hwidth : 0 < width) (hn : n < 16 ^ width) :
    field? width (Digits.hex width n) = some n := by
  obtain ⟨hlength, hdigits⟩ := isField_hex width n
  have hne : Digits.fixed 16 width n ≠ [] := by
    intro hnil
    have hzero := Digits.length_fixed 16 width n
    rw [hnil, List.length_nil] at hzero
    omega
  rw [field?, if_pos ⟨hlength, List.all_eq_true.mpr hdigits⟩, Digits.hex,
    Digits.read?_toChar hne (Digits.fixed_lt (by decide) width n), Digits.ofDigits_fixed]
  exact congrArg some (Nat.mod_eq_of_lt hn)

theorem field?_eq_some_iff {width : Nat} (hwidth : 0 < width) (cs : List Char) (n : Nat) :
    field? width cs = some n ↔ Digits.hex width n = cs ∧ n < 16 ^ width := by
  refine ⟨fun h => ?_, fun ⟨hcs, hn⟩ => hcs ▸ field?_hex hwidth hn⟩
  have hfield : IsField width cs := by
    unfold field? at h
    obtain ⟨⟨hlength, hdigits⟩, -⟩ := Option.ite_none_right_eq_some.mp h
    exact ⟨hlength, List.all_eq_true.mp hdigits⟩
  obtain ⟨m, hm, rfl⟩ := hfield.exists_number
  obtain rfl := Option.some.inj ((field?_hex hwidth hm).symm.trans h)
  exact ⟨rfl, hm⟩

theorem hex_zero (width : Nat) : Digits.hex width 0 = List.replicate width '0' := by
  have hfixed : Digits.fixed 16 width 0 = List.replicate width 0 := by
    induction width with
    | zero => rfl
    | succ width ih => rw [Digits.fixed, Nat.zero_div, ih, List.replicate_succ']
  rw [Digits.hex, hfixed, List.map_replicate]
  rfl

theorem hex_ne_zero_iff {width n : Nat} (hwidth : 0 < width) (hn : n < 16 ^ width) :
    n ≠ 0 ↔ ∃ c ∈ Digits.hex width n, c ≠ '0' := by
  have hiff : n = 0 ↔ Digits.hex width n = List.replicate width '0' := by
    rw [← hex_zero]
    refine ⟨fun h => by rw [h], fun h => ?_⟩
    have hread := field?_hex hwidth hn
    rw [h, field?_hex hwidth (Nat.pow_pos (by decide))] at hread
    exact (Option.some.inj hread).symm
  rw [Ne, hiff, List.eq_replicate_iff]
  simp [(isField_hex width n).length]

/-! ### The header -/

theorem dash_not_mem {width : Nat} {cs : List Char} (h : IsField width cs) : '-' ∉ cs :=
  fun hmem => absurd (h.digits _ hmem) (by decide)

theorem not_isBlank_of_isLowerHex {c : Char} (h : isLowerHex c) : Text.isBlank c = false := by
  obtain ⟨d, hd, rfl⟩ := toChar_of_isLowerHex h
  have hdigits : ∀ d < 16, Text.isBlank (Digits.toChar d) = false := by decide
  exact hdigits d hd

def ofNumbers (traceId spanId flags : Nat) : TraceContext where
  traceId := BitVec.ofNat 128 traceId
  spanId := BitVec.ofNat 64 spanId
  flags := BitVec.ofNat 8 flags

theorem ofHeader_of_parts {text version traceId spanId flags : List Char}
    (hparts : Text.splitOn '-' (Text.trim text) = [version, traceId, spanId, flags])
    (c : TraceContext) : ofHeader text = .ok c ↔ field? 2 version = some 0 ∧
      ∃ trace, field? 32 traceId = some trace ∧ trace ≠ 0 ∧
      ∃ span, field? 16 spanId = some span ∧ span ≠ 0 ∧
      ∃ bits, field? 2 flags = some bits ∧ ofNumbers trace span bits = c := by
  unfold ofHeader
  rw [hparts]
  simp only [bind, Except.bind, pure, Except.pure, throw, throwThe, MonadExceptOf.throw]
  split
  case h_1 hversion =>
    split
    case h_1 trace htrace =>
      by_cases htrace0 : trace = 0
      · simp [htrace, htrace0]
      · rw [if_neg htrace0]
        split
        case h_1 span hspan =>
          by_cases hspan0 : span = 0
          · simp [hspan, hspan0]
          · rw [if_neg hspan0]
            split
            case h_1 bits hbits =>
              simp [hversion, htrace, htrace0, hspan, hspan0, hbits, ofNumbers]
            case h_2 hflags => simp_all
        case h_2 hspan => simp_all
    case h_2 htrace => simp_all
  case h_2 hversion => simp_all

def ofFields (traceId spanId flags : List Char) : List Char :=
  ['0', '0', '-'] ++ traceId ++ ['-'] ++ spanId ++ ['-'] ++ flags

theorem toHeader_eq (c : TraceContext) :
    c.toHeader = ofFields c.traceIdHex (spanHex c.spanId) (Digits.hex 2 c.flags.toNat) := by
  have hversion : Digits.hex 2 0 = ['0', '0'] := rfl
  simp [toHeader, ofFields, Text.join, hversion]

theorem splitOn_toHeader (c : TraceContext) : Text.splitOn '-' c.toHeader =
    [Digits.hex 2 0, c.traceIdHex, spanHex c.spanId, Digits.hex 2 c.flags.toNat] := by
  refine Text.splitOn_join (by simp) fun p hp => ?_
  have hfield : ∃ width, IsField width p := by
    simp only [List.mem_cons, List.not_mem_nil, or_false] at hp
    rcases hp with hp | hp | hp | hp <;> rw [hp] <;> exact ⟨_, isField_hex _ _⟩
  obtain ⟨width, hfield⟩ := hfield
  exact dash_not_mem hfield

theorem ofNumbers_toNat (c : TraceContext) :
    ofNumbers c.traceId.toNat c.spanId.toNat c.flags.toNat = { c with parentSpan := none } := by
  simp [ofNumbers]

theorem toNat_ofNumbers {traceId spanId flags : Nat} (htrace : traceId < 16 ^ 32)
    (hspan : spanId < 16 ^ 16) (hflags : flags < 16 ^ 2) :
    (ofNumbers traceId spanId flags).traceId.toNat = traceId ∧
      (ofNumbers traceId spanId flags).spanId.toNat = spanId ∧
      (ofNumbers traceId spanId flags).flags.toNat = flags := by
  simp only [ofNumbers, BitVec.toNat_ofNat]
  omega

theorem ne_zero_of_toNat {width : Nat} (x : BitVec width) : x ≠ 0 ↔ x.toNat ≠ 0 := by
  rw [Ne, ← BitVec.toNat_inj]
  simp

theorem trim_toHeader (c : TraceContext) {before after : List Char}
    (hbefore : ∀ c ∈ before, Text.isBlank c) (hafter : ∀ c ∈ after, Text.isBlank c) :
    Text.trim (before ++ c.toHeader ++ after) = c.toHeader := by
  have hflags : Digits.hex 2 c.flags.toNat ≠ [] := by simp [Digits.hex, Digits.fixed]
  have hlast : c.toHeader.getLast? = (Digits.hex 2 c.flags.toNat).getLast? := by
    rw [toHeader_eq, ofFields, List.getLast?_append, List.getLast?_eq_some_getLast hflags]
    rfl
  refine Text.trim_append hbefore hafter ?_ ?_ ?_
  · rw [toHeader_eq, ofFields]
    simp [Text.isBlank]
  · rw [hlast]
    intro d hd
    exact not_isBlank_of_isLowerHex ((isField_hex _ _).digits d (List.mem_of_getLast? hd))
  · rw [toHeader_eq, ofFields]
    simp

/-- A text is read as a context just if it is the header of the context. -/
theorem ofHeader_eq_ok_iff (text : List Char) (c : TraceContext) :
    ofHeader text = .ok c ↔ Text.trim text = c.toHeader ∧ c.parentSpan = none ∧
      c.traceId ≠ 0 ∧ c.spanId ≠ 0 := by
  constructor
  · intro h
    have hparts : ∃ version traceId spanId flags,
        Text.splitOn '-' (Text.trim text) = [version, traceId, spanId, flags] := by
      unfold ofHeader at h
      split at h
      case h_1 version traceId spanId flags hparts => exact ⟨_, _, _, _, hparts⟩
      case h_2 => cases h
    obtain ⟨version, traceId, spanId, flags, hparts⟩ := hparts
    obtain ⟨hversion, trace, htrace, htrace0, span, hspan, hspan0, bits, hbits, rfl⟩ :=
      (ofHeader_of_parts hparts c).mp h
    obtain ⟨hversion, -⟩ := (field?_eq_some_iff (by decide) _ _).mp hversion
    obtain ⟨htrace, hltrace⟩ := (field?_eq_some_iff (by decide) _ _).mp htrace
    obtain ⟨hspan, hlspan⟩ := (field?_eq_some_iff (by decide) _ _).mp hspan
    obtain ⟨hbits, hlbits⟩ := (field?_eq_some_iff (by decide) _ _).mp hbits
    obtain ⟨htrace', hspan', hbits'⟩ := toNat_ofNumbers hltrace hlspan hlbits
    refine ⟨?_, rfl, by rwa [ne_zero_of_toNat, htrace'], by rwa [ne_zero_of_toNat, hspan']⟩
    rw [← Text.join_splitOn '-' (Text.trim text), hparts, toHeader, traceIdHex, spanHex, htrace',
      hspan', hbits', hversion, htrace, hspan, hbits]
  · rintro ⟨htrim, hparent, htrace0, hspan0⟩
    have hparts := splitOn_toHeader c
    rw [← htrim] at hparts
    have htrace := c.traceId.isLt
    have hspan := c.spanId.isLt
    have hflags := c.flags.isLt
    refine (ofHeader_of_parts hparts c).mpr ⟨rfl, _, field?_hex (by decide) (by omega),
      (ne_zero_of_toNat _).mp htrace0, _, field?_hex (by decide) (by omega),
      (ne_zero_of_toNat _).mp hspan0, _, field?_hex (by decide) (by omega), ?_⟩
    rw [ofNumbers_toNat, ← hparent]

theorem ofHeader_isOk_iff (text : List Char) : (∃ c, ofHeader text = .ok c) ↔
    ∃ before traceId spanId flags after, (∀ c ∈ before, Text.isBlank c) ∧
      (∀ c ∈ after, Text.isBlank c) ∧ IsField 32 traceId ∧ IsField 16 spanId ∧ IsField 2 flags ∧
      (∃ d ∈ traceId, d ≠ '0') ∧ (∃ d ∈ spanId, d ≠ '0') ∧
      text = before ++ ofFields traceId spanId flags ++ after := by
  constructor
  · rintro ⟨c, h⟩
    obtain ⟨htrim, -, htrace0, hspan0⟩ := (ofHeader_eq_ok_iff text c).mp h
    obtain ⟨before, after, hbefore, hafter, htext⟩ := Text.exists_of_trim text
    have htrace := c.traceId.isLt
    have hspan := c.spanId.isLt
    rw [htrim, toHeader_eq] at htext
    exact ⟨before, _, _, _, after, hbefore, hafter, isField_hex _ _, isField_hex _ _,
      isField_hex _ _,
      (hex_ne_zero_iff (by decide) (by omega)).mp ((ne_zero_of_toNat _).mp htrace0),
      (hex_ne_zero_iff (by decide) (by omega)).mp ((ne_zero_of_toNat _).mp hspan0), htext⟩
  · rintro ⟨before, traceId, spanId, flags, after, hbefore, hafter, htrace, hspan, hflags, htrace0,
      hspan0, rfl⟩
    obtain ⟨trace, hltrace, htrace⟩ := htrace.exists_number
    obtain ⟨span, hlspan, hspan⟩ := hspan.exists_number
    obtain ⟨bits, hlbits, hflags⟩ := hflags.exists_number
    obtain ⟨htrace', hspan', hbits'⟩ := toNat_ofNumbers hltrace hlspan hlbits
    rw [← htrace, ← hex_ne_zero_iff (by decide) hltrace] at htrace0
    rw [← hspan, ← hex_ne_zero_iff (by decide) hlspan] at hspan0
    have hheader : (ofNumbers trace span bits).toHeader = ofFields traceId spanId flags := by
      rw [toHeader_eq, traceIdHex, spanHex, htrace', hspan', hbits', htrace, hspan, hflags]
    refine ⟨ofNumbers trace span bits, (ofHeader_eq_ok_iff _ _).mpr ⟨?_, rfl, ?_, ?_⟩⟩
    · rw [← hheader]
      exact trim_toHeader _ hbefore hafter
    · rwa [ne_zero_of_toNat, htrace']
    · rwa [ne_zero_of_toNat, hspan']

theorem ofHeader_toHeader (c : TraceContext) (htrace : c.traceId ≠ 0) (hspan : c.spanId ≠ 0) :
    ofHeader c.toHeader = .ok { c with parentSpan := none } := by
  have htrim : Text.trim ([] ++ c.toHeader ++ []) = c.toHeader :=
    trim_toHeader c (by simp) (by simp)
  rw [List.nil_append, List.append_nil] at htrim
  exact (ofHeader_eq_ok_iff _ _).mpr ⟨htrim, rfl, htrace, hspan⟩

/-- Whatever span a new one follows, its header is accepted. -/
theorem ofHeader_child (c : TraceContext) (htrace : c.traceId ≠ 0) (id : BitVec 64) :
    ofHeader (c.child (spanAfter id)).toHeader =
      .ok { c.child (spanAfter id) with parentSpan := none } :=
  ofHeader_toHeader _ htrace (spanAfter_ne_zero id)

/-- A context is read from a text just if the text is its header, white space around it apart, and
the context has both ids and no parent span. So the accepted texts are those of four fields in
lower-case digits, with the version zero and neither id zero, and the header of a context with
both ids is read as the context without its parent span. -/
theorem header_read_as_written (text : List Char) (c : TraceContext) :
    (ofHeader text = .ok c ↔ Text.trim text = c.toHeader ∧ c.parentSpan = none ∧
      c.traceId ≠ 0 ∧ c.spanId ≠ 0) ∧
    ((∃ c, ofHeader text = .ok c) ↔ ∃ before traceId spanId flags after,
      (∀ c ∈ before, Text.isBlank c) ∧ (∀ c ∈ after, Text.isBlank c) ∧
      IsField 32 traceId ∧ IsField 16 spanId ∧ IsField 2 flags ∧
      (∃ d ∈ traceId, d ≠ '0') ∧ (∃ d ∈ spanId, d ≠ '0') ∧
      text = before ++ ofFields traceId spanId flags ++ after) ∧
    (c.traceId ≠ 0 → c.spanId ≠ 0 → ofHeader c.toHeader = .ok { c with parentSpan := none }) :=
  ⟨ofHeader_eq_ok_iff text c, ofHeader_isOk_iff text, ofHeader_toHeader c⟩

theorem header_read_as_written_of_child :
    let c : TraceContext := (root 0x0af7651916cd43dd8448eb211c80319c 1).child 0xb7ad6b7169203331
    let text := "\u00a000-0af7651916cd43dd8448eb211c80319c-b7ad6b7169203331-01\n".toList
    c.traceId ≠ 0 ∧ c.spanId ≠ 0 ∧ c.parentSpan = some 1 ∧
      ofHeader c.toHeader = .ok { c with parentSpan := none } ∧
      ofHeader text = .ok { c with parentSpan := none } := by
  intro c text
  have htrace : c.traceId ≠ 0 := by decide
  have hspan : c.spanId ≠ 0 := by decide
  refine ⟨htrace, hspan, rfl, (header_read_as_written [] c).2.2 htrace hspan, ?_⟩
  exact (header_read_as_written text _).1.mpr ⟨by decide +kernel, rfl, htrace, hspan⟩

end TraceContext

end CallTree
