import CallTree.Proofs.FilterText
import Mathlib.Data.Char
import Mathlib.Data.List.Lex
import Mathlib.Data.Prod.Lex
import Mathlib.Order.WithBot

/-!
Which notices a filter shows. Of the directives that concern a row the most specific one decides,
the last of several that are equally specific. The first request for a log that can be met fixes
its filter.
-/
namespace CallTree

namespace Directive

/-- How specific a directive is: the length of its target, and then the field it asks for. -/
def rank (d : Directive) : ℕ ×ₗ WithBot (List Char) :=
  toLex (d.target.length, d.field.elim ⊥ fun (name, _) => ↑name)

theorem outranks_iff (d e : Directive) : d.outranks e ↔ e.rank ≤ d.rank := by
  rw [rank, rank, Prod.Lex.toLex_le_toLex, outranks]
  by_cases hlength : d.target.length = e.target.length
  · cases he : e.field with
    | none => simp [hlength]
    | some old =>
      cases hd : d.field with
      | none => simp [hlength]
      | some new => simp [hlength]
  · have hne : e.target.length ≠ d.target.length := Ne.symm hlength
    simp [hlength, hne]

theorem rank_le_bare_iff (d : Directive) (level : Option Level) :
    d.rank ≤ ({ level } : Directive).rank ↔ d.target = [] ∧ d.field = none := by
  rw [rank, rank, Prod.Lex.toLex_le_toLex]
  cases d.field <;> simp

theorem concerns_any_field {d : Directive} {target : List Char} {hasField : List Char → Bool}
    (h : d.concerns target hasField) : d.concerns target fun _ => true := by
  rw [concerns] at h ⊢
  cases hd : d.field <;> simp_all

theorem concerns_of_no_field {d : Directive} (h : d.field = none) (target : List Char)
    (hasField other : List Char → Bool) :
    d.concerns target hasField = d.concerns target other := by
  rw [concerns, concerns, h]
  rfl

end Directive

namespace LogFilter

open Directive

variable {f : LogFilter} {target : List Char} {hasField : List Char → Bool}

def better (best : Option Directive) (d : Directive) : Option Directive :=
  match best with
  | none => some d
  | some b => if d.outranks b then some d else some b

theorem foldl_better_eq_none_iff (ds : List Directive) : ds.foldl better none = none ↔ ds = [] := by
  induction ds using List.reverseRecOn with
  | nil => simp
  | append_singleton ds d ih =>
    rw [List.foldl_concat]
    cases ds.foldl better none with
    | none => simp [better]
    | some b => by_cases hd : d.outranks b <;> simp [better, hd]

/-- No directive before it is more specific, and every later one is less so. -/
def Decides (ds : List Directive) (d : Directive) : Prop :=
  ∃ before after, ds = before ++ d :: after ∧ (∀ e ∈ before, e.rank ≤ d.rank) ∧
    ∀ e ∈ after, e.rank < d.rank

theorem Decides.mem {ds : List Directive} {d : Directive} (h : Decides ds d) : d ∈ ds := by
  obtain ⟨before, after, rfl, -, -⟩ := h
  simp

theorem Decides.rank_le {ds : List Directive} {d e : Directive} (h : Decides ds d) (he : e ∈ ds) :
    e.rank ≤ d.rank := by
  obtain ⟨before, after, rfl, hbefore, hafter⟩ := h
  rcases List.mem_append.mp he with he | he
  · exact hbefore e he
  · rcases List.mem_cons.mp he with rfl | he
    · exact le_refl _
    · exact (hafter e he).le

theorem decides_concat_iff (ds : List Directive) (last d : Directive) :
    Decides (ds ++ [last]) d ↔
      d = last ∧ (∀ e ∈ ds, e.rank ≤ d.rank) ∨ Decides ds d ∧ last.rank < d.rank := by
  constructor
  · rintro ⟨before, after, heq, hbefore, hafter⟩
    rcases List.eq_nil_or_concat after with rfl | ⟨after, e, rfl⟩
    · obtain ⟨rfl, hlast⟩ := List.append_inj' heq rfl
      cases hlast
      exact .inl ⟨rfl, hbefore⟩
    · rw [List.concat_eq_append, ← List.cons_append, ← List.append_assoc] at heq
      obtain ⟨rfl, hlast⟩ := List.append_inj' heq rfl
      cases hlast
      simp only [List.concat_eq_append, List.forall_mem_append, List.forall_mem_singleton] at hafter
      exact .inr ⟨⟨before, after, rfl, hbefore, hafter.1⟩, hafter.2⟩
  · rintro (⟨rfl, hbefore⟩ | ⟨⟨before, after, rfl, hbefore, hafter⟩, hlast⟩)
    · exact ⟨ds, [], rfl, hbefore, by simp⟩
    · refine ⟨before, after ++ [last], by simp, hbefore, ?_⟩
      exact List.forall_mem_append.mpr ⟨hafter, by simpa using hlast⟩

theorem foldl_better_eq_some_iff (ds : List Directive) (d : Directive) :
    ds.foldl better none = some d ↔ Decides ds d := by
  induction ds using List.reverseRecOn generalizing d with
  | nil => simp [Decides]
  | append_singleton ds last ih =>
    rw [List.foldl_concat, decides_concat_iff, ← ih]
    cases hbest : ds.foldl better none with
    | none =>
      obtain rfl := (foldl_better_eq_none_iff ds).mp hbest
      simp [better, eq_comm]
    | some best =>
      have hdecides := (ih best).mp hbest
      by_cases hle : best.rank ≤ last.rank
      · rw [better, if_pos ((outranks_iff last best).mpr hle)]
        constructor
        · rintro ⟨rfl⟩
          exact .inl ⟨rfl, fun e he => (hdecides.rank_le he).trans hle⟩
        · rintro (⟨rfl, -⟩ | ⟨⟨rfl⟩, hlt⟩)
          · rfl
          · exact absurd hle hlt.not_ge
      · rw [better, if_neg (mt (outranks_iff last best).mp hle)]
        constructor
        · rintro ⟨rfl⟩
          exact .inr ⟨rfl, not_le.mp hle⟩
        · rintro (⟨rfl, hall⟩ | ⟨h, -⟩)
          · exact absurd (hall best hdecides.mem) hle
          · exact h

theorem deciding?_eq_some_iff (d : Directive) : f.deciding? target hasField = some d ↔
    Decides (f.filter (·.concerns target hasField)) d :=
  foldl_better_eq_some_iff _ d

theorem deciding?_eq_none_iff : f.deciding? target hasField = none ↔
    ∀ d ∈ f, ¬d.concerns target hasField :=
  (foldl_better_eq_none_iff _).trans List.filter_eq_nil_iff

theorem allowsLevel_of_rank_le {level severe : Level} (hle : severe.rank ≤ level.rank)
    (h : f.allowsLevel target hasField level) : f.allowsLevel target hasField severe := by
  rw [allowsLevel, Option.any_eq_true] at h ⊢
  obtain ⟨most, hmost, hlevel⟩ := h
  exact ⟨most, hmost, by simpa using hle.trans (of_decide_eq_true hlevel)⟩

theorem allowsLevel_of_no_field (h : ∀ d ∈ f, d.field = none) (target : List Char)
    (hasField other : List Char → Bool) (level : Level) :
    f.allowsLevel target hasField level = f.allowsLevel target other level := by
  have hfilter : f.filter (·.concerns target hasField) = f.filter (·.concerns target other) :=
    List.filter_congr fun d hd => concerns_of_no_field (h d hd) target hasField other
  rw [allowsLevel, allowsLevel, deciding?, deciding?, hfilter]

theorem allows_of_no_field (h : ∀ d ∈ f, d.field = none) (n : Notice) :
    f.allows n = f.allowsLevel n.row.target.toList (fun _ => true) n.row.level := by
  rw [allows, allowsLevel_of_no_field h _ _ fun _ => true]
  cases f.allowsLevel n.row.target.toList (fun _ => true) n.row.level <;> simp

/-- The level of a filter as a whole decides just where nothing more specific is asked for. -/
theorem deciding?_withBase_iff (base : Level) :
    (f.withBase base).deciding? target hasField = some { level := some base } ↔
      ∀ d ∈ f, d.concerns target hasField → d.target = [] ∧ d.field = none := by
  have hbase : [({ level := some base } : Directive)].filter (·.concerns target hasField) =
      [{ level := some base }] := rfl
  rw [deciding?_eq_some_iff, withBase, List.filter_append, hbase, decides_concat_iff]
  simp [rank_le_bare_iff]

theorem allows_withBase {n : Notice} (base : Level)
    (h : ∀ d ∈ f, d.concerns n.row.target.toList (fun _ => true) → d.target = [] ∧ d.field = none) :
    (f.withBase base).allows n = decide (n.level.rank ≤ base.rank) := by
  have hlevel (hasField : List Char → Bool) :
      (f.withBase base).allowsLevel n.row.target.toList hasField n.row.level =
        decide (n.level.rank ≤ base.rank) := by
    have hbare : ∀ d ∈ f, d.concerns n.row.target.toList hasField → d.target = [] ∧ d.field = none :=
      fun d hd hconcerns => h d hd (concerns_any_field hconcerns)
    rw [allowsLevel, (deciding?_withBase_iff base).mpr hbare]
    rfl
  rw [allows, hlevel, hlevel]
  cases decide (n.level.rank ≤ base.rank) <;> simp

theorem deciding?_singleton (d : Directive) : deciding? [d] target hasField =
    if d.concerns target hasField then some d else none := by
  rw [deciding?, List.filter_singleton]
  cases d.concerns target hasField <;> rfl

end LogFilter

namespace Log

inductive Request where
  | init (environment : String) (debug : Bool)
  | tryInit (directives : String)

def Request.filter? : Request → Option LogFilter
  | .init environment debug =>
    some ((LogFilter.ofTextLossy environment).withBase (if debug then .trace else .warn))
  | .tryInit directives => LogFilter.ofText? directives

def serve (l : Log) : Request → Log
  | .init environment debug => l.init environment debug
  | .tryInit directives => (l.tryInit directives).1

theorem serve_filter (l : Log) (r : Request) : (l.serve r).filter = l.filter.or r.filter? := by
  cases r with
  | init environment debug =>
    cases h : l.filter <;> simp [serve, init, install, Request.filter?, h]
  | tryInit directives =>
    cases hf : LogFilter.ofText? directives <;> cases h : l.filter <;>
      simp [serve, tryInit, install, Request.filter?, h, hf]

/-- The first request that can be met fixes the filter for all that come after it. -/
theorem serve_all_filter (rs : List Request) (l : Log) :
    (rs.foldl serve l).filter = l.filter.or (rs.findSome? (·.filter?)) := by
  induction rs generalizing l with
  | nil => simp
  | cons r rs ih =>
    rw [List.foldl_cons, ih, serve_filter, Option.or_assoc, List.findSome?_cons]
    cases r.filter? <;> simp

/-- A request by text alone is met just if none was met before and there is nothing to complain
of. -/
theorem tryInit_iff (l : Log) (directives : String) :
    (l.tryInit directives).2 ↔ l.filter = none ∧ LogFilter.complaints directives = [] := by
  have hread := LogFilter.ofText?_eq_some_iff directives
  cases hf : LogFilter.ofText? directives with
  | none =>
    have hcomplaints : LogFilter.complaints directives ≠ [] := fun h => by simp [hf, h] at hread
    simp [tryInit, hf, hcomplaints]
  | some f =>
    have hcomplaints := ((hread f).mp hf).1
    cases h : l.filter <;> simp [tryInit, install, hf, h, hcomplaints]

theorem tryInit_refused {l : Log} {directives : String} (h : (l.tryInit directives).2 = false) :
    (l.tryInit directives).1 = l := by
  cases hf : LogFilter.ofText? directives with
  | none => simp [tryInit, hf]
  | some f => cases hl : l.filter <;> simp_all [tryInit, install]

/-- Warnings and errors are shown at first, and everything in debug mode. -/
theorem init_shows {environment : String} (debug : Bool) {n : Notice}
    (h : ∀ d ∈ LogFilter.ofTextLossy environment,
      d.concerns n.row.target.toList (fun _ => true) → d.target = [] ∧ d.field = none) :
    (({} : Log).init environment debug).shows n ↔ debug ∨ n.level.rank ≤ Level.warn.rank := by
  have hinit : (({} : Log).init environment debug).filter =
    some ((LogFilter.ofTextLossy environment).withBase (if debug then .trace else .warn)) := rfl
  rw [shows, hinit, Option.any_some, LogFilter.allows_withBase _ h]
  cases debug with
  | false => simp
  | true =>
    have htrace : n.level.rank ≤ Level.trace.rank := by cases n.level <;> decide
    simpa using htrace

open Directive in
theorem tryInit_shows {w : Wording} (hread : w.Readable) (hcomma : ',' ∉ w.toChars)
    (hspan : w.span = []) (hfield : w.field = none) (n : Notice) :
    (({} : Log).tryInit (String.ofList w.toChars)).1.shows n ↔
      w.target <+: n.row.target.toList ∧
        ∃ most, w.level.getD (some .trace) = some most ∧ n.level.rank ≤ most.rank := by
  have hone : ∀ v ∈ [w], v.Readable ∧ ',' ∉ v.toChars := by simp [hread, hcomma]
  have htext := LogFilter.ofText?_join hone
  simp only [List.map_cons, List.map_nil, Text.join] at htext
  have hnone : ∀ d ∈ [w.directive], d.field = none := by simp [Wording.directive, hfield]
  have hconcerns : w.directive.concerns n.row.target.toList (fun _ => true) =
      w.target.isPrefixOf n.row.target.toList := by
    simp [concerns, Wording.directive, hspan, hfield]
  have hfilter : (({} : Log).tryInit (String.ofList w.toChars)).1.filter = some [w.directive] := by
    rw [tryInit, htext]
    rfl
  rw [shows, hfilter, Option.any_some, LogFilter.allows_of_no_field hnone, LogFilter.allowsLevel,
    LogFilter.deciding?_singleton, hconcerns, ← List.isPrefixOf_iff_prefix]
  by_cases hstarts : w.target.isPrefixOf n.row.target.toList
  · simp [hstarts, Wording.directive, Notice.level, Option.any_eq_true]
  · simp [hstarts]

open Directive in
theorem tryInit_own_target_shows (n : Notice) (level : Level) :
    (({} : Log).tryInit (String.ofList
      ({ target := n.row.target.toList, level := some (some level) } : Wording).toChars)).1.shows n ↔
        n.level.rank ≤ level.rank := by
  have hword := isWord_target n
  generalize hw : ({ target := n.row.target.toList, level := some (some level) } : Wording) = w
  have hread : w.Readable := by
    subst hw
    exact ⟨.inr hword, by simp, by simp, by simp, by simp⟩
  have hcomma : ',' ∉ w.toChars := by
    subst hw
    have htarget := comma_not_mem_target n
    have hlevel := comma_not_mem_levelName (some level)
    simp [Wording.toChars, Wording.brackets, Wording.enclosed, Wording.fieldText, Wording.ending,
      hword.ne_nil, htarget, hlevel]
  rw [tryInit_shows hread hcomma (by rw [← hw]) (by rw [← hw]), ← hw]
  simp

end Log

end CallTree
