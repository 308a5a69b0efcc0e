import CallTree.Proofs.Transparency

/-!
The assemblers that a thread has of its own. An assembler stays in the table of its thread, as its
last use has left it, until its engine releases it or it is given up for want of handles. While one
of them is in use the table takes no request.
-/
namespace CallTree

/-! ### The table -/

namespace LocalTable

variable {t t' : LocalTable} {referred : EngineId → Bool} {fresh a : Assembler} {e i : EngineId}

theorem lookup_filter (p : EngineId → Bool) (l : List (EngineId × Assembler)) (i : EngineId) :
    (l.filter (p ·.1)).lookup i = if p i then l.lookup i else none := by
  induction l with
  | nil => simp
  | cons x l ih =>
    rw [List.filter_cons]
    by_cases hx : i == x.1
    · rw [List.lookup_cons, hx, ← eq_of_beq hx]
      split
      · rw [List.lookup_cons, hx]
      · rw [ih, if_neg ‹_›]
    · rw [List.lookup_cons, Bool.eq_false_iff.mpr hx]
      split
      · rw [List.lookup_cons, Bool.eq_false_iff.mpr hx, ih]
      · exact ih

theorem has_eq (t : LocalTable) (e : EngineId) : t.has e = (t.assembler? e).isSome := by
  unfold has assembler?
  induction t.entries with
  | nil => rfl
  | cons x l ih =>
    rw [List.any_cons, List.lookup_cons, ih, BEq.comm]
    cases e == x.1 <;> rfl

/-- An assembler of the thread is the one that was there or, if there was none, a new one. On that
occasion those go that nobody refers to. -/
theorem assembler?_enter (h : t.enter referred fresh e = some t') (i : EngineId) :
    t'.assembler? i = if t.has e then t.assembler? i else
      if i = e then some fresh else if referred i then t.assembler? i else none := by
  unfold enter at h
  cases hfree : t.inUse with
  | some => simp [hfree] at h
  | none =>
    simp only [hfree, Option.some.injEq] at h
    subst h
    unfold assembler?
    cases hhas : t.has e with
    | true => rfl
    | false =>
      have hmiss : t.entries.lookup e = none := by
        simpa [has_eq, assembler?] using hhas
      simp only [Bool.false_eq_true, ↓reduceIte, List.lookup_append, lookup_filter]
      by_cases hi : i = e
      · subst hi
        simp [hmiss]
      · simp [hi, List.lookup_cons, Bool.eq_false_iff.mpr (mt eq_of_beq hi)]

theorem enter_inUse (h : t.enter referred fresh e = some t') : t'.inUse = some e := by
  unfold enter at h
  cases hfree : t.inUse with
  | some => simp [hfree] at h
  | none =>
    simp only [hfree, Option.some.injEq] at h
    exact h ▸ rfl

theorem enter_of_free (h : t.inUse = none) (referred : EngineId → Bool) (fresh : Assembler)
    (e : EngineId) : ∃ t', t.enter referred fresh e = some t' := by
  simp [enter, h]

theorem enter_of_inUse (h : t.inUse.isSome) (referred : EngineId → Bool) (fresh : Assembler)
    (e : EngineId) : t.enter referred fresh e = none := by
  obtain ⟨i, hi⟩ := Option.isSome_iff_exists.mp h
  simp [enter, hi]

theorem release_of_inUse (h : t.inUse.isSome) (e : EngineId) : t.release e = (t, false) := by
  obtain ⟨i, hi⟩ := Option.isSome_iff_exists.mp h
  simp [release, hi]

theorem assembler?_release (h : t.inUse = none) (e i : EngineId) :
    (t.release e).1.assembler? i = if i = e then none else t.assembler? i := by
  simp only [release, h, assembler?]
  rw [lookup_filter (· != e)]
  by_cases hi : i = e <;> simp [hi]

theorem has_set (t : LocalTable) (e : EngineId) (a : Assembler) (i : EngineId) :
    (t.set e a).has i = t.has i := by
  rw [has_eq, has_eq, Session.assembler?_set]
  split <;> simp

/-- The tables differ at most in the assembler of `e`, and `e` has one in both or in neither. -/
structure SameBut (e : EngineId) (t t' : LocalTable) : Prop where
  inUse : t'.inUse = t.inUse
  has : ∀ i, t'.has i = t.has i
  others : ∀ i, i ≠ e → t'.assembler? i = t.assembler? i

theorem SameBut.refl (e : EngineId) (t : LocalTable) : SameBut e t t :=
  ⟨rfl, fun _ => rfl, fun _ _ => rfl⟩

theorem SameBut.trans {t'' : LocalTable} (h : SameBut e t t') (h' : SameBut e t' t'') :
    SameBut e t t'' :=
  ⟨h'.inUse.trans h.inUse, fun i => (h'.has i).trans (h.has i),
    fun i hi => (h'.others i hi).trans (h.others i hi)⟩

theorem sameBut_set (t : LocalTable) (e : EngineId) (a : Assembler) : SameBut e t (t.set e a) :=
  ⟨rfl, has_set t e a, fun i hi => by rw [Session.assembler?_set, if_neg hi]⟩

end LocalTable

/-! ### Commands and the table -/

def Command.callsSinks : Command → Bool
  | .event _ => true
  | .fail _ _ => true
  | .correlate _ => true
  | .submit _ _ => true
  | .offer _ _ => true
  | _ => false

def Command.isLocal : Command → Bool
  | .useLocal _ _ => true
  | .releaseLocal _ => true
  | _ => false

namespace Session

theorem closeSink_table (id : SinkId) (s : Session) : (closeSink id s).2.table = s.table := by
  unfold closeSink
  split <;> rfl

theorem execute_table (s : Session) {c : Command} (hsinks : c.callsSinks = false)
    (hlocal : c.isLocal = false) : (s.execute c).1.table = s.table := by
  have hengine {tracer : String} {act : EngineId → Engine → Session × Answer}
      (hact : ∀ e engine, (act e engine).1.table = s.table) :
      (s.withEngine tracer act).1.table = s.table :=
    withEngine_keeps (P := fun s' => s'.table = s.table) rfl fun e engine _ => hact e engine
  have hsink {name : String} {act : SinkId → SinkBehaviour → Session × Answer}
      (hact : ∀ id behaviour, (act id behaviour).1.table = s.table) :
      (s.withSink name act).1.table = s.table :=
    withSink_keeps (P := fun s' => s'.table = s.table) rfl hact
  cases c with
  | tracer name config recorder =>
    rw [execute]
    split
    · rfl
    · unfold addTracer
      dsimp only
      split <;> rfl
  | cloneTracer | describeTracer | assembler | sinks | config | adjust =>
    rw [execute]
    exact hengine fun _ _ => rfl
  | addSink | removeSink =>
    rw [execute]
    exact hengine fun _ _ => hsink fun _ _ => rfl
  | sink | dropSink =>
    rw [execute]
    split <;> rfl
  | shutdown tracer =>
    rw [execute]
    refine hengine fun _ engine => ?_
    refine askAll_keeps (R := fun s s' => s'.table = s.table) (fun _ => rfl) ?_ closeSink_table
      engine.sinks s
    intro s s' s'' h h'
    exact Eq.trans h' h
  | closeSink sink =>
    rw [execute]
    exact hsink fun id _ => closeSink_table id s
  | take | snapshot | sinkState =>
    rw [execute]
    refine hsink fun _ behaviour => ?_
    cases behaviour <;> rfl
  | event | fail | correlate | submit | offer => cases hsinks
  | useLocal | releaseLocal => cases hlocal
  | _ =>
    unfold execute
    rfl

/-- While an assembler of the thread is in use, nothing else in its table has changed. -/
def Confined (s s' : Session) : Prop :=
  ∀ e, s.table.inUse = some e → s.table.SameBut e s'.table

variable {s s' s'' : Session} {e : EngineId}

theorem confined_of_table (h : s'.table = s.table) : Confined s s' :=
  fun e _ => h ▸ LocalTable.SameBut.refl e _

theorem Confined.trans (h : Confined s s') (h' : Confined s' s'') : Confined s s'' :=
  fun e he => (h e he).trans (h' e ((h e he).inUse.trans he))

theorem SameUse.confined (h : SameUse s s') : Confined s s' := by
  intro e he
  rw [h.table (by rw [he]; rfl)]
  exact .refl e _

theorem confined_submit (s : Session) (e : EngineId) (tree : Node) :
    Confined s (s.submit e tree).1 := by
  unfold submit
  split
  · exact confined_of_table rfl
  · case h_2 engine _ =>
    have huse := askAll_keeps SameUse.refl (fun h h' => SameUse.trans h h')
      (sameUse_accept { tree with handle := some s.nextTree }) engine.sinks
      { s with nextTree := s.nextTree + 1 }
    exact huse.confined

theorem confined_heed (s : Session) (e : EngineId) (engine : Engine) (v : Verdict) :
    Confined s (s.heed e engine v) := by
  cases v with
  | none | dropped => exact confined_of_table rfl
  | submitted tree => exact confined_submit s e tree

theorem confined_event (s : Session) (e : Event) : Confined s (s.event e) := by
  cases hm : s.member? with
  | none => simpa [event, hm] using confined_of_table (s := s) rfl
  | some m =>
    cases hengine : s.engine? m.engine with
    | none => simpa [event, hm, hengine] using confined_of_table (s := s) rfl
    | some engine =>
      rw [event_eq hm hengine]
      refine Confined.trans ?_ (confined_heed _ _ _ _)
      intro i hi
      simp only [tell, setAssembler, hi]
      exact LocalTable.sameBut_set s.table i _

theorem enterLocal_of_inUse (h : s.table.inUse.isSome) (e : EngineId) : s.enterLocal e = none := by
  rw [enterLocal, LocalTable.enter_of_inUse h, Option.map_none]

theorem assembler?_enterLocal (h : s.enterLocal e = some s') (i : EngineId) :
    s'.table.assembler? i = if s.table.has e then s.table.assembler? i else
      if i = e then some (s.freshAssembler e) else
        if s.hasTracers i then s.table.assembler? i else none := by
  unfold enterLocal at h
  obtain ⟨table, htable, rfl⟩ := Option.map_eq_some_iff.mp h
  exact LocalTable.assembler?_enter htable i

/-- The assembler that the running thread has for engine `e`, or would make. -/
def ownAssembler (s : Session) (e : EngineId) : Assembler :=
  (s.table.assembler? e).getD (s.freshAssembler e)

theorem enterLocal_own (s : Session) (hfree : s.table.inUse = none) (e : EngineId) :
    ∃ table, s.enterLocal e = some { s with table } ∧ table.inUse = some e ∧
      table.assembler? e = some (s.ownAssembler e) := by
  obtain ⟨table, htable⟩ := LocalTable.enter_of_free hfree s.hasTracers (s.freshAssembler e) e
  refine ⟨table, by rw [enterLocal, htable, Option.map_some], LocalTable.enter_inUse htable, ?_⟩
  rw [LocalTable.assembler?_enter htable, LocalTable.has_eq, ownAssembler]
  cases s.table.assembler? e <;> simp

theorem execute_useLocal_of_inUse (h : s.table.inUse.isSome) {tracer : String} {t : Tracer}
    (ht : s.tracers.lookup tracer = some t) (body : List Command) :
    s.execute (.useLocal tracer body) = (s, .refused) := by
  simp only [execute, ht, enterLocal_of_inUse h]

theorem execute_releaseLocal_of_inUse (h : s.table.inUse.isSome) {tracer : String} {t : Tracer}
    (ht : s.tracers.lookup tracer = some t) :
    s.execute (.releaseLocal tracer) = (s, .bool false) := by
  simp only [execute, ht, LocalTable.release_of_inUse h]

theorem confined_execute (s : Session) (c : Command) : Confined s (s.execute c).1 := by
  cases c with
  | event e =>
    rw [execute]
    exact confined_event s e
  | fail error time =>
    rw [execute]
    split
    · exact confined_of_table rfl
    · exact confined_event s _
  | correlate header =>
    rw [execute]
    split
    · exact confined_of_table rfl
    · exact confined_event s _
  | submit tracer text =>
    rw [execute]
    exact withEngine_keeps (P := Confined s) (confined_of_table rfl) fun e _ _ =>
      withTree_keeps (confined_of_table rfl) fun tree => confined_submit s e tree
  | offer sink text =>
    rw [execute]
    exact withSink_keeps (P := Confined s) (confined_of_table rfl) fun id _ =>
      withTree_keeps (confined_of_table rfl) fun tree =>
        (sameUse_accept { tree with handle := some s.nextTree } id
          { s with nextTree := s.nextTree + 1 }).confined
  | useLocal tracer body =>
    intro e he
    have hinUse : s.table.inUse.isSome := by rw [he]; rfl
    cases ht : s.tracers.lookup tracer with
    | none =>
      simp only [execute, ht]
      exact .refl e _
    | some t =>
      rw [execute_useLocal_of_inUse hinUse ht]
      exact .refl e _
  | releaseLocal tracer =>
    intro e he
    have hinUse : s.table.inUse.isSome := by rw [he]; rfl
    cases ht : s.tracers.lookup tracer with
    | none =>
      simp only [execute, ht]
      exact .refl e _
    | some t =>
      rw [execute_releaseLocal_of_inUse hinUse ht]
      exact .refl e _
  | _ => exact confined_of_table (execute_table s rfl rfl)

/-! ### Runs -/

def before (s : Session) (cs : List Command) (k : Nat) : Session := (s.runAll (cs.take k)).1

theorem runAll_concat (s : Session) (cs : List Command) (c : Command) :
    (s.runAll (cs ++ [c])).1 = (s.runAll cs).1.next c := by
  induction cs generalizing s with
  | nil => simp [runAll, next]
  | cons c' cs ih =>
    rw [List.cons_append, runAll, runAll]
    exact ih _

theorem before_succ {cs : List Command} {k : Nat} {c : Command} (hc : cs[k]? = some c) :
    s.before cs (k + 1) = (s.before cs k).next c := by
  rw [before, List.take_add_one, hc, Option.toList_some, runAll_concat]
  rfl

theorem confined_runAll (s : Session) (cs : List Command) : Confined s (s.runAll cs).1 := by
  induction cs generalizing s with
  | nil =>
    rw [runAll]
    exact confined_of_table rfl
  | cons c cs ih =>
    have hnext : Confined s (s.next c) := (confined_execute s c).trans (confined_of_table rfl)
    rw [runAll]
    exact hnext.trans (ih _)

structure UsesFor (s : Session) (cs : List Command) (k : Nat) (e : EngineId) (tracer : String)
    (body : List Command) : Prop where
  command : cs[k]? = some (.useLocal tracer body)
  handle : ((s.before cs k).tracers.lookup tracer).map (·.engine) = some e

def Uses (s : Session) (cs : List Command) (k : Nat) (e : EngineId) : Prop :=
  ∃ tracer body, s.UsesFor cs k e tracer body

def Releases (s : Session) (cs : List Command) (k : Nat) (e : EngineId) : Prop :=
  ∃ tracer, cs[k]? = some (.releaseLocal tracer) ∧
    ((s.before cs k).tracers.lookup tracer).map (·.engine) = some e

/-- Command `k` needs a new assembler, and engine `e` has no handles by then. -/
def Reclaims (s : Session) (cs : List Command) (k : Nat) (e : EngineId) : Prop :=
  (∃ i, s.Uses cs k i ∧ (s.before cs k).table.has i = false) ∧ (s.before cs k).hasTracers e = false

def Removes (s : Session) (cs : List Command) (k : Nat) (e : EngineId) : Prop :=
  s.Releases cs k e ∨ s.Reclaims cs k e

/-- Command `k` uses the assembler that the thread has of its own for engine `e`. When all that is
done with it is done the assembler is `a`, and so it stays in the table. -/
structure LeavesAs (s : Session) (cs : List Command) (k : Nat) (e : EngineId)
    (a : Assembler) : Prop where
  body : ∃ tracer body inner, s.UsesFor cs k e tracer body ∧
    ((s.before cs k).enterLocal e).map ({ · with localTracer := tracer }) = some inner ∧
    (inner.runAll body).1.table.assembler? e = some a
  after : (s.before cs (k + 1)).table.assembler? e = some a

/-- The last command before `k` that used the assembler of `e` has left `a`, and it was not removed
since. -/
def LeftBy (s : Session) (cs : List Command) (k : Nat) (e : EngineId) (a : Assembler) : Prop :=
  ∃ j < k, s.LeavesAs cs j e a ∧ ∀ i, j < i → i < k → ¬s.Uses cs i e ∧ ¬s.Removes cs i e

/-- Before command `k` nothing has used the assembler of `e` since the last one was removed. -/
def Unused (s : Session) (cs : List Command) (k : Nat) (e : EngineId) : Prop :=
  ∀ j < k, s.Uses cs j e → ∃ i, j < i ∧ i < k ∧ s.Removes cs i e

variable {cs : List Command} {k : Nat} {a : Assembler}

theorem LeavesAs.uses (h : s.LeavesAs cs k e a) : s.Uses cs k e := by
  obtain ⟨tracer, body, -, huses, -⟩ := h.body
  exact ⟨tracer, body, huses⟩

theorem LeftBy.succ (h : s.LeftBy cs k e a) (huses : ¬s.Uses cs k e)
    (hremoves : ¬s.Removes cs k e) : s.LeftBy cs (k + 1) e a := by
  obtain ⟨j, hj, hleft, hsince⟩ := h
  refine ⟨j, Nat.lt_succ_of_lt hj, hleft, fun i hji hik => ?_⟩
  rcases Nat.lt_succ_iff_lt_or_eq.mp hik with hik | rfl
  · exact hsince i hji hik
  · exact ⟨huses, hremoves⟩

theorem LeavesAs.leftBy (h : s.LeavesAs cs k e a) : s.LeftBy cs (k + 1) e a :=
  ⟨k, Nat.lt_succ_self k, h, fun i hki hik => by omega⟩

theorem Unused.succ (h : s.Unused cs k e) (huses : ¬s.Uses cs k e) : s.Unused cs (k + 1) e := by
  intro j hj hused
  rcases Nat.lt_succ_iff_lt_or_eq.mp hj with hj | rfl
  · obtain ⟨i, hji, hik, hremoves⟩ := h j hj hused
    exact ⟨i, hji, Nat.lt_succ_of_lt hik, hremoves⟩
  · exact absurd hused huses

theorem unused_of_removes (hremoves : s.Removes cs k e) (huses : ¬s.Uses cs k e) :
    s.Unused cs (k + 1) e := by
  intro j hj hused
  rcases Nat.lt_succ_iff_lt_or_eq.mp hj with hj | rfl
  · exact ⟨k, hj, Nat.lt_succ_self k, hremoves⟩
  · exact absurd hused huses

theorem Uses.unique {e' : EngineId} (h : s.Uses cs k e) (h' : s.Uses cs k e') : e' = e := by
  obtain ⟨tracer, body, hc, ht⟩ := h
  obtain ⟨tracer', body', hc', ht'⟩ := h'
  rw [hc, Option.some.injEq, Command.useLocal.injEq] at hc'
  obtain ⟨rfl, rfl⟩ := hc'
  exact Option.some.inj (ht'.symm.trans ht)

theorem Uses.not_releases {e' : EngineId} (h : s.Uses cs k e) : ¬s.Releases cs k e' := by
  obtain ⟨tracer, body, hc, -⟩ := h
  rintro ⟨tracer', hc', -⟩
  cases hc.symm.trans hc'

theorem Releases.unique {e' : EngineId} (h : s.Releases cs k e) (h' : s.Releases cs k e') :
    e' = e := by
  obtain ⟨tracer, hc, ht⟩ := h
  obtain ⟨tracer', hc', ht'⟩ := h'
  rw [hc, Option.some.injEq, Command.releaseLocal.injEq] at hc'
  subst hc'
  exact Option.some.inj (ht'.symm.trans ht)

theorem Uses.removes_iff (h : s.Uses cs k e) (i : EngineId) : s.Removes cs k i ↔
    (s.before cs k).table.has e = false ∧ (s.before cs k).hasTracers i = false := by
  constructor
  · rintro (hreleases | ⟨⟨e', he', hmiss⟩, hnone⟩)
    · exact absurd hreleases h.not_releases
    · rw [h.unique he'] at hmiss
      exact ⟨hmiss, hnone⟩
  · rintro ⟨hmiss, hnone⟩
    exact .inr ⟨⟨e, h, hmiss⟩, hnone⟩

theorem hasTracers_of_lookup {tracer : String}
    (h : (s.tracers.lookup tracer).map (·.engine) = some e) : s.hasTracers e := by
  obtain ⟨t, ht, rfl⟩ := Option.map_eq_some_iff.mp h
  obtain ⟨l, l', hl, -⟩ := List.lookup_eq_some_iff.mp ht
  simp [hasTracers, hl]

theorem Uses.hasTracers (h : s.Uses cs k e) : (s.before cs k).hasTracers e := by
  obtain ⟨tracer, body, -, hhandle⟩ := h
  exact hasTracers_of_lookup hhandle

theorem table_of_uses (hfree : (s.before cs k).table.inUse = none) {tracer : String}
    {body : List Command} (h : s.UsesFor cs k e tracer body) :
    ∃ inner, (s.before cs k).enterLocal e = some inner ∧
      (s.before cs (k + 1)).table.inUse = none ∧
      (∃ a, s.LeavesAs cs k e a) ∧
      ∀ i, i ≠ e → (s.before cs (k + 1)).table.assembler? i = inner.table.assembler? i := by
  have huses := h
  obtain ⟨hc, hhandle⟩ := h
  obtain ⟨t, ht, rfl⟩ := Option.map_eq_some_iff.mp hhandle
  obtain ⟨table, henter, hinUse, hentry⟩ := enterLocal_own (s.before cs k) hfree t.engine
  have hbody := confined_runAll { s.before cs k with table, localTracer := tracer } body
    t.engine hinUse
  have hsucc : (s.before cs (k + 1)).table =
      (runAll { s.before cs k with table, localTracer := tracer } body).1.table.leave := by
    rw [before_succ hc, next, execute]
    simp only [ht, henter]
    rfl
  obtain ⟨a, ha⟩ : ∃ a, (runAll { s.before cs k with table, localTracer := tracer }
      body).1.table.assembler? t.engine = some a := by
    rw [← Option.isSome_iff_exists, ← LocalTable.has_eq, hbody.has, LocalTable.has_eq, hentry]
    rfl
  refine ⟨_, henter, ?_, ⟨a, ⟨tracer, body, _, huses, ?_, ha⟩, ?_⟩, ?_⟩
  · rw [hsucc]
    rfl
  · rw [henter, Option.map_some]
  · rw [hsucc]
    exact ha
  · intro i hi
    rw [hsucc]
    exact hbody.others i hi

theorem table_of_releases (hfree : (s.before cs k).table.inUse = none) (h : s.Releases cs k e) :
    (s.before cs (k + 1)).table.inUse = none ∧
      ∀ i, (s.before cs (k + 1)).table.assembler? i =
        if i = e then none else (s.before cs k).table.assembler? i := by
  obtain ⟨tracer, hc, hhandle⟩ := h
  obtain ⟨t, ht, rfl⟩ := Option.map_eq_some_iff.mp hhandle
  have hsucc : (s.before cs (k + 1)).table = ((s.before cs k).table.release t.engine).1 := by
    rw [before_succ hc, next, execute]
    simp only [ht]
  rw [hsucc]
  refine ⟨?_, LocalTable.assembler?_release hfree t.engine⟩
  simp [LocalTable.release, hfree]

theorem table_of_idle (hcs : ∀ c ∈ cs, c.callsSinks = false) (huses : ∀ e, ¬s.Uses cs k e)
    (hreleases : ∀ e, ¬s.Releases cs k e) :
    (s.before cs (k + 1)).table = (s.before cs k).table := by
  cases hc : cs[k]? with
  | none => rw [before, before, List.take_add_one, hc, Option.toList_none, List.append_nil]
  | some c =>
    have hsinks := hcs c (List.mem_of_getElem? hc)
    rw [before_succ hc, next]
    cases c with
    | useLocal tracer body =>
      cases ht : (s.before cs k).tracers.lookup tracer with
      | none => simp only [execute, ht]
      | some t => exact absurd ⟨tracer, body, hc, by rw [ht]; rfl⟩ (huses t.engine)
    | releaseLocal tracer =>
      cases ht : (s.before cs k).tracers.lookup tracer with
      | none => simp only [execute, ht]
      | some t => exact absurd ⟨tracer, hc, by rw [ht]; rfl⟩ (hreleases t.engine)
    | _ => exact execute_table _ hsinks rfl

/-- How the table fares when a command is carried out while it is not in use: an assembler that is
used is there afterwards as its use has left it, one that is removed is not, and the others are as
they were. -/
structure Fares (s : Session) (cs : List Command) (k : Nat) : Prop where
  free : (s.before cs (k + 1)).table.inUse = none
  used : ∀ e, s.Uses cs k e → ∃ a, s.LeavesAs cs k e a
  removed : ∀ e, ¬s.Uses cs k e → s.Removes cs k e →
    (s.before cs (k + 1)).table.assembler? e = none
  kept : ∀ e, ¬s.Uses cs k e → ¬s.Removes cs k e →
    (s.before cs (k + 1)).table.assembler? e = (s.before cs k).table.assembler? e

theorem fares_of_uses (hfree : (s.before cs k).table.inUse = none) {tracer : String}
    {body : List Command} (h : s.UsesFor cs k e tracer body) : s.Fares cs k := by
  obtain ⟨inner, henter, hfree, hleaves, hothers⟩ := table_of_uses hfree h
  have hused : s.Uses cs k e := ⟨tracer, body, h⟩
  have hne {i : EngineId} (hi : ¬s.Uses cs k i) : i ≠ e := fun h => hi (h ▸ hused)
  refine ⟨hfree, fun i hi => hused.unique hi ▸ hleaves, fun i hi hremoves => ?_,
    fun i hi hkept => ?_⟩
  · obtain ⟨hmiss, hnone⟩ := (hused.removes_iff i).mp hremoves
    rw [hothers i (hne hi), assembler?_enterLocal henter, if_neg (hne hi)]
    simp [hmiss, hnone]
  · rw [hused.removes_iff] at hkept
    rw [hothers i (hne hi), assembler?_enterLocal henter, if_neg (hne hi)]
    grind

theorem fares_of_releases (hfree : (s.before cs k).table.inUse = none)
    (h : s.Releases cs k e) : s.Fares cs k := by
  obtain ⟨hfree, hafter⟩ := table_of_releases hfree h
  have hnot (i : EngineId) : ¬s.Uses cs k i := fun hi => hi.not_releases h
  refine ⟨hfree, fun i hi => absurd hi (hnot i), fun i _ hremoves => ?_, fun i _ hkept => ?_⟩
  · rcases hremoves with hi | ⟨⟨i', hi', -⟩, -⟩
    · rw [hafter, if_pos (h.unique hi)]
    · exact absurd hi' (hnot i')
  · rw [hafter, if_neg]
    rintro rfl
    exact hkept (.inl h)

theorem fares_of_run (hcs : ∀ c ∈ cs, c.callsSinks = false)
    (hfree : (s.before cs k).table.inUse = none) : s.Fares cs k := by
  by_cases huses : ∃ e, s.Uses cs k e
  · obtain ⟨e, tracer, body, huses⟩ := huses
    exact fares_of_uses hfree huses
  by_cases hreleases : ∃ e, s.Releases cs k e
  · obtain ⟨e, hreleases⟩ := hreleases
    exact fares_of_releases hfree hreleases
  rw [not_exists] at huses hreleases
  have hsame := table_of_idle hcs huses hreleases
  refine ⟨by rw [hsame, hfree], fun e he => absurd he (huses e), fun e _ hremoves => ?_,
    fun e _ _ => by rw [hsame]⟩
  rcases hremoves with he | ⟨⟨e', he', -⟩, -⟩
  · exact absurd he (hreleases e)
  · exact absurd he' (huses e')

structure Recalls (s : Session) (cs : List Command) (k : Nat) : Prop where
  free : (s.before cs k).table.inUse = none
  left : ∀ e a, (s.before cs k).table.assembler? e = some a → s.LeftBy cs k e a
  unused : ∀ e, (s.before cs k).table.assembler? e = none → s.Unused cs k e

theorem Recalls.succ (h : s.Recalls cs k) (hfares : s.Fares cs k) : s.Recalls cs (k + 1) := by
  refine ⟨hfares.free, fun e a ha => ?_, fun e hnone => ?_⟩
  · by_cases huses : s.Uses cs k e
    · obtain ⟨a', hleaves⟩ := hfares.used e huses
      rw [hleaves.after, Option.some.injEq] at ha
      exact ha ▸ hleaves.leftBy
    by_cases hremoves : s.Removes cs k e
    · rw [hfares.removed e huses hremoves] at ha
      cases ha
    · rw [hfares.kept e huses hremoves] at ha
      exact (h.left e a ha).succ huses hremoves
  · by_cases huses : s.Uses cs k e
    · obtain ⟨a, hleaves⟩ := hfares.used e huses
      cases hnone.symm.trans hleaves.after
    by_cases hremoves : s.Removes cs k e
    · exact unused_of_removes hremoves huses
    · rw [hfares.kept e huses hremoves] at hnone
      exact (h.unused e hnone).succ huses

theorem recalls_of_run (hs : s.table = {}) (hcs : ∀ c ∈ cs, c.callsSinks = false) (k : Nat) :
    s.Recalls cs k := by
  induction k with
  | zero =>
    have hbefore : (s.before cs 0).table = {} := by
      rw [before, List.take_zero, runAll]
      exact hs
    refine ⟨by rw [hbefore], fun e a ha => ?_, fun e _ j hj => absurd hj (Nat.not_lt_zero j)⟩
    rw [hbefore] at ha
    cases ha
  | succ k ih => exact ih.succ (fares_of_run hcs ih.free)

/-- The commands `body` are carried out with the assembler `a` of engine `e` that the thread has of
its own. If it is a new one, the table has none of an engine without handles by then. Until they are
done nothing leaves the table, and all requests to it are refused and change nothing. -/
structure Serves (s : Session) (e : EngineId) (tracer : String) (body : List Command)
    (inner : Session) (a : Assembler) : Prop where
  enters : (s.enterLocal e).map ({ · with localTracer := tracer }) = some inner
  member : inner.member? = some ⟨tracer, e, a⟩
  answer : s.execute (.useLocal tracer body) =
    ((inner.runAll body).1.leaveLocal, .rows (inner.runAll body).2)
  reclaimed : s.table.has e = false → ∀ i, inner.table.has i → inner.hasTracers i
  kept : ∀ j i, (inner.before body j).table.has i = inner.table.has i
  refused : ∀ j tracer' t, (inner.before body j).tracers.lookup tracer' = some t →
    (∀ body', (inner.before body j).execute (.useLocal tracer' body') =
      (inner.before body j, .refused)) ∧
    (inner.before body j).execute (.releaseLocal tracer') = (inner.before body j, .bool false)

theorem Serves.hasTracers {tracer : String} {body : List Command} {inner : Session}
    (h : s.Serves e tracer body inner a) (i : EngineId) : inner.hasTracers i = s.hasTracers i := by
  obtain ⟨inner', henter, rfl⟩ := Option.map_eq_some_iff.mp h.enters
  exact congrArg (fun tracers => tracers.any fun p => p.2.engine == i) (enterLocal_keeps henter).1

theorem serves_of_uses (hfree : (s.before cs k).table.inUse = none) {tracer : String}
    {body : List Command} (h : s.UsesFor cs k e tracer body) :
    ∃ inner a, (s.before cs k).Serves e tracer body inner a ∧
      a = (s.before cs k).ownAssembler e := by
  have htracers := Uses.hasTracers ⟨tracer, body, h⟩
  obtain ⟨t, ht, rfl⟩ := Option.map_eq_some_iff.mp h.handle
  obtain ⟨table, henter, hinUse, hown⟩ := enterLocal_own (s.before cs k) hfree t.engine
  have hentry := assembler?_enterLocal henter
  have hinside (j : Nat) := confined_runAll
    { s.before cs k with table, localTracer := tracer } (body.take j) t.engine hinUse
  refine ⟨{ s.before cs k with table, localTracer := tracer }, _, ⟨?_, ?_, ?_, ?_, ?_, ?_⟩, rfl⟩
  · rw [henter, Option.map_some]
  · simp only [member?, hinUse, hown, Option.map_some]
  · simp only [execute, ht, henter]
  · intro hmiss i hi
    rw [LocalTable.has_eq, hentry, hmiss] at hi
    by_cases he : i = t.engine
    · exact he ▸ htracers
    · by_contra hnone
      have hreferred : (s.before cs k).hasTracers i = false := Bool.eq_false_iff.mpr hnone
      simp [he, hreferred] at hi
  · exact fun j => (hinside j).has
  · intro j tracer' t' ht'
    have hbusy : ({ s.before cs k with table, localTracer := tracer }.before body
        j).table.inUse.isSome := by
      rw [before, (hinside j).inUse, hinUse]
      rfl
    exact ⟨execute_useLocal_of_inUse hbusy ht', execute_releaseLocal_of_inUse hbusy ht'⟩

end Session

open Session

/-- An assembler of the thread goes on from where its last use has left it, or is new if there was
none since it was last removed. As long as its engine has handles it goes only when it is
released. -/
theorem local_assemblers_kept (s : Session) (hs : s.table = {}) (cs : List Command)
    (hcs : ∀ c ∈ cs, c.callsSinks = false) :
    (∀ k e tracer body, s.UsesFor cs k e tracer body →
      ∃ inner a, (s.before cs k).Serves e tracer body inner a ∧
        (s.LeftBy cs k e a ∨ s.Unused cs k e ∧ a = (s.before cs k).freshAssembler e)) ∧
    ∀ k e, (s.before cs k).hasTracers e → (s.before cs k).table.has e → ¬s.Releases cs k e →
      (s.before cs (k + 1)).table.has e := by
  refine ⟨fun k e tracer body huses => ?_, fun k e htracers hhas hreleases => ?_⟩
  · have hrecalls := recalls_of_run hs hcs k
    obtain ⟨inner, a, hserves, ha⟩ := serves_of_uses hrecalls.free huses
    refine ⟨inner, a, hserves, ?_⟩
    cases hleft : (s.before cs k).table.assembler? e with
    | some a' =>
      rw [ownAssembler, hleft, Option.getD_some] at ha
      exact .inl (hrecalls.left e a (ha ▸ hleft))
    | none =>
      rw [ownAssembler, hleft, Option.getD_none] at ha
      exact .inr ⟨hrecalls.unused e hleft, ha⟩
  · have hfares := fares_of_run hcs (recalls_of_run hs hcs k).free
    by_cases huses : s.Uses cs k e
    · obtain ⟨a, hleaves⟩ := hfares.used e huses
      rw [LocalTable.has_eq, hleaves.after, Option.isSome_some]
    · have hkept : ¬s.Removes cs k e := by
        rintro (h | ⟨-, hnone⟩)
        · exact hreleases h
        · rw [htracers] at hnone
          cases hnone
      rw [LocalTable.has_eq, hfares.kept e huses hkept, ← LocalTable.has_eq]
      exact hhas

/-- Two engines take turns on a thread. The second one loses its handle, and the first one releases
its assembler and uses it again. -/
def turnsOfEngines : List Command :=
  [.useLocal "t" [.event (.enter 1 1 1 0), .useLocal "t" [], .releaseLocal "t"],
    .tracer "u" (.object []) false, .useLocal "u" [], .useLocal "t" [.event (.enter 2 2 2 5)],
    .dropTracer "u", .releaseLocal "t", .useLocal "t" []]

theorem local_assemblers_kept_of_turnsOfEngines :
    let s := start {} false
    let cs := turnsOfEngines
    (∃ inner a, (s.before cs 3).Serves 0 "t" [.event (.enter 2 2 2 5)] inner a ∧
      s.LeftBy cs 3 0 a) ∧
    (∃ inner, (s.before cs 6).Serves 0 "t" [] inner ((s.before cs 6).freshAssembler 0) ∧
      s.Unused cs 6 0 ∧ inner.table.has 1 = false) ∧
    (s.before cs 4).table.has 1 := by
  intro s cs
  obtain ⟨hserves, hkept⟩ := local_assemblers_kept s rfl cs (by decide)
  have hfirst : s.Uses cs 0 0 := ⟨_, _, rfl, by decide +kernel⟩
  have hreleased : s.Removes cs 5 0 := .inl ⟨_, rfl, by decide +kernel⟩
  refine ⟨?_, ?_, ?_⟩
  · obtain ⟨inner, a, hinner, hleft | ⟨hunused, -⟩⟩ :=
      hserves 3 0 "t" [.event (.enter 2 2 2 5)] ⟨rfl, by decide +kernel⟩
    · exact ⟨inner, a, hinner, hleft⟩
    · obtain ⟨i, hi, hi', hremoves⟩ := hunused 0 (by decide) hfirst
      -- Neither of the two commands in between releases it, and its engine has a handle.
      have hhandles : (s.before cs 1).hasTracers 0 && (s.before cs 2).hasTracers 0 := by
        decide +kernel
      rw [Bool.and_eq_true] at hhandles
      obtain rfl | rfl : i = 1 ∨ i = 2 := by omega
      · rcases hremoves with ⟨tracer, hc, -⟩ | ⟨-, hnone⟩
        · cases hc
        · exact absurd (hhandles.1.symm.trans hnone) (by simp)
      · rcases hremoves with ⟨tracer, hc, -⟩ | ⟨-, hnone⟩
        · cases hc
        · exact absurd (hhandles.2.symm.trans hnone) (by simp)
  · obtain ⟨inner, a, hinner, ⟨j, hj, hleft, hsince⟩ | ⟨hunused, rfl⟩⟩ :=
      hserves 6 0 "t" [] ⟨rfl, by decide +kernel⟩
    · rcases Nat.lt_succ_iff_lt_or_eq.mp hj with hj | rfl
      · exact absurd hreleased (hsince 5 hj (by decide)).2
      · obtain ⟨tracer, body, hc, -⟩ := hleft.uses
        cases hc
    · refine ⟨inner, hinner, hunused, Bool.eq_false_iff.mpr fun hhas => ?_⟩
      have hhandle := hinner.reclaimed (by decide +kernel) 1 hhas
      rw [hinner.hasTracers] at hhandle
      revert hhandle
      decide +kernel
  · refine hkept 3 1 (by decide +kernel) (by decide +kernel) ?_
    rintro ⟨tracer, hc, -⟩
    cases hc

end CallTree
