import CallTree.Proofs.OpenCalls

/-!
What closing a call does to the open calls: the traces around it take over from its trace, and its
parent gets its counts and keeps its node, its only child or nothing of it.
-/
namespace CallTree.Assembler

/-- A call that closes at `time`, when its own error has been compared with that of its last
child. -/
def finish (time : Nat) (error : Option ErrorChain) (n : Node) : Node :=
  let n := match error with
    | none => n
    | some e => n.mapFrame fun f => { f with error := some e, errors := f.errors + 1 }
  dedupError (n.mapFrame fun f => { f with duration := time - f.startTime.getD 0 })

def ended (time : Nat) (error : Option ErrorChain) (n : Node) : Node :=
  (match error with
    | none => n
    | some e => n.mapFrame fun f => { f with error := some e, errors := f.errors + 1 }).mapFrame
      fun f => { f with duration := time - f.startTime.getD 0 }

theorem dedupError_eq (n : Node) : ∃ error flags,
    dedupError n = { n with frame := { n.frame with error, flags } } ∧
    ∀ x, x ≠ .passesError → x ≠ .wrapsError → flags.has x = n.frame.flags.has x := by
  obtain ⟨handle, frame, children⟩ := n
  have hsame : ∃ error flags, (⟨handle, frame, children⟩ : Node) =
      ⟨handle, { frame with error, flags }, children⟩ ∧
      ∀ x, x ≠ .passesError → x ≠ .wrapsError → flags.has x = frame.flags.has x :=
    ⟨frame.error, frame.flags, rfl, fun _ _ _ => rfl⟩
  cases h : frame.error with
  | none => simpa only [dedupError, h] using hsame
  | some own =>
    simp only [dedupError, h]
    split
    · exact ⟨none, _, rfl, fun x hx _ => by simp [Ne.symm hx]⟩
    · split
      · exact ⟨frame.error, _, rfl, fun x _ hx => by simp [Ne.symm hx]⟩
      · exact hsame

theorem finish_eq (time : Nat) (error : Option ErrorChain) (n : Node) : ∃ error' flags,
    finish time error n = { n with frame := { n.frame with
      duration := time - n.frame.startTime.getD 0
      errors := n.frame.errors + if error.isSome then 1 else 0
      error := error'
      flags } } ∧
    ∀ x, x ≠ .passesError → x ≠ .wrapsError → flags.has x = n.frame.flags.has x := by
  cases error with
  | none =>
    obtain ⟨error', flags, heq, hflags⟩ := dedupError_eq
      (n.mapFrame fun f => { f with duration := time - f.startTime.getD 0 })
    exact ⟨error', flags, heq, hflags⟩
  | some e =>
    obtain ⟨error', flags, heq, hflags⟩ := dedupError_eq
      (n.mapFrame fun f => { f with
        error := some e, errors := f.errors + 1, duration := time - f.startTime.getD 0 })
    exact ⟨error', flags, heq, hflags⟩

def traceFlags (ns : List Node) : MarkerFlags := ((nearest? ns).map (·.flags)).getD ∅

def fateOf (env : Surroundings) (n : Node) (outer : List Node) : Fate :=
  fate env.thresholds (traceFlags (n :: outer)) (outer.any (·.isTraceRoot))
    (settle env n outer).isSubmitted n

def around (env : Surroundings) (n : Node) (outer : List Node) : List Node :=
  if outer.any (·.isTraceRoot) && n.frame.flags.has .overflow then
    adjustNearest (·.mark (.single .overflow)) (settle env n outer).ancestors
  else (settle env n outer).ancestors

/-- The parent of a finished call, with the node that it keeps of it. -/
def keep (held : Nat → Bool) (n : Node) : Fate → Node → Node
  | .attach, parent => parent.addChild n
  | .elide child, parent => parent.addChild (promote held n child)
  | _, parent => parent

def parentOf (env : Surroundings) (n : Node) (outer : List Node) (q : Node) : Node :=
  keep env.held (settle env n outer).node (fateOf env n outer) (rollUp n.frame q)

def remaining (nodeCount : Nat) (n : Node) : Fate → Nat
  | .attach => nodeCount
  | .elide _ => nodeCount - 1
  | _ => nodeCount - n.size

theorem settle_touched (env : Surroundings) (n : Node) (outer : List Node) :
    AllTouched outer (settle env n outer).ancestors := by
  unfold settle
  cases n.frame.marker with
  | none => exact AllTouched.refl outer
  | some m =>
    dsimp only
    split <;> exact adjustNearest_touched (fun m => m.grows_inherit _) outer

theorem around_touched (env : Surroundings) (n : Node) (outer : List Node) :
    AllTouched outer (around env n outer) := by
  unfold around
  split
  · exact (settle_touched env n outer).trans (adjustNearest_touched (fun m => m.grows_mark _) _)
  · exact settle_touched env n outer

theorem AllTouched.isBusy {ns ns' : List Node} (h : AllTouched ns ns')
    (hns : ∀ n ∈ ns, n.isBusy) : ∀ n ∈ ns', n.isBusy :=
  h.forall_mem (fun _ _ hbusy hn => hn.isBusy.trans hbusy) hns

theorem rollUp_isBusy (f : Frame) {ns : List Node} (h : ∀ n ∈ ns, n.isBusy) :
    ∀ n ∈ ns.modifyHead (rollUp f), n.isBusy := by
  cases ns with
  | nil => simp
  | cons p ps =>
    intro q hq
    rcases List.mem_cons.mp hq with rfl | hq
    · exact h p (by simp)
    · exact h q (by simp [hq])

theorem settle_children (env : Surroundings) (n : Node) (outer : List Node) :
    (settle env n outer).node.children = n.children := by
  unfold settle
  cases n.frame.marker with
  | none => rfl
  | some m => dsimp only; split <;> rfl

theorem settle_frame (env : Surroundings) (n : Node) (outer : List Node) :
    (settle env n outer).node.frame =
      { n.frame with marker := (settle env n outer).node.frame.marker } := by
  unfold settle
  cases n.frame.marker with
  | none => simp
  | some m => dsimp only; split <;> rfl

theorem settle_size (env : Surroundings) (n : Node) (outer : List Node) :
    (settle env n outer).node.size = n.size := by
  rw [Node.size_eq, Node.size_eq, settle_children]

/-- The state `a'` is what remains of `a` when the call `n` has met its fate among `outer`. -/
structure Disposed (held : Nat → Bool) (n : Node) (f : Fate) (outer : List Node)
    (a a' : Assembler) : Prop where
  sound : a'.Sound
  openCalls : a'.openCalls = outer.modifyHead (keep held n f)
  vacant : a'.top.isBusy = false → a'.top = {}
  nodeCount : a'.nodeCount = remaining a.nodeCount n f
  enabled : a'.enabled = a.enabled

theorem disposed_of_blank {held : Nat → Bool} {n : Node} {f : Fate} {a a' : Assembler}
    (htop : a'.top = {}) (hbusy : ∀ p ∈ a'.ancestors, p.isBusy) (hclean : a'.pool.Clean)
    {outer : List Node} (houter : a'.ancestors = outer.modifyHead (keep held n f))
    (hcount : a'.nodeCount = remaining a.nodeCount n f) (henabled : a'.enabled = a.enabled) :
    Disposed held n f outer a a' where
  sound := ⟨hbusy, fun _ => by rw [htop], fun _ => htop, hclean⟩
  openCalls := by rw [openCalls_of_vacant (by rw [htop]; rfl), houter]
  vacant _ := htop
  nodeCount := hcount
  enabled := henabled

theorem disposed_of_busy {held : Nat → Bool} {n : Node} {f : Fate} {a a' : Assembler}
    (htop : a'.top.isBusy) (hbusy : ∀ p ∈ a'.ancestors, p.isBusy) (hclean : a'.pool.Clean)
    {outer : List Node} (houter : a'.top :: a'.ancestors = outer.modifyHead (keep held n f))
    (hcount : a'.nodeCount = remaining a.nodeCount n f) (henabled : a'.enabled = a.enabled) :
    Disposed held n f outer a a' where
  sound := ⟨hbusy, fun h => by simp [htop] at h, fun h => by simp [isPlaceholder, htop] at h,
    hclean⟩
  openCalls := by rw [openCalls_of_busy htop, houter]
  vacant h := by simp [htop] at h
  nodeCount := hcount
  enabled := henabled

theorem carryOut_cons (held : Nat → Bool) {a : Assembler} (hclean : a.pool.Clean) (n : Node)
    {f : Fate} (hf : f ≠ .discard) {p : Node} {ps : List Node} (h : a.ancestors = p :: ps) :
    ∃ pool : Pool, pool.Clean ∧ carryOut held a n f = { a with
      top := keep held n f p, ancestors := ps, nodeCount := remaining a.nodeCount n f, pool } := by
  cases f with
  | discard => exact absurd rfl hf
  | leave => exact ⟨a.pool, hclean, by simp [carryOut, keep, remaining, h]⟩
  | reject => exact ⟨_, hclean.release held n, by simp [carryOut, keep, remaining, h]⟩
  | attach => exact ⟨a.pool, hclean, by simp [carryOut, keep, remaining, h]⟩
  | elide child =>
    exact ⟨_, hclean.release held { n with children := [] },
      by simp [carryOut, keep, remaining, h]⟩

theorem keep_isBusy (held : Nat → Bool) (n : Node) (f : Fate) (p : Node) :
    (keep held n f p).isBusy = p.isBusy := by
  cases f <;> rfl

theorem carryOut_disposed (held : Nat → Bool) {a : Assembler}
    (hbusy : ∀ p ∈ a.ancestors, p.isBusy) (hclean : a.pool.Clean) (n : Node) {f : Fate}
    (hf : a.ancestors = [] → f = .discard ∨ f = .leave) :
    Disposed held n f a.ancestors a (carryOut held a n f) := by
  by_cases hd : f = .discard
  · subst hd
    refine disposed_of_blank (Pool.clean_eq n) ?_ ?_ ?_ rfl rfl
    · exact hbusy
    · exact hclean.reclaim held n.children
    · cases h : a.ancestors <;> simp [carryOut, keep, h]
  cases h : a.ancestors with
  | nil =>
    obtain rfl := (hf h).resolve_left hd
    simp only [carryOut, h]
    exact disposed_of_blank hclean.acquire.1 (by simp) hclean.acquire.2 rfl rfl rfl
  | cons p ps =>
    rw [h] at hbusy
    obtain ⟨pool, hpool, heq⟩ := carryOut_cons held hclean n hd h
    rw [heq]
    exact disposed_of_busy ((keep_isBusy held n f p).trans (hbusy p (by simp)))
      (fun q hq => hbusy q (List.mem_cons_of_mem p hq)) hpool rfl rfl rfl

theorem substitute_of_elide {env : Surroundings} {n : Node} {outer : List Node} {child : Node}
    (h : fateOf env n outer = .elide child) : (settle env n outer).isSubmitted = false ∧
      ∃ flags, substitute? env.thresholds n flags = some child := by
  simp only [fateOf, fate] at h
  split at h
  · split at h
    · split at h <;> cases h
    · split at h
      · cases h
      · split at h
        case h_1 hnot _ _ hsub =>
          cases h
          exact ⟨by simpa using hnot, _, hsub⟩
        case h_2 => cases h
  · split at h <;> cases h

theorem substitute_spec {t : Thresholds} {n : Node} {flags : MarkerFlags} {child : Node}
    (h : substitute? t n flags = some child) :
    n.children = [child] ∧ child.isTraceRoot = false := by
  simp only [substitute?] at h
  split at h
  case isTrue hinterim =>
    simp only [Node.isInterim, Bool.and_eq_true, beq_iff_eq] at hinterim
    obtain ⟨only, honly⟩ := List.length_eq_one_iff.mp hinterim.2.2
    obtain ⟨hlast, hchild⟩ := Option.filter_eq_some_iff.mp h
    simp only [Node.lastChild?, honly, List.getLast?_singleton, Option.some.injEq] at hlast
    simp only [Bool.and_eq_true, Bool.not_eq_true'] at hchild
    exact ⟨by rw [honly, hlast], hchild.1⟩
  case isFalse => cases h

theorem fateOf_elide {env : Surroundings} {n : Node} {outer : List Node} {child : Node}
    (h : fateOf env n outer = .elide child) : n.children = [child] := by
  obtain ⟨-, flags, hsub⟩ := substitute_of_elide h
  exact (substitute_spec hsub).1

theorem fateOf_submitted {env : Surroundings} {n : Node} {outer : List Node}
    (h : (settle env n outer).isSubmitted) :
    fateOf env n outer = .leave ∨ fateOf env n outer = .attach := by
  simp only [fateOf, fate, h, ↓reduceIte]
  split
  · split
    · exact .inl rfl
    · exact .inr rfl
  · exact .inl rfl

/-- The state `a'` is what remains of `a` when its innermost call has closed as `n`. -/
structure Closed (env : Surroundings) (n : Node) (outer : List Node) (a a' : Assembler) : Prop where
  sound : a'.Sound
  openCalls : a'.openCalls = (around env n outer).modifyHead (parentOf env n outer)
  vacant : a'.top.isBusy = false → a'.top = {}
  nodeCount : a'.nodeCount =
    if outer.any (·.isTraceRoot) then remaining a.nodeCount n (fateOf env n outer) else 0
  enabled : a'.enabled = a.enabled

theorem Closed.awaited {env : Surroundings} {n : Node} {outer : List Node} {a a' : Assembler}
    (h : Closed env n outer a a') : a'.awaited = {} := by
  cases ht : a'.top.isBusy with
  | true => exact awaited_of_busy ht
  | false =>
    simp only [Assembler.awaited, h.vacant ht]
    rfl

theorem fateOf_outside {env : Surroundings} {n : Node} {outer : List Node}
    (h : outer.any (·.isTraceRoot) = false) : fateOf env n outer = .discard ∨
      fateOf env n outer = .leave := by
  unfold fateOf fate
  simp only [h, Bool.false_and, Bool.false_eq_true, ↓reduceIte]
  split
  · exact .inr rfl
  · exact .inl rfl

theorem compact_eq (env : Surroundings) (a : Assembler) : (compact env a).1 =
    let n := dedupError a.top
    let a' := carryOut env.held
      { a with top := n, ancestors := (around env n a.ancestors).modifyHead (rollUp n.frame) }
      (settle env n a.ancestors).node (fateOf env n a.ancestors)
    if a.ancestors.any (·.isTraceRoot) then a' else { a' with nodeCount := 0 } := rfl

theorem compact_closed (env : Surroundings) {a : Assembler} (hbusy : ∀ n ∈ a.ancestors, n.isBusy)
    (hclean : a.pool.Clean) :
    Closed env (dedupError a.top) a.ancestors a (compact env a).1 := by
  generalize hn : dedupError a.top = n
  have htouched := around_touched env n a.ancestors
  have hfate : (around env n a.ancestors).modifyHead (rollUp n.frame) = [] →
      fateOf env n a.ancestors = .discard ∨ fateOf env n a.ancestors = .leave := by
    intro hnil
    rw [List.modifyHead_eq_nil_iff] at hnil
    rw [hnil] at htouched
    exact fateOf_outside (by simp [List.forall₂_nil_right_iff.mp htouched])
  have hd := carryOut_disposed env.held
    (a := { a with
      top := n, ancestors := (around env n a.ancestors).modifyHead (rollUp n.frame) })
    (rollUp_isBusy n.frame (htouched.isBusy hbusy)) hclean (settle env n a.ancestors).node hfate
  have hopen := hd.openCalls
  rw [List.modifyHead_modifyHead] at hopen
  have hsize (k : Nat) (f : Fate) :
      remaining k (settle env n a.ancestors).node f = remaining k n f := by
    cases f <;> simp [remaining, settle_size]
  rw [compact_eq, hn]
  dsimp only
  split
  case isTrue hin =>
    exact ⟨hd.sound, hopen, hd.vacant, by rw [if_pos hin, hd.nodeCount, hsize], hd.enabled⟩
  case isFalse hin =>
    have hs := hd.sound
    exact ⟨⟨hs.busy, hs.vacant, hs.placeholder, hs.clean⟩, hopen, hd.vacant,
      by rw [if_neg hin], hd.enabled⟩

/-- Above an open call there is at most one slot without a call. -/
theorem resync_of_open (held : Nat → Bool) {a : Assembler} (h : a.Sound) {n : Node}
    {outer : List Node} (hopen : a.openCalls = n :: outer) :
    resync held a.pool a.top a.ancestors =
      (n, outer, if a.top.isBusy then a.pool else a.pool.release held a.top) := by
  cases ht : a.top.isBusy with
  | true =>
    rw [openCalls_of_busy ht] at hopen
    obtain ⟨rfl, rfl⟩ := List.cons.inj hopen
    cases a.ancestors <;> simp [resync, ht]
  | false =>
    rw [openCalls_of_vacant ht] at hopen
    have hbusy : n.isBusy := h.busy n (by simp [hopen])
    rw [hopen]
    cases outer <;> simp [resync, ht, hbusy]

def closingAs (held : Nat → Bool) (n : Node) (outer : List Node) (a : Assembler) : Assembler :=
  { a with
    top := n
    ancestors := outer
    pool := if a.top.isBusy then a.pool else a.pool.release held a.top }

theorem Sound.closingAs {a : Assembler} (h : a.Sound) (held : Nat → Bool) (n : Node)
    (outer : List Node) : (a.closingAs held n outer).pool.Clean := by
  unfold Assembler.closingAs
  dsimp only
  split
  · exact h.clean
  · exact h.clean.release held a.top

theorem close_eq (env : Surroundings) (time : Nat) (error : Option ErrorChain) {a : Assembler}
    (h : a.Sound) {n : Node} {outer : List Node} (hopen : a.openCalls = n :: outer) :
    a.close env time error =
      let top := ended time error n
      let a' := a.closingAs env.held top outer
      let logged := if a'.tracesCalls then
        [.exited top.frame.classId top.frame.methodId top.frame.duration top.frame.errors] else []
      .ok ((compact env a').1,
        { (compact env a').2 with notices := logged ++ (compact env a').2.notices }) := by
  have hbusy : n.isBusy := h.isBusy n (by simp [hopen])
  obtain ⟨start, hstart⟩ := Option.isSome_iff_exists.mp hbusy
  unfold close
  rw [resync_of_open env.held h hopen]
  simp only [hstart]
  cases error <;> simp [ended, closingAs, hstart, Node.mapFrame]

theorem close_closed (env : Surroundings) (time : Nat) (error : Option ErrorChain) {a : Assembler}
    (h : a.Sound) {n : Node} {outer : List Node} (hopen : a.openCalls = n :: outer) :
    ∃ a' outcome, a.close env time error = .ok (a', outcome) ∧
      Closed env (finish time error n) outer a a' ∧
      outcome.verdict = (settle env (finish time error n) outer).verdict := by
  have hbusy : ∀ p ∈ outer, p.isBusy := by
    intro p hp
    exact h.isBusy p (by simp [hopen, hp])
  have hcompact := compact_closed env (a := a.closingAs env.held (ended time error n) outer) hbusy
    (h.closingAs env.held _ outer)
  exact ⟨_, _, close_eq env time error h hopen, ⟨hcompact.sound, hcompact.openCalls,
    hcompact.vacant, hcompact.nodeCount, hcompact.enabled⟩, rfl⟩

theorem close_of_no_calls (env : Surroundings) (time : Nat) (error : Option ErrorChain)
    {a : Assembler} (hopen : a.openCalls = []) : a.close env time error = .error .noOpenFrame := by
  cases ht : a.top.isBusy with
  | true =>
    rw [openCalls_of_busy ht] at hopen
    cases hopen
  | false =>
    rw [openCalls_of_vacant ht] at hopen
    have hstart : a.top.frame.startTime = none := by
      unfold Node.isBusy Frame.isBusy at ht
      simpa using ht
    simp [close, hopen, resync, hstart]

theorem resynced_of_no_calls (held : Nat → Bool) {a : Assembler} (hopen : a.openCalls = []) :
    a.resynced held = a := by
  cases ht : a.top.isBusy with
  | true =>
    rw [openCalls_of_busy ht] at hopen
    cases hopen
  | false =>
    rw [openCalls_of_vacant ht] at hopen
    unfold resynced
    rw [hopen]
    exact congrArg (fun ns => { a with ancestors := ns }) hopen.symm

theorem no_calls_of_error {env : Surroundings} {time : Nat} {error : Option ErrorChain}
    {a : Assembler} (h : a.Sound) {why : Rejection}
    (herror : a.close env time error = .error why) : a.openCalls = [] := by
  cases hopen : a.openCalls with
  | nil => rfl
  | cons n outer =>
    obtain ⟨a', outcome, hclose, -⟩ := close_closed env time error h hopen
    rw [hclose] at herror
    cases herror

end CallTree.Assembler
