import CallTree.Proofs.Run

/-!
What an assembler does, apart from the nodes that it does it with. The content of a tree leaves out
the handles of its parts, and the content of an assembler its pool. A step takes equal contents to
equal contents, whoever holds the submitted trees and whatever their handles are.
-/
namespace CallTree

mutual

def Node.content : Node → Node
  | ⟨_, frame, children⟩ => ⟨none, frame, Node.contents children⟩

def Node.contents : List Node → List Node
  | [] => []
  | n :: ns => n.content :: Node.contents ns

end

namespace Node

theorem contents_eq (ns : List Node) : contents ns = ns.map content := by
  induction ns with
  | nil => rfl
  | cons n ns ih => rw [contents, ih, List.map_cons]

@[simp] theorem content_mk (handle : Option Nat) (frame : Frame) (children : List Node) :
    (⟨handle, frame, children⟩ : Node).content = ⟨none, frame, children.map content⟩ := by
  rw [content, contents_eq]

@[simp] theorem content_handle (n : Node) : n.content.handle = none := by
  cases n
  rw [content_mk]

@[simp] theorem content_frame (n : Node) : n.content.frame = n.frame := by
  cases n
  rw [content_mk]

@[simp] theorem content_children (n : Node) : n.content.children = n.children.map content := by
  cases n
  rw [content_mk]

@[simp] theorem content_isBusy (n : Node) : n.content.isBusy = n.isBusy := by simp [isBusy]

@[simp] theorem content_isTraceRoot (n : Node) : n.content.isTraceRoot = n.isTraceRoot := by
  simp [isTraceRoot]

@[simp] theorem content_lastChild? (n : Node) :
    n.content.lastChild? = n.lastChild?.map content := by
  simp [lastChild?]

@[simp] theorem content_isInterim (n : Node) : n.content.isInterim = n.isInterim := by
  simp [isInterim]

@[simp] theorem content_mapFrame (g : Frame → Frame) (n : Node) :
    (n.mapFrame g).content = n.content.mapFrame g := by
  cases n
  simp [mapFrame]

@[simp] theorem content_addChild (n child : Node) :
    (n.addChild child).content = n.content.addChild child.content := by
  cases n
  simp [addChild]

mutual

theorem content_content : (n : Node) → n.content.content = n.content
  | ⟨_, frame, children⟩ => by
    rw [content_mk, content_mk, ← contents_eq, ← contents_eq, contents_contents children]

theorem contents_contents : (ns : List Node) → contents (contents ns) = contents ns
  | [] => rfl
  | n :: ns => by rw [contents, contents, content_content n, contents_contents ns]

end

mutual

theorem content_size : (n : Node) → n.content.size = n.size
  | ⟨_, _, children⟩ => by rw [content, size, size, contents_sizes children]

theorem contents_sizes : (ns : List Node) → sizes (contents ns) = sizes ns
  | [] => rfl
  | n :: ns => by rw [contents, sizes, sizes, content_size n, contents_sizes ns]

end

mutual

theorem content_findError : (n : Node) → n.content.findError = n.findError
  | ⟨_, _, children⟩ => by rw [content, findError, findError, contents_lastError children]

theorem contents_lastError : (ns : List Node) → lastError (contents ns) = lastError ns
  | [] => rfl
  | [n] => content_findError n
  | _ :: m :: ns => contents_lastError (m :: ns)

end

attribute [simp] content_content content_size content_findError

end Node

def Verdict.content : Verdict → Verdict
  | .submitted tree => .submitted tree.content
  | verdict => verdict

def Outcome.content (o : Outcome) : Outcome := { o with verdict := o.verdict.content }

theorem Outcome.content_eq_iff {o o' : Outcome} : o.content = o'.content ↔
    o.notices = o'.notices ∧ o.verdict.content = o'.verdict.content := by
  simp [content]

namespace Assembler

def Fate.content : Fate → Fate
  | .elide child => .elide child.content
  | fate => fate

/-- The assembler with nothing said of where its nodes come from and go to. -/
def content (a : Assembler) : Assembler :=
  { a with top := a.top.content, ancestors := a.ancestors.map Node.content, pool := .disabled }

theorem content_eq_iff {a b : Assembler} : a.content = b.content ↔
    a.top.content = b.top.content ∧ a.ancestors.map Node.content = b.ancestors.map Node.content ∧
      a.nodeCount = b.nodeCount ∧ a.enabled = b.enabled := by
  simp [content]

def contents (r : Assembler × Outcome) : Assembler × Outcome := (r.1.content, r.2.content)

/-! ### What is read off the slots -/

theorem map_content_nearest (ns : List Node) : nearest? (ns.map Node.content) = nearest? ns := by
  simp [nearest?, List.findSome?_map, Function.comp_def]

theorem map_content_any_isTraceRoot (ns : List Node) :
    (ns.map Node.content).any (·.isTraceRoot) = ns.any (·.isTraceRoot) := by
  simp [List.any_map, Function.comp_def]

theorem content_slots (a : Assembler) : a.content.slots = a.slots.map Node.content := rfl

theorem content_depth (a : Assembler) : a.content.depth = a.depth := by
  simp [depth, content]

theorem content_isPlaceholder (a : Assembler) : a.content.isPlaceholder = a.isPlaceholder := by
  simp [isPlaceholder, content]

theorem content_tracesCalls (a : Assembler) : a.content.tracesCalls = a.tracesCalls := by
  rw [tracesCalls, tracesCalls, content_slots, map_content_nearest]

theorem content_awaited (a : Assembler) : a.content.awaited = a.awaited := by
  simp [awaited, content]

theorem content_openCalls (a : Assembler) :
    a.content.openCalls = a.openCalls.map Node.content := by
  unfold openCalls
  rw [content_slots]
  simp only [content, Node.content_isBusy]
  split <;> rfl

/-! ### Changing slots -/

theorem updateFirst_content {p : Node → Bool} {g : Node → Node}
    (hp : ∀ n, p n.content = p n) (hg : ∀ n, (g n).content = g n.content) (ns : List Node) :
    updateFirst p g (ns.map Node.content) = (updateFirst p g ns).map (·.map Node.content) := by
  induction ns with
  | nil => rfl
  | cons n ns ih =>
    rw [List.map_cons, updateFirst, updateFirst, hp, ih]
    cases p n with
    | true => simp [hg]
    | false => cases updateFirst p g ns <;> simp

theorem updateMarker_content (p : Marker → Bool) (g : Marker → Marker) (ns : List Node) :
    updateMarker p g (ns.map Node.content) = (updateMarker p g ns).map (·.map Node.content) :=
  updateFirst_content (fun n => by simp) (fun n => by simp) ns

theorem getD_updateMarker_content (p : Marker → Bool) (g : Marker → Marker) (ns : List Node) :
    (updateMarker p g (ns.map Node.content)).getD (ns.map Node.content) =
      ((updateMarker p g ns).getD ns).map Node.content := by
  rw [updateMarker_content]
  cases updateMarker p g ns <;> rfl

theorem rollUp_content (f : Frame) (ns : List Node) :
    (ns.map Node.content).modifyHead (rollUp f) = (ns.modifyHead (rollUp f)).map Node.content := by
  cases ns <;> simp [rollUp]

theorem withSlots_content (a : Assembler) (ns : List Node) :
    a.content.withSlots (ns.map Node.content) = (a.withSlots ns).content := by
  cases ns <;> rfl

theorem mapMarker_content (p : Marker → Bool) (g : Marker → Marker) (a : Assembler) :
    a.content.mapMarker p g = (a.mapMarker p g).content := by
  unfold mapMarker
  rw [content_slots, updateMarker_content]
  cases updateMarker p g a.slots with
  | none => rfl
  | some ns => exact withSlots_content a ns

theorem updateFrame_content (p : Frame → Bool) (g : Frame → Frame) (a : Assembler) :
    a.content.updateFrame p g = (a.updateFrame p g).map content := by
  have hchange := updateFirst_content (p := (p ·.frame)) (g := (·.mapFrame g)) (fun n => by simp)
    (fun n => by simp)
  unfold updateFrame
  dsimp only
  rw [content_isPlaceholder]
  split
  case isTrue =>
    rw [show a.content.ancestors = a.ancestors.map Node.content from rfl, hchange]
    cases updateFirst (p ·.frame) (·.mapFrame g) a.ancestors <;> rfl
  case isFalse =>
    rw [content_slots, hchange]
    cases updateFirst (p ·.frame) (·.mapFrame g) a.slots with
    | none => rfl
    | some ns => exact congrArg some (withSlots_content a ns)

theorem openTrace_content (t : Thresholds) (traceId : SymbolId) (clock : Nat) (flags : MarkerFlags)
    (a : Assembler) :
    a.content.openTrace t traceId clock flags =
      (a.openTrace t traceId clock flags).map content := by
  simp only [openTrace, content, Node.content_frame, map_content_nearest, Node.content_isBusy]
  cases a.top.frame.marker with
  | some existing => rfl
  | none => simp only [Except.map, content, Node.content_mapFrame]

/-! ### Closing -/

theorem dedupError_content (n : Node) : dedupError n.content = (dedupError n).content := by
  simp only [dedupError, Node.content_frame, Node.content_lastChild?]
  cases n.frame.error with
  | none => rfl
  | some own =>
    have hinner : (n.lastChild?.map Node.content).bind (·.findError) =
        n.lastChild?.bind (·.findError) := by
      cases n.lastChild? <;> simp
    simp only [hinner]
    split
    · simp
    · split <;> simp

theorem ended_content (time : Nat) (error : Option ErrorChain) (n : Node) :
    ended time error n.content = (ended time error n).content := by
  cases error <;> simp [ended, Node.mapFrame]

theorem substitute?_content (t : Thresholds) (n : Node) (flags : MarkerFlags) :
    substitute? t n.content flags = (substitute? t n flags).map Node.content := by
  unfold substitute?
  rw [Node.content_isInterim, Node.content_lastChild?]
  split
  · cases n.lastChild? with
    | none => rfl
    | some child =>
      simp only [Option.map_some, Option.filter_some, Node.content_isTraceRoot, Node.content_frame]
      split <;> rfl
  · rfl

theorem fate_content (t : Thresholds) (flags : MarkerFlags) (inTrace submitted : Bool) (n : Node) :
    fate t flags inTrace submitted n.content = (fate t flags inTrace submitted n).content := by
  simp only [fate, Node.content_frame, substitute?_content]
  cases substitute? t n flags <;> simp only [Option.map_none, Option.map_some] <;>
    split <;> (try split) <;> (try split) <;> rfl

theorem promote_content (held held' : Nat → Bool) {n n' : Node} (hn : n'.content = n.content)
    (child : Node) : (promote held' n' child.content).content = (promote held n child).content := by
  have hframe : n'.frame = n.frame := by
    simpa using congrArg Node.frame hn
  have hcopy (held : Nat → Bool) (child : Node) :
      (if Pool.isHeld held child then { child with handle := none } else child).content =
        child.content := by
    cases child
    split <;> simp
  simp only [promote, Node.content_mapFrame, hcopy, Node.content_content, hframe]

theorem carryOut_content (held held' : Nat → Bool) {a : Assembler} (hclean : a.pool.Clean)
    {n n' : Node} (hn : n'.content = n.content) (f : Fate) :
    (carryOut held' a.content n' f.content).content = (carryOut held a n f).content := by
  have hsize : n'.size = n.size := by
    simpa using congrArg Node.size hn
  have hfresh : a.pool.acquire.1 = {} := hclean.acquire.1
  have hfresh' : a.content.pool.acquire.1 = {} := rfl
  have hancestors : a.content.ancestors = a.ancestors.map Node.content := rfl
  rw [content_eq_iff]
  cases f with
  | discard => simp [Fate.content, carryOut, content, Pool.cleanInPlace, hsize]
  | leave =>
    cases h : a.ancestors <;>
      simp [Fate.content, carryOut, hancestors, h, hfresh, hfresh', hsize] <;> simp [content]
  | reject =>
    cases h : a.ancestors <;>
      simp [Fate.content, carryOut, hancestors, h, hsize] <;> simp [content, h]
  | attach =>
    cases h : a.ancestors <;>
      simp [Fate.content, carryOut, hancestors, h, hn] <;> simp [content, h]
  | elide child =>
    cases h : a.ancestors <;>
      simp [Fate.content, carryOut, hancestors, h, promote_content held held' hn] <;>
      simp [content, h]

section Settled

variable {env env' : Surroundings} (henv : env'.thresholds = env.thresholds)
include henv

theorem settle_content (n : Node) (outer : List Node) :
    let s := settle env n outer
    let s' := settle env' n.content (outer.map Node.content)
    s'.node.content = s.node.content ∧ s'.ancestors = s.ancestors.map Node.content ∧
      s'.verdict.content = s.verdict.content ∧ s'.notices = s.notices := by
  simp only [settle, Node.content_frame, henv]
  cases n.frame.marker with
  | none => simp
  | some marker =>
    dsimp only
    split
    case isTrue =>
      refine ⟨?_, getD_updateMarker_content _ _ outer, ?_, rfl⟩
      · cases n
        simp [Node.mapFrame]
      · cases n
        simp [Node.mapFrame, Verdict.content]
    case isFalse => exact ⟨by simp, getD_updateMarker_content _ _ outer, rfl, rfl⟩

theorem isSubmitted_content (n : Node) (outer : List Node) :
    (settle env' n.content (outer.map Node.content)).isSubmitted =
      (settle env n outer).isSubmitted := by
  have hverdict := (settle_content henv n outer).2.2.1
  unfold Settled.isSubmitted
  generalize (settle env' n.content (outer.map Node.content)).verdict = v at hverdict
  generalize (settle env n outer).verdict = w at hverdict
  cases v <;> cases w <;> simp [Verdict.content] at hverdict ⊢

theorem fateOf_content (n : Node) (outer : List Node) :
    fateOf env' n.content (outer.map Node.content) = (fateOf env n outer).content := by
  unfold fateOf traceFlags
  rw [isSubmitted_content henv, henv, fate_content, map_content_any_isTraceRoot, ← List.map_cons,
    map_content_nearest]

theorem around_content (n : Node) (outer : List Node) :
    around env' n.content (outer.map Node.content) = (around env n outer).map Node.content := by
  unfold around
  rw [(settle_content henv n outer).2.1, map_content_any_isTraceRoot, Node.content_frame]
  split
  · exact getD_updateMarker_content _ _ _
  · rfl

theorem compact_content {a : Assembler} (hclean : a.pool.Clean) :
    contents (compact env' a.content) = contents (compact env a) := by
  have hn : dedupError a.content.top = (dedupError a.top).content := dedupError_content a.top
  have hancestors : a.content.ancestors = a.ancestors.map Node.content := rfl
  obtain ⟨hnode, -, hverdict, hnotices⟩ := settle_content henv (dedupError a.top) a.ancestors
  refine Prod.ext ?_ ?_
  · rw [contents, contents, compact_eq, compact_eq, hn, hancestors]
    simp only [map_content_any_isTraceRoot, Node.content_frame, fateOf_content henv,
      around_content henv]
    rw [rollUp_content]
    have hcarry := carryOut_content env.held env'.held
      (a := { a with
        top := dedupError a.top
        ancestors := (around env (dedupError a.top) a.ancestors).modifyHead
          (rollUp (dedupError a.top).frame) })
      hclean hnode (fateOf env (dedupError a.top) a.ancestors)
    split
    · exact hcarry
    · exact congrArg (fun a => { a with nodeCount := 0 }) hcarry
  · have houtcome (env : Surroundings) (a : Assembler) : (contents (compact env a)).2 =
        ⟨(settle env (dedupError a.top) a.ancestors).notices,
          (settle env (dedupError a.top) a.ancestors).verdict.content⟩ := rfl
    rw [houtcome, houtcome, hn, hancestors, hverdict, hnotices]

end Settled

/-! ### Two runs side by side -/

def answer (refuse : Rejection → Notice) (a : Assembler) :
    Except Rejection (Assembler × Outcome) → Assembler × Outcome
  | .ok r => r
  | .error why => (a, { notices := [refuse why] })

theorem handle_exit (env : Surroundings) {a : Assembler} (h : a.Sound) (time : Nat) :
    a.handle env (.exit time) = answer (.returnIgnored time) a (a.close env time none) := by
  rw [handle]
  cases hclose : a.close env time none with
  | ok => rfl
  | error => rw [resynced_of_no_calls env.held (no_calls_of_error h hclose), answer]

theorem handle_fail (env : Surroundings) {a : Assembler} (h : a.Sound) (error : ErrorChain)
    (time : Nat) : a.handle env (.fail error time) =
      answer (.errorIgnored time) a (a.close env time (some error)) := by
  rw [handle]
  cases hclose : a.close env time (some error) with
  | ok => rfl
  | error => rw [resynced_of_no_calls env.held (no_calls_of_error h hclose), answer]

section Same

variable {a b : Assembler} (h : a.content = b.content)
include h

theorem answer_same {x y : Except Rejection (Assembler × Outcome)}
    (hxy : x.map contents = y.map contents) (refuse : Rejection → Notice) :
    contents (answer refuse a x) = contents (answer refuse b y) := by
  cases x with
  | ok r =>
    cases y with
    | ok r' => exact Except.ok.inj hxy
    | error => cases hxy
  | error why =>
    cases y with
    | ok => cases hxy
    | error why' =>
      obtain rfl := Except.error.inj hxy
      exact Prod.ext h rfl

theorem getD_same {x y : Option Assembler} (hxy : x.map content = y.map content) :
    (x.getD a).content = (y.getD b).content := by
  rw [← Option.getD_map content, ← Option.getD_map content, hxy, h]

variable {env env' : Surroundings} (henv : env'.thresholds = env.thresholds)
include henv

theorem compact_same (ha : a.pool.Clean) (hb : b.pool.Clean) :
    contents (compact env a) = contents (compact env' b) := by
  have hcompact : contents (compact env a.content) = contents (compact env a) :=
    compact_content rfl ha
  have hcompact' : contents (compact env b.content) = contents (compact env' b) :=
    compact_content henv.symm hb
  rw [← hcompact, ← hcompact', h]

theorem close_same (ha : a.Sound) (hb : b.Sound) (time : Nat) (error : Option ErrorChain) :
    (a.close env time error).map contents = (b.close env' time error).map contents := by
  have hopen : a.openCalls.map Node.content = b.openCalls.map Node.content := by
    rw [← content_openCalls, ← content_openCalls, h]
  obtain ⟨-, -, hcount, henabled⟩ := content_eq_iff.mp h
  cases hcalls : a.openCalls with
  | nil =>
    rw [hcalls, List.map_nil] at hopen
    rw [close_of_no_calls env time error hcalls,
      close_of_no_calls env' time error (List.map_eq_nil_iff.mp hopen.symm)]
  | cons n outer =>
    rw [hcalls, List.map_cons] at hopen
    obtain ⟨n', outer', hcalls', hn, houter⟩ := List.map_eq_cons_iff.mp hopen.symm
    have hended : (ended time error n).content = (ended time error n').content := by
      rw [← ended_content, ← ended_content, hn]
    have hsame : (a.closingAs env.held (ended time error n) outer).content =
        (b.closingAs env'.held (ended time error n') outer').content :=
      content_eq_iff.mpr ⟨hended, houter.symm, hcount, henabled⟩
    have hframe : (ended time error n).frame = (ended time error n').frame := by
      simpa using congrArg Node.frame hended
    have htraces := congrArg tracesCalls hsame
    rw [content_tracesCalls, content_tracesCalls] at htraces
    obtain ⟨hstate, houtcome⟩ := Prod.mk.inj
      (compact_same hsame henv (ha.closingAs _ _ _) (hb.closingAs _ _ _))
    obtain ⟨hnotices, hverdict⟩ := Outcome.content_eq_iff.mp houtcome
    rw [close_eq env time error ha hcalls, close_eq env' time error hb hcalls']
    simp only [Except.map, contents, Outcome.content, hframe, htraces, hstate, hnotices, hverdict]

theorem enter_same (ha : a.Sound) (hb : b.Sound) (classId methodId signatureId : SymbolId)
    (time : Nat) :
    contents (a.enter env.thresholds classId methodId signatureId time) =
      contents (b.enter env'.thresholds classId methodId signatureId time) := by
  obtain ⟨-, -, hcount, henabled⟩ := content_eq_iff.mp h
  have hawaited := congrArg awaited h
  have hopen := congrArg openCalls h
  rw [content_awaited, content_awaited] at hawaited
  rw [content_openCalls, content_openCalls] at hopen
  have hentered := enter_entered ha env.thresholds classId methodId signatureId time
  have hentered' := enter_entered hb env'.thresholds classId methodId signatureId time
  have hcounts : a.counts = b.counts := by rw [counts, counts, hcount, hawaited]
  have harrival : a.arrival env.thresholds classId methodId signatureId time =
      b.arrival env'.thresholds classId methodId signatureId time := by
    rw [arrival, arrival, hcounts, hawaited, hcount, henv]
  have hstate : (a.enter env.thresholds classId methodId signatureId time).1.content =
      (b.enter env'.thresholds classId methodId signatureId time).1.content := by
    have hslots := hentered.openCalls
    have hslots' := hentered'.openCalls
    rw [openCalls_of_busy hentered.busy] at hslots
    rw [openCalls_of_busy hentered'.busy] at hslots'
    obtain ⟨htop, hancestors⟩ := List.cons.inj hslots
    obtain ⟨htop', hancestors'⟩ := List.cons.inj hslots'
    rw [content_eq_iff, htop, htop', hancestors, hancestors', hentered.nodeCount,
      hentered'.nodeCount, hentered.enabled, hentered'.enabled, harrival, hopen, hcount, hcounts]
    exact ⟨rfl, rfl, rfl, henabled⟩
  -- The notice of an entry is read off the state after it.
  have hnotices (t : Thresholds) (a : Assembler) :
      (a.enter t classId methodId signatureId time).2 = {
        notices :=
          if (a.enter t classId methodId signatureId time).1.content.tracesCalls then
            [.entered classId methodId
              (a.enter t classId methodId signatureId time).1.content.ancestors.length time]
          else [] } := by
    rw [content_tracesCalls, content, List.length_map]
    rfl
  rw [contents, contents, hnotices, hnotices, hstate]

theorem openTrace_same (traceId : SymbolId) (clock : Nat) (flags : MarkerFlags) :
    ((a.openTrace env.thresholds traceId clock flags).map (·, ({} : Outcome))).map contents =
      ((b.openTrace env'.thresholds traceId clock flags).map (·, ({} : Outcome))).map contents := by
  have hmap (x : Except Rejection Assembler) :
      (x.map (·, ({} : Outcome))).map contents = (x.map content).map (·, {}) := by
    cases x <;> rfl
  rw [hmap, hmap, ← openTrace_content, ← openTrace_content, h, henv]

/-- A step does the same to equal contents, and tells the same. -/
theorem step_same (ha : a.Sound) (hb : b.Sound) (e : Event) :
    contents (a.step env e) = contents (b.step env' e) := by
  obtain ⟨htop, hancestors, hcount, henabled⟩ := content_eq_iff.mp h
  have hswitch (on : Bool) : { a with enabled := on }.content = { b with enabled := on }.content :=
    content_eq_iff.mpr ⟨htop, hancestors, hcount, rfl⟩
  have hmarker (p : Marker → Bool) (g : Marker → Marker) :
      (a.mapMarker p g).content = (b.mapMarker p g).content := by
    rw [← mapMarker_content, ← mapMarker_content, h]
  have hupdate (p : Frame → Bool) (g : Frame → Frame) :
      (a.updateFrame p g).map content = (b.updateFrame p g).map content := by
    rw [← updateFrame_content, ← updateFrame_content, h]
  unfold step
  rw [← henabled]
  split
  case isFalse =>
    cases e with
    | enable => exact Prod.ext (hswitch true) rfl
    | _ => exact Prod.ext h rfl
  case isTrue =>
    cases e with
    | enter classId methodId signatureId time =>
      exact enter_same h henv ha hb classId methodId signatureId time
    | exit time =>
      rw [handle_exit env ha, handle_exit env' hb]
      exact answer_same h (close_same h henv ha hb time none) (.returnIgnored time)
    | fail error time =>
      rw [handle_fail env ha, handle_fail env' hb]
      exact answer_same h (close_same h henv ha hb time (some error)) (.errorIgnored time)
    | begin traceId clock flags =>
      have hframe : a.top.frame = b.top.frame := by
        simpa using congrArg Node.frame htop
      have hbegin (env : Surroundings) (a : Assembler) : handle env a (.begin traceId clock flags) =
          answer (.beginIgnored traceId a.top.frame.classId a.top.frame.methodId) a
            ((a.openTrace env.thresholds traceId clock flags).map (·, {})) := by
        rw [handle]
        cases a.openTrace env.thresholds traceId clock flags <;> rfl
      rw [hbegin, hbegin, hframe]
      exact answer_same h (openTrace_same h henv traceId clock flags) _
    | attr target id value =>
      have hframe := hupdate target.isMet (·.setAttr id value)
      rw [handle, handle]
      cases hx : a.updateFrame target.isMet (·.setAttr id value) with
      | none =>
        rw [hx] at hframe
        rw [Option.map_eq_none_iff.mp hframe.symm]
        exact Prod.ext h rfl
      | some a' =>
        rw [hx] at hframe
        obtain ⟨b', hy, hsame⟩ := Option.map_eq_some_iff.mp hframe.symm
        rw [hy]
        exact Prod.ext hsame.symm rfl
    | minimumTime nanos => exact Prod.ext (hmarker _ _) rfl
    | markTrace traceId flags => exact Prod.ext (hmarker _ _) rfl
    | markFrame flags => exact Prod.ext (getD_same h (hupdate _ _)) rfl
    | correlate context => exact Prod.ext (hmarker _ _) rfl
    | disable => exact Prod.ext (hswitch false) rfl
    | enable => exact Prod.ext h rfl

end Same

end Assembler

end CallTree
