import CallTree.Node.Json
import CallTree.Proofs.ReadBack
import CallTree.Proofs.Traversal

/-!
A tree is read back from its JSON, as long as its numbers have the widths of the format and its
floats are finite: every flag, error, attribute, marker and child is found again. The handles of
shared trees and of errors are not part of the JSON.
-/
namespace CallTree

open Json (ReadsAs present unlessEmpty)

/-! ### Errors -/

structure StackLine.Fits (s : StackLine) : Prop where
  classId : s.classId < 2 ^ 32
  methodId : s.methodId < 2 ^ 32
  fileId : s.fileId < 2 ^ 32
  line : s.line < 2 ^ 32

def StackLine.entries (s : StackLine) : List (String × Option Json) :=
  [("class_id", some (.nat s.classId)), ("method_id", some (.nat s.methodId)),
    ("file_id", some (.nat s.fileId)), ("line", some (.nat s.line))]

theorem StackLine.readsAs {s : StackLine} (h : s.Fits) : ReadsAs ofJson? s.toJson s := by
  intro room hroom
  have hjson : s.toJson = .object (present s.entries) := rfl
  have hrecord : s.toJson.record? ["class_id", "method_id", "file_id", "line"] =
      some (s.entries.map (·.2)) := by
    rw [hjson]
    exact Json.record?_present (by simp [entries])
  obtain ⟨inside, rfl, -⟩ := Json.room_of_record (hjson ▸ hroom)
  simp only [ofJson?, hrecord, entries, List.map_cons, List.map_nil]
  rw [Json.required_eq (Json.word32?_nat h.classId), Json.required_eq (Json.word32?_nat h.methodId),
    Json.required_eq (Json.word32?_nat h.fileId), Json.required_eq (Json.word32?_nat h.line)]
  rfl

structure ErrorRecord.Fits (e : ErrorRecord) : Prop where
  classId : e.classId < 2 ^ 32
  stack : ∀ s ∈ e.stack, s.Fits

structure ErrorChain.Fits (e : ErrorChain) : Prop where
  error : e.error.Fits
  causes : ∀ c ∈ e.causes, c.Fits

def ErrorRecord.anonymous (e : ErrorRecord) : ErrorRecord := { e with handle := 0 }

/-- What an error and its causes say, whoever refers to them. -/
def ErrorChain.anonymous (e : ErrorChain) : ErrorChain :=
  ⟨e.error.anonymous, e.causes.map (·.anonymous)⟩

def ErrorRecord.entries (e : ErrorRecord) (cause : Option Json) : List (String × Option Json) :=
  [("class_id", some (.nat e.classId)), ("message", some (.text e.message)),
    ("stack", unlessEmpty (·.toJson) e.stack), ("cause", cause)]

theorem ErrorRecord.toJson_eq (e : ErrorRecord) (cause : Option Json) :
    e.toJson cause = .object (present (e.entries cause)) := by
  unfold toJson entries unlessEmpty
  cases e.stack <;> cases cause <;> rfl

def ErrorChain.cause? (e : ErrorChain) : Option ErrorChain :=
  match e.causes with
  | [] => none
  | c :: cs => some ⟨c, cs⟩

theorem ErrorChain.toJson_eq (e : ErrorChain) :
    e.toJson = .object (present (e.error.entries (e.cause?.map toJson))) := by
  obtain ⟨error, causes⟩ := e
  cases causes <;> exact error.toJson_eq _

theorem ErrorChain.readsAs_of_cause {e : ErrorChain} (h : e.Fits)
    (hcause : ∀ c ∈ e.cause?, ReadsAs ofJson? c.toJson c.anonymous) :
    ReadsAs ofJson? e.toJson e.anonymous := by
  intro room hroom
  have hrecord : e.toJson.record? ["class_id", "message", "stack", "cause"] =
      some ((e.error.entries (e.cause?.map toJson)).map (·.2)) := by
    rw [toJson_eq]
    exact Json.record?_present (by simp [ErrorRecord.entries])
  obtain ⟨inside, rfl, hinside⟩ := Json.room_of_record (toJson_eq e ▸ hroom)
  have hstack : Json.orElse [] (·.array? inside StackLine.ofJson?)
      (unlessEmpty (·.toJson) e.error.stack) = some (e.error.stack.map id) :=
    Json.orElse_unlessEmpty (fun s hs => StackLine.readsAs (h.error.stack s hs)) fun j hj =>
      hinside "stack" j (by simp [ErrorRecord.entries, Option.mem_def.mp hj])
  have hcause' : Json.optional (ofJson? inside) (e.cause?.map toJson) =
      some (e.cause?.map anonymous) := by
    refine Json.optional_map (fun c => by simp [toJson_eq]) fun c hc => hcause c hc inside ?_
    exact hinside "cause" _ (by simp [ErrorRecord.entries, Option.mem_def.mp hc])
  have hchain : ofCause e.error.anonymous (e.cause?.map anonymous) = e.anonymous := by
    obtain ⟨error, causes⟩ := e
    cases causes <;> rfl
  simp only [ofJson?, hrecord, ErrorRecord.entries, List.map_cons, List.map_nil]
  rw [List.map_id] at hstack
  rw [Json.required_eq (Json.word32?_nat h.error.classId),
    Json.required_eq (a := e.error.message) rfl, hstack, hcause', ← hchain]
  rfl

theorem ErrorChain.readsAs {e : ErrorChain} (h : e.Fits) :
    ReadsAs ofJson? e.toJson e.anonymous := by
  obtain ⟨error, causes⟩ := e
  induction causes generalizing error with
  | nil => exact readsAs_of_cause h fun c hc => by cases hc
  | cons c causes ih =>
    refine readsAs_of_cause h fun d hd => ?_
    obtain rfl : ⟨c, causes⟩ = d := Option.some.inj hd
    exact ih c ⟨h.causes c List.mem_cons_self, fun d hd => h.causes d (List.mem_cons_of_mem _ hd)⟩

/-! ### Markers -/

namespace TraceContext

theorem readsAs_bytes {width n : Nat} (h : n < 256 ^ width) :
    ReadsAs (bytes? · width) (bytes width n) n := by
  intro room hroom
  have hitems : ∀ d ∈ Digits.fixed 256 width n,
      ReadsAs (fun _ item => item.nat? 256) (.nat d) (id d) := fun d hd _ _ =>
    Json.nat?_nat (Digits.fixed_lt (by decide) width n d hd)
  have harray : (Json.array ((Digits.fixed 256 width n).map Json.nat)).array? room
      (fun _ item => item.nat? 256) = some ((Digits.fixed 256 width n).map id) :=
    Json.readsAs_array hitems room hroom
  rw [List.map_id] at harray
  have hvalue : Digits.ofDigits 256 (Digits.fixed 256 width n) = n := by
    rw [Digits.ofDigits_fixed]
    exact Nat.mod_eq_of_lt h
  simp only [bytes?, bytes]
  rw [harray, Option.bind_eq_bind, Option.bind_some, if_pos (Digits.length_fixed 256 width n),
    hvalue]

def entries (c : TraceContext) : List (String × Option Json) :=
  [("trace_id", some (bytes 16 c.traceId.toNat)), ("span_id", some (bytes 8 c.spanId.toNat)),
    ("parent_span_id", c.parentSpan.map fun span => bytes 8 span.toNat),
    ("trace_flags", some (.nat c.flags.toNat))]

theorem toJson_eq (c : TraceContext) : c.toJson = .object (present c.entries) := by
  unfold toJson entries
  cases c.parentSpan <;> rfl

theorem readsAs (c : TraceContext) : ReadsAs ofJson? c.toJson c := by
  intro room hroom
  have hrecord : c.toJson.record? ["trace_id", "span_id", "parent_span_id", "trace_flags"] =
      some (c.entries.map (·.2)) := by
    rw [toJson_eq]
    exact Json.record?_present (by simp [entries])
  obtain ⟨inside, rfl, hinside⟩ := Json.room_of_record (toJson_eq c ▸ hroom)
  have htrace : bytes? inside 16 (bytes 16 c.traceId.toNat) = some c.traceId.toNat :=
    readsAs_bytes c.traceId.isLt inside (hinside "trace_id" _ (by simp [entries]))
  have hspan : bytes? inside 8 (bytes 8 c.spanId.toNat) = some c.spanId.toNat :=
    readsAs_bytes c.spanId.isLt inside (hinside "span_id" _ (by simp [entries]))
  have hparent : Json.optional (bytes? inside 8) (c.parentSpan.map fun span => bytes 8 span.toNat) =
      some (c.parentSpan.map (·.toNat)) :=
    Json.optional_map (fun span => by simp [bytes]) fun span hmem =>
      readsAs_bytes span.isLt inside
        (hinside "parent_span_id" _ (by simp [entries, Option.mem_def.mp hmem]))
  have hflags : (Json.nat c.flags.toNat).nat? 256 = some c.flags.toNat :=
    Json.nat?_nat c.flags.isLt
  simp only [ofJson?, hrecord, entries, List.map_cons, List.map_nil]
  rw [Json.required_eq htrace, Json.required_eq hspan, hparent, Json.required_eq hflags]
  simp [Function.comp_def]

end TraceContext

namespace Marker

structure Fits (m : Marker) : Prop where
  traceId : m.traceId < 2 ^ 32
  clock : m.clock < 2 ^ 64
  minimumTime : m.minimumTime < 2 ^ 64

theorem flags?_toText {α : Type} [Flag α] [Flag.Legible α] (s : FlagSet α) :
    flags? (.text s.toText) = some s := by
  rw [flags?, Json.text?, Option.bind_some, FlagSet.ofText?_toText]

def entries (m : Marker) : List (String × Option Json) :=
  [("trace_id", some (.nat m.traceId)), ("clock", some (.nat m.clock)),
    ("minimum_time", some (.nat m.minimumTime)), ("flags", some (.text m.flags.toText)),
    ("dtrace", m.context.map (·.toJson))]

theorem toJson_eq (m : Marker) : m.toJson = .object (present m.entries) := by
  unfold toJson entries
  cases m.context <;> rfl

theorem readsAs {m : Marker} (h : m.Fits) : ReadsAs ofJson? m.toJson m := by
  intro room hroom
  have hrecord : m.toJson.record? ["trace_id", "clock", "minimum_time", "flags", "dtrace"] =
      some (m.entries.map (·.2)) := by
    rw [toJson_eq]
    exact Json.record?_present (by simp [entries])
  obtain ⟨inside, rfl, hinside⟩ := Json.room_of_record (toJson_eq m ▸ hroom)
  have hcontext : Json.optional (TraceContext.ofJson? inside) (m.context.map (·.toJson)) =
      some (m.context.map id) :=
    Json.optional_map (fun c => by simp [TraceContext.toJson_eq]) fun c hc =>
      c.readsAs inside (hinside "dtrace" _ (by simp [entries, Option.mem_def.mp hc]))
  rw [Option.map_id] at hcontext
  simp only [ofJson?, hrecord, entries, List.map_cons, List.map_nil]
  rw [Json.required_eq (Json.word32?_nat h.traceId), Json.required_eq (Json.word64?_nat h.clock),
    Json.required_eq (Json.word64?_nat h.minimumTime), Json.required_eq (flags?_toText m.flags),
    hcontext]
  rfl

end Marker

/-! ### Attributes -/

/-- An integer has 64 bits with sign, and a float is finite. -/
def AttrValue.Fits : AttrValue → Prop
  | .int n => -(Nat.pow 2 63) ≤ n ∧ n < Nat.pow 2 63
  | .float x => x.isFinite
  | .bool _ | .text _ => True

theorem AttrValue.ofJson?_toJson {v : AttrValue} (h : v.Fits) : ofJson? v.toJson = some v := by
  cases v with
  | bool b => rfl
  | int n => exact if_pos h
  | float x =>
    have hx : x.isFinite := h
    rw [toJson, if_pos hx]
    rfl
  | text s => rfl

theorem Attributes.readsAs_entry {a : SymbolId × AttrValue} (hid : a.1 < 2 ^ 32) (h : a.2.Fits) :
    ReadsAs entry? (.array [.nat a.1, a.2.toJson]) a := by
  intro room hroom
  cases room with
  | zero => simp [Json.depth] at hroom
  | succ room =>
    simp only [ entry?, Json.word32?_nat hid, AttrValue.ofJson?_toJson h]
    rfl

/-! ### Nodes -/

structure Frame.Fits (f : Frame) : Prop where
  classId : f.classId < 2 ^ 32
  methodId : f.methodId < 2 ^ 32
  signatureId : f.signatureId < 2 ^ 32
  startTime : ∀ t ∈ f.startTime, t < 2 ^ 64
  duration : f.duration < 2 ^ 64
  calls : f.calls < 2 ^ 64
  errors : f.errors < 2 ^ 64
  error : ∀ e ∈ f.error, e.Fits
  attributes : ∀ a ∈ f.attributes, a.1 < 2 ^ 32 ∧ a.2.Fits
  marker : ∀ m ∈ f.marker, m.Fits

def Frame.anonymous (f : Frame) : Frame := { f with error := f.error.map (·.anonymous) }

namespace Node

mutual

/-- What a tree says, whoever refers to its parts and errors. -/
def anonymous : Node → Node
  | ⟨_, frame, children⟩ => ⟨none, frame.anonymous, anonymousAll children⟩

def anonymousAll : List Node → List Node
  | [] => []
  | n :: ns => n.anonymous :: anonymousAll ns

end

theorem anonymousAll_eq (ns : List Node) : anonymousAll ns = ns.map anonymous := by
  induction ns with
  | nil => rfl
  | cons n ns ih => rw [anonymousAll, ih, List.map_cons]

theorem anonymous_eq (n : Node) :
    n.anonymous = ⟨none, n.frame.anonymous, n.children.map anonymous⟩ := by
  cases n
  rw [anonymous, anonymousAll_eq]

theorem toJsons_eq (ns : List Node) : toJsons ns = ns.map toJson := by
  induction ns with
  | nil => rfl
  | cons n ns ih => rw [toJsons, ih, List.map_cons]

def entries (n : Node) : List (String × Option Json) :=
  [("class_id", some (.nat n.frame.classId)), ("method_id", some (.nat n.frame.methodId)),
    ("signature_id", some (.nat n.frame.signatureId)),
    ("start_time", some ((n.frame.startTime.map Json.nat).getD .null)),
    ("duration", some (.nat n.frame.duration)), ("calls", some (.nat n.frame.calls)),
    ("errors", some (.nat n.frame.errors)), ("flags", some (.text n.frame.flags.toText)),
    ("exception", n.frame.error.map (·.toJson)),
    ("attributes", unlessEmpty (fun a => .array [.nat a.1, a.2.toJson]) n.frame.attributes),
    ("children", unlessEmpty toJson n.children), ("marker", n.frame.marker.map (·.toJson))]

theorem toJson_eq (n : Node) : n.toJson = .object (present n.entries) := by
  obtain ⟨handle, frame, children⟩ := n
  rw [toJson, toJsons_eq]
  unfold Frame.fieldsBefore Frame.fieldsAfter Attributes.toJson entries unlessEmpty
  cases frame.error <;> cases frame.attributes <;> cases children <;> cases frame.marker <;> rfl

theorem ofFields?_entries {n : Node} (h : n.frame.Fits) {room : Nat}
    (hroom : ∀ key j, (key, some j) ∈ n.entries → j.depth ≤ room)
    {children? : Json → Option (List Node)}
    (hchildren : Json.orElse [] children? (unlessEmpty toJson n.children) =
      some (n.children.map anonymous)) :
    ofFields? room children? (n.entries.map (·.2)) = some n.anonymous := by
  have hstart : Json.optional Json.word64?
      (some ((n.frame.startTime.map Json.nat).getD .null)) = some (n.frame.startTime.map id) :=
    Json.optional_getD (fun t => by simp [Json.nat]) fun t ht =>
      Json.word64?_nat (h.startTime t ht)
  have herror : Json.optional (ErrorChain.ofJson? room) (n.frame.error.map (·.toJson)) =
      some (n.frame.error.map (·.anonymous)) :=
    Json.optional_map (fun e => by simp [ErrorChain.toJson_eq]) fun e he =>
      ErrorChain.readsAs (h.error e he) room
        (hroom "exception" _ (by simp [entries, Option.mem_def.mp he]))
  have hattributes : Json.orElse [] (·.array? room Attributes.entry?)
      (unlessEmpty (fun a => .array [.nat a.1, a.2.toJson]) n.frame.attributes) =
        some (n.frame.attributes.map id) :=
    Json.orElse_unlessEmpty
      (fun a ha => Attributes.readsAs_entry (h.attributes a ha).1 (h.attributes a ha).2) fun j hj =>
        hroom "attributes" j (by simp [entries, Option.mem_def.mp hj])
  have hmarker : Json.optional (Marker.ofJson? room) (n.frame.marker.map (·.toJson)) =
      some (n.frame.marker.map id) :=
    Json.optional_map (fun m => by simp [Marker.toJson_eq]) fun m hm =>
      Marker.readsAs (h.marker m hm) room
        (hroom "marker" _ (by simp [entries, Option.mem_def.mp hm]))
  rw [Option.map_id] at hstart hmarker
  rw [List.map_id] at hattributes
  simp only [ofFields?, entries, List.map_cons, List.map_nil]
  rw [Json.required_eq (Json.word32?_nat h.classId), Json.required_eq (Json.word32?_nat h.methodId),
    Json.required_eq (Json.word32?_nat h.signatureId), hstart,
    Json.required_eq (Json.word64?_nat h.duration), Json.required_eq (Json.word64?_nat h.calls),
    Json.required_eq (Json.word64?_nat h.errors),
    Json.required_eq (Marker.flags?_toText n.frame.flags), herror, hattributes, hchildren, hmarker,
    anonymous_eq]
  rfl

theorem readsAs_of_children {n : Node} (h : n.frame.Fits)
    (hchildren : ∀ child ∈ n.children, ReadsAs ofJson? child.toJson child.anonymous) :
    ReadsAs ofJson? n.toJson n.anonymous := by
  intro room hroom
  have hrecord : n.toJson.record? keys = some (n.entries.map (·.2)) := by
    rw [toJson_eq]
    exact Json.record?_present (by simp [entries])
  obtain ⟨inside, rfl, hinside⟩ := Json.room_of_record (toJson_eq n ▸ hroom)
  have harray : n.children ≠ [] →
      (Json.array (n.children.map toJson)).depth ≤ inside := fun hne =>
    hinside "children" _ (by simp [entries, unlessEmpty, hne])
  cases inside with
  | zero =>
    have hnone : n.children = [] := by
      by_contra hne
      simpa [Json.depth] using harray hne
    rw [ofJson?, hrecord, Option.bind_some]
    exact ofFields?_entries h hinside (by simp [hnone, unlessEmpty, Json.orElse])
  | succ room =>
    have hitems : ∀ child ∈ n.children, ofJson? room child.toJson = some child.anonymous := by
      intro child hchild
      have hdepth := harray (List.ne_nil_of_mem hchild)
      have hitem := Json.depth_le_of_item (List.mem_map_of_mem (f := toJson) hchild)
      rw [Json.depth] at hdepth
      exact hchildren child hchild room (by omega)
    rw [ofJson?, hrecord, Option.bind_some]
    refine ofFields?_entries h hinside ?_
    unfold unlessEmpty
    split
    case isTrue hempty => rw [List.isEmpty_iff.mp hempty]; rfl
    case isFalse => exact mapM_map hitems

mutual

theorem readsAs : (n : Node) → n.Everywhere Frame.Fits → ReadsAs ofJson? n.toJson n.anonymous
  | ⟨_, _, children⟩, h =>
    have ⟨hframe, hchildren⟩ := everywhere_iff.mp h
    readsAs_of_children hframe (readsAs_all children hchildren)

theorem readsAs_all : (ns : List Node) → (∀ n ∈ ns, n.Everywhere Frame.Fits) →
    ∀ n ∈ ns, ReadsAs ofJson? n.toJson n.anonymous
  | [], _ => by simp
  | n :: ns, h =>
    have ⟨hn, hns⟩ := List.forall_mem_cons.mp h
    List.forall_mem_cons.mpr ⟨readsAs n hn, readsAs_all ns hns⟩

end

end Node

/-- A tree whose numbers have the widths of the format, and whose floats are finite, is read back
from its JSON as it is, but for the handles, by every reader with room for it. The JSON leaves out
what a node does not have. -/
theorem tree_read_as_written {n : Node} (h : n.Everywhere Frame.Fits) :
    (∀ room, n.toJson.depth ≤ room → Node.ofJson? room n.toJson = some n.anonymous) ∧
      ∃ fields, n.toJson = .object fields ∧
        ("exception" ∈ fields.map (·.1) ↔ n.frame.error ≠ none) ∧
        ("attributes" ∈ fields.map (·.1) ↔ n.frame.attributes ≠ []) ∧
        ("children" ∈ fields.map (·.1) ↔ n.children ≠ []) ∧
        ("marker" ∈ fields.map (·.1) ↔ n.frame.marker ≠ none) := by
  refine ⟨Node.readsAs n h, present n.entries, Node.toJson_eq n, ?_, ?_, ?_, ?_⟩ <;>
    rw [Json.mem_keys_present]
  · cases herror : n.frame.error <;> simp [Node.entries, herror]
  · simp [Node.entries, unlessEmpty]
  · simp [Node.entries, unlessEmpty]
  · cases hmarker : n.frame.marker <;> simp [Node.entries, hmarker]

/-- A trace that is still open, with all that can be recorded, and a failed call in it. -/
def crowdedTree : Node :=
  { handle := some 5
    frame :=
      { classId := 2 ^ 32 - 1, methodId := 2, startTime := some 0, duration := 2 ^ 64 - 1
        calls := 2
        flags := ⟨0xFFFFFFFF⟩
        attributes := [(1, .int (-(Nat.pow 2 63))), (1, .bool true), (3, .text "1"),
          (4, .float ⟨0x3FF0000000000000⟩), (5, .float ⟨0x8000000000000000⟩)]
        marker := some
          { traceId := 7, clock := 2 ^ 64 - 1, minimumTime := 0, flags := ⟨0x9000⟩
            context := some ((TraceContext.root 0xFF 1).child 2) } }
    children := [
      { frame :=
          { calls := 1, errors := 1, flags := .single .forced
            error := some ⟨⟨3, 9, "|", [⟨1, 2, 3, 4⟩]⟩, [⟨1, 8, "", []⟩]⟩ } }] }

theorem tree_read_as_written_of_crowdedTree :
    crowdedTree.Everywhere Frame.Fits ∧ crowdedTree.toJson.depth = 6 ∧
      Node.ofJson? 6 crowdedTree.toJson = some
        { crowdedTree with
          handle := none
          children := [
            { frame :=
                { calls := 1, errors := 1, flags := .single .forced
                  error := some ⟨⟨0, 9, "|", [⟨1, 2, 3, 4⟩]⟩, [⟨0, 8, "", []⟩]⟩ } }] } := by
  have hroot : crowdedTree.frame.Fits :=
    { classId := by decide, methodId := by decide, signatureId := by decide
      startTime := by rintro _ ⟨⟩; decide
      duration := by decide, calls := by decide, errors := by decide
      error := by rintro _ ⟨⟩
      attributes := by
        intro a ha
        simp only [crowdedTree, List.mem_cons, List.not_mem_nil, or_false] at ha
        rcases ha with rfl | rfl | rfl | rfl | rfl <;> simp [AttrValue.Fits] <;> decide
      marker := by rintro _ ⟨⟩; exact ⟨by decide, by decide, by decide⟩ }
  have hcall : ∀ child ∈ crowdedTree.children, child.Everywhere Frame.Fits := by
    refine List.forall_mem_singleton.mpr (Node.everywhere_iff.mpr ⟨?_, by simp⟩)
    exact
      { classId := by decide, methodId := by decide, signatureId := by decide
        startTime := by rintro _ ⟨⟩
        duration := by decide, calls := by decide, errors := by decide
        error := by
          rintro _ ⟨⟩
          have hline : (⟨1, 2, 3, 4⟩ : StackLine).Fits :=
            ⟨by decide, by decide, by decide, by decide⟩
          exact ⟨⟨by decide, by simpa using hline⟩, by simpa using ⟨by decide, by simp⟩⟩
        attributes := by simp
        marker := by rintro _ ⟨⟩ }
  have h : crowdedTree.Everywhere Frame.Fits := Node.everywhere_iff.mpr ⟨hroot, hcall⟩
  have hdepth : crowdedTree.toJson.depth = 6 := by decide +kernel
  refine ⟨h, hdepth, ?_⟩
  rw [(tree_read_as_written h).1 6 (Nat.le_of_eq hdepth)]
  rfl

end CallTree
