import CallTree.Node.Render
import CallTree.Proofs.FlagWords
import CallTree.Proofs.Traversal

/-!
A rendered tree has one line for each node, parents first, and the blanks in front of a line tell
how deep its node is. So the branching of the tree can be read back from the text.
-/
namespace CallTree

/-! ### Branching read from depths -/

inductive Shape where
  | node (children : List Shape)

mutual

def Node.shape : Node → Shape
  | ⟨_, _, children⟩ => .node (Node.shapes children)

def Node.shapes : List Node → List Shape
  | [] => []
  | n :: ns => n.shape :: Node.shapes ns

end

namespace Shape

/-- Puts a line above those that were read before: the deeper trees right below it become its
children. -/
def place (depth : Nat) (below : List (Nat × Shape)) : List (Nat × Shape) :=
  let isChild (t : Nat × Shape) : Bool := depth < t.1
  (depth, .node ((below.takeWhile isChild).map (·.2))) :: below.dropWhile isChild

def ofDepths (depths : List Nat) : List (Nat × Shape) := depths.foldr place []

def blanks (line : List Char) : Nat := (line.takeWhile (· == ' ')).length

/-- Reads the branching of a tree from a text that has two blanks for each level. -/
def ofOutline (text : List Char) : Option Shape :=
  match ofDepths ((Text.splitOn '\n' text).dropLast.map (blanks · / 2)) with
  | [(_, shape)] => some shape
  | _ => none

def NotDeeper (depth : Nat) (ts : List (Nat × Shape)) : Prop := ∀ t ∈ ts.head?, t.1 ≤ depth

theorem place_append {depth : Nat} (shapes : List Shape) {rest : List (Nat × Shape)}
    (h : NotDeeper depth rest) :
    place depth (shapes.map (depth + 1, ·) ++ rest) = (depth, .node shapes) :: rest := by
  have hchildren : ∀ t ∈ shapes.map (depth + 1, ·), decide (depth < t.1) = true := by
    intro t ht
    obtain ⟨shape, -, rfl⟩ := List.mem_map.mp ht
    simp
  have hrest : rest.takeWhile (fun t => decide (depth < t.1)) = [] ∧
      rest.dropWhile (fun t => decide (depth < t.1)) = rest := by
    cases rest with
    | nil => exact ⟨rfl, rfl⟩
    | cons t ts =>
      have ht : ¬ depth < t.1 := Nat.not_lt.mpr (h t rfl)
      simp [ht]
  rw [place, List.takeWhile_append_of_pos hchildren, List.dropWhile_append_of_pos hchildren,
    hrest.1, hrest.2, List.append_nil, List.map_map]
  simp [Function.comp_def]

mutual

theorem foldr_place_preorder (path : List Nat) {rest : List (Nat × Shape)}
    (h : NotDeeper path.length rest) : (n : Node) →
      ((n.preorder path).map (·.1.length)).foldr place rest = (path.length, n.shape) :: rest
  | ⟨_, _, children⟩ => by
    have hrest : NotDeeper (path.length + 1) rest := fun t ht => Nat.le_succ_of_le (h t ht)
    rw [Node.preorder, List.map_cons, List.foldr_cons, foldr_place_preorders path 0 hrest children,
      place_append _ h, Node.shape]

theorem foldr_place_preorders (path : List Nat) (i : Nat) {rest : List (Nat × Shape)}
    (h : NotDeeper (path.length + 1) rest) : (ns : List Node) →
      ((Node.preorders path i ns).map (·.1.length)).foldr place rest =
        (Node.shapes ns).map (path.length + 1, ·) ++ rest
  | [] => rfl
  | n :: ns => by
    have hns := foldr_place_preorders path (i + 1) h ns
    have hdepth : (path ++ [i]).length = path.length + 1 := List.length_append
    have hnext : NotDeeper (path ++ [i]).length
        ((Node.shapes ns).map (path.length + 1, ·) ++ rest) := by
      rw [hdepth]
      cases ns with
      | nil => exact h
      | cons => intro t ht; simp [Node.shapes] at ht; simp [← ht]
    rw [Node.preorders, List.map_append, List.foldr_append, hns,
      foldr_place_preorder _ hnext n, Node.shapes, hdepth]
    rfl

end

end Shape

/-! ### The text of one node -/

def Frame.shown (f : Frame) : List SymbolId :=
  [f.classId, f.methodId] ++ (f.marker.map (·.traceId)).toList ++
    (f.error.map (·.error.classId)).toList

/-- No name that the call is shown with has a line end in it, nor has the message of its error. -/
structure Frame.OneLine (symbols : SymbolResolver) (f : Frame) : Prop where
  names : ∀ id ∈ f.shown, ∀ name ∈ symbols.resolve id, '\n' ∉ name.toList
  message : ∀ e ∈ f.error, '\n' ∉ e.error.message.toList

instance (symbols : SymbolResolver) (f : Frame) : Decidable (f.OneLine symbols) :=
  decidable_of_iff ((∀ id ∈ f.shown, ∀ name ∈ symbols.resolve id, '\n' ∉ name.toList) ∧
      ∀ e ∈ f.error, '\n' ∉ e.error.message.toList)
    ⟨fun h => ⟨h.1, h.2⟩, fun h => ⟨h.names, h.message⟩⟩

theorem newline_not_mem_repr (n : Nat) : '\n' ∉ (Nat.repr n).toList := by
  rw [Nat.repr_eq_ofList_toDigits, String.toList_ofList]
  intro h
  exact absurd (Nat.isDigit_of_mem_toDigits (by decide) (by decide) h) (by decide)

theorem newline_not_mem_name {symbols : SymbolResolver} {id : SymbolId}
    (h : ∀ name ∈ symbols.resolve id, '\n' ∉ name.toList) :
    '\n' ∉ (symbols.name id).toList := by
  unfold SymbolResolver.name
  cases hname : symbols.resolve id with
  | some name => exact h name hname
  | none => simpa using newline_not_mem_repr id

theorem newline_not_mem_milliseconds (nanos : Nat) : '\n' ∉ (milliseconds nanos).toList := by
  have hdigit : ∀ d < 10, Digits.toChar d ≠ '\n' := by decide
  unfold milliseconds thousandths
  simp only [String.toList_append, String.toList_ofList, List.mem_append, List.mem_map, not_or]
  refine ⟨⟨newline_not_mem_repr _, by decide⟩, fun ⟨d, hd, heq⟩ => ?_⟩
  exact hdigit d (Digits.fixed_lt (by decide) 3 _ d hd) heq

theorem exists_milliseconds (nanos : Nat) :
    ∃ c cs, (milliseconds nanos).toList = c :: cs ∧ c.isDigit := by
  unfold milliseconds thousandths
  simp only [String.toList_append, Nat.repr_eq_ofList_toDigits, String.toList_ofList,
    List.append_assoc]
  obtain ⟨c, cs, hdigits⟩ := List.exists_cons_of_ne_nil (Nat.toDigits_ne_nil (b := 10))
  refine ⟨c, _, by rw [hdigits]; rfl, ?_⟩
  exact Nat.isDigit_of_mem_toDigits (by decide) (by decide) (hdigits ▸ List.mem_cons_self)

theorem newline_not_mem_describe (flags : NodeFlags) : '\n' ∉ flags.describe.toList := by
  have htext : '\n' ∉ flags.toText.toList := by
    rw [FlagSet.toText, String.toList_ofList]
    intro h
    rcases Text.mem_join h with h | ⟨w, hw, h⟩
    · exact absurd h (by decide)
    · exact absurd ((FlagSet.isWord_of_mem hw).plain _ h).2 (by decide)
  unfold FlagSet.describe
  simp only [String.toList_append, List.mem_append, not_or]
  refine ⟨⟨⟨by decide, by decide⟩, ?_⟩, by decide⟩
  split
  · decide
  · exact htext

theorem newline_not_mem_summary {symbols : SymbolResolver} {f : Frame} (h : f.OneLine symbols) :
    '\n' ∉ (f.summary symbols).toList := by
  have hname : ∀ id ∈ f.shown, '\n' ∉ (symbols.name id).toList :=
    fun id hid => newline_not_mem_name (h.names id hid)
  have hmarker : ∀ m, f.marker = some m → '\n' ∉ (symbols.name m.traceId).toList :=
    fun m hm => hname _ (by simp [Frame.shown, hm])
  have herror : ∀ e, f.error = some e → '\n' ∉ (symbols.name e.error.classId).toList :=
    fun e he => hname _ (by simp [Frame.shown, he])
  unfold Frame.summary
  simp only [String.toList_append, List.mem_append, not_or]
  refine ⟨⟨⟨⟨⟨⟨⟨⟨⟨⟨⟨newline_not_mem_milliseconds _, by decide⟩, newline_not_mem_repr _⟩,
    by decide⟩, newline_not_mem_repr _⟩, by decide⟩, hname _ (by simp [Frame.shown])⟩,
    by decide⟩, hname _ (by simp [Frame.shown])⟩, ?_⟩, ?_⟩, ?_⟩
  · split
    case h_1 => decide
    case h_2 m hm =>
      simp only [String.toList_append, List.mem_append, not_or]
      exact ⟨⟨by decide, hmarker m hm⟩, by decide⟩
  · split
    case isTrue => decide
    case isFalse =>
      simp only [String.toList_append, List.mem_append, not_or]
      exact ⟨by decide, newline_not_mem_describe f.flags⟩
  · split
    case h_1 => decide
    case h_2 e he =>
      simp only [String.toList_append, List.mem_append, not_or]
      exact ⟨⟨⟨by decide, herror e he⟩, by decide⟩, h.message e he⟩

theorem exists_summary (symbols : SymbolResolver) (f : Frame) : ∃ rest,
    (f.summary symbols).toList =
      (milliseconds f.duration).toList ++ "ms calls=".toList ++ rest := by
  unfold Frame.summary
  simp only [String.toList_append, List.append_assoc]
  exact ⟨_, rfl⟩

/-! ### The lines of a tree -/

namespace Text

theorem splitOn_lines {ls : List (List Char)} (h : ∀ l ∈ ls, '\n' ∉ l) :
    splitOn '\n' (ls.flatMap (· ++ ['\n'])) = ls ++ [[]] := by
  induction ls with
  | nil => rfl
  | cons l ls ih =>
    rw [List.flatMap_cons, splitOn_append (h l List.mem_cons_self),
      ih fun l hl => h l (List.mem_cons_of_mem _ hl)]
    rfl

end Text

namespace Node

theorem toList_indent (depth : Nat) : (indent depth).toList = List.replicate (2 * depth) ' ' :=
  String.toList_ofList

def lineOf (symbols : SymbolResolver) (q : List Nat × Node) : List Char :=
  List.replicate (2 * q.1.length) ' ' ++ (q.2.frame.summary symbols).toList

mutual

theorem lines_eq (symbols : SymbolResolver) (path : List Nat) : (n : Node) →
    (n.lines symbols path.length).map String.toList = (n.preorder path).map (lineOf symbols)
  | ⟨_, frame, children⟩ => by
    rw [lines, preorder, List.map_cons, List.map_cons, childLines_eq symbols path 0 children,
      lineOf, String.toList_append, toList_indent]

theorem childLines_eq (symbols : SymbolResolver) (path : List Nat) (i : Nat) : (ns : List Node) →
    (childLines symbols (path.length + 1) ns).map String.toList =
      (preorders path i ns).map (lineOf symbols)
  | [] => rfl
  | n :: ns => by
    have hn := lines_eq symbols (path ++ [i]) n
    rw [List.length_append, List.length_singleton] at hn
    rw [childLines, preorders, List.map_append, List.map_append, hn,
      childLines_eq symbols path (i + 1) ns]

end

theorem splitOn_render {symbols : SymbolResolver} {n : Node}
    (h : n.Everywhere (·.OneLine symbols)) :
    Text.splitOn '\n' (n.render symbols).toList = (n.preorder []).map (lineOf symbols) ++ [[]] := by
  have hline : ∀ l ∈ (n.preorder []).map (lineOf symbols), '\n' ∉ l := by
    intro l hl
    obtain ⟨q, hq, rfl⟩ := List.mem_map.mp hl
    rw [lineOf, List.mem_append, not_or]
    exact ⟨by simp [List.mem_replicate], newline_not_mem_summary (h q hq)⟩
  have htext : (n.render symbols).toList =
      ((n.preorder []).map (lineOf symbols)).flatMap (· ++ ['\n']) := by
    rw [← lines_eq symbols [] n]
    simp [render, String.toList_join, List.flatMap_map]
  rw [htext]
  exact Text.splitOn_lines hline

theorem takeWhile_lineOf (symbols : SymbolResolver) (q : List Nat × Node) :
    (lineOf symbols q).takeWhile (· == ' ') = List.replicate (2 * q.1.length) ' ' := by
  obtain ⟨rest, hsummary⟩ := exists_summary symbols q.2.frame
  obtain ⟨c, cs, hduration, hdigit⟩ := exists_milliseconds q.2.frame.duration
  have hc : ¬ (c == ' ') = true := by
    intro hblank
    rw [eq_of_beq hblank] at hdigit
    exact absurd hdigit (by decide)
  rw [lineOf, hsummary, hduration, List.takeWhile_append_of_pos (by simp [List.mem_replicate])]
  simp [hc]

end Node

/-- A tree whose names and messages have no line ends is rendered as its nodes, parents first, one
to a line. Two blanks for each level stand in front of a line, and then the duration of the call. So
there are as many lines as nodes, and the text tells how the tree branches. -/
theorem rendered_line_by_line {symbols : SymbolResolver} {n : Node}
    (h : n.Everywhere (·.OneLine symbols)) :
    let text := (n.render symbols).toList
    let nodes := n.preorder []
    Text.splitOn '\n' text = nodes.map (Node.lineOf symbols) ++ [[]] ∧ nodes.length = n.size ∧
      (∀ q ∈ nodes, ∃ rest, Node.lineOf symbols q = List.replicate (2 * q.1.length) ' ' ++
          ((milliseconds q.2.frame.duration).toList ++ "ms calls=".toList ++ rest) ∧
        Shape.blanks (Node.lineOf symbols q) = 2 * q.1.length) ∧
      Shape.ofOutline text = some n.shape := by
  intro text nodes
  have hblanks : ∀ q, Shape.blanks (Node.lineOf symbols q) = 2 * q.1.length := by
    intro q
    rw [Shape.blanks, Node.takeWhile_lineOf, List.length_replicate]
  have hsplit : Text.splitOn '\n' text = nodes.map (Node.lineOf symbols) ++ [[]] :=
    Node.splitOn_render h
  refine ⟨hsplit, Node.length_preorder [] n, fun q _ => ?_, ?_⟩
  · obtain ⟨rest, hrest⟩ := exists_summary symbols q.2.frame
    exact ⟨rest, by rw [Node.lineOf, hrest], hblanks q⟩
  · have hdepths : (nodes.map (Node.lineOf symbols)).map (Shape.blanks · / 2) =
        nodes.map (·.1.length) := by
      rw [List.map_map]
      refine List.map_congr_left fun q _ => ?_
      rw [Function.comp_apply, hblanks, Nat.mul_div_cancel_left _ (by decide)]
    have hread : (nodes.map (·.1.length)).foldr Shape.place [] = [(0, n.shape)] :=
      Shape.foldr_place_preorder [] (by simp [Shape.NotDeeper]) n
    rw [Shape.ofOutline, hsplit, List.dropLast_concat, hdepths, Shape.ofDepths, hread]

/-- A trace of four calls, with a failed call below the first of two. -/
def raggedTree : Node :=
  { frame :=
      { classId := 1, methodId := 10, duration := 2000000, calls := 4, errors := 1
        flags := .single .opensTrace, marker := some ⟨7, 0, 0, ∅, none⟩ }
    children := [
      { frame := { classId := 2, methodId := 11, duration := 1234500, calls := 2, errors := 1 }
        children := [
          { frame :=
              { classId := 2, methodId := 12, duration := 999, calls := 1, errors := 1
                flags := ⟨0x64⟩, error := some ⟨⟨0, 9, "no  such row", []⟩, []⟩ } }] },
      { frame := { classId := 3, methodId := 10, duration := 7, calls := 1 } }] }

def raggedNames : SymbolTable :=
  [(1, "Service"), (2, "Repo"), (7, "checkout"), (8, "two\nlines"), (9, "NotFound"),
    (10, "handle"), (11, "find"), (12, "row")]

theorem rendered_line_by_line_of_raggedTree :
    raggedTree.Everywhere (·.OneLine raggedNames) ∧
      raggedTree.render raggedNames =
        "2.000ms calls=4 errors=1 Service.handle <checkout> NodeFlags(BEGIN)\n" ++
        "  1.234ms calls=2 errors=1 Repo.find\n" ++
        "    0.001ms calls=1 errors=1 Repo.row NodeFlags(EXCEPTION_PASS | FORCE | 0x40) " ++
        "!NotFound: no  such row\n" ++
        "  0.000ms calls=1 errors=0 #3.handle\n" ∧
      (raggedTree.preorder []).length = 4 ∧
      Shape.ofOutline (raggedTree.render raggedNames).toList =
        some (.node [.node [.node []], .node []]) := by
  have h : raggedTree.Everywhere (·.OneLine raggedNames) := by
    unfold Node.Everywhere
    decide
  obtain ⟨-, hlength, -, hshape⟩ := rendered_line_by_line h
  exact ⟨h, by decide +kernel, hlength, hshape⟩

end CallTree
