/-!
Places in text, counted in the bytes of its UTF-8 form.
-/
namespace CallTree.Text

def byteSize : List Char → Nat
  | [] => 0
  | c :: cs => c.utf8Size + byteSize cs

def dropBytes : Nat → List Char → List Char
  | 0, cs => cs
  | _, [] => []
  | n + 1, c :: cs => dropBytes (n + 1 - c.utf8Size) cs

def takeBytes : Nat → List Char → List Char
  | 0, _ => []
  | _, [] => []
  | n + 1, c :: cs => c :: takeBytes (n + 1 - c.utf8Size) cs

def cut (first last : Nat) (cs : List Char) : List Char :=
  takeBytes (last - first) (dropBytes first cs)

private theorem byteSize_cons_sub (c : Char) (cs : List Char) :
    byteSize (c :: cs) - c.utf8Size = byteSize cs := by
  simp [byteSize]

private theorem byteSize_cons_pos (c : Char) (cs : List Char) :
    ∃ n, byteSize (c :: cs) = n + 1 := by
  have := c.utf8Size_pos
  exact ⟨byteSize (c :: cs) - 1, by simp [byteSize]; omega⟩

theorem dropBytes_append (xs ys : List Char) : dropBytes (byteSize xs) (xs ++ ys) = ys := by
  induction xs with
  | nil => simp [byteSize, dropBytes]
  | cons c cs ih =>
    obtain ⟨n, hn⟩ := byteSize_cons_pos c cs
    rw [List.cons_append, hn, dropBytes, ← hn, byteSize_cons_sub, ih]

theorem takeBytes_append (xs ys : List Char) : takeBytes (byteSize xs) (xs ++ ys) = xs := by
  induction xs with
  | nil => simp [byteSize, takeBytes]
  | cons c cs ih =>
    obtain ⟨n, hn⟩ := byteSize_cons_pos c cs
    rw [List.cons_append, hn, takeBytes, ← hn, byteSize_cons_sub, ih]

end CallTree.Text
