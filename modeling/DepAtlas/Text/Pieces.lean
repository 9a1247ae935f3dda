/-! # Pieces of a text

Cutting a text at a separator, and joining pieces with it again.
-/

namespace DepAtlas.Text

/-- The pieces between the elements that satisfy `p`; there is always at least one. -/
def cut {α : Type} (p : α → Bool) : List α → List (List α)
  | [] => [[]]
  | x :: xs =>
    if p x then [] :: cut p xs
    else
      match cut p xs with
      | [] => [[x]]
      | piece :: rest => (x :: piece) :: rest

/-- The pieces of a text between the characters that satisfy `p`. -/
def pieces (p : Char → Bool) (s : String) : List String :=
  (cut p s.toList).map String.ofList

/-- The pieces that the text `sep` separates; an empty `sep` separates nothing. -/
def cutAt (sep : List Char) (piece : List Char) : List Char → List (List Char)
  | [] => [piece.reverse]
  | c :: cs =>
    if sep ≠ [] ∧ sep.isPrefixOf (c :: cs) then
      piece.reverse :: cutAt sep [] ((c :: cs).drop sep.length)
    else cutAt sep (c :: piece) cs
  termination_by cs => cs.length
  decreasing_by
    · rename_i h
      have : 0 < sep.length := List.length_pos_iff.mpr h.1
      simp only [List.length_drop, List.length_cons]
      omega
    · simp

/-- The pieces of `s` that the text `sep` separates. -/
def splitText (sep s : String) : List String :=
  (cutAt sep.toList [] s.toList).map String.ofList

/-- Every occurrence of `sep` in `s`, from the left, gives way to `by_`. -/
def replaceText (sep by_ s : String) : String :=
  by_.intercalate (splitText sep s)

/-- A line without the carriage return before its line feed. -/
def withoutReturn (line : List Char) : List Char :=
  if line.getLast? = some '\r' then line.dropLast else line

/-- The lines of a text. A line ends in a line feed, with or without a carriage return before it;
the last one may lack its end. -/
def lineList : List (List Char) → List (List Char)
  | [] => []
  | [last] => if last = [] then [] else [last]
  | line :: next :: rest => withoutReturn line :: lineList (next :: rest)

def lines (s : String) : List String :=
  (lineList (cut (· = '\n') s.toList)).map String.ofList

theorem cut_ne_nil {α : Type} (p : α → Bool) (xs : List α) : cut p xs ≠ [] := by
  cases xs with
  | nil => simp [cut]
  | cons x xs =>
    unfold cut
    split
    · simp
    · split <;> simp

theorem not_mem_of_mem_cut {α : Type} {p : α → Bool} {xs piece : List α} (h : piece ∈ cut p xs) :
    ∀ x ∈ piece, p x = false := by
  induction xs generalizing piece with
  | nil => simp_all [cut]
  | cons x xs ih =>
    unfold cut at h
    split at h
    · rcases List.mem_cons.mp h with rfl | h
      · simp
      · exact ih h
    · rename_i hx
      split at h
      · rename_i he
        exact absurd he (cut_ne_nil p xs)
      · rename_i q rest he
        rcases List.mem_cons.mp h with rfl | h
        · intro y hy
          rcases List.mem_cons.mp hy with rfl | hy
          · simpa using hx
          · exact ih (he ▸ List.mem_cons_self) y hy
        · exact ih (he ▸ List.mem_cons_of_mem _ h)

end DepAtlas.Text
