/-!
# Pieces — a text between separators

`splitOn` cuts a text at every separator; there is always one piece more than separators.
-/

namespace LayerNet.Text

/-- The pieces of a text between separators. -/
def splitOn (separator : Char) : List Char → List (List Char)
  | [] => [[]]
  | c :: rest =>
    let pieces := splitOn separator rest
    if c = separator then [] :: pieces
    else
      match pieces with
      | [] => [[c]]
      | piece :: others => (c :: piece) :: others

/-- There is always a piece. -/
theorem splitOn_ne_nil (separator : Char) (cs : List Char) : splitOn separator cs ≠ [] := by
  induction cs with
  | nil => simp [splitOn]
  | cons c rest ih =>
    rw [splitOn]
    split
    · simp
    · split <;> simp

/-- There is one piece more than separators. -/
theorem length_splitOn (separator : Char) (cs : List Char) :
    (splitOn separator cs).length = cs.count separator + 1 := by
  induction cs with
  | nil => simp [splitOn]
  | cons c rest ih =>
    have some_piece := splitOn_ne_nil separator rest
    rw [splitOn]
    by_cases h : c = separator
    · simp [h, ih]
    · cases found : splitOn separator rest with
      | nil => exact absurd found some_piece
      | cons piece others =>
        rw [found] at ih
        simpa [h, List.count_cons] using ih

end LayerNet.Text
