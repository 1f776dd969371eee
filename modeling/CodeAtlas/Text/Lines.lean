import CodeAtlas.Text.CodePoint

/-! Lines of a text. A line ends at a line feed and nowhere else; texts that come from files have
their other line ends turned into line feeds first. -/

namespace CodeAtlas.Text

def lineFeed : CodePoint := .char '\n'

def splitLines : Points → List Points
  | [] => [[]]
  | p :: ps =>
    if p = lineFeed then [] :: splitLines ps
    else match splitLines ps with
      | [] => [[p]]
      | line :: lines => (p :: line) :: lines

def joinLines : List Points → Points
  | [] => []
  | [line] => line
  | line :: lines => line ++ lineFeed :: joinLines lines

theorem splitLines_ne_nil (ps : Points) : splitLines ps ≠ [] := by
  cases ps with
  | nil => simp [splitLines]
  | cons p ps =>
    simp only [splitLines]
    split
    · simp
    · split <;> simp

theorem joinLines_splitLines (ps : Points) : joinLines (splitLines ps) = ps := by
  induction ps with
  | nil => rfl
  | cons p ps ih =>
    simp only [splitLines]
    split
    next h =>
      subst h
      cases hs : splitLines ps with
      | nil => exact absurd hs (splitLines_ne_nil ps)
      | cons line lines => rw [hs] at ih; simp [joinLines, ih]
    next h =>
      cases hs : splitLines ps with
      | nil => exact absurd hs (splitLines_ne_nil ps)
      | cons line lines =>
        rw [hs] at ih
        cases lines with
        | nil => simpa [joinLines] using ih
        | cons next rest => simpa [joinLines] using ih

/-- A carriage return, alone or before a line feed, becomes a line feed. -/
def unifyNewlines : List Char → List Char
  | [] => []
  | '\r' :: '\n' :: cs => '\n' :: unifyNewlines cs
  | c :: cs => (if c = '\r' then '\n' else c) :: unifyNewlines cs

end CodeAtlas.Text
