import CodeAtlas.Text.Lines

/-! What stands on one line of a text. Texts that are joined as lines may hold line feeds of their
own; the lines of the whole are then the lines of the parts. -/

namespace CodeAtlas.Text

theorem splitLines_append (first rest : Points) :
    splitLines (first ++ lineFeed :: rest) = splitLines first ++ splitLines rest := by
  induction first with
  | nil => simp [splitLines]
  | cons p ps ih =>
    by_cases hp : p = lineFeed
    · simp [splitLines, hp, ih]
    · obtain ⟨line, lines, hlines⟩ := List.exists_cons_of_ne_nil (splitLines_ne_nil ps)
      simp [splitLines, hp, ih, hlines]

theorem splitLines_of_not_mem {line : Points} (h : lineFeed ∉ line) : splitLines line = [line] := by
  induction line with
  | nil => rfl
  | cons p ps ih =>
    obtain ⟨hp, hps⟩ := List.ne_and_not_mem_of_not_mem_cons h
    rw [splitLines, if_neg hp.symm, ih hps]

theorem splitLines_append_of_not_mem {before : Points} (h : lineFeed ∉ before) {text first : Points}
    {later : List Points} (htext : splitLines text = first :: later) :
    splitLines (before ++ text) = (before ++ first) :: later := by
  induction before with
  | nil => exact htext
  | cons p ps ih =>
    obtain ⟨hp, hps⟩ := List.ne_and_not_mem_of_not_mem_cons h
    rw [List.cons_append, splitLines, if_neg hp.symm, ih hps]
    rfl

theorem splitLines_joinLines {parts : List Points} (h : parts ≠ []) :
    splitLines (joinLines parts) = parts.flatMap splitLines := by
  induction parts with
  | nil => exact absurd rfl h
  | cons first rest ih =>
    cases rest with
    | nil => simp [joinLines]
    | cons second rest =>
      rw [joinLines, splitLines_append, ih (by simp)]
      · rfl
      · simp

theorem flatMap_splitLines {lines : List Points} (h : ∀ line ∈ lines, lineFeed ∉ line) :
    lines.flatMap splitLines = lines := by
  induction lines with
  | nil => rfl
  | cons line lines ih =>
    obtain ⟨hline, hlines⟩ := List.forall_mem_cons.1 h
    rw [List.flatMap_cons, splitLines_of_not_mem hline, ih hlines]
    rfl

theorem joinLines_cons {line : Points} {lines : List Points} (h : lines ≠ []) :
    joinLines (line :: lines) = line ++ lineFeed :: joinLines lines := by
  rw [joinLines]
  exact h

theorem joinLines_append_cons (before line : Points) (lines : List Points) :
    joinLines ((before ++ line) :: lines) = before ++ joinLines (line :: lines) := by
  cases lines with
  | nil => rfl
  | cons next lines => simp [joinLines]

theorem joinLines_concat {lines : List Points} (h : lines ≠ []) (line : Points) :
    joinLines (lines ++ [line]) = joinLines lines ++ lineFeed :: line := by
  induction lines with
  | nil => exact absurd rfl h
  | cons first rest ih =>
    by_cases hrest : rest = []
    · subst hrest
      rfl
    · rw [List.cons_append, joinLines_cons (by simp), ih hrest, joinLines_cons hrest,
        List.append_assoc, List.cons_append]

theorem lineFeed_not_mem {text line : Points} (h : line ∈ splitLines text) : lineFeed ∉ line := by
  induction text generalizing line with
  | nil => simp_all [splitLines]
  | cons p ps ih =>
    obtain ⟨first, rest, hlines⟩ := List.exists_cons_of_ne_nil (splitLines_ne_nil ps)
    rw [hlines] at ih
    by_cases hp : p = lineFeed
    · rw [splitLines, if_pos hp, hlines] at h
      rcases List.mem_cons.1 h with rfl | h
      · simp
      · exact ih h
    · simp only [splitLines, if_neg hp, hlines] at h
      rcases List.mem_cons.1 h with rfl | h
      · have hfirst : lineFeed ∉ first := ih List.mem_cons_self
        simpa [hfirst] using Ne.symm hp
      · exact ih (List.mem_cons_of_mem _ h)

theorem infix_append_iff {word first rest : Points} (hword : lineFeed ∉ word) :
    word <:+: first ++ lineFeed :: rest ↔ word <:+: first ∨ word <:+: rest := by
  constructor
  · rintro ⟨before, after, h⟩
    rw [List.append_assoc, List.append_eq_append_iff] at h
    rcases h with ⟨skipped, hfirst, hword'⟩ | ⟨skipped, hbefore, hrest⟩
    · -- The word starts on the first line, so it ends there too.
      rw [List.append_eq_append_iff] at hword'
      rcases hword' with ⟨left, hskipped, -⟩ | ⟨left, hleft, hfeed⟩
      · exact .inl ⟨before, left, by rw [hfirst, hskipped, List.append_assoc]⟩
      · cases left with
        | nil => exact .inl ⟨before, [], by simp [hfirst, hleft]⟩
        | cons p left =>
          obtain rfl : lineFeed = p := (List.cons.inj hfeed).1
          exact absurd (by simp [hleft]) hword
    · cases skipped with
      | nil =>
        cases word with
        | nil => exact .inr ⟨[], rest, rfl⟩
        | cons p word =>
          obtain rfl : lineFeed = p := (List.cons.inj hrest).1
          exact absurd List.mem_cons_self hword
      | cons p skipped =>
        exact .inr ⟨skipped, after, by simpa using (List.cons.inj hrest).2.symm⟩
  · rintro (h | h)
    · exact h.trans (List.prefix_append _ _).isInfix
    · exact h.trans ⟨first ++ [lineFeed], [], by simp⟩

theorem infix_joinLines_iff {word : Points} (hword : lineFeed ∉ word) {parts : List Points}
    (hparts : parts ≠ []) : word <:+: joinLines parts ↔ ∃ part ∈ parts, word <:+: part := by
  induction parts with
  | nil => exact absurd rfl hparts
  | cons first rest ih =>
    cases rest with
    | nil => simp [joinLines]
    | cons second rest =>
      rw [joinLines, infix_append_iff hword, ih (by simp)]
      · simp
      · simp

/-- A word stands on some line of a text exactly if it stands in the text and holds no line
feed. -/
theorem exists_line_iff (word text : Points) :
    (∃ line ∈ splitLines text, word <:+: line) ↔ word <:+: text ∧ lineFeed ∉ word := by
  constructor
  · rintro ⟨line, hline, hword⟩
    have hfeed : lineFeed ∉ word := fun hmem => lineFeed_not_mem hline (hword.subset hmem)
    have htext := (infix_joinLines_iff hfeed (splitLines_ne_nil text)).2 ⟨line, hline, hword⟩
    exact ⟨joinLines_splitLines text ▸ htext, hfeed⟩
  · rintro ⟨htext, hfeed⟩
    rw [← joinLines_splitLines text] at htext
    exact (infix_joinLines_iff hfeed (splitLines_ne_nil text)).1 htext

end CodeAtlas.Text
