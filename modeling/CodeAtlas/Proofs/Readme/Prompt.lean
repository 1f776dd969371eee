import CodeAtlas.Proofs.Json.Members
import CodeAtlas.Proofs.Text.Margin
import CodeAtlas.Readme.Prompt

/-! What is left of the template's margin in a prompt. The margin that is taken away is the one that
all lines share, those of the digest included; the first line of the digest stands behind the
template's own margin, so the others decide. -/

namespace CodeAtlas.Readme

open Text (Points CodePoint lineFeed splitLines joinLines isPadding indent margin dedentLines)

/-- How many spaces of the template's margin the lines of a digest share. The first line does not
count, nor does padding. -/
def sharedMargin (digest : Points) : Nat :=
  (((splitLines digest).tail.filter fun line => !isPadding line).map fun line =>
    (line.takeWhile (· = .char ' ')).length).foldr min templateMargin.length

def linesBefore (digest : Points) : List Points :=
  (splitLines (prompt digest)).take instructionsBefore.length

def linesAfter (digest : Points) : List Points :=
  (splitLines (prompt digest)).drop (instructionsBefore.length + (splitLines digest).length)

def setIn (width : Nat) (line : String) : Points :=
  if line = "" then [] else List.replicate width (.char ' ') ++ Points.ofString line

def templateLines (digest : Points) : List Points :=
  [] :: instructionsBefore.map templateLine ++ splitLines (templateMargin ++ digest)
    ++ instructionsAfter.map templateLine ++ [Points.ofString "    "]

theorem toList_of_chars {P : List Char → Prop} {cs : List Char} (h : P cs) :
    P (String.ofList cs).toList := by rwa [String.toList_ofList]

def isOneLine (cs : List Char) : Bool :=
  !cs.contains '\n' && (cs.isEmpty || cs.any fun c => !Text.isPad c)

-- A long literal is read as its characters once; its bytes are never decoded.
set_option maxRecDepth 8192 in
theorem instructions_one_line :
    ∀ line ∈ instructionsBefore ++ instructionsAfter, isOneLine line.toList := by
  rw [instructionsBefore, instructionsAfter]
  repeat' refine List.forall_mem_cons.2 ⟨toList_of_chars
    (P := fun cs => isOneLine cs) (by decide +kernel), ?_⟩
  nofun

section
variable {line : String} (h : line ∈ instructionsBefore ++ instructionsAfter)
include h

theorem lineFeed_not_mem_setIn (width : Nat) : lineFeed ∉ setIn width line := by
  have hline : '\n' ∉ line.toList := by
    have hone := instructions_one_line line h
    simp only [isOneLine, Bool.and_eq_true, Bool.not_eq_true', List.contains_eq_mem,
      decide_eq_false_iff_not] at hone
    exact hone.1
  rw [setIn]
  split
  · simp
  · simp [lineFeed, Points.ofString, Points.ofChars, hline]

theorem isPadding_setIn (width : Nat) (hne : line ≠ "") : isPadding (setIn width line) = false := by
  have hone := instructions_one_line line h
  simp only [isOneLine, Bool.and_eq_true, Bool.or_eq_true, List.isEmpty_iff, List.any_eq_true,
    Bool.not_eq_true'] at hone
  obtain hnil | ⟨c, hc, hpad⟩ := hone.2
  · exact absurd (String.toList_eq_nil_iff.1 hnil) hne
  · rw [setIn, if_neg hne, isPadding, List.all_append, Bool.and_eq_false_iff]
    refine .inr (List.all_eq_false.2 ⟨.char c, ?_, by simp [CodePoint.isPad, hpad]⟩)
    exact List.mem_map_of_mem hc

end

theorem ofString_templateMargin :
    Points.ofString templateMargin = List.replicate templateMargin.length (.char ' ') := by
  decide +kernel

theorem templateLine_eq (line : String) : templateLine line = setIn templateMargin.length line := by
  rw [templateLine, setIn, ofString_templateMargin]

theorem splitLines_filledTemplate (digest : Points) :
    splitLines (filledTemplate digest) = templateLines digest := by
  have hlines (lines : List String) (h : ∀ line ∈ lines, lineFeed ∉ templateLine line) :
      (lines.map templateLine).flatMap splitLines = lines.map templateLine :=
    Text.flatMap_splitLines (by simpa using h)
  have hall : ∀ line ∈ instructionsBefore ++ instructionsAfter, lineFeed ∉ templateLine line :=
    fun line hline => templateLine_eq line ▸ lineFeed_not_mem_setIn hline _
  obtain ⟨hbefore, hafter⟩ := List.forall_mem_append.1 hall
  rw [filledTemplate, Text.splitLines_joinLines (by simp)]
  simp only [List.flatMap_append, List.flatMap_cons, List.flatMap_nil, List.append_nil,
    hlines _ hbefore, hlines _ hafter]
  rfl

theorem le_foldr_min {n bound : Nat} {sizes : List Nat} :
    n ≤ sizes.foldr min bound ↔ n ≤ bound ∧ ∀ size ∈ sizes, n ≤ size := by
  induction sizes with
  | nil => simp
  | cons size sizes ih =>
    rw [List.foldr_cons, Nat.le_min, ih, List.forall_mem_cons]
    exact and_left_comm

theorem le_sharedMargin_iff {n : Nat} {digest first : Points} {later : List Points}
    (h : splitLines digest = first :: later) :
    n ≤ sharedMargin digest ↔ n ≤ templateMargin.length ∧
      ∀ line ∈ later, isPadding line = false → List.replicate n (.char ' ') <+: line := by
  rw [sharedMargin, le_foldr_min, h, List.tail_cons]
  simp only [List.forall_mem_map, List.mem_filter, Bool.not_eq_true', and_imp,
    Text.replicate_prefix_iff]

theorem sharedMargin_le (digest : Points) : sharedMargin digest ≤ templateMargin.length :=
  (le_foldr_min.1 (Nat.le_refl (sharedMargin digest))).1

set_option maxRecDepth 8192 in
theorem exists_opening : ∃ first rest, instructionsBefore = first :: rest ∧
    first.toList.head? = some 'Y' :=
  ⟨_, _, rfl, toList_of_chars (P := fun cs => cs.head? = some 'Y') (by decide +kernel)⟩

theorem exists_closing : ∃ last, instructionsAfter = [last] ∧ last.toList.getLast? = some '-' :=
  ⟨_, rfl, toList_of_chars (P := fun cs => cs.getLast? = some '-') (by decide +kernel)⟩

theorem setIn_of_ne {width : Nat} {line : String} (h : line ≠ "") :
    setIn width line = List.replicate width (.char ' ') ++ Points.ofString line := if_neg h

theorem ne_empty_of_head? {line : String} {c : Char} (h : line.toList.head? = some c) :
    line ≠ "" := by
  rintro rfl
  cases h

theorem indent_setIn {width : Nat} {line : String} {c : Char} (h : line.toList.head? = some c)
    (hc : Text.isPad c = false) : indent (setIn width line) = List.replicate width (.char ' ') := by
  obtain ⟨cs, hcs⟩ := List.head?_eq_some_iff.1 h
  rw [setIn_of_ne (ne_empty_of_head? h), indent,
    List.takeWhile_append_of_pos (by simp [CodePoint.isPad, Text.isPad]), Points.ofString, hcs,
    Points.ofChars, List.map_cons, List.takeWhile_cons_of_neg]
  · exact List.append_nil _
  · simp [CodePoint.isPad, hc]

theorem replicate_prefix_indent_iff {n : Nat} {line : Points} :
    List.replicate n (.char ' ') <+: indent line ↔ List.replicate n (.char ' ') <+: line := by
  rw [indent, Text.prefix_takeWhile_iff]
  refine ⟨And.left, fun h => ⟨h, fun a ha => ?_⟩⟩
  rw [(List.mem_replicate.1 ha).2]
  rfl

theorem splitLines_margin_append {digest first : Points} {later : List Points}
    (h : splitLines digest = first :: later) :
    splitLines (templateMargin ++ digest) =
      (List.replicate templateMargin.length (.char ' ') ++ first) :: later := by
  rw [ofString_templateMargin]
  exact Text.splitLines_append_of_not_mem (by simp [lineFeed]) h

theorem exists_mem_templateLines (digest : Points) :
    ∃ line ∈ templateLines digest, isPadding line = false ∧
      indent line = List.replicate templateMargin.length (.char ' ') := by
  obtain ⟨opening, rest, hbefore, hopening⟩ := exists_opening
  refine ⟨setIn templateMargin.length opening, ?_, ?_, indent_setIn hopening (by decide)⟩
  · simp [templateLines, hbefore, templateLine_eq]
  · exact isPadding_setIn (by simp [hbefore]) _ (ne_empty_of_head? hopening)

theorem replicate_prefix_templateLines_iff {n : Nat} {digest : Points} :
    (∀ line ∈ templateLines digest, isPadding line = false →
      List.replicate n (.char ' ') <+: indent line) ↔ n ≤ sharedMargin digest := by
  simp only [replicate_prefix_indent_iff]
  obtain ⟨first, later, hdigest⟩ := List.exists_cons_of_ne_nil (Text.splitLines_ne_nil digest)
  have hwide (line : Points) (hn : n ≤ templateMargin.length) :
      List.replicate n (.char ' ') <+: List.replicate templateMargin.length (.char ' ') ++ line :=
    (List.prefix_replicate_iff.2 ⟨by simpa using hn, by simp⟩).trans (List.prefix_append _ _)
  rw [le_sharedMargin_iff hdigest]
  constructor
  · intro h
    refine ⟨?_, fun line hline => h line ?_⟩
    · obtain ⟨line, hmem, hpadding, hindent⟩ := exists_mem_templateLines digest
      have hspaces := replicate_prefix_indent_iff.2 (h line hmem hpadding)
      rw [hindent] at hspaces
      simpa using (List.prefix_replicate_iff.1 hspaces).1
    · simp [templateLines, splitLines_margin_append hdigest, hline]
  · rintro ⟨hn, hlater⟩ line hline hpadding
    rw [templateLines, splitLines_margin_append hdigest] at hline
    simp only [List.mem_append, List.mem_cons, List.mem_map, List.not_mem_nil, or_false] at hline
    have hown (text : String) (h : isPadding (templateLine text) = false) :
        List.replicate n (.char ' ') <+: templateLine text := by
      by_cases hne : text = ""
      · subst hne
        cases h
      · rw [templateLine_eq, setIn_of_ne hne]
        exact hwide _ hn
    rcases hline with (((rfl | ⟨text, -, rfl⟩) | rfl | hline) | ⟨text, -, rfl⟩) | rfl
    · cases hpadding
    · exact hown text hpadding
    · exact hwide first hn
    · exact hlater line hline hpadding
    · exact hown text hpadding
    · cases hpadding

theorem margin_templateLines (digest : Points) :
    margin (templateLines digest) = List.replicate (sharedMargin digest) (.char ' ') := by
  obtain ⟨line, hmem, hpadding, hindent⟩ := exists_mem_templateLines digest
  have hbound (p : Points) : p <+: margin (templateLines digest) ↔
      ∀ line ∈ templateLines digest, isPadding line = false → p <+: indent line :=
    Text.prefix_margin_iff ⟨line, hmem, hpadding⟩
  have hspaces := (hbound _).1 (List.prefix_refl _) line hmem hpadding
  rw [hindent] at hspaces
  have hmargin := (List.prefix_replicate_iff.1 hspaces).2
  have hlength (n : Nat) :
      n ≤ (margin (templateLines digest)).length ↔ n ≤ sharedMargin digest := by
    rw [← replicate_prefix_templateLines_iff, ← hbound, hmargin, List.prefix_replicate_iff]
    simp
  rw [hmargin, Nat.le_antisymm ((hlength _).1 (Nat.le_refl _)) ((hlength _).2 (Nat.le_refl _))]

def leftOver (digest : Points) : Nat := templateMargin.length - sharedMargin digest

def dropMargin (width : Nat) (line : Points) : Points :=
  if isPadding line then [] else line.drop width

def digestLines (digest : Points) : List Points :=
  (splitLines (templateMargin ++ digest)).map (dropMargin (sharedMargin digest))

theorem dropMargin_templateLine (digest : Points) {line : String}
    (h : line ∈ instructionsBefore ++ instructionsAfter) :
    dropMargin (sharedMargin digest) (templateLine line) = setIn (leftOver digest) line := by
  rw [templateLine_eq, dropMargin]
  by_cases hne : line = ""
  · subst hne
    rfl
  · rw [isPadding_setIn h _ hne, setIn_of_ne hne, setIn_of_ne hne, leftOver,
      List.drop_append_of_le_length (by simpa using sharedMargin_le digest), List.drop_replicate]
    rfl

theorem dedentLines_templateLines (digest : Points) :
    dedentLines (templateLines digest) =
      [] :: instructionsBefore.map (setIn (leftOver digest)) ++ digestLines digest
        ++ instructionsAfter.map (setIn (leftOver digest)) ++ [[]] := by
  have hlines (lines : List String) (h : ∀ line ∈ lines,
      dropMargin (sharedMargin digest) (templateLine line) = setIn (leftOver digest) line) :
      (lines.map templateLine).map (dropMargin (sharedMargin digest)) =
        lines.map (setIn (leftOver digest)) := by
    rw [List.map_map]
    exact List.map_congr_left h
  obtain ⟨hbefore, hafter⟩ := List.forall_mem_append.1 fun line => dropMargin_templateLine digest
  have hdedent : dedentLines (templateLines digest) =
      (templateLines digest).map (dropMargin (sharedMargin digest)) := by
    rw [dedentLines, margin_templateLines, List.length_replicate]
    rfl
  rw [hdedent, templateLines, List.map_append, List.map_append, List.map_append, List.map_cons,
    hlines _ hbefore, hlines _ hafter]
  rfl

def hang (width : Nat) : List String → List Points
  | [] => []
  | first :: rest => Points.ofString first :: rest.map (setIn width)

theorem prompt_eq (digest : Points) :
    prompt digest = joinLines (hang (leftOver digest) instructionsBefore ++ digestLines digest
      ++ instructionsAfter.map (setIn (leftOver digest))) := by
  obtain ⟨opening, rest, hbefore, hopening⟩ := exists_opening
  obtain ⟨closing, hafter, hclosing⟩ := exists_closing
  have hne : closing ≠ "" := by
    rintro rfl
    cases hclosing
  let spaces : Points := List.replicate (leftOver digest) (.char ' ')
  let front := Points.ofString opening :: rest.map (setIn (leftOver digest)) ++ digestLines digest
  have hspaces : ∀ p ∈ lineFeed :: spaces, CodePoint.isBlank p := by
    refine List.forall_mem_cons.2 ⟨rfl, fun p hp => ?_⟩
    rw [(List.mem_replicate.1 hp).2]
    rfl
  have hbody : joinLines (dedentLines (templateLines digest)) =
      (lineFeed :: spaces) ++ joinLines (front ++ [spaces ++ Points.ofString closing]) ++
        [lineFeed] := by
    rw [dedentLines_templateLines, hbefore, hafter, Text.joinLines_concat (by simp), List.map_cons,
      setIn_of_ne (ne_empty_of_head? hopening)]
    simp only [List.cons_append, List.map_cons, List.map_nil, setIn_of_ne hne]
    rw [Text.joinLines_cons (by simp), Text.joinLines_append_cons]
    simp [front, spaces]
  rw [prompt, Text.dedent, splitLines_filledTemplate, hbody, hbefore, hafter]
  simp only [hang, List.map_cons, List.map_nil, setIn_of_ne hne]
  refine Text.trim_append hspaces (List.forall_mem_singleton.2 rfl) ?_ ?_ ?_
  · rw [Text.joinLines_concat (by simp [front])]
    simp
  · obtain ⟨cs, hcs⟩ := List.head?_eq_some_iff.1 hopening
    have hfirst : Points.ofString opening = .char 'Y' :: cs.map .char := by
      rw [Points.ofString, hcs]
      rfl
    simp only [front, hfirst, List.cons_append]
    rw [Text.joinLines_cons (by simp)]
    rintro p ⟨⟩
    rfl
  · have hlast : (Points.ofString closing).getLast? = some (.char '-') := by
      rw [Points.ofString, Points.ofChars, List.getLast?_map, hclosing]
      rfl
    rw [Text.joinLines_concat (by simp [front])]
    simp only [List.getLast?_append, List.getLast?_cons, hlast]
    rintro p ⟨⟩
    rfl

theorem lineFeed_not_mem_digestLines {digest line : Points} (h : line ∈ digestLines digest) :
    lineFeed ∉ line := by
  obtain ⟨whole, hwhole, rfl⟩ := List.mem_map.1 h
  rw [dropMargin]
  split
  · simp
  · exact fun hmem => Text.lineFeed_not_mem hwhole (List.mem_of_mem_drop hmem)

theorem setIn_zero (line : String) : setIn 0 line = Points.ofString line := by
  rw [setIn]
  split
  · next h => rw [h]; rfl
  · rfl

theorem exists_of_mem_hang {width : Nat} {lines : List String} {line : Points}
    (h : line ∈ hang width lines) : ∃ text ∈ lines, ∃ width, line = setIn width text := by
  cases lines with
  | nil => cases h
  | cons first rest =>
    rcases List.mem_cons.1 h with rfl | h
    · exact ⟨first, List.mem_cons_self, 0, (setIn_zero first).symm⟩
    · obtain ⟨text, htext, rfl⟩ := List.mem_map.1 h
      exact ⟨text, List.mem_cons_of_mem _ htext, width, rfl⟩

theorem splitLines_prompt (digest : Points) :
    splitLines (prompt digest) = hang (leftOver digest) instructionsBefore ++ digestLines digest
      ++ instructionsAfter.map (setIn (leftOver digest)) := by
  rw [prompt_eq, Text.splitLines_joinLines (by simp [instructionsAfter])]
  refine Text.flatMap_splitLines fun line hline => ?_
  rcases List.mem_append.1 hline with hline | hline
  · rcases List.mem_append.1 hline with hline | hline
    · obtain ⟨text, htext, width, rfl⟩ := exists_of_mem_hang hline
      exact lineFeed_not_mem_setIn (List.mem_append_left _ htext) width
    · exact lineFeed_not_mem_digestLines hline
  · obtain ⟨text, htext, rfl⟩ := List.mem_map.1 hline
    exact lineFeed_not_mem_setIn (List.mem_append_right _ htext) _

theorem length_hang (width : Nat) (lines : List String) :
    (hang width lines).length = lines.length := by
  cases lines <;> simp [hang]

theorem length_digestLines (digest : Points) :
    (digestLines digest).length = (splitLines digest).length := by
  obtain ⟨first, later, hdigest⟩ := List.exists_cons_of_ne_nil (Text.splitLines_ne_nil digest)
  rw [digestLines, splitLines_margin_append hdigest, hdigest]
  simp

theorem linesBefore_eq (digest : Points) :
    linesBefore digest = hang (leftOver digest) instructionsBefore := by
  rw [linesBefore, splitLines_prompt, List.append_assoc, List.take_left' (length_hang _ _)]

theorem linesAfter_eq (digest : Points) :
    linesAfter digest = instructionsAfter.map (setIn (leftOver digest)) := by
  rw [linesAfter, splitLines_prompt, List.drop_left']
  rw [List.length_append, length_hang, length_digestLines]

theorem setIn_inj {line : String} (h : line ≠ "") {width width' : Nat} :
    setIn width line = setIn width' line ↔ width = width' := by
  rw [setIn_of_ne h, setIn_of_ne h, List.append_left_inj]
  exact ⟨fun heq => by simpa using congrArg List.length heq, fun heq => by rw [heq]⟩

theorem map_setIn_instructionsAfter_inj {width width' : Nat} :
    instructionsAfter.map (setIn width) = instructionsAfter.map (setIn width') ↔
      width = width' := by
  rw [instructionsAfter, List.map_singleton, List.map_singleton, List.cons.injEq]
  simp [setIn_inj]

theorem hang_zero (lines : List String) : hang 0 lines = lines.map Points.ofString := by
  cases lines <;> simp [hang, setIn_zero]

theorem leftOver_eq_zero_iff {digest : Points} :
    leftOver digest = 0 ↔ ∀ line ∈ (splitLines digest).tail,
      isPadding line ∨ Points.ofString templateMargin <+: line := by
  obtain ⟨first, later, hdigest⟩ := List.exists_cons_of_ne_nil (Text.splitLines_ne_nil digest)
  rw [leftOver, Nat.sub_eq_zero_iff_le, le_sharedMargin_iff hdigest, ofString_templateMargin,
    hdigest]
  simp only [Nat.le_refl, true_and, List.tail_cons, ← Bool.not_eq_true,
    Decidable.or_iff_not_imp_left]

theorem leftOver_inj {digest digest' : Points} :
    leftOver digest = leftOver digest' ↔ sharedMargin digest = sharedMargin digest' := by
  have h := sharedMargin_le digest
  have h' := sharedMargin_le digest'
  rw [leftOver, leftOver]
  omega

/-- The instructions around two digests are the same just if the lines of the two share equally
much of the template's margin; they are free of that margin just if every line of the digest after
the first is padding or starts with the whole margin. -/
theorem instructions_same_iff (digest digest' : Points) :
    splitLines (prompt digest) = linesBefore digest ++ digestLines digest ++ linesAfter digest ∧
      (linesBefore digest = linesBefore digest' ∧ linesAfter digest = linesAfter digest' ↔
        sharedMargin digest = sharedMargin digest') ∧
      (linesBefore digest = instructionsBefore.map Points.ofString ∧
        linesAfter digest = instructionsAfter.map Points.ofString ↔
          ∀ line ∈ (splitLines digest).tail,
            isPadding line ∨ Points.ofString templateMargin <+: line) := by
  have hflush (lines : List String) : lines.map Points.ofString = lines.map (setIn 0) :=
    List.map_congr_left fun line _ => (setIn_zero line).symm
  refine ⟨?_, ?_, ?_⟩
  · rw [linesBefore_eq, linesAfter_eq, splitLines_prompt]
  · rw [← leftOver_inj, linesBefore_eq, linesBefore_eq, linesAfter_eq, linesAfter_eq,
      map_setIn_instructionsAfter_inj]
    exact ⟨And.right, fun h => ⟨by rw [h], h⟩⟩
  · rw [← leftOver_eq_zero_iff, linesBefore_eq, linesAfter_eq, ← hang_zero, hflush,
      map_setIn_instructionsAfter_inj]
    exact ⟨And.right, fun h => ⟨by rw [h], h⟩⟩

theorem instructions_keep_margin :
    ¬ (linesBefore (Points.ofString "a\nb") = linesBefore (Points.ofString "a") ∧
        linesAfter (Points.ofString "a\nb") = linesAfter (Points.ofString "a")) ∧
      ¬ (linesBefore (Points.ofString "a\nb") = instructionsBefore.map Points.ofString ∧
        linesAfter (Points.ofString "a\nb") = instructionsAfter.map Points.ofString) := by
  obtain ⟨-, hsame, hflush⟩ := instructions_same_iff (Points.ofString "a\nb") (Points.ofString "a")
  rw [hsame, hflush]
  decide +kernel

end CodeAtlas.Readme
