import CodeAtlas.Proofs.Readme.Prompt
import Mathlib.Order.Bounds.Defs

/-! The digest in its prompt. What is taken from its lines is the widest run of spaces and tabs that
all lines of the filled template start with. Since the template has spaces only, that run is one of
spaces, and nothing else of the digest is lost but the padding of empty lines. -/

namespace CodeAtlas

namespace Text

def sharedRuns (lines : List Points) : Set Nat :=
  {n | ∃ run : Points, run.length = n ∧ (∀ p ∈ run, p.isPad) ∧
    ∀ line ∈ lines, isPadding line = false → run <+: line}

theorem isGreatest_sharedRuns {lines : List Points} (h : ∃ line ∈ lines, isPadding line = false) :
    IsGreatest (sharedRuns lines) (margin lines).length := by
  have hrun (run : Points) : run <+: margin lines ↔
      ∀ line ∈ lines, isPadding line = false → run <+: line ∧ ∀ p ∈ run, p.isPad := by
    simp only [prefix_margin_iff h, indent, prefix_takeWhile_iff]
  constructor
  · have hmargin := (hrun (margin lines)).1 (List.prefix_refl _)
    obtain ⟨line, hline, hpadding⟩ := h
    exact ⟨margin lines, rfl, (hmargin line hline hpadding).2,
      fun line hline hpadding => (hmargin line hline hpadding).1⟩
  · rintro n ⟨run, rfl, hpads, hlines⟩
    exact ((hrun run).2 fun line hline hpadding =>
      ⟨hlines line hline hpadding, hpads⟩).length_le

theorem splitLines_dedent (text : Points) :
    splitLines (dedent text) = dedentLines (splitLines text) := by
  have hne : dedentLines (splitLines text) ≠ [] := by
    simpa [dedentLines] using splitLines_ne_nil text
  rw [dedent, splitLines_joinLines hne]
  refine flatMap_splitLines fun line hline => ?_
  obtain ⟨whole, hwhole, rfl⟩ := List.mem_map.1 hline
  split
  · exact List.not_mem_nil
  · exact fun hmem => lineFeed_not_mem hwhole (List.mem_of_mem_drop hmem)

end Text

namespace Readme

open Text (Points splitLines isPadding sharedRuns)

/-- Lines that stand in a prompt: the first is set in, from the others a margin is taken, and
padding is emptied. -/
def standing (left width : Nat) : List Points → List Points
  | [] => []
  | first :: later =>
    (if isPadding first then [] else List.replicate left (.char ' ') ++ first) ::
      later.map (dropMargin width)

theorem dropMargin_first {width : Nat} (h : width ≤ templateMargin.length) (first : Points) :
    dropMargin width (List.replicate templateMargin.length (.char ' ') ++ first) =
      if isPadding first then []
      else List.replicate (templateMargin.length - width) (.char ' ') ++ first := by
  have hpadding : isPadding (List.replicate templateMargin.length (.char ' ') ++ first) =
      isPadding first := by
    rw [isPadding, List.all_append, List.all_eq_true.2]
    · rfl
    · intro p hp
      rw [(List.mem_replicate.1 hp).2]
      rfl
  rw [dropMargin, hpadding, List.drop_append_of_le_length (by simpa using h), List.drop_replicate]

theorem digestLines_eq (digest : Points) :
    digestLines digest =
      standing (leftOver digest) (sharedMargin digest) (splitLines digest) := by
  obtain ⟨first, later, hdigest⟩ := List.exists_cons_of_ne_nil (Text.splitLines_ne_nil digest)
  rw [digestLines, splitLines_margin_append hdigest, hdigest, List.map_cons,
    dropMargin_first (sharedMargin_le digest)]
  rfl

theorem isGreatest_sharedMargin (digest : Points) :
    IsGreatest (sharedRuns (splitLines (filledTemplate digest))) (sharedMargin digest) := by
  obtain ⟨line, hmem, hpadding, -⟩ := exists_mem_templateLines digest
  have hgreatest := Text.isGreatest_sharedRuns ⟨line, hmem, hpadding⟩
  rwa [margin_templateLines, List.length_replicate, ← splitLines_filledTemplate] at hgreatest

/-- A digest survives in its prompt line by line: its first line is set in, from the others the
widest run that all lines share is taken, which is one of spaces, and padding is emptied. The lines
are the same before white space is stripped from the ends of the prompt. -/
theorem digest_survives (digest : Points) :
    ∃ m ≤ 8, IsGreatest (sharedRuns (splitLines (filledTemplate digest))) m ∧
      (∀ line ∈ (splitLines digest).tail, isPadding line = false →
        List.replicate m (.char ' ') <+: line) ∧
      (∃ before after, splitLines (prompt digest) =
          before ++ standing (8 - m) m (splitLines digest) ++ after ∧
        before.length = instructionsBefore.length ∧ after.length = instructionsAfter.length) ∧
      ∃ before after, splitLines (Text.dedent (filledTemplate digest)) =
          before ++ standing (8 - m) m (splitLines digest) ++ after ∧
        before.length = instructionsBefore.length + 1 ∧
        after.length = instructionsAfter.length + 1 := by
  have hwidth : templateMargin.length = 8 := by decide +kernel
  have hlines : digestLines digest =
      standing (8 - sharedMargin digest) (sharedMargin digest) (splitLines digest) := by
    rw [digestLines_eq, leftOver, hwidth]
  refine ⟨sharedMargin digest, hwidth ▸ sharedMargin_le digest, isGreatest_sharedMargin digest,
    ?_, ?_, ?_⟩
  · obtain ⟨first, later, hdigest⟩ := List.exists_cons_of_ne_nil (Text.splitLines_ne_nil digest)
    rw [hdigest]
    exact ((le_sharedMargin_iff hdigest).1 (Nat.le_refl _)).2
  · rw [← hlines, splitLines_prompt]
    exact ⟨_, _, rfl, length_hang _ _, List.length_map _⟩
  · rw [← hlines, Text.splitLines_dedent, splitLines_filledTemplate, dedentLines_templateLines,
      List.append_assoc]
    exact ⟨_, _, rfl, by simp, by simp⟩

end Readme

end CodeAtlas
