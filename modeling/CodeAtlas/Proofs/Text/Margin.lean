import CodeAtlas.Proofs.Text.Lines
import CodeAtlas.Text.Margin

/-! The margin of lines as a greatest lower bound: what all lines but padding start with, and
nothing more. -/

namespace CodeAtlas.Text

variable {p : Points}

theorem prefix_commonStart_iff {a b : Points} :
    p <+: commonStart a b ↔ p <+: a ∧ p <+: b := by
  induction p generalizing a b with
  | nil => simp
  | cons c p ih =>
    cases a with
    | nil => simp [commonStart]
    | cons x a =>
      cases b with
      | nil => simp [commonStart]
      | cons y b =>
        rw [commonStart]
        split
        · next h =>
          rw [← h, List.cons_prefix_cons, List.cons_prefix_cons, List.cons_prefix_cons, ih]
          exact and_and_left
        · next h =>
          rw [List.cons_prefix_cons, List.cons_prefix_cons]
          constructor
          · intro hnil
            simp at hnil
          · rintro ⟨⟨rfl, -⟩, rfl, -⟩
            exact absurd rfl h

theorem prefix_takeWhile_iff {α : Type} {q : α → Bool} {start as : List α} :
    start <+: as.takeWhile q ↔ start <+: as ∧ ∀ a ∈ start, q a := by
  constructor
  · intro h
    refine ⟨h.trans (List.takeWhile_prefix q), fun a ha => ?_⟩
    exact List.all_eq_true.1 List.all_takeWhile a (h.subset ha)
  · rintro ⟨⟨rest, rfl⟩, hall⟩
    rw [List.takeWhile_append_of_pos hall]
    exact List.prefix_append _ _

theorem prefix_commonIndent_iff {lines : List Points} (h : lines ≠ []) :
    p <+: commonIndent lines ↔ ∀ line ∈ lines, p <+: indent line := by
  induction lines with
  | nil => exact absurd rfl h
  | cons first rest ih =>
    cases rest with
    | nil => simp [commonIndent]
    | cons second rest =>
      have hrest := ih (List.cons_ne_nil second rest)
      rw [commonIndent, prefix_commonStart_iff, hrest]
      · simp only [List.forall_mem_cons]
      · simp

theorem prefix_margin_iff {lines : List Points} (h : ∃ line ∈ lines, isPadding line = false) :
    p <+: margin lines ↔ ∀ line ∈ lines, isPadding line = false → p <+: indent line := by
  obtain ⟨line, hline, hpadding⟩ := h
  have hne : lines.filter (fun line => !isPadding line) ≠ [] := by
    intro hnil
    have hmem : line ∈ lines.filter fun line => !isPadding line := by simp [hline, hpadding]
    rw [hnil] at hmem
    cases hmem
  rw [margin, prefix_commonIndent_iff hne]
  simp

theorem replicate_prefix_iff {n : Nat} {c : CodePoint} {line : Points} :
    List.replicate n c <+: line ↔ n ≤ (line.takeWhile (· = c)).length := by
  have hall : ∀ a ∈ List.replicate n c, decide (a = c) = true := by simp
  have hstart : List.replicate n c <+: line ↔ List.replicate n c <+: line.takeWhile (· = c) := by
    rw [prefix_takeWhile_iff]
    exact ⟨fun h => ⟨h, hall⟩, And.left⟩
  have heq : line.takeWhile (· = c) = List.replicate (line.takeWhile (· = c)).length c := by
    rw [List.eq_replicate_iff]
    refine ⟨rfl, fun a ha => ?_⟩
    simpa using List.all_eq_true.1 List.all_takeWhile a ha
  rw [hstart, heq, List.length_replicate, List.prefix_replicate_iff]
  simp

theorem dropWhile_append_of_head {α : Type} {q : α → Bool} {before as : List α}
    (hbefore : ∀ a ∈ before, q a) (has : ∀ a ∈ as.head?, q a = false) :
    (before ++ as).dropWhile q = as := by
  rw [List.dropWhile_append_of_pos hbefore]
  cases as with
  | nil => rfl
  | cons a as => exact List.dropWhile_cons_of_neg (by simpa using has)

theorem trim_append {α : Type} {q : α → Bool} {before as after : List α}
    (hbefore : ∀ a ∈ before, q a) (hafter : ∀ a ∈ after, q a) (hne : as ≠ [])
    (hfirst : ∀ a ∈ as.head?, q a = false) (hlast : ∀ a ∈ as.getLast?, q a = false) :
    trim q (before ++ as ++ after) = as := by
  have hhead : ∀ a ∈ (as ++ after).head?, q a = false := by
    obtain ⟨a, as, rfl⟩ := List.exists_cons_of_ne_nil hne
    exact hfirst
  rw [trim, List.append_assoc, dropWhile_append_of_head hbefore hhead, List.reverse_append,
    dropWhile_append_of_head (by simpa using hafter) (by rwa [List.head?_reverse]),
    List.reverse_reverse]

end CodeAtlas.Text
