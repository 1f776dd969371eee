import CodeAtlas.Text.CodePoint

/-! Sorted lists of texts hold what was put into them, in strictly rising order. -/

namespace CodeAtlas.Text

theorem mem_insertSorted {text t : String} {texts : List String} :
    t ∈ insertSorted text texts ↔ t = text ∨ t ∈ texts := by
  induction texts with
  | nil => simp [insertSorted]
  | cons first texts ih =>
    rw [insertSorted]
    split
    · simp
    · split
      · next h => simp [h]
      · rw [List.mem_cons, ih, List.mem_cons]
        grind

theorem mem_sortedUnique {t : String} {texts : List String} :
    t ∈ sortedUnique texts ↔ t ∈ texts := by
  induction texts with
  | nil => rfl
  | cons first texts ih => rw [sortedUnique, mem_insertSorted, ih, List.mem_cons]

theorem insertSorted_pairwise (text : String) {texts : List String}
    (h : texts.Pairwise (· < ·)) : (insertSorted text texts).Pairwise (· < ·) := by
  induction texts with
  | nil => simp [insertSorted]
  | cons first texts ih =>
    obtain ⟨hfirst, hrest⟩ := List.pairwise_cons.1 h
    rw [insertSorted]
    split
    · next hlt =>
      refine List.pairwise_cons.2 ⟨fun t ht => ?_, h⟩
      obtain rfl | ht := List.mem_cons.1 ht
      · exact hlt
      · exact String.lt_trans hlt (hfirst t ht)
    · split
      · exact h
      · next hlt hne =>
        refine List.pairwise_cons.2 ⟨fun t ht => ?_, ih hrest⟩
        obtain rfl | ht := mem_insertSorted.1 ht
        · grind
        · exact hfirst t ht

theorem sortedUnique_pairwise (texts : List String) :
    (sortedUnique texts).Pairwise (· < ·) := by
  induction texts with
  | nil => exact List.Pairwise.nil
  | cons first texts ih => exact insertSorted_pairwise first ih

end CodeAtlas.Text
