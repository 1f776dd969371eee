import CodeAtlas.Proofs.Html.Headings
import Mathlib.Data.List.Nodup

/-! Where the links of a page lead. A heading's id keeps letters, digits and white space of its
title, so headings share an id just if their titles differ in nothing else but the case of letters.
A link then leads to the first of them, and to none if the id is empty. -/

namespace CodeAtlas.Html

def titles (html : String) : List (List Char) := (pieces html.toList).filterMap Piece.title?

def ids (html : String) : List (List Char) := (titles html).map slug

/-- The number of the heading to which a link leads, the first that has the id. The empty link leads
to the top of the page. -/
def target? (ids : List (List Char)) (id : List Char) : Option Nat :=
  if id = [] then none else ids.idxOf? id

theorem target?_iff (ids : List (List Char)) :
    (∀ i id, ids[i]? = some id → target? ids id = some i) ↔ ids.Nodup ∧ [] ∉ ids := by
  constructor
  · intro hhome
    constructor
    · rw [List.nodup_iff_getElem?_ne_getElem?]
      intro i j hij hj heq
      rw [List.getElem?_eq_getElem hj] at heq
      have hsame := (hhome i _ heq).symm.trans (hhome j _ (List.getElem?_eq_getElem hj))
      exact Nat.ne_of_lt hij (Option.some.inj hsame)
    · intro hmem
      obtain ⟨i, hi⟩ := List.mem_iff_getElem?.1 hmem
      have hnone := hhome i [] hi
      rw [target?, if_pos rfl] at hnone
      cases hnone
  · rintro ⟨hnodup, hempty⟩ i id hi
    have hne : id ≠ [] := fun heq => hempty (heq ▸ List.mem_of_getElem? hi)
    obtain ⟨hlt, rfl⟩ := List.getElem?_eq_some_iff.1 hi
    rw [target?, if_neg hne, List.idxOf?_eq_some_iff]
    refine ⟨hlt, rfl, fun j hj heq => ?_⟩
    exact Nat.ne_of_lt hj (hnodup.getElem_inj_iff.1 heq)

/-! Titles with the same id -/

/-- Titles that agree in their letters, digits and white space, where capital letters are not told
from small ones. -/
inductive Alike : List Char → List Char → Prop
  | nil : Alike [] []
  | skipLeft {c : Char} {t u : List Char} (hc : ¬ isSlugChar c) (h : Alike t u) : Alike (c :: t) u
  | skipRight {c : Char} {t u : List Char} (hc : ¬ isSlugChar c) (h : Alike t u) : Alike t (c :: u)
  | keep {c d : Char} {t u : List Char} (hc : isSlugChar c) (hd : isSlugChar d)
    (hcase : c.toLower = d.toLower) (h : Alike t u) : Alike (c :: t) (d :: u)

def slugChar (c : Char) : Char := if c = ' ' then '-' else c.toLower

theorem slug_cons (c : Char) (title : List Char) :
    slug (c :: title) = if isSlugChar c then slugChar c :: slug title else slug title := by
  rw [slug, List.filter_cons]
  split <;> rfl

theorem slug_cons_of_pos {c : Char} (h : isSlugChar c) (title : List Char) :
    slug (c :: title) = slugChar c :: slug title := by rw [slug_cons, if_pos h]

theorem slug_cons_of_neg {c : Char} (h : ¬ isSlugChar c) (title : List Char) :
    slug (c :: title) = slug title := by rw [slug_cons, if_neg h]

theorem eq_space_of_toLower {c : Char} (h : c.toLower = ' ') : c = ' ' := by
  have hlower := toNat_toLower c
  rw [h] at hlower
  split at hlower
  · next hcapital =>
    have hspace : ' '.toNat = 32 := rfl
    omega
  · exact Char.toNat_inj.1 hlower.symm

theorem toLower_ne_dash {c : Char} (h : isSlugChar c) : c.toLower ≠ '-' := by
  intro hdash
  have htoNat : c.toLower.toNat = 45 := by rw [hdash]; rfl
  rcases toLower_cases h with hsmall | hdigit | ⟨hblank, hsame⟩
  · omega
  · omega
  · rw [← hsame, hdash] at hblank
    exact absurd hblank (by decide)

theorem slugChar_eq_iff {c d : Char} (hc : isSlugChar c) (hd : isSlugChar d) :
    slugChar c = slugChar d ↔ c.toLower = d.toLower := by
  have hspace {c : Char} (hc : isSlugChar c) (hne : c ≠ ' ') :
      ('-' = c.toLower ↔ ' '.toLower = c.toLower) :=
    iff_of_false (toLower_ne_dash hc).symm fun h => hne (eq_space_of_toLower h.symm)
  unfold slugChar
  by_cases hc' : c = ' ' <;> by_cases hd' : d = ' '
  · simp [hc', hd']
  · rw [if_pos hc', if_neg hd', hc']
    exact hspace hd hd'
  · rw [if_neg hc', if_pos hd', hd', eq_comm, hspace hc hc', eq_comm]
  · rw [if_neg hc', if_neg hd']

theorem slug_eq_slug_iff {t u : List Char} : slug t = slug u ↔ Alike t u := by
  constructor
  · intro h
    induction t generalizing u with
    | nil =>
      induction u with
      | nil => exact .nil
      | cons d u ih =>
        by_cases hd : isSlugChar d
        · rw [slug_cons_of_pos hd] at h
          cases h
        · rw [slug_cons_of_neg hd] at h
          exact .skipRight hd (ih h)
    | cons c t iht =>
      by_cases hc : isSlugChar c
      · rw [slug_cons_of_pos hc] at h
        induction u with
        | nil => cases h
        | cons d u ihu =>
          by_cases hd : isSlugChar d
          · rw [slug_cons_of_pos hd] at h
            obtain ⟨hcase, hrest⟩ := List.cons.inj h
            exact .keep hc hd ((slugChar_eq_iff hc hd).1 hcase) (iht hrest)
          · rw [slug_cons_of_neg hd] at h
            exact .skipRight hd (ihu h)
      · rw [slug_cons_of_neg hc] at h
        exact .skipLeft hc (iht h)
  · intro h
    induction h with
    | nil => rfl
    | skipLeft hc _ ih => rw [slug_cons_of_neg hc, ih]
    | skipRight hc _ ih => rw [slug_cons_of_neg hc, ih]
    | keep hc hd hcase _ ih =>
      rw [slug_cons_of_pos hc, slug_cons_of_pos hd, ih, (slugChar_eq_iff hc hd).2 hcase]

theorem slug_eq_nil_iff {title : List Char} : slug title = [] ↔ ∀ c ∈ title, ¬ isSlugChar c := by
  rw [slug, List.map_eq_nil_iff, List.filter_eq_nil_iff]

/-- Every link leads to the heading it stands in just if the ids are all different and none is
empty. They are so just if no two titles are alike and each has a letter, a digit or white space. -/
theorem links_lead_home_iff (html : String) :
    (∃ o : Outline html.toList, (addAnchors html).toList = o.linked ∧ o.ids = ids html) ∧
      ((∀ i id, (ids html)[i]? = some id → target? (ids html) id = some i) ↔
        (ids html).Nodup ∧ [] ∉ ids html) ∧
      ((ids html).Nodup ∧ [] ∉ ids html ↔
        (titles html).Pairwise (fun t u => ¬ Alike t u) ∧
          ∀ t ∈ titles html, ∃ c ∈ t, isSlugChar c) := by
  refine ⟨?_, target?_iff _, ?_⟩
  · obtain ⟨o, hlinked, htitles⟩ := exists_outline html.toList
    refine ⟨o, by rw [addAnchors, String.toList_ofList, hlinked], ?_⟩
    rw [ids, titles, htitles, Outline.ids]
  · have hempty : [] ∉ ids html ↔ ∀ t ∈ titles html, ∃ c ∈ t, isSlugChar c := by
      simp only [ids, List.mem_map, slug_eq_nil_iff, not_exists, not_and, not_forall, not_not,
        exists_prop]
    rw [hempty, ids, List.Nodup, List.pairwise_map]
    simp only [ne_eq, slug_eq_slug_iff]

def usageTwice : String := "<h2>Usage</h2><h2>Usage</h2>"

theorem usageTwice_leads_astray :
    ids usageTwice = ["usage".toList, "usage".toList] ∧
      target? (ids usageTwice) "usage".toList = some 0 ∧
      ¬ ∀ i id, (ids usageTwice)[i]? = some id → target? (ids usageTwice) id = some i := by
  have hids : ids usageTwice = ["usage".toList, "usage".toList] := by decide +kernel
  refine ⟨hids, by rw [hids]; decide, fun hhome => ?_⟩
  have hnodup := ((links_lead_home_iff usageTwice).2.1.1 hhome).1
  rw [hids] at hnodup
  exact absurd hnodup (by decide)

end CodeAtlas.Html
