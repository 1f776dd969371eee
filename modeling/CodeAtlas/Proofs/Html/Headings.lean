import CodeAtlas.Html.Anchors

/-! A page cut at its headings. Reading a heading is sound and complete: it finds a tag that opens a
heading, a title on one line, and the first tag that closes the heading. So the characters that are
left between headings hold no heading, and only headings are changed. -/

namespace CodeAtlas.Html

structure IsTitle (level : Char) (title : List Char) : Prop where
  lineFeed_not_mem : '\n' ∉ title
  not_closed : ¬ closeTag level <:+: title

structure Heading where
  level : Char
  title : List Char
  isLevel_level : isLevel level
  isTitle_title : IsTitle level title

namespace Heading

def source (h : Heading) : List Char := openTag h.level ++ h.title ++ closeTag h.level

def linked (id : List Char) (h : Heading) : List Char :=
  ['<', 'h', h.level] ++ (" id=\"".toList ++ id ++ ['"']) ++ ['>'] ++ h.title
    ++ (" <a class=\"anchor\" href=\"#".toList ++ id ++ "\" aria-hidden=\"true\">#</a>".toList)
    ++ closeTag h.level

end Heading

structure Outline (page : List Char) where
  first : List Char
  sections : List (Heading × List Char)
  source_eq : first ++ sections.flatMap (fun s => s.1.source ++ s.2) = page
  not_infix_gap : ∀ gap ∈ first :: sections.map Prod.snd, ∀ h : Heading, ¬ h.source <:+: gap

namespace Outline

variable {page : List Char} (o : Outline page)

def titles : List (List Char) := o.sections.map fun s => s.1.title

def ids : List (List Char) := o.titles.map slug

def linked : List Char :=
  o.first ++ o.sections.flatMap fun s => s.1.linked (slug s.1.title) ++ s.2

end Outline

def Piece.title? : Piece → Option (List Char)
  | char _ => none
  | heading _ title => some title

/-! Reading a heading -/

theorem prefix_of_prefix_append_cons {α : Type} {l front back : List α} {a : α}
    (h : l <+: front ++ a :: back) (ha : a ∉ l) : l <+: front := by
  rcases List.prefix_or_prefix_of_prefix h (List.prefix_append front (a :: back)) with
    h' | ⟨more, rfl⟩
  · exact h'
  · rw [List.prefix_append_right_inj] at h
    cases more with
    | nil => exact ⟨[], by simp⟩
    | cons b more =>
      obtain ⟨rfl, -⟩ := List.cons_prefix_cons.1 h
      exact absurd (List.mem_append_right _ List.mem_cons_self) ha

section
variable {level : Char} {title cs rest : List Char}

theorem ne_of_isLevel (h : isLevel level) : level ≠ '<' := by
  rintro rfl
  exact absurd h (by decide)

/-- The closing tag of a heading is not found before its end: two such tags do not overlap. -/
theorem IsTitle.eq_nil_of_prefix (hlevel : isLevel level) (htitle : IsTitle level title)
    (h : closeTag level <+: title ++ closeTag level ++ rest) : title = [] := by
  cases title with
  | nil => rfl
  | cons c title =>
    rw [List.append_assoc, List.cons_append] at h
    obtain ⟨hc, htail⟩ := List.cons_prefix_cons.1 h
    have hshort : ['/', 'h', level, '>'] <+: title :=
      prefix_of_prefix_append_cons htail (by simp [(ne_of_isLevel hlevel).symm])
    have hclosed : closeTag level <+: c :: title := List.cons_prefix_cons.2 ⟨hc, hshort⟩
    exact absurd hclosed.isInfix htitle.not_closed

theorem isTitle_cons_iff {c : Char} :
    IsTitle level (c :: title) ↔
      c ≠ '\n' ∧ ¬ closeTag level <+: c :: title ∧ IsTitle level title := by
  constructor
  · rintro ⟨hline, hclosed⟩
    rw [List.mem_cons, not_or] at hline
    rw [List.infix_cons_iff, not_or] at hclosed
    exact ⟨Ne.symm hline.1, hclosed.1, hline.2, hclosed.2⟩
  · rintro ⟨hc, hstart, hline, hclosed⟩
    refine ⟨?_, ?_⟩
    · rw [List.mem_cons, not_or]
      exact ⟨hc.symm, hline⟩
    · rw [List.infix_cons_iff, not_or]
      exact ⟨hstart, hclosed⟩

theorem titleAndRest?_eq_some_iff (hlevel : isLevel level) :
    titleAndRest? level cs = some (title, rest) ↔
      IsTitle level title ∧ cs = title ++ closeTag level ++ rest := by
  induction cs generalizing title with
  | nil => simp [titleAndRest?, closeTag]
  | cons c cs ih =>
    rw [titleAndRest?]
    by_cases hclosed : closeTag level <+: c :: cs
    · rw [if_pos (List.isPrefixOf_iff_prefix.2 hclosed)]
      obtain ⟨behind, hbehind⟩ := hclosed
      have hdrop : (c :: cs).drop 5 = behind := by
        rw [← hbehind]
        rfl
      rw [hdrop, ← hbehind]
      constructor
      · intro h
        obtain ⟨rfl, rfl⟩ := Prod.mk.inj (Option.some.inj h)
        exact ⟨⟨List.not_mem_nil, by simp [closeTag]⟩, rfl⟩
      · rintro ⟨htitle, heq⟩
        obtain rfl := htitle.eq_nil_of_prefix hlevel (heq ▸ List.prefix_append _ _)
        rw [List.nil_append, List.append_cancel_left_eq] at heq
        rw [heq]
    · rw [if_neg fun h => hclosed (List.isPrefixOf_iff_prefix.1 h)]
      have hfirst : c :: cs = title ++ closeTag level ++ rest ↔
          ∃ t, title = c :: t ∧ cs = t ++ closeTag level ++ rest := by
        cases title with
        | nil =>
          constructor
          · intro h
            exact absurd ⟨rest, h.symm⟩ hclosed
          · rintro ⟨t, ht, -⟩
            cases ht
        | cons b t => simp only [List.cons_append, List.cons.injEq]; grind
      rw [hfirst]
      by_cases hc : c = '\n'
      · rw [if_pos hc]
        constructor
        · intro h
          cases h
        · rintro ⟨htitle, t, rfl, -⟩
          exact absurd hc (isTitle_cons_iff.1 htitle).1
      · rw [if_neg hc, Option.map_eq_some_iff]
        constructor
        · rintro ⟨⟨t, r⟩, hread, heq⟩
          obtain ⟨rfl, rfl⟩ := Prod.mk.inj heq
          obtain ⟨ht, hcs⟩ := ih.1 hread
          have hlonger : c :: t <+: c :: cs :=
            List.cons_prefix_cons.2 ⟨rfl, hcs ▸ ⟨closeTag level ++ r, by simp⟩⟩
          exact ⟨isTitle_cons_iff.2 ⟨hc, fun h => hclosed (h.trans hlonger), ht⟩, t, rfl, hcs⟩
        · rintro ⟨htitle, t, rfl, hcs⟩
          exact ⟨(t, rest), ih.2 ⟨(isTitle_cons_iff.1 htitle).2.2, hcs⟩, rfl⟩

end

theorem heading?_source_append (h : Heading) (rest : List Char) :
    heading? (h.source ++ rest) = some (h.level, h.title, rest) := by
  have hsource : h.source ++ rest =
      '<' :: 'h' :: h.level :: '>' :: (h.title ++ closeTag h.level ++ rest) := by
    simp [Heading.source, openTag]
  have htitle : titleAndRest? h.level (h.title ++ closeTag h.level ++ rest) =
      some (h.title, rest) := (titleAndRest?_eq_some_iff h.isLevel_level).2 ⟨h.isTitle_title, rfl⟩
  rw [hsource, heading?, if_pos h.isLevel_level, htitle]
  rfl

theorem exists_heading_of_heading? {cs title rest : List Char} {level : Char}
    (hread : heading? cs = some (level, title, rest)) :
    ∃ h : Heading, h.level = level ∧ h.title = title ∧ cs = h.source ++ rest := by
  unfold heading? at hread
  split at hread
  · split at hread
    · next hlevel =>
      simp only [Option.map_eq_some_iff, Prod.exists, Prod.mk.injEq] at hread
      obtain ⟨t, r, hrest, rfl, rfl, rfl⟩ := hread
      obtain ⟨htitle, rfl⟩ := (titleAndRest?_eq_some_iff hlevel).1 hrest
      exact ⟨⟨_, _, hlevel, htitle⟩, rfl, rfl, by simp [Heading.source, openTag]⟩
    · cases hread
  · cases hread

theorem pieces_nil : pieces [] = [] := by
  rw [pieces]
  rfl

theorem pieces_source_append (h : Heading) (rest : List Char) :
    pieces (h.source ++ rest) = .heading h.level h.title :: pieces rest := by
  rw [pieces]
  split
  · next heq =>
    rw [heading?_source_append] at heq
    cases heq
    rfl
  · next heq =>
    rw [heading?_source_append] at heq
    cases heq

theorem pieces_cons {c : Char} {cs : List Char} (h : heading? (c :: cs) = none) :
    pieces (c :: cs) = .char c :: pieces cs := by
  rw [pieces]
  split
  · next heq =>
    rw [h] at heq
    cases heq
  · rfl

/-! The outline of a page -/

namespace Outline

def empty : Outline [] where
  first := []
  sections := []
  source_eq := rfl
  not_infix_gap := by simp [Heading.source, openTag]

def consChar {page : List Char} (c : Char) (o : Outline page) (h : heading? (c :: page) = none) :
    Outline (c :: page) where
  first := c :: o.first
  sections := o.sections
  source_eq := by rw [List.cons_append, o.source_eq]
  not_infix_gap := by
    have hgaps := List.forall_mem_cons.1 o.not_infix_gap
    refine List.forall_mem_cons.2 ⟨fun found hfound => ?_, hgaps.2⟩
    rcases List.infix_cons_iff.1 hfound with hfound | hfound
    · obtain ⟨rest, hrest⟩ : found.source <+: c :: page :=
        hfound.trans (List.cons_prefix_cons.2 ⟨rfl, ⟨_, o.source_eq⟩⟩)
      rw [← hrest, heading?_source_append] at h
      cases h
    · exact hgaps.1 found hfound

def consHeading {page : List Char} (h : Heading) (o : Outline page) :
    Outline (h.source ++ page) where
  first := []
  sections := (h, o.first) :: o.sections
  source_eq := by rw [List.nil_append, List.flatMap_cons, List.append_assoc, o.source_eq]
  not_infix_gap := by
    refine List.forall_mem_cons.2 ⟨?_, o.not_infix_gap⟩
    simp [Heading.source, openTag]

end Outline

theorem anchored_heading (h : Heading) :
    Piece.anchored (.heading h.level h.title) = h.linked (slug h.title) := by
  simp [Piece.anchored, Heading.linked]

theorem exists_outline (page : List Char) :
    ∃ o : Outline page, (pieces page).flatMap Piece.anchored = o.linked ∧
      (pieces page).filterMap Piece.title? = o.titles := by
  induction page using pieces.induct with
  | case1 page level title rest hread ih =>
    obtain ⟨h, rfl, rfl, rfl⟩ := exists_heading_of_heading? hread
    obtain ⟨o, hlinked, htitles⟩ := ih
    refine ⟨o.consHeading h, ?_, ?_⟩
    · rw [pieces_source_append, List.flatMap_cons, hlinked, anchored_heading]
      simp [Outline.linked, Outline.consHeading]
    · rw [pieces_source_append, List.filterMap_cons, htitles]
      rfl
  | case2 hread =>
    rw [pieces_nil]
    exact ⟨.empty, rfl, rfl⟩
  | case3 c cs hread ih =>
    obtain ⟨o, hlinked, htitles⟩ := ih
    refine ⟨o.consChar c hread, ?_, ?_⟩
    · rw [pieces_cons hread, List.flatMap_cons, hlinked]
      rfl
    · rw [pieces_cons hread, List.filterMap_cons, htitles]
      rfl

/-! The characters of an id -/

theorem toNat_toLower (c : Char) :
    c.toLower.toNat = if 65 ≤ c.toNat ∧ c.toNat ≤ 90 then c.toNat + 32 else c.toNat := by
  delta Char.toLower
  split
  · next h =>
    have hcapital : 65 ≤ c.toNat ∧ c.toNat ≤ 90 := h
    have hsum : (c.val + ('a'.val - 'A'.val)).toNat = (c.toNat + 32) % 2 ^ 32 :=
      UInt32.toNat_add _ _
    rw [if_pos hcapital, Char.toNat_mk, hsum]
    omega
  · next h => exact (if_neg h).symm

theorem isSlugChar_iff {c : Char} :
    isSlugChar c ↔ 97 ≤ c.toNat ∧ c.toNat ≤ 122 ∨ 65 ≤ c.toNat ∧ c.toNat ≤ 90 ∨
      48 ≤ c.toNat ∧ c.toNat ≤ 57 ∨ Text.isBlank c := by
  simp [isSlugChar, Char.le_def, UInt32.le_iff_toNat_le, Char.toNat_val, or_assoc]

def isIdChar (c : Char) : Bool :=
  ('a' ≤ c && c ≤ 'z') || ('0' ≤ c && c ≤ '9') || c = '-' || (Text.isBlank c && c ≠ ' ')

theorem isIdChar_iff {c : Char} :
    isIdChar c ↔ 97 ≤ c.toNat ∧ c.toNat ≤ 122 ∨ 48 ≤ c.toNat ∧ c.toNat ≤ 57 ∨ c = '-' ∨
      Text.isBlank c ∧ c ≠ ' ' := by
  simp [isIdChar, Char.le_def, UInt32.le_iff_toNat_le, Char.toNat_val, or_assoc]

theorem toNat_of_isBlank {c : Char} (h : Text.isBlank c) : c.toNat ≤ 32 ∨ 133 ≤ c.toNat := by
  simp only [Text.isBlank, Text.inRanges, Text.blankRanges, List.any_cons, List.any_nil,
    Bool.or_eq_true, Bool.and_eq_true, Bool.or_false, decide_eq_true_eq] at h
  omega

theorem toLower_cases {c : Char} (h : isSlugChar c) :
    97 ≤ c.toLower.toNat ∧ c.toLower.toNat ≤ 122 ∨ 48 ≤ c.toLower.toNat ∧ c.toLower.toNat ≤ 57 ∨
      Text.isBlank c ∧ c.toLower = c := by
  rw [toNat_toLower]
  rcases isSlugChar_iff.1 h with hsmall | hcapital | hdigit | hblank
  · rw [if_neg (by omega)]
    exact .inl hsmall
  · rw [if_pos hcapital]
    exact .inl (by omega)
  · rw [if_neg (by omega)]
    exact .inr (.inl hdigit)
  · have hrange := toNat_of_isBlank hblank
    refine .inr (.inr ⟨hblank, ?_⟩)
    rw [← Char.toNat_inj, toNat_toLower, if_neg (by omega)]

theorem isIdChar_of_mem_slug {title : List Char} {c : Char} (h : c ∈ slug title) : isIdChar c := by
  obtain ⟨d, hd, rfl⟩ := List.mem_map.1 h
  split
  · decide
  · next hspace =>
    rw [isIdChar_iff]
    rcases toLower_cases (List.mem_filter.1 hd).2 with hsmall | hdigit | ⟨hblank, hsame⟩
    · exact .inl hsmall
    · exact .inr (.inl hdigit)
    · rw [hsame]
      exact .inr (.inr (.inr ⟨hblank, hspace⟩))

def markup : List Char := ['"', '\'', '<', '>', '&']

theorem not_mem_markup {c : Char} (h : isIdChar c) : c ∉ markup := by
  intro hmem
  have hall : markup.all (fun c => !isIdChar c) := by decide
  simpa [h] using List.all_eq_true.1 hall c hmem

/-- Only headings are changed: each gets an id and a link to it, and keeps its title. What stands
between them is as it was and holds no heading, and no id holds markup. -/
theorem headings_anchored (html : String) :
    ∃ o : Outline html.toList, (addAnchors html).toList = o.linked ∧
      ∀ id ∈ o.ids, ∀ c ∈ id, isIdChar c ∧ c ∉ markup := by
  obtain ⟨o, hlinked, -⟩ := exists_outline html.toList
  refine ⟨o, by rw [addAnchors, String.toList_ofList, hlinked], ?_⟩
  intro id hid c hc
  obtain ⟨title, -, rfl⟩ := List.mem_map.1 hid
  have hchar := isIdChar_of_mem_slug hc
  exact ⟨hchar, not_mem_markup hchar⟩

end CodeAtlas.Html
