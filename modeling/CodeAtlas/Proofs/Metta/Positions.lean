import CodeAtlas.Proofs.Metta.Offsets

/-! The lines and columns of tokens. The lexer counts lines at the line feeds between lexemes and
does not see those inside of strings, so a token stands where it would if these were spaces. That is
its true place exactly if no string before it reaches over the end of a line. -/

namespace CodeAtlas.Metta

def Token.place (t : Token) : Lexer.Place := ⟨t.line, t.column⟩

namespace Lexer

def lineStart (cs : List Char) : Nat := (cs.reverse.dropWhile (· ≠ '\n')).length

def Place.behind (cs : List Char) : Place := ⟨1 + cs.count '\n', cs.length - lineStart cs⟩

def unbrokenText (piece : Lexeme × List Char) : List Char :=
  if piece.1 = .token .string then piece.2.map fun c => if c = '\n' then ' ' else c else piece.2

end Lexer

def unbroken (s : String) : String :=
  String.ofList ((Lexer.lexemes s.toList).flatMap Lexer.unbrokenText)

namespace Lexer

section
variable {x y : List Char}

theorem lineStart_le (x : List Char) : lineStart x ≤ x.length := by
  have hle := (List.dropWhile_suffix (l := x.reverse) (· ≠ '\n')).length_le
  rwa [List.length_reverse] at hle

theorem lineStart_newline (x : List Char) : lineStart (x ++ ['\n']) = x.length + 1 := by
  simp [lineStart]

theorem lineStart_append (h : '\n' ∉ y) : lineStart (x ++ y) = lineStart x := by
  have hall : ∀ c ∈ y.reverse, decide (c ≠ '\n') = true := by
    intro c hc
    have hne : c ≠ '\n' := fun heq => h (heq ▸ List.mem_reverse.1 hc)
    simpa using hne
  rw [lineStart, lineStart, List.reverse_append, List.dropWhile_append_of_pos hall]

theorem behind_newline (x : List Char) :
    Place.behind (x ++ ['\n']) = ⟨(Place.behind x).line + 1, 0⟩ := by
  simp [Place.behind, lineStart_newline, Nat.add_assoc]

theorem behind_append (h : '\n' ∉ y) :
    Place.behind (x ++ y) = ⟨(Place.behind x).line, (Place.behind x).column + y.length⟩ := by
  have hle := lineStart_le x
  have hcolumn : x.length + y.length - lineStart x = x.length - lineStart x + y.length := by omega
  simp only [Place.behind, lineStart_append h, List.count_append, List.count_eq_zero.2 h,
    List.length_append, hcolumn, Nat.add_zero]

end

theorem length_unbrokenText (piece : Lexeme × List Char) :
    (unbrokenText piece).length = piece.2.length := by
  rw [unbrokenText]
  split <;> simp

theorem length_flatMap_unbrokenText (pieces : List (Lexeme × List Char)) :
    (pieces.flatMap unbrokenText).length = (pieces.flatMap Prod.snd).length := by
  rw [List.length_flatMap, List.length_flatMap]
  exact congrArg List.sum (List.map_congr_left fun piece _ => length_unbrokenText piece)

theorem unbrokenText_of_string {piece : Lexeme × List Char} (h : piece.1 = .token .string) :
    '\n' ∉ unbrokenText piece := by
  rw [unbrokenText, if_pos h, List.mem_map]
  rintro ⟨c, -, hc⟩
  split at hc
  · cases hc
  · contradiction

theorem unbrokenText_of_not_string {piece : Lexeme × List Char} (h : piece.1 ≠ .token .string) :
    unbrokenText piece = piece.2 := if_neg h

theorem after_behind {cs : List Char} : ∀ piece ∈ lexemes cs, ∀ x,
    (Place.behind x).after piece.1 piece.2.length = Place.behind (x ++ unbrokenText piece) := by
  apply forall_lexemes
  intro cs hcs x
  by_cases hnewline : (firstLexeme cs).1 = .newline
  · have hstring : (firstLexeme cs).1 ≠ .token .string := by simp [hnewline]
    rw [unbrokenText_of_not_string hstring, newline_of_lexeme hnewline, hnewline, behind_newline]
    rfl
  · have hunbroken : '\n' ∉ unbrokenText ((firstLexeme cs).1, cs.take (firstLexeme cs).2) := by
      by_cases hstring : (firstLexeme cs).1 = .token .string
      · exact unbrokenText_of_string hstring
      · rw [unbrokenText_of_not_string hstring]
        exact newline_not_mem_take hstring hnewline
    rw [behind_append hunbroken, length_unbrokenText, Place.after.eq_def]
    split
    · contradiction
    · rfl

theorem afterAll_behind {pieces : List (Lexeme × List Char)}
    (h : ∀ piece ∈ pieces, ∀ x,
      (Place.behind x).after piece.1 piece.2.length = Place.behind (x ++ unbrokenText piece))
    (x : List Char) :
    (Place.behind x).afterAll pieces = Place.behind (x ++ pieces.flatMap unbrokenText) := by
  induction pieces generalizing x with
  | nil => rw [List.flatMap_nil, List.append_nil, Place.afterAll]
  | cons piece pieces ih =>
    obtain ⟨hfirst, hrest⟩ := List.forall_mem_cons.1 h
    rw [Place.afterAll, hfirst, ih hrest, List.flatMap_cons, List.append_assoc]

theorem count_unbrokenText (pieces : List (Lexeme × List Char)) :
    (pieces.flatMap unbrokenText).count '\n' +
        ((pieces.filter fun piece => piece.1 = .token .string).flatMap Prod.snd).count '\n' =
      (pieces.flatMap Prod.snd).count '\n' := by
  induction pieces with
  | nil => rfl
  | cons piece pieces ih =>
    rw [List.flatMap_cons, List.flatMap_cons, List.count_append, List.count_append, ← ih]
    by_cases hstring : piece.1 = .token .string
    · have hzero := List.count_eq_zero.2 (unbrokenText_of_string hstring)
      rw [List.filter_cons_of_pos (by simpa using hstring), List.flatMap_cons, List.count_append]
      omega
    · rw [List.filter_cons_of_neg (by simpa using hstring), unbrokenText_of_not_string hstring]
      omega

theorem behind_unbrokenText_iff (pieces : List (Lexeme × List Char)) :
    Place.behind (pieces.flatMap unbrokenText) = Place.behind (pieces.flatMap Prod.snd) ↔
      ∀ piece ∈ pieces, piece.1 = .token .string → '\n' ∉ piece.2 := by
  constructor
  · intro h piece hpiece hstring hmem
    have hcount := count_unbrokenText pieces
    have hline : 1 + _ = 1 + _ := congrArg Place.line h
    have hzero : ((pieces.filter fun piece => piece.1 = .token .string).flatMap Prod.snd).count
        '\n' = 0 := by omega
    rw [List.count_eq_zero] at hzero
    have hkept : piece ∈ pieces.filter fun piece => piece.1 = .token .string :=
      List.mem_filter.2 ⟨hpiece, by simpa using hstring⟩
    exact hzero (List.mem_flatMap.2 ⟨piece, hkept, hmem⟩)
  · intro h
    have hsame : ∀ piece ∈ pieces, unbrokenText piece = piece.2 := by
      intro piece hpiece
      by_cases hstring : piece.1 = .token .string
      · have hid : ∀ c ∈ piece.2, (if c = '\n' then ' ' else c) = c := by
          intro c hc
          rw [if_neg]
          rintro rfl
          exact h piece hpiece hstring hc
        rw [unbrokenText, if_pos hstring, List.map_congr_left hid, List.map_id']
      · exact unbrokenText_of_not_string hstring
    rw [List.flatMap_def, List.map_congr_left hsame, ← List.flatMap_def]

end Lexer

open CodeAtlas.Metta.Lexer

section
variable {s : String} {p : Nat} {t : Token}

theorem before_located (h : (p, t) ∈ located s) :
    ∃ before after kind text, lexemes s.toList = before ++ (.token kind, text) :: after ∧
      s.toList.take p = before.flatMap Prod.snd ∧
      (unbroken s).toList.take p = before.flatMap unbrokenText ∧
      (before.flatMap Prod.snd).length = p ∧
      t.place = Place.behind (before.flatMap unbrokenText) := by
  obtain ⟨before, kind, text, after, hpieces, hp, rfl⟩ := mem_locatedAt.1 h
  rw [Nat.zero_add] at hp
  have hplace := @afterAll_behind before
    (fun piece hpiece => after_behind piece (hpieces ▸ List.mem_append_left _ hpiece)) []
  have htake (f : Lexeme × List Char → List Char)
      (hlength : (before.flatMap f).length = p) :
      ((lexemes s.toList).flatMap f).take p = before.flatMap f := by
    rw [hpieces, List.flatMap_append, ← hlength, List.take_left]
  refine ⟨before, after, kind, text, hpieces, ?_, ?_, hp.symm, hplace⟩
  · have hwhole := htake Prod.snd hp.symm
    rwa [flatMap_lexemes] at hwhole
  · rw [unbroken, String.toList_ofList]
    exact htake unbrokenText (by rw [length_flatMap_unbrokenText, hp])

theorem strings_before {before after : List (Lexeme × List Char)} {piece : Lexeme × List Char}
    (hpieces : lexemes s.toList = before ++ piece :: after)
    (hp : (before.flatMap Prod.snd).length = p) :
    (∀ piece ∈ before, piece.1 = .token .string → '\n' ∉ piece.2) ↔
      ∀ a ∈ located s, a.1 < p → a.2.kind = .string → '\n' ∉ a.2.text.toList := by
  have hlocated : located s = locatedAt .start 0 before ++
      locatedAt (Place.start.afterAll before) p (piece :: after) := by
    rw [located, hpieces, locatedAt_append, Nat.zero_add, hp]
  constructor
  · rintro h ⟨q, u⟩ hu hq hstring
    rw [hlocated, List.mem_append] at hu
    rcases hu with hbefore | hafter
    · obtain ⟨before', kind, text, after', hsplit, -, rfl⟩ := mem_locatedAt.1 hbefore
      have hmem : (.token kind, text) ∈ before := by simp [hsplit]
      simpa using h _ hmem (congrArg Lexeme.token hstring)
    · exact absurd (offset_le_of_mem hafter) (Nat.not_le.2 hq)
  · rintro h ⟨lexeme, text⟩ hmem rfl hnewline
    obtain ⟨before', after', rfl⟩ := List.append_of_mem hmem
    rw [List.append_assoc, List.cons_append] at hpieces
    have hu : (0 + (before'.flatMap Prod.snd).length, ⟨.string, String.ofList text, _, _⟩) ∈
        located s := mem_locatedAt.2 ⟨before', .string, text, _, hpieces, rfl, rfl⟩
    have hlength := List.length_pos_of_mem hnewline
    rw [List.flatMap_append, List.length_append, List.flatMap_cons, List.length_append] at hp
    refine h _ hu ?_ rfl (by simpa using hnewline)
    dsimp only at hlength hp ⊢
    omega

end

/-- A token stands where it would if the line feeds inside of strings were spaces, and this is its
true place, line and column counted in the text itself, exactly if no string that starts before it
has a line feed in it. -/
theorem true_place_iff (s : String) :
    (located s).map Prod.snd = tokenize s ∧ ∀ p t, (p, t) ∈ located s →
      t.text.toList <+: s.toList.drop p ∧
      t.place = Place.behind ((unbroken s).toList.take p) ∧
      (t.place = Place.behind (s.toList.take p) ↔
        ∀ a ∈ located s, a.1 < p → a.2.kind = .string → '\n' ∉ a.2.text.toList) := by
  refine ⟨map_located s, fun p t h => ⟨prefix_of_located h, ?_⟩⟩
  obtain ⟨before, after, kind, text, hpieces, htake, htake', hp, hplace⟩ := before_located h
  refine ⟨hplace.trans (by rw [htake']), ?_⟩
  rw [hplace, htake, behind_unbrokenText_iff, strings_before hpieces hp]

def twoLineString : String := "\"a\nb\" x"

theorem twoLineString_hides_line :
    (6, ⟨.atom, "x", 1, 6⟩) ∈ located twoLineString ∧
      Place.behind (twoLineString.toList.take 6) = ⟨2, 3⟩ ∧
      (⟨.atom, "x", 1, 6⟩ : Token).place ≠ Place.behind (twoLineString.toList.take 6) := by
  have hatom : (6, ⟨.atom, "x", 1, 6⟩) ∈ located twoLineString := by decide +kernel
  have hstring : (0, ⟨.string, "\"a\nb\"", 1, 0⟩) ∈ located twoLineString := by decide +kernel
  refine ⟨hatom, by decide, fun hplace => ?_⟩
  have hclosed := ((true_place_iff twoLineString).2 6 _ hatom).2.2.1 hplace _ hstring
  exact hclosed (by decide) rfl (by decide)

end CodeAtlas.Metta
