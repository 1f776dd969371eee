import CodeAtlas.Proofs.Metta.Lines

/-! Where in its text a token stands, and what the lexer leaves out. Lexemes follow each other
without gaps, so tokens do not overlap, and what is outside of them is in lexemes of other sorts:
white space, and stray characters, at which no rule matches. -/

namespace CodeAtlas.Metta

inductive IsStringBody : List Char → Prop
  | nil : IsStringBody []
  | plain {c : Char} {cs : List Char} (not_quote : c ≠ '"') (not_escape : c ≠ '\\') :
      IsStringBody cs → IsStringBody (c :: cs)
  | escaped {c : Char} {cs : List Char} (not_newline : c ≠ '\n') :
      IsStringBody cs → IsStringBody ('\\' :: c :: cs)

/-- A character at which no token starts when `rest` comes after it. -/
structure StartsNothing (c : Char) (rest : List Char) : Prop where
  not_letter : ¬ c.isAlpha
  not_underscore : c ≠ '_'
  not_digit : ¬ Text.isDigit c
  not_sign : c ∉ [';', '!', '(', ')', '[', ']', '=', '+', '-', '*', '/', '>', '<']
  marks_nothing : c = '&' ∨ c = '$' → ∀ d ∈ rest.head?, ¬ d.isAlpha ∧ d ≠ '_'
  quotes_nothing : c = '"' → ∀ body after, IsStringBody body → rest ≠ body ++ '"' :: after

namespace Lexer

def locatedAt (place : Place) (offset : Nat) : List (Lexeme × List Char) → List (Nat × Token)
  | [] => []
  | piece :: pieces =>
    ((tokenAt? place piece).map (offset, ·)).toList ++
      locatedAt (place.after piece.1 piece.2.length) (offset + piece.2.length) pieces

end Lexer

def located (s : String) : List (Nat × Token) :=
  Lexer.locatedAt .start 0 (Lexer.lexemes s.toList)

namespace Lexer

section
variable (place : Place) (offset : Nat) (pieces more : List (Lexeme × List Char))

theorem map_locatedAt : (locatedAt place offset pieces).map Prod.snd = tokensAt place pieces := by
  induction pieces generalizing place offset with
  | nil => rfl
  | cons piece pieces ih =>
    rw [locatedAt, tokensAt, List.map_append, ih]
    cases tokenAt? place piece <;> rfl

theorem locatedAt_append : locatedAt place offset (pieces ++ more) =
    locatedAt place offset pieces ++
      locatedAt (place.afterAll pieces) (offset + (pieces.flatMap Prod.snd).length) more := by
  induction pieces generalizing place offset with
  | nil => rfl
  | cons piece pieces ih =>
    rw [List.cons_append, locatedAt, locatedAt, Place.afterAll, ih, List.append_assoc,
      List.flatMap_cons, List.length_append, Nat.add_assoc]

end

section
variable {place : Place} {offset p : Nat} {pieces : List (Lexeme × List Char)} {t : Token}

theorem mem_locatedAt : (p, t) ∈ locatedAt place offset pieces ↔
    ∃ before kind text after, pieces = before ++ (.token kind, text) :: after ∧
      p = offset + (before.flatMap Prod.snd).length ∧
      t = ⟨kind, String.ofList text, (place.afterAll before).line,
        (place.afterAll before).column⟩ := by
  constructor
  · intro h
    induction pieces generalizing place offset with
    | nil => simp [locatedAt] at h
    | cons piece pieces ih =>
      obtain ⟨lexeme, text⟩ := piece
      rw [locatedAt, List.mem_append] at h
      rcases h with hfirst | hlater
      · cases lexeme with
        | token kind =>
          obtain ⟨rfl, rfl⟩ : p = offset ∧ t = _ := by simpa [tokenAt?] using hfirst
          exact ⟨[], kind, text, pieces, rfl, rfl, rfl⟩
        | padding | newline | stray => simp [tokenAt?] at hfirst
      · obtain ⟨before, kind, text', after, rfl, rfl, rfl⟩ := ih hlater
        refine ⟨(lexeme, text) :: before, kind, text', after, rfl, ?_, rfl⟩
        rw [List.flatMap_cons, List.length_append, Nat.add_assoc]
  · rintro ⟨before, kind, text, after, rfl, rfl, rfl⟩
    rw [locatedAt_append, locatedAt, List.mem_append]
    exact .inr (List.mem_append_left _ (by simp [tokenAt?]))

theorem offset_le_of_mem (h : (p, t) ∈ locatedAt place offset pieces) : offset ≤ p := by
  obtain ⟨before, kind, text, after, -, rfl, -⟩ := mem_locatedAt.1 h
  exact Nat.le_add_right _ _

theorem pairwise_locatedAt (place : Place) (offset : Nat) (pieces : List (Lexeme × List Char)) :
    (locatedAt place offset pieces).Pairwise fun a b => a.1 + a.2.text.length ≤ b.1 := by
  induction pieces generalizing place offset with
  | nil => exact .nil
  | cons piece pieces ih =>
    obtain ⟨lexeme, text⟩ := piece
    rw [locatedAt, List.pairwise_append]
    refine ⟨?_, ih _ _, ?_⟩
    · cases lexeme <;> simp [tokenAt?]
    · rintro a ha ⟨q, u⟩ hu
      have hle := offset_le_of_mem hu
      cases lexeme with
      | token kind =>
        obtain rfl : a = _ := by simpa [tokenAt?] using ha
        simpa using hle
      | padding | newline | stray => simp [tokenAt?] at ha

end

theorem lexemes_drop {cs : List Char} {before after : List (Lexeme × List Char)}
    (h : lexemes cs = before ++ after) :
    lexemes (cs.drop (before.flatMap Prod.snd).length) = after := by
  induction before generalizing cs with
  | nil => exact h
  | cons piece before ih =>
    have hcs : cs ≠ [] := by
      rintro rfl
      simp [lexemes] at h
    rw [lexemes_eq hcs, List.cons_append] at h
    obtain ⟨rfl, hrest⟩ := List.cons.inj h
    have hlength := List.length_take_of_le (firstLexeme_bounds hcs).2
    rw [List.flatMap_cons, List.length_append, hlength, ← List.drop_drop]
    exact ih hrest

theorem firstLexeme_drop {cs : List Char} {before after : List (Lexeme × List Char)}
    {piece : Lexeme × List Char} (h : lexemes cs = before ++ piece :: after) :
    let rest := cs.drop (before.flatMap Prod.snd).length
    piece = ((firstLexeme rest).1, rest.take (firstLexeme rest).2) := by
  have hrest := lexemes_drop h
  have hne : cs.drop (before.flatMap Prod.snd).length ≠ [] := by
    intro hnil
    rw [hnil, lexemes] at hrest
    cases hrest
  rw [lexemes_eq hne] at hrest
  exact (List.cons.inj hrest).1.symm

theorem exists_lexeme_at {pieces : List (Lexeme × List Char)} {q : Nat}
    (h : q < (pieces.flatMap Prod.snd).length) :
    ∃ before piece after, pieces = before ++ piece :: after ∧
      (before.flatMap Prod.snd).length ≤ q ∧
      q < (before.flatMap Prod.snd).length + piece.2.length := by
  induction pieces generalizing q with
  | nil => simp at h
  | cons piece pieces ih =>
    rw [List.flatMap_cons, List.length_append] at h
    by_cases hq : q < piece.2.length
    · exact ⟨[], piece, pieces, rfl, Nat.zero_le q, by simpa using hq⟩
    · obtain ⟨before, piece', after, rfl, hle, hlt⟩ := @ih (q - piece.2.length) (by omega)
      refine ⟨piece :: before, piece', after, rfl, ?_⟩
      rw [List.flatMap_cons, List.length_append]
      omega

theorem getElem_mem_lexeme {cs : List Char} {before after : List (Lexeme × List Char)}
    {piece : Lexeme × List Char} {q : Nat} (h : lexemes cs = before ++ piece :: after)
    (hq : q < cs.length) (hle : (before.flatMap Prod.snd).length ≤ q)
    (hlt : q < (before.flatMap Prod.snd).length + piece.2.length) : cs[q] ∈ piece.2 := by
  have hcs := flatMap_lexemes cs
  rw [h, List.flatMap_append, List.flatMap_cons] at hcs
  have hget : piece.2[q - (before.flatMap Prod.snd).length]? = some cs[q] := by
    rw [← List.getElem?_eq_getElem hq, ← hcs, List.getElem?_append_right hle,
      List.getElem?_append_left (by omega)]
  exact List.mem_of_getElem? hget

theorem stringRest_of_body {body after : List Char} (h : IsStringBody body) :
    stringRest (body ++ '"' :: after) ≠ none := by
  induction h with
  | nil => simp [stringRest]
  | plain hquote hescape _ ih => simpa [stringRest_plain hquote hescape] using ih
  | escaped hnewline _ ih => simpa [stringRest, hnewline] using ih

theorem name_eq_zero_iff {cs : List Char} :
    name cs = 0 ↔ ∀ c ∈ cs.head?, ¬ c.isAlpha ∧ c ≠ '_' := by
  cases cs with
  | nil => simp [name]
  | cons c cs =>
    have hstart : isNameStart c = false ↔ ¬ c.isAlpha ∧ c ≠ '_' := by simp [isNameStart]
    simp only [name, List.head?_cons, Option.mem_some_iff, forall_eq', ← hstart]
    cases isNameStart c <;> simp

theorem marked_eq_zero {mark c : Char} {rest : List Char} (h : marked mark (c :: rest) = 0)
    (hc : c = mark) : name rest = 0 := by
  rw [marked] at h
  split at h
  · omega
  · next hname => simpa [hc] using hname

theorem run_eq_zero {p : Char → Bool} {c : Char} {rest : List Char} (h : run p (c :: rest) = 0) :
    p c = false := by
  cases hc : p c with
  | false => rfl
  | true => simp [run, hc] at h

theorem startsNothing_of_rules {c : Char} {rest : List Char}
    (h : ∀ entry ∈ rules, entry.2 (c :: rest) = 0) : StartsNothing c rest := by
  simp only [rules, List.forall_mem_cons] at h
  obtain ⟨hcomment, hexecute, hopen, hclose, hopen', hclose', hspace, hvariable, hstring, hnumber,
    -, hoperator, hatom, -⟩ := h
  have hone {d : Char} (hd : one d (c :: rest) = 0) : c ≠ d := by
    intro hc
    simp [one, hc] at hd
  have hsemicolon : c ≠ ';' := by
    rintro rfl
    rw [comment_cons, if_pos rfl] at hcomment
    omega
  have hsigns : isOperator c = false := run_eq_zero hoperator
  have hname : name (c :: rest) = 0 := by
    rw [atom] at hatom
    split at hatom
    · assumption
    · omega
  obtain ⟨hletter, hunderscore⟩ := name_eq_zero_iff.1 hname c rfl
  -- A minus sign may stand before a number, but it is no digit.
  have hdigit : Text.isDigit c = false := by
    by_cases hminus : c = '-'
    · rw [hminus]
      decide
    · rw [number_cons, if_neg hminus] at hnumber
      simp only [unsigned] at hnumber
      split at hnumber
      · next hrun => exact run_eq_zero hrun
      · omega
  refine ⟨hletter, hunderscore, by simp [hdigit], ?_, ?_, ?_⟩
  · simp only [isOperator, List.mem_cons, List.not_mem_nil, or_false, decide_eq_false_iff_not,
      not_or] at hsigns
    simp [hsemicolon, hone hexecute, hone hopen, hone hclose, hone hopen', hone hclose', hsigns]
  · rintro (hc | hc)
    · exact name_eq_zero_iff.1 (marked_eq_zero hspace hc)
    · exact name_eq_zero_iff.1 (marked_eq_zero hvariable hc)
  · rintro rfl body after hbody rfl
    rw [string_cons, if_pos rfl] at hstring
    obtain ⟨n, hn⟩ := Option.ne_none_iff_exists'.1 (@stringRest_of_body body after hbody)
    simp [hn] at hstring

theorem isPad_of_lexeme {cs : List Char} (h : (firstLexeme cs).1 = .padding) :
    ∀ c ∈ cs.take (firstLexeme cs).2, Text.isPad c := by
  obtain ⟨rule, hrule, -, hlength⟩ := rule_of_lexeme h (by simp)
  obtain rfl : rule = run Text.isPad := by simpa [rules] using hrule
  have htake : cs.take (run Text.isPad cs) = cs.takeWhile Text.isPad :=
    (List.prefix_iff_eq_take.1 (List.takeWhile_prefix Text.isPad)).symm
  rw [hlength, htake, ← List.all_eq_true]
  exact List.all_takeWhile

theorem rules_of_stray {cs : List Char} (h : (firstLexeme cs).1 = .stray) :
    (firstLexeme cs).2 = 1 ∧ ∀ entry ∈ rules, entry.2 cs = 0 := by
  obtain ⟨entry, hentry, -, heq⟩ | ⟨heq, hzero⟩ := firstLexeme_cases cs
  · have hne : ∀ entry ∈ rules, entry.1 ≠ .stray := by simp [rules]
    rw [heq] at h
    exact absurd h (hne entry hentry)
  · exact ⟨by rw [heq], hzero⟩

end Lexer

open CodeAtlas.Metta.Lexer

theorem map_located (s : String) : (located s).map Prod.snd = tokenize s := by
  rw [located, map_locatedAt, tokenize, tokensFrom_eq]

theorem prefix_of_located {s : String} {p : Nat} {t : Token} (h : (p, t) ∈ located s) :
    t.text.toList <+: s.toList.drop p := by
  obtain ⟨before, kind, text, after, hpieces, rfl, rfl⟩ := mem_locatedAt.1 h
  rw [Nat.zero_add, String.toList_ofList, (Prod.mk.inj (firstLexeme_drop hpieces)).2]
  exact List.take_prefix _ _

theorem located_or_left_out (s : String) (q : Nat) (hq : q < s.toList.length) :
    (∃ a ∈ located s, a.1 ≤ q ∧ q < a.1 + a.2.text.length) ∨
      s.toList[q] ∈ [' ', '\t', '\n'] ∨ StartsNothing s.toList[q] (s.toList.drop (q + 1)) := by
  have hlength : q < ((lexemes s.toList).flatMap Prod.snd).length := by rwa [flatMap_lexemes]
  obtain ⟨before, ⟨lexeme, text⟩, after, hpieces, hle, hlt⟩ := exists_lexeme_at hlength
  obtain ⟨hlexeme, htext⟩ := Prod.mk.inj (firstLexeme_drop hpieces)
  have hmem : s.toList[q] ∈ text := getElem_mem_lexeme hpieces hq hle hlt
  cases lexeme with
  | token kind =>
    refine .inl ⟨_, mem_locatedAt.2 ⟨before, kind, text, after, hpieces, rfl, rfl⟩, ?_, ?_⟩
    · simpa using hle
    · simpa using hlt
  | padding =>
    have hpad := isPad_of_lexeme hlexeme.symm _ (htext ▸ hmem)
    simp only [Text.isPad, Bool.or_eq_true, decide_eq_true_eq] at hpad
    exact .inr (.inl (by rcases hpad with hspace | htab <;> simp [*]))
  | newline =>
    rw [htext, newline_of_lexeme hlexeme.symm] at hmem
    exact .inr (.inl (by simp [List.mem_singleton.1 hmem]))
  | stray =>
    obtain ⟨hone, hzero⟩ := rules_of_stray hlexeme.symm
    have hlength : text.length ≤ 1 := by
      rw [htext, hone]
      exact List.length_take_le 1 _
    have hstart : (before.flatMap Prod.snd).length = q := by
      dsimp only at hlt
      omega
    rw [hstart, List.drop_eq_getElem_cons hq] at hzero
    exact .inr (.inr (startsNothing_of_rules hzero))

/-- The lexer drops nothing that means something: tokens are cut out of the text in order and
without overlap, and a character outside of them is white space or starts no token. -/
theorem nothing_dropped (s : String) :
    (located s).map Prod.snd = tokenize s ∧
      ((located s).Pairwise fun a b => a.1 + a.2.text.length ≤ b.1) ∧
      (∀ a ∈ located s, a.2.text.toList <+: s.toList.drop a.1) ∧
      ∀ q : Fin s.toList.length,
        (∃ a ∈ located s, a.1 ≤ q ∧ q < a.1 + a.2.text.length) ∨
          s.toList[q] ∈ [' ', '\t', '\n'] ∨ StartsNothing s.toList[q] (s.toList.drop (q + 1)) :=
  ⟨map_located s, pairwise_locatedAt _ _ _, fun _ h => prefix_of_located h,
    fun q => located_or_left_out s q q.2⟩

def strayMarks : String := "é(f \"$x & .5"

theorem strayMarks_quote_dropped :
    located strayMarks = [(1, ⟨.openParen, "(", 1, 1⟩), (2, ⟨.atom, "f", 1, 2⟩),
        (5, ⟨.variable, "$x", 1, 5⟩), (11, ⟨.number, "5", 1, 11⟩)] ∧
      "$x".toList <+: strayMarks.toList.drop 5 ∧ StartsNothing '"' "$x & .5".toList := by
  have hlocated : located strayMarks = [(1, ⟨.openParen, "(", 1, 1⟩), (2, ⟨.atom, "f", 1, 2⟩),
      (5, ⟨.variable, "$x", 1, 5⟩), (11, ⟨.number, "5", 1, 11⟩)] := by decide +kernel
  obtain ⟨-, -, hcut, hall⟩ := nothing_dropped strayMarks
  rw [hlocated] at hcut hall
  refine ⟨hlocated, hcut (5, ⟨.variable, "$x", 1, 5⟩) (by decide), ?_⟩
  rcases hall ⟨4, by decide⟩ with hin | hblank | hnothing
  · exact absurd hin (by decide)
  · exact absurd hblank (by decide)
  · exact hnothing

end CodeAtlas.Metta
