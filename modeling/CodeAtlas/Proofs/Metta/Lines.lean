import CodeAtlas.Proofs.Metta.Lexemes

/-! The tokens of a text as its lexemes give them, and the lines they stand on. A line ends at each
line feed outside of strings, and tokens further down differ in nothing but their line. -/

namespace CodeAtlas.Metta

def writtenIn (kinds : List TokenKind) (tokens : List Token) : List Char :=
  (tokens.filter fun t => t.kind ∈ kinds).flatMap fun t => t.text.toList

def QuotesEnclosed (s : String) : Prop :=
  (writtenIn [.string, .comment] (tokenize s)).count '"' = s.toList.count '"'

instance (s : String) : Decidable (QuotesEnclosed s) := inferInstanceAs (Decidable (_ = _))

def lineFeeds (s : String) : Nat :=
  s.toList.count '\n' - (writtenIn [.string] (tokenize s)).count '\n'

def Token.shift (lines : Nat) (t : Token) : Token := { t with line := t.line + lines }

namespace Lexer

def Lexeme.isOf (kinds : List TokenKind) : Lexeme → Bool
  | .token kind => kind ∈ kinds
  | _ => false

def tokenAt? (place : Place) : Lexeme × List Char → Option Token
  | (.token kind, text) => some ⟨kind, String.ofList text, place.line, place.column⟩
  | _ => none

def tokensAt (place : Place) : List (Lexeme × List Char) → List Token
  | [] => []
  | piece :: pieces =>
    (tokenAt? place piece).toList ++ tokensAt (place.after piece.1 piece.2.length) pieces

def Place.afterAll (place : Place) : List (Lexeme × List Char) → Place
  | [] => place
  | piece :: pieces => (place.after piece.1 piece.2.length).afterAll pieces

theorem tokensFrom_eq (place : Place) (cs : List Char) :
    tokensFrom place cs = tokensAt place (lexemes cs) := by
  induction cs using lexeme_induction generalizing place with
  | nil =>
    rw [tokensFrom, lexemes]
    rfl
  | step cs hcs ih =>
    obtain ⟨hpos, hle⟩ := firstLexeme_bounds hcs
    rw [lexemes_eq hcs, tokensAt]
    obtain ⟨c, cs, rfl⟩ := List.exists_cons_of_ne_nil hcs
    rw [tokensFrom]
    rcases hfirst : firstLexeme (c :: cs) with ⟨lexeme, length⟩
    rw [hfirst] at hpos hle ih
    obtain ⟨m, rfl⟩ : ∃ m, length = m + 1 := ⟨length - 1, by omega⟩
    have hlength : ((c :: cs).take (m + 1)).length = m + 1 := List.length_take_of_le hle
    rw [List.drop_succ_cons] at ih
    simp only [hlength, ih, Nat.add_sub_cancel, List.drop_succ_cons]
    cases lexeme <;> rfl

section
variable (place : Place) (pieces more : List (Lexeme × List Char))

theorem tokensAt_append : tokensAt place (pieces ++ more) =
    tokensAt place pieces ++ tokensAt (place.afterAll pieces) more := by
  induction pieces generalizing place with
  | nil => rfl
  | cons piece pieces ih => rw [List.cons_append, tokensAt, tokensAt, Place.afterAll, ih,
      List.append_assoc]

theorem mem_tokensAt {place : Place} {pieces : List (Lexeme × List Char)} {t : Token}
    (h : t ∈ tokensAt place pieces) :
    ∃ piece ∈ pieces, piece.1 = .token t.kind ∧ t.text = String.ofList piece.2 := by
  induction pieces generalizing place with
  | nil => simp [tokensAt] at h
  | cons piece pieces ih =>
    obtain ⟨lexeme, text⟩ := piece
    rw [tokensAt, List.mem_append] at h
    rcases h with hfirst | hlater
    · cases lexeme with
      | token kind =>
        obtain rfl : t = _ := by simpa [tokenAt?] using hfirst
        exact ⟨_, List.mem_cons_self, rfl, rfl⟩
      | padding | newline | stray => simp [tokenAt?] at hfirst
    · obtain ⟨piece, hpiece, hlexeme⟩ := ih hlater
      exact ⟨piece, List.mem_cons_of_mem _ hpiece, hlexeme⟩

theorem tokensAt_shift (lines : Nat) : tokensAt ⟨place.line + lines, place.column⟩ pieces =
    (tokensAt place pieces).map (Token.shift lines) := by
  induction pieces generalizing place with
  | nil => rfl
  | cons piece pieces ih =>
    obtain ⟨lexeme, text⟩ := piece
    have hplace : (Place.mk (place.line + lines) place.column).after lexeme text.length =
        ⟨(place.after lexeme text.length).line + lines,
          (place.after lexeme text.length).column⟩ := by
      cases lexeme <;> simp [Place.after, Nat.add_right_comm]
    rw [tokensAt, tokensAt, List.map_append, hplace, ih]
    cases lexeme <;> rfl

theorem writtenIn_tokensAt (kinds : List TokenKind) : writtenIn kinds (tokensAt place pieces) =
    (pieces.filter fun piece => piece.1.isOf kinds).flatMap Prod.snd := by
  induction pieces generalizing place with
  | nil => rfl
  | cons piece pieces ih =>
    obtain ⟨lexeme, text⟩ := piece
    have hrest := ih (place.after lexeme text.length)
    rw [writtenIn] at hrest ⊢
    rw [tokensAt, List.filter_append, List.flatMap_append, hrest, List.filter_cons]
    cases lexeme with
    | token kind => by_cases hkind : kind ∈ kinds <;> simp [tokenAt?, Lexeme.isOf, hkind]
    | padding | newline | stray => rfl

theorem count_flatMap_lexemes (p : Lexeme × List Char → Bool) (c : Char) :
    (pieces.flatMap Prod.snd).count c = ((pieces.filter p).flatMap Prod.snd).count c +
      ((pieces.filter fun piece => !p piece).flatMap Prod.snd).count c := by
  induction pieces with
  | nil => rfl
  | cons piece pieces ih =>
    rw [List.flatMap_cons, List.count_append, ih, List.filter_cons, List.filter_cons]
    cases p piece <;> simp <;> omega

theorem line_afterAll (h : ∀ piece ∈ pieces, piece.1 ≠ .token .string →
    piece.2.count '\n' = if piece.1 = .newline then 1 else 0) :
    (place.afterAll pieces).line = place.line +
      ((pieces.filter fun piece => !piece.1.isOf [.string]).flatMap Prod.snd).count '\n' := by
  induction pieces generalizing place with
  | nil => rfl
  | cons piece pieces ih =>
    obtain ⟨lexeme, text⟩ := piece
    obtain ⟨hfirst, hrest⟩ := List.forall_mem_cons.1 h
    rw [Place.afterAll, ih _ hrest, List.filter_cons]
    by_cases hstring : lexeme = .token .string
    · simp [hstring, Lexeme.isOf, Place.after]
    · have hof : lexeme.isOf [.string] = false := by
        cases lexeme with
        | token kind => simpa [Lexeme.isOf] using hstring
        | padding | newline | stray => rfl
      have hcount : text.count '\n' = if lexeme = .newline then 1 else 0 := hfirst hstring
      simp only [hof, Bool.not_false, if_true, List.flatMap_cons, List.count_append, hcount]
      cases lexeme <;> simp [Place.after] <;> omega

end

theorem count_outside (kinds : List TokenKind) (s : String) (c : Char) :
    s.toList.count c = (writtenIn kinds (tokenize s)).count c +
      (((lexemes s.toList).filter fun piece => !piece.1.isOf kinds).flatMap Prod.snd).count c := by
  have hcount := count_flatMap_lexemes (lexemes s.toList) (fun piece => piece.1.isOf kinds) c
  rwa [flatMap_lexemes, ← writtenIn_tokensAt .start, ← tokensFrom_eq] at hcount

theorem line_after (s : String) :
    (Place.start.afterAll (lexemes s.toList)).line = 1 + lineFeeds s := by
  have hcount := count_outside [.string] s '\n'
  have hstart : Place.start.line = 1 := rfl
  rw [line_afterAll _ _ count_newline, lineFeeds, hstart]
  omega

theorem quotesClosed {s : String} (h : QuotesEnclosed s) : QuotesClosed s.toList := by
  have hcount := count_outside [.string, .comment] s '"'
  rw [QuotesEnclosed] at h
  have hzero : (((lexemes s.toList).filter fun piece =>
      !piece.1.isOf [.string, .comment]).flatMap Prod.snd).count '"' = 0 := by omega
  rw [List.count_eq_zero] at hzero
  rintro ⟨lexeme, text⟩ hpiece hquote
  by_cases hof : lexeme.isOf [.string, .comment]
  · cases lexeme with
    | token kind => simpa [Lexeme.isOf] using hof
    | padding | newline | stray => cases hof
  · exact absurd (List.mem_flatMap.2
      ⟨(lexeme, text), List.mem_filter.2 ⟨hpiece, by simp [hof]⟩, hquote⟩) hzero

end Lexer

open CodeAtlas.Metta.Lexer

theorem tokenize_join {a : String} (h : QuotesEnclosed a) (b : String) :
    tokenize (a ++ "\n" ++ b) =
      tokenize a ++ (tokenize b).map (Token.shift (1 + lineFeeds a)) := by
  have hline := line_after a
  have hplace : (Place.start.afterAll (lexemes a.toList)).after .newline 1 =
      ⟨Place.start.line + (1 + lineFeeds a), Place.start.column⟩ := by
    simp only [Place.after, hline]
    rw [Nat.add_comm (1 + lineFeeds a)]
    rfl
  have hchars : (a ++ "\n" ++ b).toList = a.toList ++ '\n' :: b.toList := by simp
  have hlexemes := lexemes_append (.inl rfl) (quotesClosed h) (by simp) b.toList
  simp only [tokenize, tokensFrom_eq, hchars, hlexemes, lexemes_newline, tokensAt_append]
  rw [tokensAt, List.length_singleton, hplace, tokensAt_shift]
  rfl

end CodeAtlas.Metta
