import CodeAtlas.Proofs.Metta.Lines

/-! A text without its comments. A comment reaches to the end of its line, so what is left of the
text has the same tokens in the same places, comments apart. -/

namespace CodeAtlas.Metta

namespace Lexer

def withoutComments (pieces : List (Lexeme × List Char)) : List (Lexeme × List Char) :=
  pieces.filter fun piece => piece.1 ≠ .token .comment

end Lexer

def withoutComments (s : String) : String :=
  String.ofList ((Lexer.withoutComments (Lexer.lexemes s.toList)).flatMap Prod.snd)

def uncommented (tokens : List Token) : List Token := tokens.filter fun t => t.kind ≠ .comment

namespace Lexer

theorem string_of_append {x y : List Char} (hzero : string (x ++ y) ≠ 0)
    (hle : string (x ++ y) ≤ x.length) : string (x ++ y) = string x := by
  cases x with
  | nil => exact absurd (Nat.le_zero.1 hle) hzero
  | cons c x =>
    rw [List.cons_append, string_cons] at hzero hle ⊢
    rw [string_cons]
    split
    · next hc =>
      rw [if_pos hc] at hzero hle
      cases hrest : stringRest (x ++ y) with
      | none => simp [hrest] at hzero
      | some n =>
        have hn : n ≤ x.length := by simpa [hrest] using hle
        rw [stringRest_append_iff.2 ⟨hrest, hn⟩]
    · rfl

theorem firstLexeme_cut {x y : List Char} (hx : x ≠ [])
    (hle : (firstLexeme (x ++ ';' :: y)).2 ≤ x.length) (hquotes : QuotesClosed (x ++ ';' :: y))
    (hcomment : (firstLexeme (x ++ ';' :: y)).1 ≠ .token .comment) :
    firstLexeme (x ++ ';' :: y) = firstLexeme x := by
  have hhead : x.head? ≠ some ';' := by
    intro hsemicolon
    obtain ⟨x, rfl⟩ := List.head?_eq_some_iff.1 hsemicolon
    rw [List.cons_append, firstLexeme_semicolon] at hcomment
    exact hcomment rfl
  refine firstLexeme_append (.inr rfl) hx (fun _ => hhead) ?_
  match x, hx with
  | c :: x, _ =>
    by_cases hc : c = '"'
    · subst hc
      obtain ⟨rule, hrule, hzero, hlength⟩ := rule_of_lexeme hquotes.first (by simp)
      obtain rfl : rule = string := by simpa [rules] using hrule
      exact string_of_append hzero (hlength ▸ hle)
    · rw [List.cons_append, string_cons, string_cons, if_neg hc, if_neg hc]

theorem not_of_head?_drop_run {p : Char → Bool} {cs : List Char} :
    ∀ d ∈ (cs.drop (run p cs)).head?, p d = false := by
  induction cs with
  | nil => simp
  | cons c cs ih =>
    simp only [run, List.takeWhile_cons] at ih ⊢
    cases hc : p c with
    | false => simpa using hc
    | true => simpa using ih

theorem lexemes_cut {cs x y : List Char} (hcs : cs ≠ []) (hquotes : QuotesClosed cs)
    (hcomment : (firstLexeme cs).1 ≠ .token .comment)
    (hrest : cs.drop (firstLexeme cs).2 = x ++ ';' :: y) :
    lexemes (cs.take (firstLexeme cs).2 ++ x) =
      ((firstLexeme cs).1, cs.take (firstLexeme cs).2) :: lexemes x := by
  obtain ⟨hpos, hle⟩ := firstLexeme_bounds hcs
  obtain ⟨w, hw⟩ : ∃ w, cs.take (firstLexeme cs).2 = w := ⟨_, rfl⟩
  have hlength : w.length = (firstLexeme cs).2 := hw ▸ List.length_take_of_le hle
  have hcut : cs = w ++ x ++ ';' :: y := by
    rw [← List.take_append_drop (firstLexeme cs).2 cs, hw, hrest, List.append_assoc]
  have hwx : w ++ x ≠ [] := by
    have hne : w ≠ [] := List.ne_nil_of_length_pos (by omega)
    simp [hne]
  have hfirst : firstLexeme cs = firstLexeme (w ++ x) := by
    rw [hcut] at hlength hquotes hcomment ⊢
    refine firstLexeme_cut hwx ?_ hquotes hcomment
    rw [List.length_append]
    omega
  rw [hw, lexemes_eq hwx, ← hfirst, ← hlength, List.take_left, List.drop_left]

theorem exists_comment {cs : List Char} (hquotes : QuotesClosed cs) (h : ¬ HasNoComment cs) :
    ∃ x c y, lexemes cs = lexemes x ++ (.token .comment, c) :: lexemes y ∧
      cs = x ++ (c ++ y) ∧ c.head? = some ';' ∧ QuotesClosed x ∧ HasNoComment x ∧
      ∀ d ∈ y.head?, d = '\n' := by
  induction cs using lexeme_induction with
  | nil => exact absurd (by simp [HasNoComment, lexemes]) h
  | step cs hcs ih =>
    by_cases hcomment : (firstLexeme cs).1 = .token .comment
    -- The comment is the first lexeme: it takes all up to the end of the line.
    · obtain ⟨cs, rfl⟩ := List.head?_eq_some_iff.1 (head_of_comment hcomment)
      have hpos := (firstLexeme_bounds hcs).1
      have hcut := (List.take_append_drop (firstLexeme (';' :: cs)).2 (';' :: cs)).symm
      refine ⟨[], _, _, ?_, hcut, ?_, ?_, ?_, ?_⟩
      · rw [lexemes_eq hcs, hcomment, lexemes]
        rfl
      · rw [List.head?_take, if_neg (by omega)]
        rfl
      · simp [QuotesClosed, lexemes]
      · simp [HasNoComment, lexemes]
      · rw [firstLexeme_semicolon, Nat.add_comm 1, List.drop_succ_cons]
        intro d hd
        simpa using not_of_head?_drop_run d hd
    · have hrest : ¬ HasNoComment (cs.drop (firstLexeme cs).2) := by
        intro hnone
        apply h
        rw [HasNoComment, lexemes_eq hcs]
        exact List.forall_mem_cons.2 ⟨hcomment, hnone⟩
      obtain ⟨x, c, y, hlexemes, hparts, hc, hx, hnone, hline⟩ :=
        ih (forall_lexemes_drop hquotes hcs) hrest
      obtain ⟨c, rfl⟩ := List.head?_eq_some_iff.1 hc
      have hpieces := lexemes_cut hcs hquotes hcomment hparts
      have hquote := hquotes
      rw [QuotesClosed, lexemes_eq hcs] at hquote
      refine ⟨cs.take (firstLexeme cs).2 ++ x, ';' :: c, y, ?_, ?_, rfl, ?_, ?_, hline⟩
      · rw [lexemes_eq hcs, hlexemes, hpieces]
        rfl
      · rw [List.append_assoc, ← hparts, List.take_append_drop]
      · rw [QuotesClosed, hpieces]
        exact List.forall_mem_cons.2 ⟨(List.forall_mem_cons.1 hquote).1, hx⟩
      · rw [HasNoComment, hpieces]
        exact List.forall_mem_cons.2 ⟨hcomment, hnone⟩

theorem withoutComments_eq_self {cs : List Char} (h : HasNoComment cs) :
    withoutComments (lexemes cs) = lexemes cs :=
  List.filter_eq_self.2 fun piece hpiece => decide_eq_true (h piece hpiece)

theorem withoutComments_append {x : List Char} (h : HasNoComment x) (c : List Char)
    (pieces : List (Lexeme × List Char)) :
    withoutComments (lexemes x ++ (.token .comment, c) :: pieces) =
      lexemes x ++ withoutComments pieces := by
  rw [withoutComments, List.filter_append, List.filter_cons_of_neg (by simp)]
  exact congrArg (· ++ _) (withoutComments_eq_self h)

theorem uncommented_tokensAt {x : List Char} (h : HasNoComment x) (place : Place) :
    uncommented (tokensAt place (lexemes x)) = tokensAt place (lexemes x) := by
  apply List.filter_eq_self.2
  intro t ht
  obtain ⟨piece, hpiece, hlexeme, -⟩ := mem_tokensAt ht
  have hne := h piece hpiece
  rw [hlexeme] at hne
  simpa using hne

theorem forall_lexemes_of_eq_append {cs x y c : List Char} {lexeme : Lexeme}
    {P : Lexeme × List Char → Prop} (h : ∀ piece ∈ lexemes cs, P piece)
    (heq : lexemes cs = lexemes x ++ (lexeme, c) :: lexemes y) : ∀ piece ∈ lexemes y, P piece := by
  intro piece hpiece
  apply h
  rw [heq]
  exact List.mem_append_right _ (List.mem_cons_of_mem _ hpiece)

theorem lexemes_withoutComments {cs : List Char} (hquotes : QuotesClosed cs) (place : Place) :
    lexemes ((withoutComments (lexemes cs)).flatMap Prod.snd) = withoutComments (lexemes cs) ∧
      tokensAt place (withoutComments (lexemes cs)) =
        uncommented (tokensAt place (lexemes cs)) := by
  induction hn : cs.length using Nat.strongRecOn generalizing cs place with
  | ind n ih =>
    by_cases hnone : HasNoComment cs
    · rw [withoutComments_eq_self hnone, flatMap_lexemes, uncommented_tokensAt hnone]
      exact ⟨rfl, rfl⟩
    · obtain ⟨x, c, y, hlexemes, hparts, hc, hx, hnone, hline⟩ := exists_comment hquotes hnone
      have hrest := forall_lexemes_of_eq_append hquotes hlexemes
      have hbefore : uncommented (tokensAt place (lexemes cs)) = tokensAt place (lexemes x) ++
          uncommented (tokensAt ((place.afterAll (lexemes x)).after (.token .comment) c.length)
            (lexemes y)) := by
        rw [hlexemes, tokensAt_append, uncommented, List.filter_append]
        exact congrArg (· ++ _) (uncommented_tokensAt hnone place)
      rw [hbefore, hlexemes, withoutComments_append hnone]
      match y, hline with
      | [], _ =>
        have hnil : lexemes [] = [] := by rw [lexemes]
        simp [hnil, withoutComments, flatMap_lexemes, tokensAt, uncommented]
      | d :: y, hline =>
        obtain rfl : d = '\n' := hline d rfl
        rw [lexemes_newline] at hrest ⊢
        have hlength : y.length < n := by
          rw [hparts] at hn
          simp only [List.length_append, List.length_cons] at hn
          omega
        obtain ⟨hpieces, htokens⟩ := ih y.length hlength (List.forall_mem_cons.1 hrest).2
          ⟨(place.afterAll (lexemes x)).line + 1, 0⟩ rfl
        have hkeep : withoutComments ((.newline, ['\n']) :: lexemes y) =
            (.newline, ['\n']) :: withoutComments (lexemes y) := List.filter_cons_of_pos (by simp)
        rw [hkeep, List.flatMap_append, flatMap_lexemes, List.flatMap_cons]
        refine ⟨?_, ?_⟩
        · rw [List.singleton_append, lexemes_append (.inl rfl) hx (by simp), lexemes_newline,
            hpieces]
        · rw [tokensAt_append]
          exact congrArg (tokensAt place (lexemes x) ++ ·) htokens

end Lexer

theorem head_eq_semicolon_iff {s : String} {t : Token} (h : t ∈ tokenize s) :
    t.text.toList.head? = some ';' ↔ t.kind = .comment := by
  rw [tokenize, Lexer.tokensFrom_eq] at h
  obtain ⟨piece, hpiece, hlexeme, htext⟩ := Lexer.mem_tokensAt h
  have hpieces : ∀ piece ∈ Lexer.lexemes s.toList,
      piece.2.head? = some ';' ↔ piece.1 = .token .comment := by
    apply Lexer.forall_lexemes
    intro cs hcs
    have hpos := (Lexer.firstLexeme_bounds hcs).1
    rw [List.head?_take, if_neg (by omega)]
    refine ⟨fun hhead => ?_, Lexer.head_of_comment⟩
    obtain ⟨cs, rfl⟩ := List.head?_eq_some_iff.1 hhead
    rw [Lexer.firstLexeme_semicolon]
  rw [htext, String.toList_ofList, hpieces piece hpiece, hlexeme]
  simp

theorem tokenize_withoutComments {s : String} (h : QuotesEnclosed s) :
    tokenize (withoutComments s) = uncommented (tokenize s) := by
  obtain ⟨hpieces, htokens⟩ := Lexer.lexemes_withoutComments (Lexer.quotesClosed h) .start
  rw [tokenize, tokenize, Lexer.tokensFrom_eq, Lexer.tokensFrom_eq, withoutComments,
    String.toList_ofList, hpieces, htokens]

end CodeAtlas.Metta
