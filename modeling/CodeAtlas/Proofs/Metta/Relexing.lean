import CodeAtlas.Proofs.Metta.Comments
import CodeAtlas.Proofs.Metta.Layout

/-! Lexemes by themselves. Cut out of its text, a lexeme is found by the same rule and at the same
length: no rule that failed on the whole text matches a piece of it, and the rule that matched finds
all of its lexeme again. So the tokens of a text can be written one below the other and read again.
-/

namespace CodeAtlas.Metta

namespace Lexer

/-- A rule that does not depend on what comes after its lexeme: it matches whatever continues a text
it matches, and it finds its lexeme again when nothing follows. -/
structure Steady (rule : Rule) : Prop where
  extend : ∀ x y, rule x ≠ 0 → rule (x ++ y) ≠ 0
  isolate : ∀ cs, rule (cs.take (rule cs)) = rule cs

/-- Of the first characters of a text the rule takes what it takes of the text, as far as they go.
-/
def Truncates (rule : Rule) : Prop := ∀ cs n, rule (cs.take n) = min n (rule cs)

section
variable {rule : Rule}

theorem Truncates.steady (h : Truncates rule) : Steady rule where
  extend x y hx hzero := by
    have htake := h (x ++ y) x.length
    rw [List.take_left, hzero] at htake
    omega
  isolate cs := by rw [h, Nat.min_self]

theorem truncates_run (p : Char → Bool) : Truncates (run p) := by
  intro cs n
  rw [run, run, ← List.take_takeWhile, List.length_take]

theorem truncates_one (c : Char) : Truncates (one c) := by
  intro cs n
  cases cs with
  | nil => simp [one]
  | cons d cs =>
    cases n with
    | zero => simp [one]
    | succ n =>
      rw [List.take_succ_cons, one, one]
      split <;> omega

theorem truncates_comment : Truncates comment := by
  intro cs n
  cases cs with
  | nil => simp [comment]
  | cons c cs =>
    cases n with
    | zero => simp [comment]
    | succ n =>
      have hrun := truncates_run (· ≠ '\n') cs n
      rw [List.take_succ_cons, comment_cons, comment_cons, hrun]
      split <;> omega

theorem truncates_name : Truncates name := by
  intro cs n
  cases cs with
  | nil => simp [name]
  | cons c cs =>
    cases n with
    | zero => simp [name]
    | succ n =>
      rw [List.take_succ_cons, name, name, truncates_run]
      split <;> omega

theorem steady_behind {inner : Rule} {mark : Char} (hnil : rule [] = 0)
    (hcons : ∀ c cs, rule (c :: cs) = if c = mark ∧ inner cs ≠ 0 then 1 + inner cs else 0)
    (h : Steady inner) : Steady rule where
  extend x y hx := by
    cases x with
    | nil => exact absurd hnil hx
    | cons c x =>
      rw [hcons] at hx
      split at hx
      · next hc =>
        rw [List.cons_append, hcons, if_pos ⟨hc.1, h.extend x y hc.2⟩]
        omega
      · exact absurd rfl hx
  isolate cs := by
    cases cs with
    | nil => rw [List.take_nil]
    | cons c cs =>
      rw [hcons]
      by_cases hc : c = mark ∧ inner cs ≠ 0
      · rw [if_pos hc, Nat.add_comm, List.take_succ_cons, hcons, h.isolate cs, if_pos hc,
          Nat.add_comm]
      · rw [if_neg hc]
        exact hnil

theorem steady_then {first second : Rule} (hrule : ∀ cs, rule cs =
      if first cs = 0 then 0 else first cs + second (cs.drop (first cs)))
    (hfirst : Truncates first) (hsecond : Steady second) : Steady rule where
  extend x y hx := by
    have hmore := hfirst.steady.extend x y
    rw [hrule] at hx ⊢
    split at hx
    · exact absurd rfl hx
    · next h =>
      have hne := hmore h
      rw [if_neg hne]
      omega
  isolate cs := by
    have hcs := hrule cs
    by_cases h : first cs = 0
    · have hnil : first [] = 0 := by simpa using hfirst [] 0
      rw [hcs, if_pos h, List.take_zero, hrule, if_pos hnil]
    · have htake : first (cs.take (rule cs)) = first cs := by
        rw [hfirst, hcs, if_neg h, Nat.min_eq_right (Nat.le_add_right _ _)]
      have hdrop : (cs.take (rule cs)).drop (first cs) =
          (cs.drop (first cs)).take (second (cs.drop (first cs))) := by
        rw [hcs, if_neg h, List.drop_take, Nat.add_sub_cancel_left]
      rw [hrule, htake, if_neg h, hdrop, hsecond.isolate, hcs, if_neg h]

theorem steady_marked (mark : Char) : Steady (marked mark) :=
  steady_behind rfl (fun _ _ => rfl) truncates_name.steady

theorem steady_unsigned : Steady unsigned :=
  steady_then (fun _ => rfl) (truncates_run Text.isDigit)
    (steady_behind rfl fraction_cons (truncates_run Text.isDigit).steady)

theorem steady_atom : Steady atom :=
  steady_then (fun _ => rfl) truncates_name (truncates_one '!').steady

theorem steady_number : Steady number where
  extend x y hx := by
    cases x with
    | nil => exact absurd rfl hx
    | cons c x =>
      have htail := steady_unsigned.extend x y
      have hwhole := steady_unsigned.extend (c :: x) y
      rw [List.cons_append] at hwhole ⊢
      rw [number_cons] at hx ⊢
      by_cases hc : c = '-'
      · rw [if_pos hc] at hx ⊢
        split at hx
        · exact absurd rfl hx
        · next h =>
          rw [if_neg (htail h)]
          omega
      · rw [if_neg hc] at hx ⊢
        exact hwhole hx
  isolate cs := by
    cases cs with
    | nil => rfl
    | cons c cs =>
      have htail := steady_unsigned.isolate cs
      have hwhole := steady_unsigned.isolate (c :: cs)
      rw [number_cons]
      by_cases hc : c = '-'
      · rw [if_pos hc]
        by_cases h : unsigned cs = 0
        · rw [if_pos h]
          rfl
        · rw [if_neg h, Nat.add_comm 1, List.take_succ_cons, number_cons, if_pos hc, htail,
            if_neg h, Nat.add_comm 1]
      · rw [if_neg hc]
        cases hn : unsigned (c :: cs) with
        | zero => rfl
        | succ n =>
          rw [hn, List.take_succ_cons] at hwhole
          rw [List.take_succ_cons, number_cons, if_neg hc, hwhole]

theorem steady_string : Steady string where
  extend x y hx := by rwa [string_append hx]
  isolate cs := by
    by_cases h : string cs = 0
    · rw [h]
      rfl
    · have hcut := @string_of_append (cs.take (string cs)) (cs.drop (string cs))
      rw [List.take_append_drop, List.length_take_of_le (fits_string cs)] at hcut
      exact (hcut h (Nat.le_refl _)).symm

theorem steady_rules : ∀ entry ∈ rules, Steady entry.2 := by
  have hone (c : Char) : Steady (one c) := (truncates_one c).steady
  have hrun (p : Char → Bool) : Steady (run p) := (truncates_run p).steady
  simp [rules, truncates_comment.steady, hone, steady_marked, steady_string, steady_number,
    steady_atom, hrun, operator]

end

theorem findSome?_take {cs : List Char} {lexeme : Lexeme} {n : Nat} :
    ∀ entries : List (Lexeme × Rule), (∀ entry ∈ entries, Steady entry.2) →
      entries.findSome? (found? cs) = some (lexeme, n) →
      entries.findSome? (found? (cs.take n)) = some (lexeme, n) := by
  intro entries hentries h
  induction entries with
  | nil => cases h
  | cons entry entries ih =>
    obtain ⟨hfirst, hrest⟩ := List.forall_mem_cons.1 hentries
    rw [List.findSome?_cons, found?] at h ⊢
    by_cases hzero : entry.2 cs = 0
    · have htake : entry.2 (cs.take n) = 0 := by
        by_contra hne
        have hcs := hfirst.extend _ (cs.drop n) hne
        rw [List.take_append_drop] at hcs
        exact hcs hzero
      rw [if_pos hzero] at h
      rw [if_pos htake]
      exact ih hrest h
    · rw [if_neg hzero] at h
      obtain ⟨hlexeme, rfl⟩ := Prod.mk.inj (Option.some.inj h)
      rw [hfirst.isolate cs, if_neg hzero, hlexeme]

theorem firstLexeme_take (cs : List Char) :
    firstLexeme (cs.take (firstLexeme cs).2) = firstLexeme cs := by
  rw [firstLexeme_eq, firstLexeme_eq]
  cases hfind : rules.findSome? (found? cs) with
  | some found => rw [Option.getD_some, findSome?_take rules steady_rules hfind, Option.getD_some]
  | none =>
    rw [List.findSome?_eq_none_iff] at hfind
    have hnone : ∀ entry ∈ rules, found? (cs.take 1) entry = none := by
      intro entry hentry
      have hzero : entry.2 cs = 0 := by
        by_contra hne
        simpa [found?, hne] using hfind entry hentry
      rw [found?, if_pos]
      by_contra hne
      have hcs := (steady_rules entry hentry).extend _ (cs.drop 1) hne
      rw [List.take_append_drop] at hcs
      exact hcs hzero
    rw [Option.getD_none, List.findSome?_eq_none_iff.2 hnone]
    rfl

theorem lexemes_alone (cs : List Char) : ∀ piece ∈ lexemes cs, lexemes piece.2 = [piece] := by
  apply forall_lexemes
  intro cs hcs
  obtain ⟨hpos, hle⟩ := firstLexeme_bounds hcs
  have hlength := List.length_take_of_le hle
  have htext : cs.take (firstLexeme cs).2 ≠ [] := List.ne_nil_of_length_pos (by omega)
  rw [lexemes_eq htext, firstLexeme_take, List.take_take, Nat.min_self,
    List.drop_eq_nil_of_le (Nat.le_of_eq hlength), lexemes]

theorem firstLexeme_quote (cs : List Char) :
    (firstLexeme ('"' :: cs)).1 = .token .string ∨ (firstLexeme ('"' :: cs)).1 = .stray := by
  have hnumber : number ('"' :: cs) = 0 := by
    rw [number_cons, if_neg (by decide)]
    exact stopsAt_unsigned (by decide) (by decide) [] cs
  have hname : name ('"' :: cs) = 0 := stopsAt_name (by decide) (by decide) [] cs
  have hoperator : operator ('"' :: cs) = 0 := @stopsAt_run '"' isOperator (by decide) [] cs
  have hpad : run Text.isPad ('"' :: cs) = 0 := stopsAt_run (by decide) [] cs
  by_cases hstring : string ('"' :: cs) = 0 <;>
    simp [firstLexeme_eq, rules, found?, comment_cons, one, marked, atom, hnumber, hname,
      hoperator, hpad, hstring]

theorem lexemes_token_newline {cs text : List Char} {kind : TokenKind}
    (h : (.token kind, text) ∈ lexemes cs) (y : List Char) :
    lexemes (text ++ '\n' :: y) = (.token kind, text) :: lexemes ('\n' :: y) := by
  have halone : lexemes text = [(.token kind, text)] := lexemes_alone cs _ h
  have htext : text ≠ [] := by
    rintro rfl
    simp [lexemes] at halone
  have hfirst := halone
  rw [lexemes_eq htext] at hfirst
  obtain ⟨hpiece, -⟩ := List.cons.inj hfirst
  obtain ⟨hkind, htake⟩ := Prod.mk.inj hpiece
  have hstring : string (text ++ '\n' :: y) = string text := by
    obtain ⟨c, rest, rfl⟩ := List.exists_cons_of_ne_nil htext
    by_cases hc : c = '"'
    · subst hc
      apply string_append
      rcases firstLexeme_quote rest with hquote | hquote
      · exact string_of_lexeme hquote
      · rw [hkind] at hquote
        cases hquote
    · rw [List.cons_append, string_cons, string_cons, if_neg hc, if_neg hc]
  have hlength : (firstLexeme text).2 = text.length := by
    have hbound := (firstLexeme_bounds htext).2
    have hlength := congrArg List.length htake
    rw [List.length_take] at hlength
    omega
  rw [lexemes_eq (by simp), firstLexeme_append (.inl rfl) htext (by simp) hstring, hkind, hlength,
    List.take_left, List.drop_left]

def word? : Lexeme × List Char → Option (TokenKind × String)
  | (.token kind, text) => some (kind, String.ofList text)
  | _ => none

theorem word_tokensAt (place : Place) (pieces : List (Lexeme × List Char)) :
    (tokensAt place pieces).map Token.word = pieces.filterMap word? := by
  induction pieces generalizing place with
  | nil => rfl
  | cons piece pieces ih =>
    obtain ⟨lexeme, text⟩ := piece
    rw [tokensAt, List.map_append, ih, List.filterMap_cons]
    cases lexeme <;> rfl

theorem word_tokenize (s : String) :
    (tokenize s).map Token.word = (lexemes s.toList).filterMap word? := by
  rw [tokenize, tokensFrom_eq, word_tokensAt]

end Lexer

open CodeAtlas.Metta.Lexer

theorem words_of_lines {cs : List Char} (words : List (TokenKind × String))
    (h : ∀ word ∈ words, (.token word.1, word.2.toList) ∈ lexemes cs) :
    (tokenize ("\n".intercalate (words.map Prod.snd))).map Token.word = words := by
  rw [word_tokenize]
  induction words with
  | nil => simp [lexemes]
  | cons word words ih =>
    obtain ⟨hfirst, hrest⟩ := List.forall_mem_cons.1 h
    have hword : word? (.token word.1, word.2.toList) = some word := by simp [word?]
    cases words with
    | nil =>
      rw [List.map_singleton, String.intercalate_singleton, lexemes_alone cs _ hfirst]
      simp [hword]
    | cons next words =>
      have hchars : ("\n".intercalate ((word :: next :: words).map Prod.snd)).toList =
          word.2.toList ++ '\n' :: ("\n".intercalate ((next :: words).map Prod.snd)).toList := by
        simp [String.intercalate_cons_cons]
      rw [hchars, lexemes_token_newline hfirst, lexemes_newline, List.filterMap_cons, hword,
        List.filterMap_cons]
      exact congrArg (word :: ·) (ih hrest)

/-- A token is the same token wherever it stands: the tokens of a text, written one below the other,
are read as the same tokens in the same order. -/
theorem tokens_reread (s : String) :
    (tokenize ("\n".intercalate ((tokenize s).map Token.text))).map Token.word =
      (tokenize s).map Token.word := by
  have hmem : ∀ word ∈ (tokenize s).map Token.word,
      (.token word.1, word.2.toList) ∈ lexemes s.toList := by
    intro word hword
    obtain ⟨t, ht, rfl⟩ := List.mem_map.1 hword
    rw [tokenize, tokensFrom_eq] at ht
    obtain ⟨piece, hpiece, hkind, htext⟩ := mem_tokensAt ht
    rw [Token.word, htext, String.toList_ofList, ← hkind]
    exact hpiece
  have hwords := words_of_lines _ hmem
  rwa [List.map_map] at hwords

end CodeAtlas.Metta
