import CodeAtlas.Proofs.Metta.Layout
import CodeAtlas.Proofs.Metta.Offsets
import CodeAtlas.Proofs.Metta.Parentheses

/-! Words that are made of operator signs. The rules for `!` and for `=` are tried before the rule
for operators, so each of these signs at the head of a word is a token by itself, and only what
comes behind them is taken as one operator. A form whose first word starts with `=` defines
something. -/

namespace CodeAtlas.Metta

def tokensOver (s : String) (p n : Nat) : List (Nat × Token) :=
  (located s).filter fun entry => p < entry.1 + entry.2.text.length ∧ entry.1 < p + n

/-- No token that starts before offset `p` reaches over it. -/
def StartsAt (s : String) (p : Nat) : Prop :=
  ∀ entry ∈ located s, entry.1 < p → entry.1 + entry.2.text.length ≤ p

structure IsOperatorWord (w : String) : Prop where
  ne_empty : w ≠ ""
  signs : ∀ c ∈ w.toList, Lexer.isOperator c

namespace Lexer

def signs : List Char → List (Lexeme × List Char)
  | [] => []
  | c :: cs =>
    if c = '!' then (.token .execute, ['!']) :: signs cs
    else if c = '=' then (.token .equals, ['=']) :: signs cs
    else [(.token .operator, c :: cs)]

section
variable {c : Char} {w : List Char}

theorem isDigit_of_isOperator (h : isOperator c) : Text.isDigit c = false := by
  simp only [isOperator, List.mem_cons, List.not_mem_nil, or_false, decide_eq_true_eq] at h
  rcases h with rfl | rfl | rfl | rfl | rfl | rfl | rfl | rfl <;> decide

theorem isPad_of_isOperator (h : isOperator c) : Text.isPad c = false := by
  simp only [isOperator, List.mem_cons, List.not_mem_nil, or_false, decide_eq_true_eq] at h
  rcases h with rfl | rfl | rfl | rfl | rfl | rfl | rfl | rfl <;> rfl

theorem unsigned_of_head {cs : List Char} (h : ∀ c ∈ cs.head?, Text.isDigit c = false) :
    unsigned cs = 0 := by
  have hrun : run Text.isDigit cs = 0 := by
    cases cs with
    | nil => rfl
    | cons c cs => simp [run, h c rfl]
  simp only [unsigned, if_pos hrun]

theorem number_of_signs (hw : ∀ d ∈ c :: w, isOperator d) (y : List Char) :
    number (c :: (w ++ ' ' :: y)) = 0 := by
  obtain ⟨hc, hrest⟩ := List.forall_mem_cons.1 hw
  have hafter : unsigned (w ++ ' ' :: y) = 0 := by
    apply unsigned_of_head
    cases w with
    | nil => simp; decide
    | cons d w => simpa using isDigit_of_isOperator (hrest d List.mem_cons_self)
  have hwhole : unsigned (c :: (w ++ ' ' :: y)) = 0 := by
    apply unsigned_of_head
    simpa using isDigit_of_isOperator hc
  rw [number_cons, if_pos hafter, hwhole, ite_self]

theorem operator_signs (hw : ∀ d ∈ w, isOperator d) (y : List Char) :
    operator (w ++ ' ' :: y) = w.length := by
  rw [operator, run, List.takeWhile_append_of_pos hw, List.takeWhile_cons_of_neg (by decide),
    List.append_nil]

theorem firstLexeme_openParen (cs : List Char) :
    firstLexeme ('(' :: cs) = (.token .openParen, 1) := by
  simp [firstLexeme_eq, rules, found?, comment_cons, one]

theorem firstLexeme_execute (cs : List Char) : firstLexeme ('!' :: cs) = (.token .execute, 1) := by
  simp [firstLexeme_eq, rules, found?, comment_cons, one]

theorem ne_of_isOperator (h : isOperator c) : c ≠ ';' ∧ c ≠ '(' ∧ c ≠ ')' ∧ c ≠ '[' ∧ c ≠ ']' ∧
    c ≠ '&' ∧ c ≠ '$' ∧ c ≠ '"' := by
  refine ⟨?_, ?_, ?_, ?_, ?_, ?_, ?_, ?_⟩ <;> rintro rfl <;> cases h

theorem firstLexeme_signs (hw : ∀ d ∈ c :: w, isOperator d) (hmark : c ≠ '!') (y : List Char) :
    firstLexeme (c :: (w ++ ' ' :: y)) =
      if c = '=' then (.token .equals, 1) else (.token .operator, (c :: w).length) := by
  obtain ⟨hcomment, hopen, hclose, hopen', hclose', hspace, hvariable, hstring⟩ :=
    ne_of_isOperator (hw c List.mem_cons_self)
  have hoperator : operator (c :: (w ++ ' ' :: y)) = (c :: w).length := operator_signs hw y
  have hnumber := number_of_signs hw y
  by_cases hequals : c = '='
  · subst hequals
    simp [firstLexeme_eq, rules, found?, comment_cons, one, marked, string_cons, hnumber]
  · simp [firstLexeme_eq, rules, found?, comment_cons, one, marked, string_cons, hnumber,
      hoperator, hcomment, hopen, hclose, hopen', hclose', hspace, hvariable, hstring, hmark,
      hequals]

theorem lexemes_signs (hw : ∀ d ∈ w, isOperator d) (y : List Char) :
    lexemes (w ++ ' ' :: y) = signs w ++ lexemes (' ' :: y) := by
  induction w with
  | nil => rfl
  | cons c w ih =>
    obtain ⟨-, hrest⟩ := List.forall_mem_cons.1 hw
    rw [lexemes_eq (by simp), signs]
    by_cases hmark : c = '!'
    · subst hmark
      rw [if_pos rfl, List.cons_append, firstLexeme_execute]
      exact congrArg _ (ih hrest)
    · rw [if_neg hmark, List.cons_append, firstLexeme_signs hw hmark]
      by_cases hequals : c = '='
      · subst hequals
        rw [if_pos rfl, if_pos rfl]
        exact congrArg _ (ih hrest)
      · rw [if_neg hequals, if_neg hequals, ← List.cons_append, List.take_left, List.drop_left]
        rfl

def signKind (c : Char) : TokenKind :=
  if c = '!' then .execute else if c = '=' then .equals else .operator

theorem signKind_ne_closeParen (c : Char) : signKind c ≠ .closeParen := by
  unfold signKind
  split
  · simp
  · split <;> simp

theorem signKind_eq_equals : signKind c = .equals ↔ c = '=' := by
  unfold signKind
  split
  · next hc => simp [hc]
  · split <;> simp_all

theorem exists_signs (c : Char) (w : List Char) :
    ∃ text more, signs (c :: w) = (.token (signKind c), text) :: more := by
  rw [signs, signKind]
  split
  · exact ⟨_, _, rfl⟩
  · split <;> exact ⟨_, _, rfl⟩

theorem ne_nil_of_mem_signs {piece : Lexeme × List Char} (h : piece ∈ signs w) :
    piece.2 ≠ [] := by
  induction w with
  | nil => cases h
  | cons c w ih =>
    rw [signs] at h
    split at h
    · rcases List.mem_cons.1 h with rfl | h
      · simp
      · exact ih h
    · split at h
      · rcases List.mem_cons.1 h with rfl | h
        · simp
        · exact ih h
      · rw [List.mem_singleton] at h
        simp [h]

theorem flatMap_signs (w : List Char) : (signs w).flatMap Prod.snd = w := by
  induction w with
  | nil => rfl
  | cons c w ih =>
    rw [signs]
    split
    · next hc => rw [List.flatMap_cons, ih, hc]; rfl
    · split
      · next hc => rw [List.flatMap_cons, ih, hc]; rfl
      · simp

end

section
variable {place : Place} {offset p : Nat} {pieces : List (Lexeme × List Char)} {t : Token}

theorem end_le_of_mem (h : (p, t) ∈ locatedAt place offset pieces) :
    p + t.text.length ≤ offset + (pieces.flatMap Prod.snd).length := by
  obtain ⟨before, kind, text, after, rfl, rfl, rfl⟩ := mem_locatedAt.1 h
  rw [String.length_ofList, List.flatMap_append, List.flatMap_cons, List.length_append,
    List.length_append]
  dsimp only
  omega

theorem split_locatedAt {before after : List (Nat × Token)}
    (h : locatedAt place offset pieces = before ++ (p, t) :: after) :
    ∃ front kind text back, pieces = front ++ (.token kind, text) :: back ∧
      p = offset + (front.flatMap Prod.snd).length ∧ t.kind = kind ∧
      ∃ place', after.map Prod.snd = tokensAt place' back := by
  induction pieces generalizing place offset before with
  | nil => simp [locatedAt] at h
  | cons piece pieces ih =>
    obtain ⟨lexeme, text⟩ := piece
    rw [locatedAt] at h
    have hlater {before' : List (Nat × Token)}
        (h' : locatedAt (place.after lexeme text.length) (offset + text.length) pieces =
          before' ++ (p, t) :: after) :
        ∃ front kind text' back, (lexeme, text) :: pieces = front ++ (.token kind, text') :: back ∧
          p = offset + (front.flatMap Prod.snd).length ∧ t.kind = kind ∧
          ∃ place', after.map Prod.snd = tokensAt place' back := by
      obtain ⟨front, kind, text', back, rfl, rfl, hkind, hback⟩ := ih h'
      refine ⟨(lexeme, text) :: front, kind, text', back, rfl, ?_, hkind, hback⟩
      rw [List.flatMap_cons, List.length_append, Nat.add_assoc]
    cases lexeme with
    | token kind =>
      cases before with
      | nil =>
        obtain ⟨hentry, rfl⟩ := List.cons.inj h
        obtain ⟨rfl, rfl⟩ := Prod.mk.inj hentry
        exact ⟨[], kind, text, pieces, rfl, rfl, rfl, _, map_locatedAt _ _ _⟩
      | cons entry before => exact hlater (List.cons.inj h).2
    | padding | newline | stray => exact hlater h

theorem exists_cut {s : String} (hpos : 0 < p) (hp : p < s.toList.length)
    (hpad : Text.isPad s.toList[p] = false) (h : StartsAt s p) :
    ∃ before, lexemes s.toList = before ++ lexemes (s.toList.drop p) ∧
      (before.flatMap Prod.snd).length = p := by
  have hlength : p - 1 < ((lexemes s.toList).flatMap Prod.snd).length := by
    rw [flatMap_lexemes]
    omega
  obtain ⟨before, ⟨lexeme, text⟩, after, hpieces, hle, hlt⟩ := exists_lexeme_at hlength
  obtain ⟨hlexeme, htext⟩ := Prod.mk.inj (firstLexeme_drop hpieces)
  dsimp only at hlt
  have hend : (before.flatMap Prod.snd).length + text.length = p := by
    cases lexeme with
    | token kind =>
      have hentry := h _ (mem_locatedAt.2 ⟨before, kind, text, after, hpieces, rfl, rfl⟩)
      simp only [Nat.zero_add, String.length_ofList] at hentry
      omega
    | padding =>
      by_cases hover : p < (before.flatMap Prod.snd).length + text.length
      · have hmem := getElem_mem_lexeme hpieces hp (by omega) hover
        have hblank := isPad_of_lexeme hlexeme.symm _ (htext ▸ hmem)
        rw [hpad] at hblank
        cases hblank
      · omega
    | newline =>
      have hone : text.length = 1 := by rw [htext, newline_of_lexeme hlexeme.symm]; rfl
      omega
    | stray =>
      have hone : text.length ≤ 1 := by
        rw [htext, (rules_of_stray hlexeme.symm).1]
        exact List.length_take_le 1 _
      omega
  have hsplit : lexemes s.toList = (before ++ [(lexeme, text)]) ++ after := by
    rw [hpieces, List.append_assoc]
    rfl
  have hflat : ((before ++ [(lexeme, text)]).flatMap Prod.snd).length = p := by
    simpa using hend
  refine ⟨before ++ [(lexeme, text)], ?_, hflat⟩
  rw [hsplit, ← hflat, lexemes_drop hsplit]

end

end Lexer

open CodeAtlas.Metta.Lexer

section
variable {s : String} {p : Nat} {w y : List Char}

theorem filter_located {place : Place} {offset n : Nat} {pieces : List (Lexeme × List Char)}
    (hne : ∀ piece ∈ pieces, piece.2 ≠ []) (hle : p ≤ offset)
    (hend : offset + (pieces.flatMap Prod.snd).length ≤ p + n) :
    (locatedAt place offset pieces).filter (fun entry =>
      p < entry.1 + entry.2.text.length ∧ entry.1 < p + n) = locatedAt place offset pieces := by
  rw [List.filter_eq_self]
  rintro ⟨q, t⟩ hentry
  have hstart := offset_le_of_mem hentry
  have hstop := end_le_of_mem hentry
  obtain ⟨before, kind, text, after, rfl, -, rfl⟩ := mem_locatedAt.1 hentry
  have htext := List.length_pos_iff.2 (hne (.token kind, text) (by simp))
  rw [String.length_ofList] at hstop
  simp only [String.length_ofList, decide_eq_true_eq]
  dsimp only at htext
  omega

theorem filter_located_apart {place : Place} {offset n : Nat} {pieces : List (Lexeme × List Char)}
    (h : offset + (pieces.flatMap Prod.snd).length ≤ p ∨ p + n ≤ offset) :
    (locatedAt place offset pieces).filter (fun entry =>
      p < entry.1 + entry.2.text.length ∧ entry.1 < p + n) = [] := by
  rw [List.filter_eq_nil_iff]
  rintro ⟨q, t⟩ hentry
  have hstart := offset_le_of_mem hentry
  have hstop := end_le_of_mem hentry
  simp only [decide_eq_true_eq]
  omega

theorem tokensOver_signs (hdrop : s.toList.drop p = w ++ ' ' :: y) (hpos : 0 < p) (hw : w ≠ [])
    (hsigns : ∀ c ∈ w, isOperator c) (h : StartsAt s p) :
    ∃ place, tokensOver s p w.length = locatedAt place p (signs w) := by
  obtain ⟨c, hc⟩ := Option.ne_none_iff_exists'.1 (mt List.head?_eq_none_iff.1 hw)
  have hfirst : s.toList[p]? = some c := by
    rw [← List.head?_drop, hdrop, List.head?_append, hc]
    rfl
  obtain ⟨hp, hget⟩ := List.getElem?_eq_some_iff.1 hfirst
  have hpad : Text.isPad s.toList[p] = false := by
    rw [hget]
    exact isPad_of_isOperator (hsigns c (List.mem_of_head? hc))
  obtain ⟨before, hlexemes, hflat⟩ := exists_cut hpos hp hpad h
  rw [hdrop, lexemes_signs hsigns] at hlexemes
  refine ⟨Place.start.afterAll before, ?_⟩
  have hlength := congrArg List.length (flatMap_signs w)
  rw [tokensOver, located, hlexemes, locatedAt_append, locatedAt_append, List.filter_append,
    List.filter_append, Nat.zero_add, hflat, filter_located_apart (.inl (by omega)),
    filter_located (fun _ => ne_nil_of_mem_signs) (Nat.le_refl p) (by omega),
    filter_located_apart (.inr (by omega)), List.nil_append, List.append_nil]

theorem startsAt_of_tokensOver {n : Nat} {t : Token} (hn : 0 < n)
    (h : (tokensOver s p n).map (fun entry => (entry.1, entry.2.word)) = [(p, t.word)]) :
    StartsAt s p := by
  intro entry hentry hlt
  by_cases hle : entry.1 + entry.2.text.length ≤ p
  · exact hle
  · have hover : entry ∈ tokensOver s p n := by
      refine List.mem_filter.2 ⟨hentry, ?_⟩
      simp only [decide_eq_true_eq]
      omega
    have hmem := List.mem_map_of_mem (f := fun entry => (entry.1, entry.2.word)) hover
    rw [h, List.mem_singleton] at hmem
    have hp := (Prod.mk.inj hmem).1
    omega

theorem tokensOver_operator_iff (hdrop : s.toList.drop p = w ++ ' ' :: y) (hpos : 0 < p)
    (hw : w ≠ []) (hsigns : ∀ c ∈ w, isOperator c) :
    (tokensOver s p w.length).map (fun entry => (entry.1, entry.2.word)) =
        [(p, .operator, String.ofList w)] ↔
      StartsAt s p ∧ w.head? ≠ some '!' ∧ w.head? ≠ some '=' := by
  have hover := tokensOver_signs hdrop hpos hw hsigns
  obtain ⟨c, w', rfl⟩ := List.exists_cons_of_ne_nil hw
  rw [List.head?_cons, Ne, Ne, Option.some.injEq, Option.some.injEq]
  constructor
  · intro hone
    have hstarts : StartsAt s p :=
      startsAt_of_tokensOver (t := ⟨.operator, String.ofList (c :: w'), 0, 0⟩) (by simp) hone
    refine ⟨hstarts, ?_⟩
    obtain ⟨place, hsplit⟩ := hover hstarts
    obtain ⟨text, more, hfirst⟩ := exists_signs c w'
    rw [hsplit, hfirst, locatedAt] at hone
    have hkind : signKind c = .operator := by
      have hhead := (List.cons.inj hone).1
      exact congrArg (fun entry => entry.2.1) hhead
    unfold signKind at hkind
    constructor
    · rintro rfl
      simp at hkind
    · rintro rfl
      simp at hkind
  · rintro ⟨hstarts, hmark, hequals⟩
    obtain ⟨place, hsplit⟩ := hover hstarts
    rw [hsplit, signs, if_neg hmark, if_neg hequals]
    rfl

theorem drop_tokenize_open {i : Nat} {t : Token} (hi : (located s)[i]? = some (p, t))
    (hdrop : s.toList.drop p = '(' :: y) :
    ∃ place, (tokenize s).drop i = t :: tokensAt place (lexemes y) := by
  obtain ⟨hlt, hget⟩ := List.getElem?_eq_some_iff.1 hi
  have hentry : (located s).drop i = (p, t) :: (located s).drop (i + 1) := by
    rw [List.drop_eq_getElem_cons hlt, hget]
  have hsplit := (List.take_append_drop i (located s)).symm
  rw [hentry] at hsplit
  obtain ⟨front, kind, text, back, hpieces, hp, -, place, hback⟩ := split_locatedAt hsplit
  rw [Nat.zero_add] at hp
  have htext : text = ['('] := by
    obtain ⟨-, htext⟩ := Prod.mk.inj (firstLexeme_drop hpieces)
    rw [htext, ← hp, hdrop, firstLexeme_openParen]
    rfl
  have hrest : lexemes y = back := by
    have hpieces' : lexemes s.toList = front ++ [(.token kind, text)] ++ back := by
      rw [hpieces, List.append_assoc]
      rfl
    rw [← lexemes_drop hpieces', List.flatMap_append, List.length_append, ← hp, ← List.drop_drop,
      hdrop, htext]
    rfl
  refine ⟨place, ?_⟩
  rw [← map_located, ← List.map_drop, hentry, List.map_cons, hback, hrest]

end

theorem Parser.kind_form_cons {line : Int} {u : Token} {rest : List Token}
    (h : u.kind ≠ .closeParen) : (form line (u :: rest)).value.kind =
      if u.kind = .equals then .definition else .expression := by
  by_cases he : u.kind = .equals
  · rw [(form_equals he).1, Node.kind_closedAt, kind_definition, if_pos he]
  · rw [(form_call h he).1, Node.kind_closedAt, Node.kind_addChildren, if_neg he]
    rfl

theorem step_form_signs {tokens : List Token} {i : Nat} {t : Token} {place : Place} {c : Char}
    {w y : List Char} (hsigns : ∀ d ∈ c :: w, isOperator d)
    (h : tokens.drop i = t :: tokensAt place (lexemes (c :: w ++ ' ' :: y))) :
    ∃ node left, (Cursor.at tokens i).step .form = (.ok (.node node), left) ∧
      node.kind = if c = '=' then .definition else .expression := by
  obtain ⟨u, rest, hkind, hdrop⟩ :
      ∃ u rest, u.kind = signKind c ∧ tokens.drop i = t :: u :: rest := by
    obtain ⟨text, more, hfirst⟩ := exists_signs c w
    rw [lexemes_signs hsigns, hfirst] at h
    exact ⟨_, _, rfl, h⟩
  refine ⟨(Parser.form t.line (u :: rest)).value,
    ⟨tokens.length, (Parser.form t.line (u :: rest)).rest⟩, ?_, ?_⟩
  · simp only [Cursor.at, Cursor.step, Cursor.withFirst, hdrop]
  · rw [Parser.kind_form_cons (hkind ▸ signKind_ne_closeParen c)]
    simp only [hkind, signKind_eq_equals]

theorem drop_toList {s a : String} {cs : List Char} (h : s.toList = a.toList ++ cs) :
    s.toList.drop a.length = cs := by
  rw [h, ← String.length_toList, List.drop_left]

/-- A word of operator signs is one token just if no token reaches into it, as a string or a comment
may do, and it starts neither with `!` nor with `=`; and behind an opening parenthesis it makes a
definition of the form just if it starts with `=`. -/
theorem operator_whole_iff (a w b : String) (hw : IsOperatorWord w) :
    ((tokensOver (a ++ " " ++ w ++ " " ++ b) (a.length + 1) w.length).map
          (fun entry => (entry.1, entry.2.word)) = [(a.length + 1, .operator, w)] ↔
        StartsAt (a ++ " " ++ w ++ " " ++ b) (a.length + 1) ∧
          w.toList.head? ≠ some '!' ∧ w.toList.head? ≠ some '=') ∧
      ∀ i t, (located (a ++ "(" ++ w ++ " " ++ b))[i]? = some (a.length, t) →
        ∃ node c, (Cursor.at (tokenize (a ++ "(" ++ w ++ " " ++ b)) i).step .form =
            (.ok (.node node), c) ∧
          (node.kind = .expression ↔ w.toList.head? ≠ some '=') ∧
          (node.kind = .definition ↔ w.toList.head? = some '=') := by
  have hne : w.toList ≠ [] := mt String.toList_eq_nil_iff.1 hw.ne_empty
  constructor
  · have hdrop : (a ++ " " ++ w ++ " " ++ b).toList.drop (a.length + 1) =
        w.toList ++ ' ' :: b.toList := by
      have hchars : (a ++ " " ++ w ++ " " ++ b).toList =
          a.toList ++ ' ' :: (w.toList ++ ' ' :: b.toList) := by simp
      rw [← List.drop_drop, drop_toList hchars]
      rfl
    have hiff := tokensOver_operator_iff hdrop (Nat.succ_pos _) hne hw.signs
    rwa [String.ofList_toList, String.length_toList] at hiff
  · intro i t hi
    have hdrop : (a ++ "(" ++ w ++ " " ++ b).toList.drop a.length =
        '(' :: (w.toList ++ ' ' :: b.toList) := drop_toList (by simp)
    obtain ⟨place, htokens⟩ := drop_tokenize_open hi hdrop
    obtain ⟨c, cs, hchars⟩ := List.exists_cons_of_ne_nil hne
    have hsigns := hw.signs
    rw [hchars] at htokens hsigns ⊢
    obtain ⟨node, left, hstep, hkind⟩ := step_form_signs hsigns htokens
    refine ⟨node, left, hstep, ?_⟩
    rw [hkind, List.head?_cons, Ne, Option.some.injEq]
    by_cases hc : c = '=' <;> simp [hc]

theorem comparisons_split :
    IsOperatorWord "!=" ∧ IsOperatorWord "==" ∧
      (tokensOver "a != b" 2 2).map (fun entry => entry.2.word) =
        [(.execute, "!"), (.equals, "=")] ∧
      (tokensOver "a != b" 2 2).map (fun entry => (entry.1, entry.2.word)) ≠
        [(2, .operator, "!=")] ∧
      ∃ node c, (Cursor.at (tokenize "(== x y)") 0).step .form = (.ok (.node node), c) ∧
        node.kind = .definition := by
  have hunequal : IsOperatorWord "!=" := ⟨by decide, List.all_eq_true.1 (by decide)⟩
  have hequal : IsOperatorWord "==" := ⟨by decide, List.all_eq_true.1 (by decide)⟩
  refine ⟨hunequal, hequal, by decide +kernel, ?_, ?_⟩
  · intro hone
    exact ((operator_whole_iff "a" "!=" "b" hunequal).1.1 hone).2.1 (by decide)
  · have hopen : (located "(== x y)")[0]? = some (0, ⟨.openParen, "(", 1, 0⟩) := by decide +kernel
    obtain ⟨node, c, hstep, -, hkind⟩ := (operator_whole_iff "" "==" "x y)" hequal).2 0 _ hopen
    exact ⟨node, c, hstep, hkind.2 (by decide)⟩

end CodeAtlas.Metta
