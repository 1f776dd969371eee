import CodeAtlas.Proofs.Metta.Parentheses

/-! The forms of a whole program. If parentheses are balanced then a program is a row of words and
outermost groups. Unless there is a broken head in it, the forms of its tree are these groups one by
one; and if there is one then some closing parenthesis of a group is passed over. -/

namespace CodeAtlas.Metta

structure Balanced (tokens : List Token) : Prop where
  stays : Stays 0 tokens
  total : balance tokens = 0

instance (tokens : List Token) : Decidable (Balanced tokens) :=
  decidable_of_iff (Stays 0 tokens ∧ balance tokens = 0)
    ⟨fun h => ⟨h.1, h.2⟩, fun h => ⟨h.stays, h.total⟩⟩

/-- What a balanced program consists of: words outside all parentheses, and outermost groups. -/
inductive Piece
  | word (w : Word)
  | group (l : Token) (inside : List Token) (r : Token) (h : IsGroup l inside r)

def Piece.tokens : Piece → List Token
  | .word w => [w.1]
  | .group l inside r _ => l :: (inside ++ [r])

def Piece.form? : Piece → Option Node
  | .word _ => none
  | .group l inside r _ => some (Parser.form l.line (inside ++ [r])).value

def Piece.idle? : Piece → Option Token
  | .word w => if w.1.kind = .comment ∨ w.1.kind = .execute then none else some w.1
  | .group _ _ _ _ => none

def Node.forms (node : Node) : List Node :=
  match node.kind with
  | .comment => []
  | .execution => node.children
  | _ => [node]

def passedOver : List Token → List Token
  | [] => []
  | t :: rest =>
    (if (Parser.topLevel t rest).value.isNone then [t] else []) ++
      passedOver (Parser.topLevel t rest).rest
termination_by tokens => tokens.length
decreasing_by
  have h := (Parser.topLevel t rest).rest_le
  rw [List.length_cons]
  omega

open CodeAtlas.Metta.Parser

section
variable {t : Token} {rest : List Token}

theorem forms_form (line : Int) (tokens : List Token) :
    (form line tokens).value.forms = [(form line tokens).value] := by
  obtain h | h | h := kind_form line tokens <;> simp [Node.forms, h]

theorem forms_open (h : t.kind = .openParen) :
    (topLevels (t :: rest)).flatMap Node.forms =
      (form t.line rest).value :: (topLevels (form t.line rest).rest).flatMap Node.forms := by
  rw [topLevels_cons, (topLevel_open h).1, (topLevel_open h).2]
  simp [forms_form]

theorem passedOver_open (h : t.kind = .openParen) :
    passedOver (t :: rest) = passedOver (form t.line rest).rest := by
  rw [passedOver, (topLevel_open h).1, (topLevel_open h).2]
  rfl

theorem forms_execute (h : t.kind = .execute) :
    (topLevels (t :: rest)).flatMap Node.forms = (topLevels rest).flatMap Node.forms ∧
      passedOver (t :: rest) = passedOver rest := by
  rw [topLevels_cons, passedOver, (topLevel_execute h).1, (topLevel_execute h).2]
  by_cases hopen : ∀ u ∈ rest.head?, u.kind ≠ .openParen
  · rw [(execution_alone hopen).1, (execution_alone hopen).2]
    simp [Node.forms]
  · match rest, hopen with
    | u :: rest, hopen =>
      have hu : u.kind = .openParen := by simpa using hopen
      rw [(execution_open hu).1, (execution_open hu).2, forms_open hu, passedOver_open hu]
      simp [Node.forms]
    | [], hopen => simp at hopen

theorem forms_comment (h : t.kind = .comment) :
    (topLevels (t :: rest)).flatMap Node.forms = (topLevels rest).flatMap Node.forms ∧
      passedOver (t :: rest) = passedOver rest := by
  rw [topLevels_cons, passedOver, (topLevel_comment h).1, (topLevel_comment h).2]
  simp [Node.forms, Parser.comment]

theorem forms_other (hc : t.kind ≠ .comment) (he : t.kind ≠ .execute)
    (ho : t.kind ≠ .openParen) :
    (topLevels (t :: rest)).flatMap Node.forms = (topLevels rest).flatMap Node.forms ∧
      passedOver (t :: rest) = t :: passedOver rest := by
  rw [topLevels_cons, passedOver, (topLevel_other hc he ho).1, (topLevel_other hc he ho).2]
  simp

end

theorem exists_close {tokens : List Token} {depth : Nat} (hstays : Stays (depth + 1) tokens)
    (htotal : (depth : Int) + 1 + balance tokens = 0) :
    ∃ inside r after, tokens = inside ++ r :: after ∧ r.kind = .closeParen ∧
      Stays depth inside ∧ (depth : Int) + balance inside = 0 := by
  induction tokens generalizing depth with
  | nil =>
    rw [balance_nil] at htotal
    omega
  | cons t rest ih =>
    rw [balance_cons] at htotal
    by_cases hc : t.kind = .closeParen
    · have hrise := rise_close hc
      match depth with
      | 0 => exact ⟨[], t, rest, rfl, hc, Int.le_refl 0, rfl⟩
      | depth + 1 =>
        have hrest : Stays (depth + 1) rest := by
          have hnext := hstays.2
          rwa [hrise, show ((depth + 1 : Nat) : Int) + 1 + -1 = depth + 1 by omega] at hnext
        obtain ⟨inside, r, after, rfl, hr, hinside, hzero⟩ := ih hrest (by omega)
        refine ⟨t :: inside, r, after, rfl, hr, ⟨by omega, ?_⟩, ?_⟩
        · rwa [hrise, show ((depth + 1 : Nat) : Int) + -1 = depth by omega]
        · rw [balance_cons]
          omega
    · -- the depth goes up at an opening parenthesis and stays at a word
      have hup : ∃ up : Nat, t.rise = up := by
        by_cases ho : t.kind = .openParen
        · exact ⟨1, rise_open ho⟩
        · exact ⟨0, rise_word (not_or.2 ⟨ho, hc⟩)⟩
      obtain ⟨up, hup⟩ := hup
      have hrest : Stays ((depth + up : Nat) + 1) rest := by
        have hnext := hstays.2
        rwa [hup, show (depth : Int) + 1 + up = (depth + up : Nat) + 1 by omega] at hnext
      obtain ⟨inside, r, after, rfl, hr, hinside, hzero⟩ := ih hrest (by omega)
      refine ⟨t :: inside, r, after, rfl, hr, ⟨by omega, ?_⟩, ?_⟩
      · rwa [hup, show (depth : Int) + up = (depth + up : Nat) by omega]
      · rw [balance_cons]
        omega

theorem Balanced.exists_pieces {tokens : List Token} (h : Balanced tokens) :
    ∃ pieces : List Piece, tokens = pieces.flatMap Piece.tokens := by
  induction hn : tokens.length using Nat.strongRecOn generalizing tokens with
  | ind n ih =>
    match tokens, h, hn with
    | [], _, _ => exact ⟨[], rfl⟩
    | t :: rest, h, hn =>
      rw [List.length_cons] at hn
      have hstays := h.stays.2
      have htotal := h.total
      rw [balance_cons] at htotal
      by_cases ho : t.kind = .openParen
      · rw [rise_open ho] at hstays htotal
        obtain ⟨inside, r, after, rfl, hr, hinside, hzero⟩ := @exists_close rest 0 hstays htotal
        rw [balance_append, balance_cons, rise_close hr] at htotal
        rw [stays_append] at hstays
        have hafter := hstays.2.2
        rw [rise_close hr] at hafter
        have hbalanced : Balanced after := ⟨hafter.mono (by omega), by omega⟩
        rw [List.length_append, List.length_cons] at hn
        obtain ⟨pieces, rfl⟩ := ih after.length (by omega) hbalanced rfl
        refine ⟨.group t inside r ⟨ho, hr, hinside, by omega⟩ :: pieces, ?_⟩
        simp [Piece.tokens]
      · by_cases hc : t.kind = .closeParen
        · have hbelow := hstays.zero_le
          rw [rise_close hc] at hbelow
          omega
        · have hword : ¬ t.IsParen := not_or.2 ⟨ho, hc⟩
          rw [rise_word hword] at hstays htotal
          obtain ⟨pieces, rfl⟩ := ih rest.length (by omega) ⟨hstays, by omega⟩ rfl
          exact ⟨.word ⟨t, hword⟩ :: pieces, rfl⟩

theorem brokenHeads_pieces (piece : Piece) (rest : List Token) :
    brokenHeads (piece.tokens ++ rest) = brokenHeads piece.tokens + brokenHeads rest := by
  cases piece with
  | word w =>
    have hne : w.1.kind ≠ .openParen := fun h => w.2 (.inl h)
    exact (brokenHeads_cons_of_ne hne).trans (Nat.zero_add _).symm
  | group l inside r h =>
    have happend : l :: (inside ++ [r]) ++ rest = l :: inside ++ r :: rest := by simp
    rw [Piece.tokens, happend, brokenHeads_append h.closes, List.cons_append]

theorem forms_of_sound (pieces : List Piece)
    (h : brokenHeads (pieces.flatMap Piece.tokens) = 0) :
    (topLevels (pieces.flatMap Piece.tokens)).flatMap Node.forms =
        pieces.filterMap Piece.form? ∧
      passedOver (pieces.flatMap Piece.tokens) = pieces.filterMap Piece.idle? := by
  induction pieces with
  | nil => exact ⟨by simp [topLevels], by simp [passedOver]⟩
  | cons piece pieces ih =>
    rw [List.flatMap_cons, brokenHeads_pieces] at h
    have ih := ih (by omega)
    rw [List.flatMap_cons]
    cases piece with
    | word w =>
      have ho : w.1.kind ≠ .openParen := fun h => w.2 (.inl h)
      rw [Piece.tokens, List.singleton_append]
      by_cases hc : w.1.kind = .comment
      · rw [(forms_comment hc).1, (forms_comment hc).2, ih.1, ih.2]
        simp [List.filterMap_cons, Piece.form?, Piece.idle?, hc]
      · by_cases he : w.1.kind = .execute
        · rw [(forms_execute he).1, (forms_execute he).2, ih.1, ih.2]
          simp [List.filterMap_cons, Piece.form?, Piece.idle?, he]
        · rw [(forms_other hc he ho).1, (forms_other hc he ho).2, ih.1, ih.2]
          simp [List.filterMap_cons, Piece.form?, Piece.idle?, hc, he]
    | group l inside r hgroup =>
      have hheads : brokenHeads (l :: (inside ++ [r])) = 0 := by
        rw [Piece.tokens] at h
        omega
      have hreads := hgroup.reads hheads l.line (pieces.flatMap Piece.tokens)
      rw [Piece.tokens, List.cons_append, forms_open hgroup.opens, passedOver_open hgroup.opens,
        hreads.1, hreads.2, ih.1, ih.2]
      simp [List.filterMap_cons, Piece.form?, Piece.idle?]

def ClosesAll (tokens : List Token) : Prop := ∀ later, later <:+ tokens → balance later ≤ 0

theorem Balanced.closesAll {tokens : List Token} (h : Balanced tokens) : ClosesAll tokens := by
  rintro later ⟨before, rfl⟩
  have htotal := h.total
  have hbefore := ((stays_append before later).1 h.stays).1.balance_nonneg
  rw [balance_append] at htotal
  omega

def closings (tokens : List Token) : Nat := tokens.countP fun t => t.kind = .closeParen

theorem closings_cons_of_ne {t : Token} {tokens : List Token} (h : t.kind ≠ .closeParen) :
    closings (t :: tokens) = closings tokens := by simp [closings, h]

theorem closings_passedOver {tokens : List Token} (h : ClosesAll tokens) :
    (closings (passedOver tokens) : Int) = brokenHeads tokens - balance tokens := by
  -- On the length, because a form takes many tokens at once.
  induction hn : tokens.length using Nat.strongRecOn generalizing tokens with
  | ind n ih =>
    match tokens, h, hn with
    | [], _, _ => simp [passedOver, closings, brokenHeads, balance_nil]
    | t :: rest, h, hn =>
      rw [List.length_cons] at hn
      have hrest : ClosesAll rest := fun later hlater =>
        h later (hlater.trans (List.suffix_cons t rest))
      have ihrest := ih rest.length (by omega) hrest rfl
      by_cases ho : t.kind = .openParen
      · obtain ⟨taken, r, hr, htaken, -, -, hcount⟩ | ⟨-, hstays⟩ := taken_all.2 rest t t.line ho
        · have hsuffix := rest_form_suffix t.line rest
          have hle := (form t.line rest).rest_le
          have ihform := ih (form t.line rest).rest.length (by omega)
            (fun later hlater => hrest later (hlater.trans hsuffix)) rfl
          have hbalance := congrArg balance htaken
          rw [balance_append, balance_cons, rise_close hr] at hbalance
          rw [passedOver_open ho, balance_cons, rise_open ho]
          omega
        · have hopen := h (t :: rest) (List.suffix_refl _)
          have hnonneg := hstays.balance_nonneg
          rw [balance_cons, rise_open ho] at hopen
          omega
      · rw [brokenHeads_cons_of_ne ho, balance_cons]
        by_cases hc : t.kind = .closeParen
        · have hother := @forms_other t rest (by simp [hc]) (by simp [hc]) ho
          rw [hother.2, rise_close hc, closings, List.countP_cons_of_pos (by simp [hc])]
          rw [closings] at ihrest
          omega
        · rw [rise_word (not_or.2 ⟨ho, hc⟩), Int.zero_add, ← ihrest]
          by_cases hcomment : t.kind = .comment
          · rw [(forms_comment hcomment).2]
          · by_cases hexecute : t.kind = .execute
            · rw [(forms_execute hexecute).2]
            · rw [(forms_other hcomment hexecute ho).2, closings_cons_of_ne hc]

theorem closings_idle (pieces : List Piece) : closings (pieces.filterMap Piece.idle?) = 0 := by
  rw [closings, List.countP_eq_zero]
  intro t ht
  obtain ⟨piece, -, hpiece⟩ := List.mem_filterMap.1 ht
  cases piece with
  | word w =>
    rw [Piece.idle?] at hpiece
    split at hpiece
    · simp at hpiece
    · obtain rfl := Option.some.inj hpiece
      simpa using fun h => w.2 (.inr h)
  | group l inside r h => simp [Piece.idle?] at hpiece

/-- A form that is called for at a parenthesis ends behind the matching one, and the forms of a
balanced program are its outermost groups with no parenthesis left over, in both cases exactly if
there is no definition whose signature has a parenthesis for its name. -/
theorem parentheses_matched_iff (tokens : List Token) :
    (∀ i m, Matches tokens i m →
      (((Cursor.at tokens i).step .form).2.position = m + 1 ↔
        brokenHeads ((tokens.take (m + 1)).drop i) = 0)) ∧
    (Balanced tokens →
      (∃ pieces : List Piece, tokens = pieces.flatMap Piece.tokens) ∧
      ∀ pieces : List Piece, tokens = pieces.flatMap Piece.tokens →
        ((Node.ofTokens tokens).children.flatMap Node.forms = pieces.filterMap Piece.form? ∧
            passedOver tokens = pieces.filterMap Piece.idle? ↔
          brokenHeads tokens = 0)) := by
  refine ⟨fun i m h => h.position_iff, fun h => ⟨h.exists_pieces, ?_⟩⟩
  rintro pieces rfl
  have hchildren : (Node.ofTokens (pieces.flatMap Piece.tokens)).children =
      topLevels (pieces.flatMap Piece.tokens) := by simp [Node.ofTokens]
  rw [hchildren]
  refine ⟨fun ⟨_, hpassed⟩ => ?_, forms_of_sound pieces⟩
  -- Pieces pass over no closing parenthesis, while each broken head makes one that is.
  have hcount := closings_passedOver h.closesAll
  rw [hpassed, closings_idle, h.total] at hcount
  omega

def namelessHead : List Token := tokenize "(= () x)"

theorem namelessHead_not_matched :
    Matches namelessHead 0 5 ∧ Balanced namelessHead ∧
      ((Cursor.at namelessHead 0).step .form).2.position ≠ 6 ∧
      ∀ pieces : List Piece, namelessHead = pieces.flatMap Piece.tokens →
        ¬ ((Node.ofTokens namelessHead).children.flatMap Node.forms =
              pieces.filterMap Piece.form? ∧
            passedOver namelessHead = pieces.filterMap Piece.idle?) := by
  have htokens : namelessHead = [⟨.openParen, "(", 1, 0⟩, ⟨.equals, "=", 1, 1⟩,
      ⟨.openParen, "(", 1, 3⟩, ⟨.closeParen, ")", 1, 4⟩, ⟨.atom, "x", 1, 6⟩,
      ⟨.closeParen, ")", 1, 7⟩] := by decide +kernel
  have hheads : brokenHeads namelessHead = 1 := by decide +kernel
  have hinside : ∀ k < 6, 0 < k → 0 < balance ((namelessHead.take k).drop 0) := by
    decide +kernel
  have hmatches : Matches namelessHead 0 5 :=
    { opens := ⟨_, by rw [htokens]; rfl, rfl⟩
      lt := by decide
      lt_length := by decide +kernel
      inside := fun k hk hle => hinside k (by omega) hk
      closes := by decide +kernel }
  have hbalanced : Balanced namelessHead :=
    ⟨by simp [htokens, Stays, Token.rise], by decide +kernel⟩
  have hiff := parentheses_matched_iff namelessHead
  refine ⟨hmatches, hbalanced, ?_, ?_⟩
  · intro hposition
    have hsound := (hiff.1 0 5 hmatches).1 hposition
    revert hsound
    decide +kernel
  · intro pieces hpieces hforms
    have hsound := ((hiff.2 hbalanced).2 pieces hpieces).1 hforms
    rw [hheads] at hsound
    cases hsound

end CodeAtlas.Metta
