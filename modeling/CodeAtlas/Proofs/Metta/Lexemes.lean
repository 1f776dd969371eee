import CodeAtlas.Metta.Lexer

/-! A text as a row of lexemes. No lexeme but a string reaches over the end of a line or into a
comment, so a text can be cut there if its strings are closed. -/

namespace CodeAtlas.Metta.Lexer

/-- The lexeme of a rule ends before the character `edge`, and what follows does not matter. -/
def StopsAt (edge : Char) (rule : Rule) : Prop := ∀ x y, rule (x ++ edge :: y) = rule x

def Fits (rule : Rule) : Prop := ∀ cs, rule cs ≤ cs.length

section
variable {edge : Char} {p : Char → Bool}

theorem fits_run : Fits (run p) := fun _ => (List.takeWhile_sublist p).length_le

theorem stopsAt_run (h : p edge = false) : StopsAt edge (run p) := by
  intro x y
  induction x with
  | nil => simp [run, h]
  | cons c x ih =>
    simp only [run, List.cons_append, List.takeWhile_cons] at ih ⊢
    split
    · rw [List.length_cons, List.length_cons, ih]
    · rfl

theorem fits_one (c : Char) : Fits (one c) := by
  intro cs
  cases cs with
  | nil => exact Nat.le_refl 0
  | cons d cs =>
    rw [one]
    split <;> simp

theorem stopsAt_one {c : Char} (h : edge ≠ c) : StopsAt edge (one c) := by
  intro x y
  cases x with
  | nil => exact if_neg h
  | cons d x => rfl

theorem comment_cons (c : Char) (cs : List Char) :
    comment (c :: cs) = if c = ';' then 1 + run (· ≠ '\n') cs else 0 := by
  unfold comment
  split <;> simp_all

theorem fits_comment : Fits comment := by
  intro cs
  cases cs with
  | nil => exact Nat.le_refl 0
  | cons c cs =>
    have hrun := @fits_run (· ≠ '\n') cs
    rw [comment_cons, List.length_cons]
    split <;> omega

theorem stopsAt_comment : StopsAt '\n' comment := by
  intro x y
  cases x with
  | nil => rfl
  | cons c x =>
    have hrun : run (· ≠ '\n') (x ++ '\n' :: y) = run (· ≠ '\n') x := stopsAt_run (by simp) x y
    rw [List.cons_append, comment_cons, comment_cons, hrun]

theorem fits_name : Fits name := by
  intro cs
  cases cs with
  | nil => exact Nat.le_refl 0
  | cons c cs =>
    have hrun := @fits_run isNamePart cs
    rw [name, List.length_cons]
    split <;> omega

theorem stopsAt_name (hstart : isNameStart edge = false) (hpart : isNamePart edge = false) :
    StopsAt edge name := by
  intro x y
  cases x with
  | nil => simp [name, hstart]
  | cons c x => rw [List.cons_append, name, name, stopsAt_run hpart x y]

theorem fits_marked (mark : Char) : Fits (marked mark) := by
  intro cs
  cases cs with
  | nil => exact Nat.le_refl 0
  | cons c cs =>
    have hname := fits_name cs
    rw [marked, List.length_cons]
    split <;> omega

theorem stopsAt_marked {mark : Char} (hmark : edge ≠ mark) (hname : StopsAt edge name) :
    StopsAt edge (marked mark) := by
  intro x y
  cases x with
  | nil => simp [marked, hmark]
  | cons c x => rw [List.cons_append, marked, marked, hname x y]

theorem fraction_cons (c : Char) (cs : List Char) : fraction (c :: cs) =
    if c = '.' ∧ run Text.isDigit cs ≠ 0 then 1 + run Text.isDigit cs else 0 := by
  unfold fraction
  split
  · next h =>
    obtain ⟨rfl, rfl⟩ := List.cons.inj h
    by_cases hrun : run Text.isDigit cs = 0 <;> simp [hrun]
  · next h => rw [if_neg fun hc => h cs (by rw [hc.1])]

theorem fits_fraction : Fits fraction := by
  intro cs
  cases cs with
  | nil => exact Nat.le_refl 0
  | cons c cs =>
    have hrun := @fits_run Text.isDigit cs
    rw [fraction_cons, List.length_cons]
    split <;> omega

theorem stopsAt_fraction (hpoint : edge ≠ '.') (hdigit : Text.isDigit edge = false) :
    StopsAt edge fraction := by
  intro x y
  cases x with
  | nil =>
    rw [List.nil_append, fraction_cons, if_neg fun h => hpoint h.1]
    rfl
  | cons c x => rw [List.cons_append, fraction_cons, fraction_cons, stopsAt_run hdigit x y]

theorem fits_unsigned : Fits unsigned := by
  intro cs
  have hrun := @fits_run Text.isDigit cs
  have hfraction := fits_fraction (cs.drop (run Text.isDigit cs))
  rw [List.length_drop] at hfraction
  simp only [unsigned]
  split <;> omega

theorem stopsAt_unsigned (hpoint : edge ≠ '.') (hdigit : Text.isDigit edge = false) :
    StopsAt edge unsigned := by
  intro x y
  have hfraction := stopsAt_fraction hpoint hdigit (x.drop (run Text.isDigit x)) y
  simp only [unsigned, stopsAt_run hdigit x y, List.drop_append_of_le_length (fits_run x),
    hfraction]

theorem number_cons (c : Char) (cs : List Char) : number (c :: cs) =
    if c = '-' then (if unsigned cs = 0 then 0 else 1 + unsigned cs) else unsigned (c :: cs) := by
  unfold number
  split <;> simp_all

theorem fits_number : Fits number := by
  intro cs
  cases cs with
  | nil => exact Nat.le_refl 0
  | cons c cs =>
    have htail := fits_unsigned cs
    have hwhole := fits_unsigned (c :: cs)
    rw [number_cons]
    rw [List.length_cons] at hwhole ⊢
    split
    · split <;> omega
    · exact hwhole

theorem stopsAt_number (hminus : edge ≠ '-') (h : StopsAt edge unsigned) :
    StopsAt edge number := by
  intro x y
  cases x with
  | nil =>
    have hnil : unsigned (edge :: y) = unsigned [] := h [] y
    rw [List.nil_append, number_cons, if_neg hminus, hnil]
    rfl
  | cons c x =>
    have hwhole : unsigned (c :: (x ++ edge :: y)) = unsigned (c :: x) := h (c :: x) y
    rw [List.cons_append, number_cons, number_cons, h x y, hwhole]

theorem fits_atom : Fits atom := by
  intro cs
  have hname := fits_name cs
  have hmark := fits_one '!' (cs.drop (name cs))
  rw [List.length_drop] at hmark
  rw [atom]
  split <;> omega

theorem stopsAt_atom (hmark : edge ≠ '!') (h : StopsAt edge name) : StopsAt edge atom := by
  intro x y
  have hone := stopsAt_one hmark (x.drop (name x)) y
  rw [atom, atom, h x y, List.drop_append_of_le_length (fits_name x), hone]

end

section
variable {x y : List Char} {n : Nat}

theorem stringRest_plain {c : Char} (hquote : c ≠ '"') (hescape : c ≠ '\\') :
    stringRest (c :: x) = (stringRest x).map (· + 1) := by
  rw [stringRest.eq_def]
  split <;> simp_all

theorem stringRest_pos (h : stringRest x = some n) : 0 < n := by
  fun_induction stringRest x with
  | case1 | case3 | case5 => cases h
  | case2 x => exact Option.some.inj h ▸ Nat.one_pos
  | case4 c x hc ih =>
    obtain ⟨m, -, rfl⟩ := Option.map_eq_some_iff.1 h
    omega
  | case6 c x hquote hescape hlast ih =>
    obtain ⟨m, -, rfl⟩ := Option.map_eq_some_iff.1 h
    omega

theorem stringRest_append_iff :
    stringRest x = some n ↔ stringRest (x ++ y) = some n ∧ n ≤ x.length := by
  fun_induction stringRest x generalizing n with
  | case1 =>
    refine ⟨by simp, fun ⟨h, hn⟩ => ?_⟩
    have hpos := stringRest_pos h
    rw [List.length_nil] at hn
    omega
  | case2 x =>
    rw [List.cons_append, stringRest, List.length_cons]
    refine ⟨fun h => ⟨h, ?_⟩, And.left⟩
    obtain rfl := Option.some.inj h
    omega
  | case3 x => simp [stringRest]
  | case4 c x hc ih =>
    simp only [List.cons_append, stringRest, if_neg hc, Option.map_eq_some_iff, List.length_cons]
    constructor
    · rintro ⟨m, hm, rfl⟩
      obtain ⟨happend, hle⟩ := ih.1 hm
      exact ⟨⟨m, happend, rfl⟩, by omega⟩
    · rintro ⟨⟨m, hm, rfl⟩, hle⟩
      exact ⟨m, ih.2 ⟨hm, by omega⟩, rfl⟩
  | case5 =>
    refine ⟨by simp, fun ⟨h, hn⟩ => ?_⟩
    cases y with
    | nil => simp [stringRest] at h
    | cons c y =>
      rw [List.cons_append, List.nil_append, stringRest] at h
      split at h
      · cases h
      · obtain ⟨m, -, rfl⟩ := Option.map_eq_some_iff.1 h
        rw [List.length_singleton] at hn
        omega
  | case6 c x hquote hescape hlast ih =>
    have hc : c ≠ '\\' := by
      intro hc
      cases x with
      | nil => exact hlast hc rfl
      | cons d x => exact hescape d x hc rfl
    simp only [List.cons_append, stringRest_plain hquote hc, Option.map_eq_some_iff,
      List.length_cons]
    constructor
    · rintro ⟨m, hm, rfl⟩
      obtain ⟨happend, hle⟩ := ih.1 hm
      exact ⟨⟨m, happend, rfl⟩, by omega⟩
    · rintro ⟨⟨m, hm, rfl⟩, hle⟩
      exact ⟨m, ih.2 ⟨hm, by omega⟩, rfl⟩

theorem string_cons (c : Char) (cs : List Char) :
    string (c :: cs) = if c = '"' then ((stringRest cs).map (· + 1)).getD 0 else 0 := by
  unfold string
  split <;> simp_all

theorem fits_string : Fits string := by
  intro cs
  cases cs with
  | nil => exact Nat.le_refl 0
  | cons c cs =>
    rw [string_cons]
    split
    · cases hrest : stringRest cs with
      | none => exact Nat.zero_le _
      | some n =>
        have hle := (stringRest_append_iff (y := [])).1 hrest
        simpa using hle.2
    · exact Nat.zero_le _

theorem string_append (h : string x ≠ 0) : string (x ++ y) = string x := by
  cases x with
  | nil => exact absurd rfl h
  | cons c x =>
    rw [List.cons_append, string_cons, string_cons] at *
    split
    · next hc =>
      rw [if_pos hc] at h
      cases hrest : stringRest x with
      | none => simp [hrest] at h
      | some n => rw [(stringRest_append_iff.1 hrest).1]
    · rfl

end

/-- Where a text may be cut: at the end of a line, and before a comment. -/
def IsEdge (c : Char) : Prop := c = '\n' ∨ c = ';'

theorem fits_rules : ∀ entry ∈ rules, Fits entry.2 := by
  simp [rules, fits_comment, fits_one, fits_marked, fits_string, fits_number, fits_atom, fits_run,
    operator]

theorem one_append {c : Char} {x : List Char} (hx : x ≠ []) (y : List Char) :
    one c (x ++ y) = one c x := by
  cases x with
  | nil => exact absurd rfl hx
  | cons d x => rfl

theorem rules_append {edge : Char} (hedge : IsEdge edge) {x y : List Char} (hx : x ≠ [])
    (hcomment : edge = ';' → x.head? ≠ some ';') :
    ∀ entry ∈ rules, entry.1 ≠ .token .string → entry.2 (x ++ edge :: y) = entry.2 x := by
  have hplain : isNameStart edge = false ∧ isNamePart edge = false ∧
      Text.isDigit edge = false ∧ isOperator edge = false ∧ Text.isPad edge = false ∧
      edge ≠ '.' ∧ edge ≠ '-' ∧ edge ≠ '!' ∧ edge ≠ '&' ∧ edge ≠ '$' := by
    obtain rfl | rfl := hedge <;> decide
  obtain ⟨hstart, hpart, hdigit, hoperator, hpad, hpoint, hminus, hmark, hspace, hdollar⟩ := hplain
  have hname := stopsAt_name hstart hpart
  have hcomments : comment (x ++ edge :: y) = comment x := by
    obtain rfl | rfl := hedge
    · exact stopsAt_comment x y
    · cases x with
      | nil => exact absurd rfl hx
      | cons c x =>
        have hc : c ≠ ';' := by simpa using hcomment rfl
        rw [List.cons_append, comment_cons, comment_cons, if_neg hc, if_neg hc]
  simp only [rules, List.forall_mem_cons, List.not_mem_nil, false_implies, implies_true, and_true]
  have hone (c : Char) : one c (x ++ edge :: y) = one c x := one_append hx _
  exact ⟨fun _ => hcomments, fun _ => hone _, fun _ => hone _, fun _ => hone _, fun _ => hone _,
    fun _ => hone _, fun _ => stopsAt_marked hspace hname x y,
    fun _ => stopsAt_marked hdollar hname x y, fun hne => absurd rfl hne,
    fun _ => stopsAt_number hminus (stopsAt_unsigned hpoint hdigit) x y, fun _ => hone _,
    fun _ => stopsAt_run hoperator x y, fun _ => stopsAt_atom hmark hname x y,
    fun _ => stopsAt_run hpad x y, fun _ => hone _⟩

def found? (cs : List Char) (entry : Lexeme × Rule) : Option (Lexeme × Nat) :=
  if entry.2 cs = 0 then none else some (entry.1, entry.2 cs)

theorem firstLexeme_eq (cs : List Char) :
    firstLexeme cs = (rules.findSome? (found? cs)).getD (.stray, 1) := rfl

theorem firstLexeme_congr {cs ds : List Char} (h : ∀ entry ∈ rules, entry.2 cs = entry.2 ds) :
    firstLexeme cs = firstLexeme ds := by
  have hfind : ∀ entries : List (Lexeme × Rule), (∀ entry ∈ entries, entry.2 cs = entry.2 ds) →
      entries.findSome? (found? cs) = entries.findSome? (found? ds) := by
    intro entries hentries
    induction entries with
    | nil => rfl
    | cons entry entries ih =>
      obtain ⟨hfirst, hrest⟩ := List.forall_mem_cons.1 hentries
      rw [List.findSome?_cons, List.findSome?_cons, found?, found?, hfirst, ih hrest]
  rw [firstLexeme_eq, firstLexeme_eq, hfind rules h]

theorem firstLexeme_append {edge : Char} (hedge : IsEdge edge) {x y : List Char} (hx : x ≠ [])
    (hcomment : edge = ';' → x.head? ≠ some ';') (hstring : string (x ++ edge :: y) = string x) :
    firstLexeme (x ++ edge :: y) = firstLexeme x := by
  apply firstLexeme_congr
  rintro ⟨lexeme, rule⟩ hentry
  by_cases hne : lexeme = .token .string
  · subst hne
    obtain rfl : rule = string := by simpa [rules] using hentry
    exact hstring
  · exact rules_append hedge hx hcomment _ hentry hne

theorem firstLexeme_cases (cs : List Char) :
    (∃ entry ∈ rules, entry.2 cs ≠ 0 ∧ firstLexeme cs = (entry.1, entry.2 cs)) ∨
      firstLexeme cs = (.stray, 1) ∧ ∀ entry ∈ rules, entry.2 cs = 0 := by
  rw [firstLexeme_eq]
  cases hfind : rules.findSome? (found? cs) with
  | none =>
    refine .inr ⟨rfl, fun entry hentry => ?_⟩
    have hnone := List.findSome?_eq_none_iff.1 hfind entry hentry
    by_cases hzero : entry.2 cs = 0
    · exact hzero
    · simp [found?, hzero] at hnone
  | some lexeme =>
    obtain ⟨entry, hentry, hsome⟩ := List.exists_of_findSome?_eq_some hfind
    by_cases hzero : entry.2 cs = 0
    · simp [found?, hzero] at hsome
    · exact .inl ⟨entry, hentry, hzero, by simpa [found?, hzero] using hsome.symm⟩

theorem firstLexeme_bounds {cs : List Char} (h : cs ≠ []) :
    0 < (firstLexeme cs).2 ∧ (firstLexeme cs).2 ≤ cs.length := by
  obtain ⟨entry, hentry, hzero, heq⟩ | ⟨heq, -⟩ := firstLexeme_cases cs
  · rw [heq]
    exact ⟨Nat.pos_of_ne_zero hzero, fits_rules entry hentry cs⟩
  · rw [heq]
    exact ⟨Nat.one_pos, List.length_pos_iff.2 h⟩

def lexemes : List Char → List (Lexeme × List Char)
  | [] => []
  | c :: cs =>
    let (lexeme, length) := firstLexeme (c :: cs)
    (lexeme, (c :: cs).take length) :: lexemes (cs.drop (length - 1))
termination_by cs => cs.length
decreasing_by simp only [List.length_drop, List.length_cons]; omega

theorem lexemes_eq {cs : List Char} (h : cs ≠ []) :
    lexemes cs = ((firstLexeme cs).1, cs.take (firstLexeme cs).2) ::
      lexemes (cs.drop (firstLexeme cs).2) := by
  cases cs with
  | nil => exact absurd rfl h
  | cons c cs =>
    have hpos := (firstLexeme_bounds h).1
    rw [lexemes]
    rcases hfirst : firstLexeme (c :: cs) with ⟨lexeme, _ | n⟩
    · rw [hfirst] at hpos
      exact absurd hpos (Nat.lt_irrefl 0)
    · rfl

theorem lexeme_induction {P : List Char → Prop} (nil : P [])
    (step : ∀ cs, cs ≠ [] → P (cs.drop (firstLexeme cs).2) → P cs) (cs : List Char) : P cs := by
  induction hn : cs.length using Nat.strongRecOn generalizing cs with
  | ind n ih =>
    by_cases hcs : cs = []
    · exact hcs ▸ nil
    · have hpos := (firstLexeme_bounds hcs).1
      have hlength := List.length_pos_iff.2 hcs
      exact step cs hcs (ih _ (by rw [List.length_drop]; omega) _ rfl)

theorem firstLexeme_newline (cs : List Char) : firstLexeme ('\n' :: cs) = (.newline, 1) := by
  have hunsigned : unsigned ('\n' :: cs) = unsigned [] :=
    stopsAt_unsigned (by decide) (by decide) [] cs
  have hnumber : number ('\n' :: cs) = 0 := by
    rw [number_cons, if_neg (by decide), hunsigned]
    rfl
  have hatom : atom ('\n' :: cs) = 0 := by
    have hname : name ('\n' :: cs) = 0 := stopsAt_name (by decide) (by decide) [] cs
    rw [atom, if_pos hname]
  have hoperator : operator ('\n' :: cs) = 0 := @stopsAt_run '\n' isOperator (by decide) [] cs
  have hpad : run Text.isPad ('\n' :: cs) = 0 := stopsAt_run (by decide) [] cs
  simp [firstLexeme_eq, rules, found?, comment_cons, string_cons, one, marked, hnumber, hatom,
    hoperator, hpad]

theorem firstLexeme_semicolon (cs : List Char) :
    firstLexeme (';' :: cs) = (.token .comment, 1 + run (· ≠ '\n') cs) := by
  simp [firstLexeme_eq, rules, found?, comment_cons]

theorem rule_of_lexeme {cs : List Char} {lexeme : Lexeme} (h : (firstLexeme cs).1 = lexeme)
    (hstray : lexeme ≠ .stray) :
    ∃ rule, (lexeme, rule) ∈ rules ∧ rule cs ≠ 0 ∧ (firstLexeme cs).2 = rule cs := by
  obtain ⟨⟨found, rule⟩, hentry, hzero, heq⟩ | ⟨heq, -⟩ := firstLexeme_cases cs
  · rw [heq] at h
    obtain rfl : found = lexeme := h
    exact ⟨rule, hentry, hzero, by rw [heq]⟩
  · rw [heq] at h
    exact absurd h.symm hstray

theorem head_of_comment {cs : List Char} (h : (firstLexeme cs).1 = .token .comment) :
    cs.head? = some ';' := by
  obtain ⟨rule, hrule, hzero, -⟩ := rule_of_lexeme h (by simp)
  obtain rfl : rule = comment := by simpa [rules] using hrule
  cases cs with
  | nil => exact absurd rfl hzero
  | cons c cs =>
    rw [comment_cons] at hzero
    by_cases hc : c = ';'
    · rw [hc, List.head?_cons]
    · exact absurd (if_neg hc) hzero

theorem string_of_lexeme {cs : List Char} (h : (firstLexeme cs).1 = .token .string) :
    string cs ≠ 0 := by
  obtain ⟨rule, hrule, hzero, -⟩ := rule_of_lexeme h (by simp)
  obtain rfl : rule = string := by simpa [rules] using hrule
  exact hzero

theorem take_of_one {cs : List Char} {lexeme : Lexeme} (c : Char)
    (hrule : ∀ rule, (lexeme, rule) ∈ rules → rule = one c) (hstray : lexeme ≠ .stray)
    (h : (firstLexeme cs).1 = lexeme) : cs.take (firstLexeme cs).2 = [c] := by
  obtain ⟨rule, hmem, hzero, hlength⟩ := rule_of_lexeme h hstray
  obtain rfl := hrule rule hmem
  cases cs with
  | nil => exact absurd rfl hzero
  | cons d cs =>
    rw [one] at hzero hlength
    split at hzero
    · next hd =>
      rw [hlength, if_pos hd, hd]
      rfl
    · exact absurd rfl hzero

theorem newline_of_lexeme {cs : List Char} (h : (firstLexeme cs).1 = .newline) :
    cs.take (firstLexeme cs).2 = ['\n'] := take_of_one '\n' (by simp [rules]) (by simp) h

theorem newline_not_mem_take {cs : List Char} (hstring : (firstLexeme cs).1 ≠ .token .string)
    (hnewline : (firstLexeme cs).1 ≠ .newline) : '\n' ∉ cs.take (firstLexeme cs).2 := by
  intro hmem
  obtain ⟨x, y, rfl, hx⟩ := List.eq_append_cons_of_mem (List.mem_of_mem_take hmem)
  by_cases hnil : x = []
  · subst hnil
    rw [List.nil_append, firstLexeme_newline] at hnewline
    exact hnewline rfl
  · have hle : (firstLexeme (x ++ '\n' :: y)).2 ≤ x.length := by
      obtain ⟨entry, hentry, -, heq⟩ | ⟨heq, -⟩ := firstLexeme_cases (x ++ '\n' :: y)
      · rw [heq] at hstring ⊢
        rw [rules_append (.inl rfl) hnil (by simp) entry hentry hstring]
        exact fits_rules entry hentry x
      · rw [heq]
        exact List.length_pos_iff.2 hnil
    rw [List.take_append_of_le_length hle] at hmem
    exact hx (List.mem_of_mem_take hmem)

/-- Every double quote of the text is in a string or in a comment. -/
def QuotesClosed (cs : List Char) : Prop :=
  ∀ piece ∈ lexemes cs, '"' ∈ piece.2 → piece.1 = .token .string ∨ piece.1 = .token .comment

def HasNoComment (cs : List Char) : Prop := ∀ piece ∈ lexemes cs, piece.1 ≠ .token .comment

theorem QuotesClosed.first {cs : List Char} (h : QuotesClosed ('"' :: cs)) :
    (firstLexeme ('"' :: cs)).1 = .token .string := by
  have hne : '"' :: cs ≠ [] := List.cons_ne_nil _ _
  have hpos := (firstLexeme_bounds hne).1
  have hquote : '"' ∈ ('"' :: cs).take (firstLexeme ('"' :: cs)).2 := by
    rw [← Nat.succ_pred_eq_of_pos hpos, List.take_succ_cons]
    exact List.mem_cons_self
  rw [QuotesClosed, lexemes_eq hne] at h
  rcases h _ List.mem_cons_self hquote with hstring | hcomment
  · exact hstring
  · exact absurd (head_of_comment hcomment) (by simp)

theorem string_append_of_quotes {x : List Char} (hx : x ≠ []) (h : QuotesClosed x)
    (y : List Char) : string (x ++ y) = string x := by
  cases x with
  | nil => exact absurd rfl hx
  | cons c x =>
    by_cases hc : c = '"'
    · subst hc
      exact string_append (string_of_lexeme h.first)
    · rw [List.cons_append, string_cons, string_cons, if_neg hc, if_neg hc]

theorem forall_lexemes_drop {x : List Char} {P : Lexeme × List Char → Prop}
    (h : ∀ piece ∈ lexemes x, P piece) (hx : x ≠ []) :
    ∀ piece ∈ lexemes (x.drop (firstLexeme x).2), P piece := by
  rw [lexemes_eq hx] at h
  exact (List.forall_mem_cons.1 h).2

theorem lexemes_append {edge : Char} (hedge : IsEdge edge) {x : List Char}
    (hquotes : QuotesClosed x) (hcomment : edge = ';' → HasNoComment x) (y : List Char) :
    lexemes (x ++ edge :: y) = lexemes x ++ lexemes (edge :: y) := by
  induction x using lexeme_induction with
  | nil =>
    rw [lexemes]
    rfl
  | step x hx ih =>
    have hle := (firstLexeme_bounds hx).2
    have hhead : edge = ';' → x.head? ≠ some ';' := by
      intro he hsemicolon
      obtain ⟨x, rfl⟩ := List.head?_eq_some_iff.1 hsemicolon
      have hfirst := hcomment he _ (by rw [lexemes_eq hx]; exact List.mem_cons_self)
      rw [firstLexeme_semicolon] at hfirst
      exact hfirst rfl
    have hfirst : firstLexeme (x ++ edge :: y) = firstLexeme x :=
      firstLexeme_append hedge hx hhead (string_append_of_quotes hx hquotes _)
    have hrest := ih (forall_lexemes_drop hquotes hx)
      fun he => forall_lexemes_drop (hcomment he) hx
    rw [lexemes_eq (by simp), hfirst, List.take_append_of_le_length hle,
      List.drop_append_of_le_length hle, hrest, lexemes_eq hx, List.cons_append]

theorem lexemes_newline (cs : List Char) :
    lexemes ('\n' :: cs) = (.newline, ['\n']) :: lexemes cs := by
  rw [lexemes_eq (by simp), firstLexeme_newline]
  rfl

theorem flatMap_lexemes (cs : List Char) : (lexemes cs).flatMap Prod.snd = cs := by
  induction cs using lexeme_induction with
  | nil =>
    rw [lexemes]
    rfl
  | step cs hcs ih => rw [lexemes_eq hcs, List.flatMap_cons, ih, List.take_append_drop]

theorem forall_lexemes {P : Lexeme × List Char → Prop}
    (h : ∀ cs, cs ≠ [] → P ((firstLexeme cs).1, cs.take (firstLexeme cs).2)) (cs : List Char) :
    ∀ piece ∈ lexemes cs, P piece := by
  induction cs using lexeme_induction with
  | nil =>
    rw [lexemes]
    simp
  | step cs hcs ih =>
    rw [lexemes_eq hcs]
    exact List.forall_mem_cons.2 ⟨h cs hcs, ih⟩

theorem count_newline {cs : List Char} : ∀ piece ∈ lexemes cs, piece.1 ≠ .token .string →
    piece.2.count '\n' = if piece.1 = .newline then 1 else 0 := by
  apply forall_lexemes
  intro cs hcs hstring
  by_cases hnewline : (firstLexeme cs).1 = .newline
  · simp [newline_of_lexeme hnewline, hnewline]
  · rw [if_neg hnewline, List.count_eq_zero]
    exact newline_not_mem_take hstring hnewline

end CodeAtlas.Metta.Lexer
