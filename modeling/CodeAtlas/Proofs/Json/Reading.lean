import CodeAtlas.Proofs.Json.Plain

/-! Reading what was written. Each reader takes what the writer put at the head of a text and leaves
the rest; a number needs a rest that does not go on with it. -/

namespace CodeAtlas.Json

open Text (Points CodePoint)

namespace Reader

def Ends (rest : List Char) : Prop :=
  ∀ c ∈ rest.head?, isAsciiDigit c = false ∧ c ≠ '.' ∧ c ≠ 'e' ∧ c ≠ 'E'

theorem natOfDigits_toDigits (n : Nat) : natOfDigits (Nat.toDigits 10 n) = n := by
  have h : natOfDigits (Nat.toDigits 10 n) = Nat.ofDigitChars 10 (Nat.toDigits 10 n) 0 := by
    rw [natOfDigits, Nat.ofDigitChars_eq_foldl]
    simp only [Nat.mul_comm]
  rw [h, Nat.ofDigitChars_ten_toDigits]

theorem exists_toDigits (n : Nat) : ∃ c cs, Nat.toDigits 10 n = c :: cs ∧ isAsciiDigit c := by
  obtain ⟨c, cs, hcs⟩ := List.exists_cons_of_ne_nil (Nat.toDigits_ne_nil (b := 10) (n := n))
  exact ⟨c, cs, hcs, isAsciiDigit_of_mem (hcs ▸ List.mem_cons_self : c ∈ Nat.toDigits 10 n)⟩

theorem head?_toDigits {n : Nat} (h : n ≠ 0) : (Nat.toDigits 10 n).head? ≠ some '0' := by
  induction n using Nat.strongRecOn with
  | ind n ih =>
    by_cases hn : n < 10
    · rw [Nat.toDigits_of_lt_base hn]
      have hdigits : ∀ k < 10, k ≠ 0 → [Nat.digitChar k].head? ≠ some '0' := by decide
      exact hdigits n hn h
    · obtain ⟨c, cs, hcs, -⟩ := exists_toDigits (n / 10)
      have hfirst := ih (n / 10) (by omega) (by omega)
      rw [Nat.toDigits_of_base_le (by decide) (Nat.le_of_not_lt hn), hcs]
      rwa [hcs] at hfirst

theorem takeWhile_append_of_ends {digits rest : List Char} (hdigits : ∀ c ∈ digits, isAsciiDigit c)
    (hrest : Ends rest) : (digits ++ rest).takeWhile isAsciiDigit = digits ∧
      (digits ++ rest).dropWhile isAsciiDigit = rest := by
  rw [List.takeWhile_append_of_pos hdigits, List.dropWhile_append_of_pos hdigits]
  cases rest with
  | nil => simp
  | cons c rest =>
    have hc : isAsciiDigit c = false := (hrest c rfl).1
    simp [hc]

theorem wholePart_toDigits (n : Nat) {rest : List Char} (hrest : Ends rest) :
    wholePart (Nat.toDigits 10 n ++ rest) = (Nat.toDigits 10 n, rest) := by
  by_cases hn : n = 0
  · subst hn
    rfl
  · have hall : ∀ c ∈ Nat.toDigits 10 n, isAsciiDigit c := fun c => isAsciiDigit_of_mem
    obtain ⟨hdigits, hleft⟩ := takeWhile_append_of_ends hall hrest
    unfold wholePart
    split
    · next rest' h =>
      have hzero := head?_toDigits hn
      obtain ⟨c, cs, hcs, -⟩ := exists_toDigits n
      rw [hcs, List.cons_append] at h
      rw [hcs, (List.cons.inj h).1] at hzero
      exact absurd rfl hzero
    · rw [hdigits, hleft]

theorem fraction_of_ends {rest : List Char} (h : Ends rest) : fraction rest = ([], rest) := by
  unfold fraction
  split
  · exact absurd rfl (h '.' rfl).2.1
  · rfl

theorem exponent?_of_ends {rest : List Char} (h : Ends rest) : exponent? rest = none := by
  cases rest with
  | nil => rfl
  | cons c rest =>
    obtain ⟨-, -, he, hE⟩ := h c rfl
    exact if_neg (by simp [he, hE])

theorem integer_toDigits (negative : Bool) {n : Nat}
    (hn : (Nat.toDigits 10 n).length ≤ maxDigits) :
    integer negative (Nat.toDigits 10 n) = .ok (.int (if negative then -n else n)) := by
  rw [integer, if_neg (Nat.not_lt.2 hn), natOfDigits_toDigits]

theorem number_intChars {n : Int} (hn : (Nat.toDigits 10 n.natAbs).length ≤ maxDigits)
    {rest : List Char} (hrest : Ends rest) : number (intChars n ++ rest) = .ok (.int n, rest) := by
  have hwhole := wholePart_toDigits n.natAbs hrest
  obtain ⟨c, cs, hcs, hc⟩ := exists_toDigits n.natAbs
  have hvalue (negative : Bool) := integer_toDigits negative hn
  have hfraction := fraction_of_ends hrest
  have hexponent := exponent?_of_ends hrest
  have hminus : c ≠ '-' := by
    rintro rfl
    exact absurd hc (by decide)
  rw [intChars]
  rw [hcs] at hwhole hvalue ⊢
  rw [List.cons_append] at hwhole
  by_cases hneg : n < 0
  · have hn : integer true (c :: cs) = .ok (.int n) := by
      rw [hvalue, if_pos rfl, (by omega : (-n.natAbs : Int) = n)]
    rw [if_pos hneg]
    simp [number, hwhole, hfraction, hexponent, hn, Except.map]
  · have hn : integer false (c :: cs) = .ok (.int n) := by
      rw [hvalue, if_neg Bool.false_ne_true, (by omega : (n.natAbs : Int) = n)]
    rw [if_neg hneg]
    simp [number, hwhole, hfraction, hexponent, hn, hminus, Except.map]

theorem words_start : ∀ entry ∈ words, ∃ a b cs, entry.1.toList = a :: b :: cs ∧
    isAsciiDigit a = false ∧ isAsciiDigit b = false := by
  simp only [words, List.forall_mem_cons]
  exact ⟨⟨_, _, _, rfl, rfl, rfl⟩, ⟨_, _, _, rfl, rfl, rfl⟩, ⟨_, _, _, rfl, rfl, rfl⟩,
    ⟨_, _, _, rfl, rfl, rfl⟩, ⟨_, _, _, rfl, rfl, rfl⟩, ⟨_, _, _, rfl, rfl, rfl⟩, nofun⟩

theorem word?_intChars (n : Int) (rest : List Char) : word? (intChars n ++ rest) = none := by
  obtain ⟨c, cs, hcs, hc⟩ := exists_toDigits n.natAbs
  refine List.findSome?_eq_none_iff.2 fun entry hentry => if_neg fun hword => ?_
  obtain ⟨a, b, word, hstart, ha, hb⟩ := words_start entry hentry
  rw [hstart, List.isPrefixOf_iff_prefix, intChars, hcs] at hword
  split at hword
  · obtain ⟨-, hword⟩ := List.cons_prefix_cons.1 hword
    rw [(List.cons_prefix_cons.1 hword).1, hc] at hb
    cases hb
  · rw [(List.cons_prefix_cons.1 hword).1, hc] at ha
    cases ha

theorem exists_intChars (n : Int) :
    ∃ c cs, intChars n = c :: cs ∧ (c = '-' ∨ isAsciiDigit c) := by
  obtain ⟨c, cs, hcs, hc⟩ := exists_toDigits n.natAbs
  rw [intChars, hcs]
  split
  · exact ⟨'-', c :: cs, rfl, .inl rfl⟩
  · exact ⟨c, cs, rfl, .inr hc⟩

def asciiDigits : List Char := ['0', '1', '2', '3', '4', '5', '6', '7', '8', '9']

theorem mem_asciiDigits {c : Char} (h : isAsciiDigit c) : c ∈ asciiDigits := by
  have hall : ∀ n ≤ 57, 48 ≤ n → Char.ofNat n ∈ asciiDigits := by decide
  simp only [isAsciiDigit, Bool.and_eq_true, decide_eq_true_eq] at h
  rw [← Char.ofNat_toNat c]
  exact hall c.toNat h.2 h.1

def isBare (c : Char) : Bool := c ≠ '"' && c ≠ '\x7b' && c ≠ '['

theorem value_of_isBare (fuel : Nat) {c : Char} (hc : isBare c) (cs : List Char) :
    value (fuel + 1) (c :: cs) =
      ((word? (c :: cs)).map Except.ok).getD (number (c :: cs)) := by
  simp only [isBare, Bool.and_eq_true, decide_eq_true_eq] at hc
  rw [value]
  · cases word? (c :: cs) <;> rfl
  · exact fun rest heq => hc.1.1 (List.cons.inj heq).1
  · exact fun rest heq => hc.1.2 (List.cons.inj heq).1
  · exact fun rest heq => hc.2 (List.cons.inj heq).1

theorem value_null (fuel : Nat) (rest : List Char) :
    value (fuel + 1) ("null".toList ++ rest) = .ok (.null, rest) :=
  value_of_isBare fuel (c := 'n') rfl _

theorem value_bool (fuel : Nat) (b : Bool) (rest : List Char) :
    value (fuel + 1) ((if b then "true" else "false").toList ++ rest) = .ok (.bool b, rest) := by
  cases b with
  | false => exact value_of_isBare fuel (c := 'f') rfl _
  | true => exact value_of_isBare fuel (c := 't') rfl _

theorem value_int (fuel : Nat) {n : Int} (hn : (Nat.toDigits 10 n.natAbs).length ≤ maxDigits)
    {rest : List Char} (hrest : Ends rest) :
    value (fuel + 1) ((toString n).toList ++ rest) = .ok (.int n, rest) := by
  obtain ⟨c, cs, hcs, hc⟩ := exists_intChars n
  have hbare : isBare c := by
    rcases hc with rfl | hc
    · rfl
    · exact List.all_eq_true.1 (by decide : asciiDigits.all isBare) c (mem_asciiDigits hc)
  have hword := word?_intChars n rest
  have hnumber := number_intChars hn hrest
  rw [hcs, List.cons_append] at hword hnumber
  rw [toList_toString_int, hcs, List.cons_append, value_of_isBare fuel hbare, hword]
  exact hnumber

section
variable (opened : List Char) {result : Points × List Char}

theorem stringRest_plain {c : Char} {cs : List Char} (hquote : c ≠ '"') (hslash : c ≠ '\\')
    (hc : ¬ c.toNat < 0x20) (h : stringRest opened cs = .ok result) :
    stringRest opened (c :: cs) = .ok (.char c :: result.1, result.2) := by
  rw [stringRest.eq_def]
  dsimp only
  rw [if_neg hquote, if_neg hslash, if_neg hc, h]
  rfl

theorem stringRest_escape {e x : Char} {cs : List Char} (hu : e ≠ 'u')
    (he : plainEscape? e = some x) (h : stringRest opened cs = .ok result) :
    stringRest opened ('\\' :: e :: cs) = .ok (.char x :: result.1, result.2) := by
  rw [stringRest, if_neg (by decide), if_pos rfl, if_neg hu, he]
  dsimp only
  rw [h]
  rfl

theorem stringRest_unit {a b c d next : Char} {cs : List Char} {n : Nat}
    (hunit : unit? a b c d = some n) (hn : n < 0xd800)
    (h : stringRest opened (next :: cs) = .ok result) :
    stringRest opened ('\\' :: 'u' :: a :: b :: c :: d :: next :: cs) =
      .ok (.char (Char.ofNat n) :: result.1, result.2) := by
  have hpoint : unitPoint n = .char (Char.ofNat n) := dif_neg (by omega)
  have hhigh : isHighHalf n = false := by
    rw [isHighHalf, decide_eq_false (by omega)]
    rfl
  have hescape :
      unicodeEscape (a :: b :: c :: d :: next :: cs) = .ok (.char (Char.ofNat n), 4) := by
    rw [unicodeEscape.eq_def]
    dsimp only
    rw [hunit]
    dsimp only
    rw [hhigh, if_neg Bool.false_ne_true, hpoint]
  rw [stringRest, if_neg (by decide), if_pos rfl, if_pos rfl, hescape]
  dsimp only [List.drop]
  rw [h]
  rfl

end

theorem hexadecimal_control : ∀ n < 0x20,
    Text.hexadecimal 4 n = ['0', '0', Nat.digitChar (n / 16), Nat.digitChar (n % 16)] ∧
      unit? '0' '0' (Nat.digitChar (n / 16)) (Nat.digitChar (n % 16)) = some n := by
  decide +kernel

theorem stringRest_escapeChar (opened : List Char) (c next : Char) (cs : List Char)
    {result : Points × List Char} (h : stringRest opened (next :: cs) = .ok result) :
    stringRest opened (escapeChar false c ++ next :: cs) = .ok (.char c :: result.1, result.2) := by
  unfold escapeChar
  split
  · next hc =>
    rcases hc with rfl | rfl
    · exact stringRest_escape opened (by decide) rfl h
    · exact stringRest_escape opened (by decide) rfl h
  · next hc =>
    split
    · next heq => exact heq ▸ stringRest_escape opened (by decide) rfl h
    split
    · next heq => exact heq ▸ stringRest_escape opened (by decide) rfl h
    split
    · next heq => exact heq ▸ stringRest_escape opened (by decide) rfl h
    split
    · next heq => exact heq ▸ stringRest_escape opened (by decide) rfl h
    split
    · next heq => exact heq ▸ stringRest_escape opened (by decide) rfl h
    split
    · next hcontrol =>
      have hlow : c.toNat < 0x20 := by simpa using hcontrol
      obtain ⟨hhex, hunit⟩ := hexadecimal_control c.toNat hlow
      rw [escapeNumber, if_pos (by omega), escapeUnit, hhex]
      have hread := stringRest_unit opened hunit (by omega) h
      rwa [Char.ofNat_toNat] at hread
    · next hcontrol =>
      refine stringRest_plain opened ?_ ?_ ?_ h
      · exact fun heq => hc (.inl heq)
      · exact fun heq => hc (.inr heq)
      · exact fun hlow => hcontrol (.inl hlow)

theorem stringRest_written (opened : List Char) {s : Points}
    (hs : ∀ p ∈ s, p.isSurrogate = false) (rest : List Char) :
    stringRest opened (s.flatMap (escapePoint false) ++ '"' :: rest) = .ok (s, rest) := by
  induction s with
  | nil =>
    rw [List.flatMap_nil, List.nil_append, stringRest.eq_def]
    rfl
  | cons p s ih =>
    obtain ⟨hp, hlater⟩ := List.forall_mem_cons.1 hs
    cases p with
    | surrogate n => cases hp
    | char c =>
      have hrest := ih hlater
      obtain ⟨next, cs, hcs⟩ :
          ∃ next cs, s.flatMap (escapePoint false) ++ '"' :: rest = next :: cs :=
        List.exists_cons_of_ne_nil (by simp)
      rw [hcs] at hrest
      rw [List.flatMap_cons, List.append_assoc, hcs]
      exact stringRest_escapeChar opened c next cs hrest

/-! One step of each reader. -/

section
variable {fuel : Nat} {cs left rest : List Char} {x : Json}

theorem value_list {c : Char} {after : List Char} {xs : List Json} (hc : c ≠ ']')
    (hcs : skipSpace cs = c :: after) (h : items fuel (c :: after) = .ok (xs, rest)) :
    value (fuel + 1) ('[' :: cs) = .ok (.arr xs, rest) := by
  rw [value, hcs]
  split
  · next heq => exact absurd (List.cons.inj heq).1 hc
  · rw [h]
    rfl

theorem items_last (hx : value fuel cs = .ok (x, left)) (hleft : skipSpace left = ']' :: rest) :
    items (fuel + 1) cs = .ok ([x], rest) := by
  simp only [items, hx, hleft]

theorem items_more {after : List Char} {xs : List Json} (hx : value fuel cs = .ok (x, left))
    (hleft : skipSpace left = ',' :: after) (h : items fuel (skipSpace after) = .ok (xs, rest)) :
    items (fuel + 1) cs = .ok (x :: xs, rest) := by
  simp only [items, hx, hleft, h]
  rfl

theorem value_object {c : Char} {after : List Char} {ms : List (Points × Json)} (hc : c ≠ '\x7d')
    (hcs : skipSpace cs = c :: after) (h : members fuel [] (c :: after) = .ok (ms, rest)) :
    value (fuel + 1) ('\x7b' :: cs) = .ok (.obj ms, rest) := by
  rw [value, hcs]
  split
  · next heq => exact absurd (List.cons.inj heq).1 hc
  · rw [h]
    rfl

section
variable {before : List (Points × Json)} {key : Points} {after afterColon : List Char}
  (hkey : stringRest cs cs = .ok (key, after)) (hcolon : skipSpace after = ':' :: afterColon)
  (hx : value fuel (skipSpace afterColon) = .ok (x, left))
include hkey hcolon hx

theorem members_last (hleft : skipSpace left = '\x7d' :: rest) :
    members (fuel + 1) before ('"' :: cs) = .ok (put key x before, rest) := by
  simp only [members, hkey, hcolon, hx, hleft]

theorem members_more {more : List Char} {ms : List (Points × Json)}
    (hleft : skipSpace left = ',' :: more)
    (h : members fuel (put key x before) (skipSpace more) = .ok (ms, rest)) :
    members (fuel + 1) before ('"' :: cs) = .ok (ms, rest) := by
  simp only [members, hkey, hcolon, hx, hleft, h]

end

end

section
variable {style : Style}

theorem breakAt_isSpace (style : Style) (depth : Nat) : ∀ c ∈ breakAt style depth, isSpace c := by
  unfold breakAt
  cases style.step with
  | none => nofun
  | some step =>
    refine List.forall_mem_cons.2 ⟨rfl, fun c hc => ?_⟩
    rw [List.eq_of_mem_replicate hc]
    rfl

theorem skipSpace_breakAt (style : Style) (depth : Nat) (cs : List Char) :
    skipSpace (breakAt style depth ++ cs) = skipSpace cs := by
  rw [skipSpace, List.dropWhile_append_of_pos (breakAt_isSpace style depth)]
  rfl

theorem skipSpace_cons {c : Char} (h : isSpace c = false) (cs : List Char) :
    skipSpace (c :: cs) = c :: cs := List.dropWhile_cons_of_neg (by simp [h])

theorem comma_eq (style : Style) (depth : Nat) :
    ∃ gap, comma style depth = ',' :: gap ∧ ∀ cs, skipSpace (gap ++ cs) = skipSpace cs := by
  unfold comma
  cases hstep : style.step with
  | none =>
    refine ⟨[' '], rfl, fun cs => ?_⟩
    rfl
  | some step => exact ⟨breakAt style depth, rfl, skipSpace_breakAt style depth⟩

theorem ends_cons {c : Char} (h : isAsciiDigit c = false ∧ c ≠ '.' ∧ c ≠ 'e' ∧ c ≠ 'E')
    (cs : List Char) : Ends (c :: cs) := by
  rintro _ ⟨⟩
  exact h

theorem ends_breakAt (style : Style) (depth : Nat) {cs : List Char} (h : Ends cs) :
    Ends (breakAt style depth ++ cs) := by
  unfold breakAt
  cases style.step with
  | none => exact h
  | some step => exact ends_cons (by decide) _

theorem ends_writeItems (style : Style) (depth : Nat) (items : List Json) {cs : List Char}
    (h : Ends cs) : Ends (writeItems style depth items ++ cs) := by
  cases items with
  | nil => rwa [writeItems]
  | cons item items =>
    obtain ⟨gap, hcomma, -⟩ := comma_eq style depth
    rw [writeItems, hcomma]
    exact ends_cons (by decide) _

theorem ends_writeMembers (style : Style) (depth : Nat) (members : List (Points × Json))
    {cs : List Char} (h : Ends cs) : Ends (writeMembers style depth members ++ cs) := by
  cases members with
  | nil => rwa [writeMembers]
  | cons member members =>
    obtain ⟨gap, hcomma, -⟩ := comma_eq style depth
    rw [writeMembers, hcomma]
    exact ends_cons (by decide) _

def isFirst (c : Char) : Bool := !isSpace c && c ≠ ']' && c ≠ '\ufeff'

theorem exists_write (style : Style) (depth : Nat) {v : Json} (h : v.isPlain) :
    ∃ c cs, write style depth v = c :: cs ∧ isFirst c := by
  cases v with
  | null => exact ⟨_, _, rfl, rfl⟩
  | bool b => cases b <;> exact ⟨_, _, rfl, rfl⟩
  | int n =>
    obtain ⟨c, cs, hcs, hc⟩ := exists_intChars n
    refine ⟨c, cs, ?_, ?_⟩
    · rw [write, toList_toString_int, hcs]
    · rcases hc with rfl | hc
      · rfl
      · exact List.all_eq_true.1 (by decide : asciiDigits.all isFirst) c (mem_asciiDigits hc)
  | real x => cases h
  | str s => exact ⟨_, _, rfl, rfl⟩
  | arr items => cases items <;> exact ⟨_, _, rfl, rfl⟩
  | obj members => cases members <;> exact ⟨_, _, rfl, rfl⟩

theorem skipSpace_write (style : Style) (depth : Nat) {v : Json} (h : v.isPlain) (cs : List Char) :
    skipSpace (write style depth v ++ cs) = write style depth v ++ cs := by
  obtain ⟨c, rest, hwrite, hc⟩ := exists_write style depth h
  rw [hwrite]
  exact skipSpace_cons (by simp_all [isFirst]) _

theorem ne_of_isFirst {c : Char} (h : isFirst c) : c ≠ ']' := by
  rintro rfl
  cases h

theorem stringRest_writeText {style : Style} (hstyle : style.ascii = false) {s : Points}
    (hs : isText s) (rest : List Char) :
    ∃ cs, writeText style.ascii s ++ rest = '"' :: cs ∧ stringRest cs cs = .ok (s, rest) := by
  refine ⟨s.flatMap (escapePoint false) ++ '"' :: rest, ?_,
    stringRest_written _ (isText_iff.1 hs) rest⟩
  rw [hstyle, writeText]
  simp

theorem put_of_not_mem {key : Points} {x : Json} {before : List (Points × Json)}
    (h : key ∉ before.map Prod.fst) : put key x before = before ++ [(key, x)] := by
  induction before with
  | nil => rfl
  | cons member before ih =>
    obtain ⟨hne, hrest⟩ := List.ne_and_not_mem_of_not_mem_cons h
    rw [put, if_neg hne.symm, ih hrest]
    rfl

/-! What is written at the head of a text is read, and the rest is left. The induction is on the
fuel; it suffices because every reader that calls another one has taken a character of its own. -/

def ReadsValues (style : Style) (fuel : Nat) : Prop :=
  ∀ {v : Json}, v.everywhere isPlain → v.everywhere isShort → ∀ (depth : Nat) {rest : List Char},
    (write style depth v).length < fuel → Ends rest →
      value fuel (write style depth v ++ rest) = .ok (v, rest)

def ReadsItems (style : Style) (fuel : Nat) : Prop :=
  ∀ {item : Json} {items : List Json}, everywhereIn isPlain (item :: items) →
    everywhereIn isShort (item :: items) → ∀ (depth outer : Nat) (rest : List Char),
      (write style depth item).length + (writeItems style depth items).length + 1 < fuel →
        Reader.items fuel (write style depth item ++
          (writeItems style depth items ++ (breakAt style outer ++ ']' :: rest))) =
            .ok (item :: items, rest)

def ReadsMembers (style : Style) (fuel : Nat) : Prop :=
  ∀ (before : List (Points × Json)) {key : Points} {x : Json} {members : List (Points × Json)},
    ((before ++ (key, x) :: members).map Prod.fst).Nodup →
      (((key, x) :: members).all fun m => isText m.1) →
        everywhereUnder isPlain ((key, x) :: members) →
          everywhereUnder isShort ((key, x) :: members) → ∀ (depth outer : Nat) (rest : List Char),
            (write style depth x).length + (writeMembers style depth members).length + 1 < fuel →
              Reader.members fuel before (writeText style.ascii key ++ (':' :: ' ' ::
                (write style depth x ++ (writeMembers style depth members ++
                  (breakAt style outer ++ '\x7d' :: rest))))) =
                    .ok (before ++ (key, x) :: members, rest)

section
variable {style : Style} {fuel : Nat}

theorem value_write_arr (h : ReadsItems style fuel) {item : Json} {items : List Json}
    (hplain : everywhereIn isPlain (item :: items)) (hshort : everywhereIn isShort (item :: items))
    (depth : Nat) (rest : List Char)
    (hfuel : (write style depth (arr (item :: items))).length < fuel + 1) :
    value (fuel + 1) (write style depth (arr (item :: items)) ++ rest) =
      .ok (arr (item :: items), rest) := by
  have hitem : item.isPlain := test_of_everywhere (everywhereIn_cons.1 hplain).1
  have hlength : (write style (depth + 1) item).length +
      (writeItems style (depth + 1) items).length + 1 < fuel := by
    simp only [write, List.length_cons, List.length_append] at hfuel
    omega
  have hitems := h hplain hshort (depth + 1) depth rest hlength
  obtain ⟨c, cs, hcs, hc⟩ := exists_write style (depth + 1) hitem
  have hskip := (skipSpace_breakAt style (depth + 1) _).trans
    (skipSpace_write style (depth + 1) hitem
      (writeItems style (depth + 1) items ++ (breakAt style depth ++ ']' :: rest)))
  rw [hcs, List.cons_append] at hitems hskip
  refine Eq.trans ?_ (value_list (ne_of_isFirst hc) hskip hitems)
  rw [write, hcs]
  simp

theorem value_write_obj (h : ReadsMembers style fuel) {key : Points} {x : Json}
    {members : List (Points × Json)} (hobject : (obj ((key, x) :: members)).isPlain)
    (hplain : everywhereUnder isPlain ((key, x) :: members))
    (hshort : everywhereUnder isShort ((key, x) :: members)) (depth : Nat) (rest : List Char)
    (hfuel : (write style depth (obj ((key, x) :: members))).length < fuel + 1) :
    value (fuel + 1) (write style depth (obj ((key, x) :: members)) ++ rest) =
      .ok (obj ((key, x) :: members), rest) := by
  rw [isPlain, Bool.and_eq_true, decide_eq_true_eq] at hobject
  have hlength : (write style (depth + 1) x).length +
      (writeMembers style (depth + 1) members).length + 1 < fuel := by
    simp only [write, List.length_cons, List.length_append] at hfuel
    omega
  have hmembers : Reader.members fuel [] _ = _ :=
    h [] hobject.1 hobject.2 hplain hshort (depth + 1) depth rest hlength
  have hskip := skipSpace_breakAt style (depth + 1) (writeText style.ascii key ++
    (':' :: ' ' :: (write style (depth + 1) x ++ (writeMembers style (depth + 1) members ++
      (breakAt style depth ++ '\x7d' :: rest)))))
  refine Eq.trans ?_ (value_object (by decide) hskip hmembers)
  rw [write]
  simp

theorem readsValues_succ (hstyle : style.ascii = false) (hitems : ReadsItems style fuel)
    (hmembers : ReadsMembers style fuel) : ReadsValues style (fuel + 1) := by
  intro v hplain hshort depth rest hfuel hrest
  cases v with
  | null => exact value_null fuel rest
  | bool b => exact value_bool fuel b rest
  | int n =>
    rw [write]
    exact value_int fuel (by simpa [everywhere, isShort] using hshort) hrest
  | real x => cases hplain
  | str s =>
    obtain ⟨cs, hcs, hread⟩ := stringRest_writeText hstyle hplain rest
    rw [write, hcs, value, hread]
    rfl
  | arr items =>
    cases items with
    | nil => rfl
    | cons item items =>
      rw [everywhere, Bool.and_eq_true] at hplain hshort
      exact value_write_arr hitems hplain.2 hshort.2 depth rest hfuel
  | obj members =>
    cases members with
    | nil => rfl
    | cons member members =>
      rw [everywhere, Bool.and_eq_true] at hplain hshort
      exact value_write_obj hmembers hplain.1 hplain.2 hshort.2 depth rest hfuel

theorem readsItems_succ (hvalues : ReadsValues style fuel) (hitems : ReadsItems style fuel) :
    ReadsItems style (fuel + 1) := by
  intro item items hplain hshort depth outer rest hfuel
  obtain ⟨hplain, hplain'⟩ := everywhereIn_cons.1 hplain
  obtain ⟨hshort, hshort'⟩ := everywhereIn_cons.1 hshort
  have hend : Ends (breakAt style outer ++ ']' :: rest) :=
    ends_breakAt style outer (ends_cons (by decide) rest)
  have hitem := hvalues hplain hshort depth (by omega) (ends_writeItems style depth items hend)
  cases items with
  | nil => exact items_last hitem (by rw [writeItems, List.nil_append, skipSpace_breakAt]; rfl)
  | cons next items =>
    obtain ⟨gap, hcomma, hgap⟩ := comma_eq style depth
    have hnext : next.isPlain := test_of_everywhere (everywhereIn_cons.1 hplain').1
    have hlength : (write style depth next).length + (writeItems style depth items).length + 1 <
        fuel := by
      simp only [writeItems, hcomma, List.length_cons, List.length_append] at hfuel
      omega
    have hmore := hitems hplain' hshort' depth outer rest hlength
    rw [← skipSpace_write style depth hnext, ← hgap] at hmore
    refine items_more hitem ?_ hmore
    rw [writeItems, hcomma]
    simp [skipSpace_cons (rfl : isSpace ',' = false)]

theorem readsMembers_succ (hstyle : style.ascii = false) (hvalues : ReadsValues style fuel)
    (hmembers : ReadsMembers style fuel) : ReadsMembers style (fuel + 1) := by
  intro before key x members hkeys htext hplain hshort depth outer rest hfuel
  rw [everywhereUnder, Bool.and_eq_true] at hplain hshort
  rw [List.all_cons, Bool.and_eq_true] at htext
  have hend : Ends (breakAt style outer ++ '\x7d' :: rest) :=
    ends_breakAt style outer (ends_cons (by decide) rest)
  have hx := hvalues hplain.1 hshort.1 depth (by omega) (ends_writeMembers style depth members hend)
  rw [← skipSpace_write style depth (test_of_everywhere hplain.1)] at hx
  obtain ⟨cs, hcs, hkey⟩ := stringRest_writeText hstyle htext.1 (':' :: ' ' ::
    (write style depth x ++ (writeMembers style depth members ++
      (breakAt style outer ++ '\x7d' :: rest))))
  have hnew : key ∉ before.map Prod.fst := by
    rw [List.map_append, List.map_cons] at hkeys
    exact fun hmem => (List.nodup_append.1 hkeys).2.2 key hmem key List.mem_cons_self rfl
  rw [hcs]
  cases members with
  | nil =>
    rw [← put_of_not_mem hnew]
    exact members_last hkey (skipSpace_cons rfl _) hx
      (by rw [writeMembers, List.nil_append, skipSpace_breakAt]; rfl)
  | cons next members =>
    obtain ⟨nextKey, y⟩ := next
    obtain ⟨gap, hcomma, hgap⟩ := comma_eq style depth
    have hlength : (write style depth y).length + (writeMembers style depth members).length + 1 <
        fuel := by
      simp only [writeMembers, hcomma, List.length_cons, List.length_append] at hfuel
      omega
    have hmore := hmembers (before ++ [(key, x)]) (by simpa using hkeys) htext.2 hplain.2 hshort.2
      depth outer rest hlength
    have hskip (cs : List Char) : skipSpace (gap ++ (writeText style.ascii nextKey ++ cs)) =
        writeText style.ascii nextKey ++ cs := by
      rw [hgap]
      rfl
    rw [← put_of_not_mem hnew, ← hskip] at hmore
    refine (members_more hkey (skipSpace_cons rfl _) hx ?_ hmore).trans ?_
    · rw [writeMembers, hcomma]
      simp [skipSpace_cons (rfl : isSpace ',' = false)]
    · rw [put_of_not_mem hnew]
      simp

theorem reads (hstyle : style.ascii = false) (fuel : Nat) :
    ReadsValues style fuel ∧ ReadsItems style fuel ∧ ReadsMembers style fuel := by
  induction fuel with
  | zero =>
    refine ⟨?_, ?_, ?_⟩
    · intro v _ _ depth rest hfuel
      exact absurd hfuel (Nat.not_lt_zero _)
    · intro item items _ _ depth outer rest hfuel
      exact absurd hfuel (Nat.not_lt_zero _)
    · intro before key x members _ _ _ _ depth outer rest hfuel
      exact absurd hfuel (Nat.not_lt_zero _)
  | succ fuel ih =>
    obtain ⟨hvalues, hitems, hmembers⟩ := ih
    exact ⟨readsValues_succ hstyle hitems hmembers, readsItems_succ hvalues hitems,
      readsMembers_succ hstyle hvalues hmembers⟩

end

theorem document_write (hstyle : style.ascii = false) {v : Json} (hplain : v.everywhere isPlain)
    (hshort : v.everywhere isShort) : document (write style 0 v) = .ok v := by
  have htest : v.isPlain := test_of_everywhere hplain
  obtain ⟨c, cs, hcs, hc⟩ := exists_write style 0 htest
  have hmark : (write style 0 v).head? ≠ some '\ufeff' := by
    rw [hcs]
    rintro ⟨⟩
    cases hc
  have hskip := skipSpace_write style 0 htest []
  have hread := (reads hstyle (2 * (write style 0 v).length + 2)).1 hplain hshort 0 (by omega)
    (nofun : Ends [])
  rw [List.append_nil] at hskip hread
  rw [document, if_neg hmark, hskip, hread]
  rfl

end

end Reader

theorem ofText_toText {style : Style} (hstyle : style.ascii = false) {v : Json}
    (hplain : v.everywhere isPlain) (hshort : v.everywhere isShort) :
    ofText (v.toText style) = .ok v := by
  rw [ofText, toText, String.toList_ofList, Reader.document_write hstyle hplain hshort]

end CodeAtlas.Json
