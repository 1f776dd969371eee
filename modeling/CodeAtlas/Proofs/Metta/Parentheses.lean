import CodeAtlas.Metta.Cursor
import CodeAtlas.Proofs.Metta.Reading

/-! Where a form ends. A form ends at the parenthesis that matches its own unless a definition in it
has a broken head: a signature whose place for the name is taken by a parenthesis. Each broken head
costs one closing parenthesis, so the readers take just as many closing parentheses too few as they
come upon broken heads. -/

namespace CodeAtlas.Metta

def Token.rise (t : Token) : Int :=
  if t.kind = .openParen then 1 else if t.kind = .closeParen then -1 else 0

def balance : List Token → Int
  | [] => 0
  | t :: rest => t.rise + balance rest

def Stays (depth : Int) : List Token → Prop
  | [] => 0 ≤ depth
  | t :: rest => 0 ≤ depth ∧ Stays (depth + t.rise) rest

instance Stays.decide (depth : Int) : ∀ tokens, Decidable (Stays depth tokens)
  | [] => inferInstanceAs (Decidable (0 ≤ depth))
  | t :: rest =>
    have := Stays.decide (depth + t.rise) rest
    inferInstanceAs (Decidable (0 ≤ depth ∧ Stays (depth + t.rise) rest))

/-- How many definitions have a signature in which a parenthesis stands for the name. The opening
parenthesis of a signature starts no form, so the search goes on behind the name. -/
def brokenHeads : List Token → Nat
  | l :: e :: l' :: name :: rest =>
    if l.kind = .openParen ∧ e.kind = .equals ∧ l'.kind = .openParen then
      (if name.IsParen then 1 else 0) + brokenHeads rest
    else brokenHeads (e :: l' :: name :: rest)
  | _ => 0

section
variable {t l e l' name : Token} {rest tokens : List Token}

theorem rise_open (h : t.kind = .openParen) : t.rise = 1 := by simp [Token.rise, h]

theorem rise_close (h : t.kind = .closeParen) : t.rise = -1 := by simp [Token.rise, h]

theorem rise_word (h : ¬ t.IsParen) : t.rise = 0 := by
  rw [Token.IsParen, not_or] at h
  simp [Token.rise, h]

theorem balance_nil : balance [] = 0 := rfl

theorem balance_cons : balance (t :: tokens) = t.rise + balance tokens := rfl

theorem balance_append (a b : List Token) : balance (a ++ b) = balance a + balance b := by
  induction a with
  | nil => rw [List.nil_append, balance_nil, Int.zero_add]
  | cons t a ih => rw [List.cons_append, balance_cons, balance_cons, ih, Int.add_assoc]

theorem stays_append {depth : Int} (a b : List Token) :
    Stays depth (a ++ b) ↔ Stays depth a ∧ Stays (depth + balance a) b := by
  induction a generalizing depth with
  | nil =>
    have hzero : Stays depth b → 0 ≤ depth := by
      cases b with
      | nil => exact id
      | cons t rest => exact And.left
    simpa [Stays, balance_nil] using hzero
  | cons t a ih =>
    rw [List.cons_append, Stays, Stays, ih, balance_cons, Int.add_assoc, and_assoc]

theorem Stays.mono {depth depth' : Int} (hle : depth ≤ depth') :
    Stays depth tokens → Stays depth' tokens := by
  induction tokens generalizing depth depth' with
  | nil => exact fun h => Int.le_trans h hle
  | cons t rest ih =>
    exact fun h => ⟨Int.le_trans h.1 hle, ih (Int.add_le_add_right hle _) h.2⟩

theorem Stays.balance_nonneg {depth : Int} (h : Stays depth tokens) :
    0 ≤ depth + balance tokens := by
  have hend := (stays_append tokens []).1 (by rwa [List.append_nil])
  exact hend.2

theorem brokenHeads_signature (hl : l.kind = .openParen) (he : e.kind = .equals)
    (hl' : l'.kind = .openParen) : brokenHeads (l :: e :: l' :: name :: rest) =
      (if name.IsParen then 1 else 0) + brokenHeads rest := by
  rw [brokenHeads, if_pos ⟨hl, he, hl'⟩]

theorem brokenHeads_cons (h : t.kind = .openParen → ∀ e l' later, rest = e :: l' :: later →
    e.kind = .equals → l'.kind ≠ .openParen) : brokenHeads (t :: rest) = brokenHeads rest := by
  match rest, h with
  | e :: l' :: name :: rest, h =>
    rw [brokenHeads, if_neg]
    rintro ⟨ht, he, hl'⟩
    exact h ht e l' (name :: rest) rfl he hl'
  | [], _ => rfl
  | [_], _ => rfl
  | [_, _], _ => rfl

theorem brokenHeads_cons_of_ne (h : t.kind ≠ .openParen) :
    brokenHeads (t :: rest) = brokenHeads rest := brokenHeads_cons fun ht => absurd ht h

theorem brokenHeads_append {r : Token} (hr : r.kind = .closeParen) (y : List Token) :
    ∀ x : List Token, brokenHeads (x ++ r :: y) = brokenHeads (x ++ [r]) + brokenHeads y
  -- Short lists come one by one, for there a head may reach as far as `r`.
  | [] => by
    have hne : r.kind ≠ .openParen := by simp [hr]
    rw [List.nil_append, List.nil_append, brokenHeads_cons_of_ne hne, brokenHeads_cons_of_ne hne]
    exact (Nat.zero_add _).symm
  | [t] => by
    have ih := brokenHeads_append hr y []
    have hskip (z : List Token) : brokenHeads (t :: r :: z) = brokenHeads (r :: z) := by
      apply brokenHeads_cons
      rintro - e l' later h he
      obtain ⟨rfl, -⟩ := List.cons.inj h
      simp [hr] at he
    exact (hskip y).trans (ih.trans (congrArg (· + _) (hskip []).symm))
  | [t, e] => by
    have ih := brokenHeads_append hr y [e]
    have hskip (z : List Token) : brokenHeads (t :: e :: r :: z) = brokenHeads (e :: r :: z) := by
      apply brokenHeads_cons
      rintro - e' l' later h -
      obtain ⟨-, h⟩ := List.cons.inj h
      obtain ⟨rfl, -⟩ := List.cons.inj h
      simp [hr]
    exact (hskip y).trans (ih.trans (congrArg (· + _) (hskip []).symm))
  | [t, e, l'] => by
    have ih := brokenHeads_append hr y [e, l']
    by_cases h : t.kind = .openParen ∧ e.kind = .equals ∧ l'.kind = .openParen
    · obtain ⟨ht, he, hl'⟩ := h
      have hone (z : List Token) :
          brokenHeads (t :: e :: l' :: r :: z) = 1 + brokenHeads z := by
        rw [brokenHeads_signature ht he hl', if_pos (.inr hr)]
      exact (hone y).trans (congrArg (· + _) (hone []).symm)
    · have hskip (z : List Token) :
          brokenHeads (t :: e :: l' :: r :: z) = brokenHeads (e :: l' :: r :: z) := by
        rw [brokenHeads, if_neg h]
      exact (hskip y).trans (ih.trans (congrArg (· + _) (hskip []).symm))
  | t :: e :: l' :: name :: x => by
    by_cases h : t.kind = .openParen ∧ e.kind = .equals ∧ l'.kind = .openParen
    · have ih := brokenHeads_append hr y x
      obtain ⟨ht, he, hl'⟩ := h
      simp only [List.cons_append]
      rw [brokenHeads_signature ht he hl', brokenHeads_signature ht he hl', ih, Nat.add_assoc]
    · have ih := brokenHeads_append hr y (e :: l' :: name :: x)
      have hskip (z : List Token) :
          brokenHeads (t :: e :: l' :: name :: z) = brokenHeads (e :: l' :: name :: z) := by
        rw [brokenHeads, if_neg h]
      exact (hskip _).trans (ih.trans (congrArg (· + _) (hskip _).symm))

end

namespace Parser

/-- What is known of reading items: which tokens were taken, that these close no more than they
open, and, if a closing parenthesis put an end to them, that they would be read so before any other
and how many broken heads are in them. -/
def ItemsTaken (tokens : List Token) : Prop :=
  ∃ taken, tokens = taken ++ (items tokens).rest ∧ Stays 0 taken ∧
    ((items tokens).rest ≠ [] → ReadsItems taken (items tokens).value ∧
      (brokenHeads tokens : Int) = balance taken + brokenHeads (items tokens).rest)

/-- What is known of reading a form: either it was closed, and the tokens before its closing
parenthesis open as many more than they close as there are broken heads in the form; or the tokens
ran out. -/
def FormTaken (tokens : List Token) : Prop :=
  ∀ (l : Token) (line : Int), l.kind = .openParen →
    (∃ (taken : List Token) (r : Token), r.kind = .closeParen ∧
      tokens = taken ++ r :: (form line tokens).rest ∧ Stays 0 taken ∧
      ReadsForm line (taken ++ [r]) (form line tokens).value ∧
      (brokenHeads (l :: tokens) : Int) = balance taken + brokenHeads (form line tokens).rest) ∨
    ((form line tokens).rest = [] ∧ Stays 0 tokens)

theorem itemsTaken_stop {tokens : List Token} (h : AtEnd tokens) : ItemsTaken tokens := by
  refine ⟨[], ?_, Int.le_refl 0, fun _ => ⟨?_, ?_⟩⟩
  · rw [(items_atEnd h).2, List.nil_append]
  · rw [(items_atEnd h).1]
    exact readsItems_nil
  · rw [(items_atEnd h).2, balance_nil, Int.zero_add]

theorem itemsTaken_atom {t : Token} {rest : List Token} (ht : ¬ t.IsParen)
    (ih : ItemsTaken rest) : ItemsTaken (t :: rest) := by
  obtain ⟨taken, htaken, hstays, hclosed⟩ := ih
  have hne : t.kind ≠ .openParen := fun h => ht (.inl h)
  unfold ItemsTaken
  rw [(items_atom ht).1, (items_atom ht).2]
  refine ⟨t :: taken, ?_, ⟨Int.le_refl 0, ?_⟩, fun hrest => ⟨?_, ?_⟩⟩
  · exact congrArg (t :: ·) htaken
  · simpa [rise_word ht] using hstays
  · exact readsItems_atom ht (hclosed hrest).1
  · rw [brokenHeads_cons_of_ne hne, balance_cons, rise_word ht, Int.zero_add]
    exact (hclosed hrest).2

theorem itemsTaken_open {t : Token} {rest : List Token} (ht : t.kind = .openParen)
    (hform : FormTaken rest) (ih : ItemsTaken (form t.line rest).rest) :
    ItemsTaken (t :: rest) := by
  obtain ⟨later, hlater, hstays, hclosed⟩ := ih
  unfold ItemsTaken
  rw [(items_open ht).1, (items_open ht).2]
  obtain ⟨taken, r, hr, htaken, hinside, hreads, hcount⟩ | ⟨hout, hinside⟩ := hform t t.line ht
  -- A form that was closed is followed by the other items, else nothing is left for them.
  · have hzero := hinside.balance_nonneg
    have happend : taken ++ r :: later = taken ++ [r] ++ later := by simp
    refine ⟨t :: (taken ++ r :: later), ?_, ⟨Int.le_refl 0, ?_⟩, fun hrest => ⟨?_, ?_⟩⟩
    · rw [List.cons_append, List.append_assoc, List.cons_append, ← hlater]
      exact congrArg (t :: ·) htaken
    · rw [rise_open ht, stays_append]
      refine ⟨hinside.mono (by omega), by omega, hstays.mono ?_⟩
      rw [rise_close hr]
      omega
    · rw [happend]
      exact readsItems_form ht hreads (hclosed hrest).1
    · have hlast := (hclosed hrest).2
      rw [balance_cons, balance_append, balance_cons, rise_open ht, rise_close hr]
      omega
  · have hempty : (items (form t.line rest).rest).rest = [] := by
      rw [hout]
      exact (items_atEnd atEnd_nil).2
    refine ⟨t :: rest, ?_, ⟨Int.le_refl 0, ?_⟩, fun hrest => absurd hempty hrest⟩
    · rw [hempty, List.append_nil]
    · rw [rise_open ht]
      exact hinside.mono (by omega)

theorem formTaken_empty {tokens : List Token} (h : AtEnd tokens) : FormTaken tokens := by
  intro l line hl
  cases tokens with
  | nil => exact .inr ⟨form_nil.2, Int.le_refl 0⟩
  | cons r rest =>
    have hr := atEnd_cons.1 h
    rw [(form_close hr).1, (form_close hr).2]
    refine .inl ⟨[], r, hr, rfl, Int.le_refl 0, readsForm_empty hr, ?_⟩
    have hskip : brokenHeads (l :: r :: rest) = brokenHeads (r :: rest) := by
      apply brokenHeads_cons
      rintro - e l' later h he
      obtain ⟨rfl, -⟩ := List.cons.inj h
      simp [hr] at he
    rw [hskip, brokenHeads_cons_of_ne (by simp [hr]), balance_nil, Int.zero_add]

theorem formTaken_of_items {before tokens : List Token} (hbefore : Stays 0 before)
    (hzero : balance before = 0)
    (hrest : ∀ line, (form line (before ++ tokens)).rest = (items tokens).rest.tail)
    (hreads : ∀ line taken r, r.kind = .closeParen → tokens = taken ++ (items tokens).rest →
      (items tokens).rest.head? = some r → ReadsItems taken (items tokens).value →
      ReadsForm line (before ++ taken ++ [r]) (form line (before ++ tokens)).value)
    (hskip : ∀ l : Token, l.kind = .openParen →
      brokenHeads (l :: (before ++ tokens)) = brokenHeads tokens)
    (ih : ItemsTaken tokens) : FormTaken (before ++ tokens) := by
  intro l line hl
  obtain ⟨taken, htaken, hstays, hclosed⟩ := ih
  have hall : Stays 0 (before ++ taken) :=
    (stays_append _ _).2 ⟨hbefore, by simpa [hzero] using hstays⟩
  rw [hrest line, hskip l hl]
  have hend := atEnd_items tokens
  have hform := hreads line taken
  -- The items end where the tokens do or before a closing parenthesis, and nowhere else.
  cases hcase : (items tokens).rest with
  | nil =>
    rw [hcase, List.append_nil] at htaken
    exact .inr ⟨rfl, htaken ▸ hall⟩
  | cons r rest =>
    rw [hcase] at htaken hclosed hend hform
    have hr := atEnd_cons.1 hend
    obtain ⟨hitems, hheads⟩ := hclosed (List.cons_ne_nil r rest)
    refine .inl ⟨before ++ taken, r, hr, ?_, hall, hform r hr htaken rfl hitems, ?_⟩
    · rw [List.tail_cons, List.append_assoc, ← htaken]
    · rw [hheads, balance_append, hzero, Int.zero_add, List.tail_cons,
        brokenHeads_cons_of_ne (by simp [hr])]

theorem formTaken_call {t : Token} {rest : List Token} (hc : t.kind ≠ .closeParen)
    (he : t.kind ≠ .equals) (ih : ItemsTaken (t :: rest)) : FormTaken (t :: rest) := by
  refine @formTaken_of_items [] (t :: rest) (Int.le_refl 0) rfl (fun line => (form_call hc he).2)
    (fun line taken r hr htaken hhead hitems => ?_) (fun l _ => ?_) ih
  · rw [List.nil_append, List.nil_append, (form_call hc he).1, hhead]
    cases taken with
    | nil =>
      rw [List.nil_append] at htaken
      rw [← htaken] at hhead
      exact absurd (Option.some.inj hhead ▸ hr) hc
    | cons u taken =>
      obtain ⟨rfl, -⟩ := List.cons.inj htaken
      exact readsForm_call hc he hitems hr
  · apply brokenHeads_cons
    rintro - e l' later h hequals
    obtain ⟨rfl, -⟩ := List.cons.inj h
    exact absurd hequals he

theorem formTaken_plain {t : Token} {rest : List Token} (he : t.kind = .equals)
    (h : ∀ u ∈ rest.head?, u.kind ≠ .openParen) (ih : ItemsTaken rest) :
    FormTaken (t :: rest) := by
  have hword : ¬ t.IsParen := by simp [Token.IsParen, he]
  refine @formTaken_of_items [t] rest ⟨Int.le_refl 0, ?_⟩ ?_ (fun line => (form_plain he h).2)
    (fun line taken r hr htaken hhead hitems => ?_) (fun l _ => ?_) ih
  · rw [rise_word hword]
    exact Int.le_refl 0
  · rw [balance_cons, rise_word hword, balance_nil, Int.zero_add]
  · have hopen : ∀ u ∈ taken.head?, u.kind ≠ .openParen := by
      cases taken with
      | nil => simp
      | cons u taken =>
        rw [htaken] at h
        exact h
    have hform := @form_plain t rest line he h
    rw [hhead] at hform
    rw [List.singleton_append, List.singleton_append, hform.1]
    exact readsForm_plain he hopen hitems hr
  · have hskip : brokenHeads (l :: t :: rest) = brokenHeads (t :: rest) := by
      apply brokenHeads_cons
      rintro - e l' later hrest -
      obtain ⟨-, rfl⟩ := List.cons.inj hrest
      exact h l' rfl
    exact hskip.trans (brokenHeads_cons_of_ne (by simp [he]))

theorem formTaken_nameless {t o : Token} {rest : List Token} (he : t.kind = .equals)
    (ho : o.kind = .openParen) (h : AtEnd rest) : FormTaken (t :: o :: rest) := by
  intro l line hl
  have hword : ¬ t.IsParen := by simp [Token.IsParen, he]
  have hstays : Stays 0 [t, o] := by
    rw [Stays, Stays, Stays, rise_word hword, rise_open ho]
    omega
  rw [(form_nameless he ho h).1, (form_nameless he ho h).2]
  cases rest with
  | nil => exact .inr ⟨rfl, hstays⟩
  | cons r rest =>
    have hr := atEnd_cons.1 h
    refine .inl ⟨[t, o], r, hr, rfl, hstays, readsForm_nameless he ho hr, ?_⟩
    rw [brokenHeads_signature hl he ho, if_pos (.inr hr), balance_cons, balance_cons,
      rise_word hword, rise_open ho, balance_nil, List.tail_cons]
    omega

theorem formTaken_named {t o name : Token} {rest : List Token} (he : t.kind = .equals)
    (ho : o.kind = .openParen) (hn : name.kind ≠ .closeParen) (hparameters : ItemsTaken rest)
    (hbody : ItemsTaken (items rest).rest.tail) : FormTaken (t :: o :: name :: rest) := by
  intro l line hl
  obtain ⟨taken, htaken, hstays, hclosed⟩ := hparameters
  obtain ⟨later, hlater, hstays', hclosed'⟩ := hbody
  have hword : ¬ t.IsParen := by simp [Token.IsParen, he]
  have hname : name.rise = (if name.IsParen then 1 else 0 : Nat) := by
    by_cases h : name.kind = .openParen
    · rw [rise_open h, if_pos (.inl h)]
      rfl
    · have hno : ¬ name.IsParen := fun hp => hp.elim h hn
      rw [rise_word hno, if_neg hno]
      rfl
  have hzero := hstays.balance_nonneg
  have hzero' := hstays'.balance_nonneg
  have hnonneg : 0 ≤ name.rise := by rw [hname]; omega
  have hfront : Stays 0 (t :: o :: name :: taken) := by
    refine ⟨Int.le_refl 0, ?_, ?_, ?_⟩
    · rw [rise_word hword]
      exact Int.le_refl 0
    · rw [rise_word hword, rise_open ho]
      omega
    · rw [rise_word hword, rise_open ho]
      exact hstays.mono (by omega)
  rw [(form_named he ho hn).1, (form_named he ho hn).2]
  -- The tokens may run out in the parameters, in the body, or not at all.
  have hend := atEnd_items rest
  cases hcase : (items rest).rest with
  | nil =>
    rw [hcase, List.append_nil] at htaken
    refine .inr ⟨?_, htaken ▸ hfront⟩
    rw [List.tail_nil, (items_atEnd atEnd_nil).2, List.tail_nil]
  | cons r' rest' =>
    rw [hcase] at htaken hclosed hend hlater hclosed'
    rw [List.tail_cons] at hlater hclosed'
    rw [List.tail_cons, List.head?_cons]
    have hr' := atEnd_cons.1 hend
    obtain ⟨hitems, hheads⟩ := hclosed (List.cons_ne_nil r' rest')
    rw [brokenHeads_cons_of_ne (by simp [hr'])] at hheads
    have hall : Stays 0 (t :: o :: name :: taken ++ r' :: later) := by
      refine (stays_append _ _).2 ⟨hfront, ?_, ?_⟩
      · simp only [balance_cons, rise_word hword, rise_open ho]
        omega
      · simp only [balance_cons, rise_word hword, rise_open ho, rise_close hr']
        exact hstays'.mono (by omega)
    have hend' := atEnd_items rest'
    cases hcase' : (items rest').rest with
    | nil =>
      rw [hcase', List.append_nil] at hlater
      refine .inr ⟨rfl, ?_⟩
      rw [htaken, hlater]
      exact hall
    | cons r left =>
      rw [hcase'] at hlater hclosed' hend'
      have hr := atEnd_cons.1 hend'
      obtain ⟨hitems', hheads'⟩ := hclosed' (List.cons_ne_nil r left)
      rw [brokenHeads_cons_of_ne (by simp [hr])] at hheads'
      refine .inl ⟨t :: o :: name :: taken ++ r' :: later, r, hr, ?_, hall, ?_, ?_⟩
      · rw [htaken, hlater]
        simp
      · have hform := @readsForm_named t line taken later _ _ r o name r' he ho hn hitems hr'
          hitems' hr
        have happend : t :: o :: name :: taken ++ r' :: later ++ [r] =
            t :: o :: name :: (taken ++ r' :: (later ++ [r])) := by simp
        rw [happend]
        exact hform
      · rw [brokenHeads_signature hl he ho, balance_append, List.tail_cons]
        simp only [balance_cons, rise_word hword, rise_open ho, rise_close hr', hname]
        omega

theorem taken_all : (∀ tokens, ItemsTaken tokens) ∧ ∀ tokens, FormTaken tokens :=
  Parser.induction (fun _ => itemsTaken_stop) (fun _ _ => itemsTaken_atom)
    (fun _ _ => itemsTaken_open) (fun _ => formTaken_empty) (fun _ _ => formTaken_call)
    (fun _ _ => formTaken_plain) (fun _ _ _ => formTaken_nameless)
    (fun _ _ _ _ => formTaken_named)

end Parser

/-- The parenthesis at `i` is matched by the one at `m`: from `i` on, there is something open up to
`m` and nothing behind it. -/
structure Matches (tokens : List Token) (i m : Nat) : Prop where
  opens : ∃ l, tokens[i]? = some l ∧ l.kind = .openParen
  lt : i < m
  lt_length : m < tokens.length
  inside : ∀ k, i < k → k ≤ m → 0 < balance ((tokens.take k).drop i)
  closes : balance ((tokens.take (m + 1)).drop i) = 0

structure IsGroup (l : Token) (inside : List Token) (r : Token) : Prop where
  opens : l.kind = .openParen
  closes : r.kind = .closeParen
  stays : Stays 0 inside
  balanced : balance inside = 0

theorem stays_of_take {depth : Int} {tokens : List Token}
    (h : ∀ n, n ≤ tokens.length → 0 ≤ depth + balance (tokens.take n)) : Stays depth tokens := by
  induction tokens generalizing depth with
  | nil => simpa [balance, Stays] using h 0 (Nat.le_refl 0)
  | cons t rest ih =>
    refine ⟨by simpa [balance] using h 0 (Nat.zero_le _), ih fun n hn => ?_⟩
    have hnext := h (n + 1) (Nat.succ_le_succ hn)
    rwa [List.take_succ_cons, balance_cons, ← Int.add_assoc] at hnext

theorem Matches.split {tokens : List Token} {i m : Nat} (h : Matches tokens i m) :
    ∃ l inside r, IsGroup l inside r ∧
      tokens.drop i = l :: (inside ++ r :: tokens.drop (m + 1)) ∧
      (tokens.take (m + 1)).drop i = l :: (inside ++ [r]) := by
  obtain ⟨⟨l, hget, hl⟩, hlt, hlength, hinside, hcloses⟩ := h
  -- With the distance from the token after `i` as the measure, no subtraction is left.
  obtain ⟨n, rfl⟩ : ∃ n, m = i + 1 + n := ⟨m - i - 1, by omega⟩
  have hi : i < tokens.length := by omega
  have hfirst : tokens.drop i = l :: tokens.drop (i + 1) := by
    rw [List.drop_eq_getElem_cons hi]
    rw [List.getElem?_eq_getElem hi] at hget
    rw [Option.some.inj hget]
  have hpiece (j : Nat) :
      (tokens.take (i + 1 + j)).drop i = l :: (tokens.drop (i + 1)).take j := by
    rw [List.drop_take, hfirst, show i + 1 + j - i = j + 1 by omega, List.take_succ_cons]
  have hlater : (tokens.drop (i + 1)).drop n =
      tokens[i + 1 + n] :: tokens.drop (i + 1 + n + 1) := by
    rw [List.drop_drop, List.drop_eq_getElem_cons hlength]
  have hrest : tokens.drop (i + 1) =
      (tokens.drop (i + 1)).take n ++ tokens[i + 1 + n] :: tokens.drop (i + 1 + n + 1) := by
    rw [← hlater, List.take_append_drop]
  have hgroup : (tokens.drop (i + 1)).take (n + 1) =
      (tokens.drop (i + 1)).take n ++ [tokens[i + 1 + n]] := by
    rw [List.take_add, hlater, List.take_succ_cons, List.take_zero]
  have hpositive (j : Nat) (hj : j ≤ n) : 0 ≤ balance ((tokens.drop (i + 1)).take j) := by
    have hk := hinside (i + 1 + j) (by omega) (by omega)
    rw [hpiece, balance_cons, rise_open hl] at hk
    omega
  rw [Nat.add_assoc (i + 1), hpiece, hgroup, balance_cons, balance_append, balance_cons,
    rise_open hl, balance_nil] at hcloses
  have hinner := hpositive n (Nat.le_refl n)
  have hclose : tokens[i + 1 + n].kind = .closeParen := by
    by_cases hopen : tokens[i + 1 + n].kind = .openParen
    · rw [rise_open hopen] at hcloses
      omega
    · by_cases hclose : tokens[i + 1 + n].kind = .closeParen
      · exact hclose
      · rw [rise_word (not_or.2 ⟨hopen, hclose⟩)] at hcloses
        omega
  rw [rise_close hclose] at hcloses
  refine ⟨l, (tokens.drop (i + 1)).take n, tokens[i + 1 + n], ⟨hl, hclose, ?_, by omega⟩, ?_, ?_⟩
  · apply stays_of_take
    intro j hj
    rw [List.take_take, Int.zero_add]
    exact hpositive _ (by omega)
  · rw [hfirst]
    exact congrArg (l :: ·) hrest
  · rw [Nat.add_assoc (i + 1), hpiece, hgroup]

section
variable {l r : Token} {inside after : List Token}

theorem Stays.zero_le {depth : Int} {tokens : List Token} (h : Stays depth tokens) :
    0 ≤ depth := by
  cases tokens with
  | nil => exact h
  | cons t rest => exact h.1

theorem IsGroup.prefix_of_stays (h : IsGroup l inside r) {tokens left : List Token}
    (heq : tokens ++ left = inside ++ r :: after) (hstays : Stays 0 tokens) :
    ∃ more, inside = tokens ++ more ∧ left = more ++ r :: after := by
  obtain hshort | ⟨more, htokens, hafter⟩ := List.append_eq_append_iff.1 heq
  · exact hshort
  · cases more with
    | nil =>
      rw [List.append_nil] at htokens
      exact ⟨[], by rw [htokens, List.append_nil], hafter.symm⟩
    | cons u more =>
      obtain ⟨rfl, -⟩ := List.cons.inj hafter
      rw [htokens, stays_append, h.balanced] at hstays
      have hbelow := hstays.2.2.zero_le
      rw [rise_close h.closes] at hbelow
      omega

theorem IsGroup.rest_form_iff (h : IsGroup l inside r) (line : Int) :
    (Parser.form line (inside ++ r :: after)).rest = after ↔
      brokenHeads (l :: (inside ++ [r])) = 0 := by
  have hsplit := brokenHeads_append h.closes after (l :: inside)
  rw [List.cons_append, List.cons_append] at hsplit
  obtain ⟨taken, u, hu, htaken, hstays, -, hcount⟩ | ⟨hout, hstays⟩ :=
    Parser.taken_all.2 (inside ++ r :: after) l line h.opens
  · obtain ⟨more, hmore, hleft⟩ := h.prefix_of_stays htaken.symm hstays
    cases more with
    | nil =>
      rw [List.append_nil] at hmore
      obtain ⟨-, hrest⟩ := List.cons.inj hleft
      rw [hrest, ← hmore, h.balanced, hsplit] at hcount
      exact ⟨fun _ => by omega, fun _ => hrest⟩
    | cons u' more =>
      -- The form was closed inside of the group, where something else was open: a broken head.
      obtain ⟨rfl, hrest⟩ : u = u' ∧ (Parser.form line (inside ++ r :: after)).rest =
        more ++ r :: after := List.cons.inj hleft
      have hinside := h.stays
      rw [hmore, stays_append] at hinside
      have hpositive := hinside.2.2.zero_le
      rw [rise_close hu] at hpositive
      have hwhole : l :: (inside ++ r :: after) = l :: taken ++ u :: (more ++ r :: after) := by
        simp [hmore]
      have hgroup : l :: (inside ++ [r]) = l :: taken ++ u :: (more ++ [r]) := by simp [hmore]
      rw [hrest, hwhole, brokenHeads_append hu] at hcount
      rw [hrest, hgroup, brokenHeads_append hu]
      refine ⟨fun hafter => ?_, fun hzero => by omega⟩
      have hlength := congrArg List.length hafter
      rw [List.length_append, List.length_cons] at hlength
      omega
  · obtain ⟨more, -, hleft⟩ := h.prefix_of_stays (List.append_nil _) hstays
    simp at hleft

theorem IsGroup.reads (h : IsGroup l inside r) (hheads : brokenHeads (l :: (inside ++ [r])) = 0)
    (line : Int) :
    Parser.ReadsForm line (inside ++ [r]) (Parser.form line (inside ++ [r])).value := by
  have hrest : (Parser.form line (inside ++ [r])).rest = [] := (h.rest_form_iff line).2 hheads
  obtain ⟨taken, u, -, htaken, -, hreads, -⟩ | ⟨-, hstays⟩ :=
    Parser.taken_all.2 (inside ++ [r]) l line h.opens
  · rw [hrest] at htaken
    rwa [← htaken] at hreads
  · obtain ⟨more, -, hleft⟩ := h.prefix_of_stays (List.append_nil _) hstays
    simp at hleft

end

theorem Parser.rest_form_suffix (line : Int) (tokens : List Token) :
    (form line tokens).rest <:+ tokens := by
  obtain ⟨taken, r, -, htaken, -⟩ | ⟨hout, -⟩ :=
    taken_all.2 tokens ⟨.openParen, "(", 0, 0⟩ line rfl
  · exact ⟨taken ++ [r], by rw [List.append_assoc]; exact htaken.symm⟩
  · exact hout ▸ List.nil_suffix

def Cursor.at (tokens : List Token) (i : Nat) : Cursor := ⟨tokens.length, tokens.drop i⟩

theorem Matches.position_iff {tokens : List Token} {i m : Nat} (h : Matches tokens i m) :
    ((Cursor.at tokens i).step .form).2.position = m + 1 ↔
      brokenHeads ((tokens.take (m + 1)).drop i) = 0 := by
  obtain ⟨l, inside, r, hgroup, hdrop, htake⟩ := h.split
  have hlength := h.lt_length
  rw [htake, ← hgroup.rest_form_iff l.line]
  have hstep : ((Cursor.at tokens i).step .form).2.position =
      tokens.length - (Parser.form l.line (inside ++ r :: tokens.drop (m + 1))).rest.length := by
    simp [Cursor.at, Cursor.step, Cursor.withFirst, Cursor.position, hdrop]
  have hafter : (tokens.drop (m + 1)).length = tokens.length - (m + 1) := List.length_drop
  rw [hstep]
  constructor
  · intro hposition
    have hsuffix : tokens.drop (m + 1) <:+ inside ++ r :: tokens.drop (m + 1) :=
      ⟨inside ++ [r], by rw [List.append_assoc]; rfl⟩
    have hread := Parser.rest_form_suffix l.line (inside ++ r :: tokens.drop (m + 1))
    exact (List.suffix_of_suffix_length_le hread hsuffix (by omega)).eq_of_length (by omega)
  · intro hrest
    rw [hrest]
    omega

end CodeAtlas.Metta
