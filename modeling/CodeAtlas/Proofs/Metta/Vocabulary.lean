import CodeAtlas.Proofs.Metta.Joining
import Mathlib.Data.Nat.Find

/-! Which words a report can tell of. A word inside of a form is heard, unless it stands for the
name of a signature; but at a broken head the readers lose count of the open forms, and what stands
between the place where they leave a group and its end is lost on them as well. -/

namespace CodeAtlas.Metta

/-- How many forms are open behind a token. At the top level there is nothing left to close. -/
def Token.depthAfter (t : Token) (depth : Nat) : Nat :=
  match t.kind with
  | .openParen => depth + 1
  | .closeParen => depth - 1
  | _ => depth

def Token.isHeardAt (t : Token) (depth : Nat) : Bool := 0 < depth && !t.IsParen

/-- Tells of each token whether it is heard, if `depth` forms are open. A signature opens a form of
its own, except that one without a name is given up and then the definition is closed in its place;
a name is never heard, be it a parenthesis or not. -/
def hearing (depth : Nat) : List Token → List Bool
  | l :: e :: l' :: name :: rest =>
    if l.kind = .openParen ∧ e.kind = .equals ∧ l'.kind = .openParen then
      false :: false :: false :: false ::
        hearing (if name.kind = .closeParen then depth else depth + 2) rest
    else l.isHeardAt depth :: hearing (l.depthAfter depth) (e :: l' :: name :: rest)
  | t :: rest => t.isHeardAt depth :: hearing (t.depthAfter depth) rest
  | [] => []

def heardTexts (kind : TokenKind) (depth : Nat) (tokens : List Token) : List String :=
  ((tokens.zip (hearing depth tokens)).filter fun p => p.2 && p.1.kind = kind).map fun p => p.1.text

def Says (tokens : List Token) (i : Nat) (kind : TokenKind) (text : String) : Prop :=
  ∃ t, tokens[i]? = some t ∧ t.kind = kind ∧ t.text = text

def Enclosed (tokens : List Token) (i : Nat) : Prop :=
  ∃ a b, Matches tokens a b ∧ a < i ∧ i < b

def Heard (tokens : List Token) (i : Nat) : Prop := (hearing 0 tokens)[i]? = some true

section
variable {t l e l' name r : Token} {rest tokens : List Token} {kind : TokenKind} {depth : Nat}

theorem hearing_signature (hl : l.kind = .openParen) (he : e.kind = .equals)
    (hl' : l'.kind = .openParen) : hearing depth (l :: e :: l' :: name :: rest) =
      false :: false :: false :: false ::
        hearing (if name.kind = .closeParen then depth else depth + 2) rest := by
  rw [hearing, if_pos ⟨hl, he, hl'⟩]

theorem hearing_cons (h : t.kind = .openParen → ∀ e l' later, rest = e :: l' :: later →
    e.kind = .equals → l'.kind ≠ .openParen) :
    hearing depth (t :: rest) = t.isHeardAt depth :: hearing (t.depthAfter depth) rest := by
  match rest, h with
  | e :: l' :: name :: rest, h =>
    rw [hearing, if_neg]
    rintro ⟨ht, he, hl'⟩
    exact h ht e l' (name :: rest) rfl he hl'
  | [], _ => rfl
  | [_], _ => rfl
  | [_, _], _ => rfl

theorem mem_heardTexts {text : String} :
    text ∈ heardTexts kind 0 tokens ↔ ∃ i, Says tokens i kind text ∧ Heard tokens i := by
  unfold heardTexts
  rw [List.mem_map]
  constructor
  · rintro ⟨p, hp, htext⟩
    obtain ⟨hzip, hheard⟩ := List.mem_filter.1 hp
    obtain ⟨hflag, hkind⟩ := Bool.and_eq_true_iff.1 hheard
    obtain ⟨i, hi⟩ := List.mem_iff_getElem?.1 hzip
    obtain ⟨htoken, hhearing⟩ := List.getElem?_zip_eq_some.1 hi
    exact ⟨i, ⟨p.1, htoken, of_decide_eq_true hkind, htext⟩, hhearing.trans (congrArg some hflag)⟩
  · rintro ⟨i, ⟨t, ht, hkind, htext⟩, hheard⟩
    have hzip := List.getElem?_zip_eq_some (z := (t, true)).2 ⟨ht, hheard⟩
    exact ⟨(t, true), List.mem_filter.2 ⟨List.mem_of_getElem? hzip, by simp [hkind]⟩, htext⟩

theorem heardTexts_nil : heardTexts kind depth [] = [] := rfl

theorem heardTexts_signature (hl : l.kind = .openParen) (he : e.kind = .equals)
    (hl' : l'.kind = .openParen) : heardTexts kind depth (l :: e :: l' :: name :: rest) =
      heardTexts kind (if name.kind = .closeParen then depth else depth + 2) rest := by
  simp [heardTexts, hearing_signature hl he hl']

theorem heardTexts_open (ht : t.kind = .openParen) (h : ∀ e l' later, rest = e :: l' :: later →
    e.kind = .equals → l'.kind ≠ .openParen) :
    heardTexts kind depth (t :: rest) = heardTexts kind (depth + 1) rest := by
  simp [heardTexts, hearing_cons fun _ => h, Token.isHeardAt, Token.IsParen, Token.depthAfter, ht]

theorem heardTexts_close (hr : r.kind = .closeParen) :
    heardTexts kind depth (r :: rest) = heardTexts kind (depth - 1) rest := by
  have hne : r.kind ≠ .openParen := by simp [hr]
  simp [heardTexts, hearing_cons fun h => absurd h hne, Token.isHeardAt, Token.IsParen,
    Token.depthAfter, hr]

theorem depthAfter_word (ht : ¬ t.IsParen) : t.depthAfter depth = depth := by
  rw [Token.IsParen, not_or] at ht
  unfold Token.depthAfter
  split <;> simp_all

theorem heardTexts_word (ht : ¬ t.IsParen) :
    heardTexts kind depth (t :: rest) =
      (if 0 < depth ∧ t.kind = kind then [t.text] else []) ++ heardTexts kind depth rest := by
  have hne : t.kind ≠ .openParen := fun h => ht (.inl h)
  rw [heardTexts, hearing_cons fun h => absurd h hne, depthAfter_word ht, List.zip_cons_cons,
    List.filter_cons, heardTexts]
  simp only [Token.isHeardAt, ht]
  by_cases hheard : 0 < depth ∧ t.kind = kind
  · simp [hheard]
  · rw [if_neg hheard, if_neg (by simpa using hheard)]
    rfl

theorem heardTexts_tail (h : Parser.AtEnd tokens) :
    heardTexts kind (depth + 1) tokens = heardTexts kind depth tokens.tail := by
  cases tokens with
  | nil => rfl
  | cons r rest => exact heardTexts_close (Parser.atEnd_cons.1 h)

end

namespace Node

theorem valuesOf_append (kind : NodeKind) (a b : List Node) :
    valuesOf kind (a ++ b) = valuesOf kind a ++ valuesOf kind b := by
  simp [valuesOf]

theorem valuesOf_nodes {kind : NodeKind} {node : Node} (h : node.kind ≠ kind) :
    valuesOf kind node.nodes = valuesOf kind (node.children.flatMap nodes) := by
  rw [nodes_eq, valuesOf, List.filter_cons_of_neg (by simpa using h), valuesOf]

end Node

namespace Parser

def ItemsHeard (kind : TokenKind) (tokens : List Token) : Prop :=
  ∀ depth, heardTexts kind (depth + 1) tokens =
    Node.valuesOf (atomKind kind) ((items tokens).value.flatMap Node.nodes) ++
      heardTexts kind (depth + 1) (items tokens).rest

def FormHeard (kind : TokenKind) (tokens : List Token) : Prop :=
  ∀ (l : Token) (line : Int) (depth : Nat), l.kind = .openParen →
    heardTexts kind depth (l :: tokens) =
      Node.valuesOf (atomKind kind) (form line tokens).value.nodes ++
        heardTexts kind depth (form line tokens).rest

section
variable {kind : TokenKind} {t o name : Token} {rest tokens : List Token}

theorem atomKind_eq_iff (hkind : kind = .variable ∨ kind = .space) (k : TokenKind) :
    atomKind k = atomKind kind ↔ k = kind := by
  rcases hkind with rfl | rfl
  · exact atomKind_eq_variable
  · exact atomKind_eq_space

theorem atomKind_not_mem (hkind : kind = .variable ∨ kind = .space) :
    atomKind kind ∉ Part.otherKinds := by
  rcases hkind with rfl | rfl <;> decide

theorem valuesOf_atom (hkind : kind = .variable ∨ kind = .space) (t : Token) :
    Node.valuesOf (atomKind kind) (atom t).nodes = if t.kind = kind then [t.text] else [] := by
  rw [Node.nodes_eq, children_atom, List.flatMap_nil, Node.valuesOf]
  by_cases h : t.kind = kind
  · simp [h]
  · simp [h, atomKind_eq_iff hkind]

theorem itemsHeard_stop (h : AtEnd tokens) : ItemsHeard kind tokens := by
  intro depth
  rw [(items_atEnd h).1, (items_atEnd h).2]
  rfl

theorem itemsHeard_atom (hkind : kind = .variable ∨ kind = .space) (ht : ¬ t.IsParen)
    (ih : ItemsHeard kind rest) : ItemsHeard kind (t :: rest) := by
  intro depth
  rw [heardTexts_word ht, ih depth, (items_atom ht).1, (items_atom ht).2, List.flatMap_cons,
    Node.valuesOf_append, valuesOf_atom hkind, List.append_assoc]
  simp

theorem itemsHeard_open (ht : t.kind = .openParen) (hform : FormHeard kind rest)
    (ih : ItemsHeard kind (form t.line rest).rest) : ItemsHeard kind (t :: rest) := by
  intro depth
  rw [hform t t.line (depth + 1) ht, ih depth, (items_open ht).1, (items_open ht).2,
    List.flatMap_cons, Node.valuesOf_append, List.append_assoc]

theorem ne_of_mem_otherKinds (hkind : kind = .variable ∨ kind = .space) {k : NodeKind}
    (h : k ∈ Part.otherKinds) : k ≠ atomKind kind := by
  rintro rfl
  exact atomKind_not_mem hkind h

theorem formHeard_empty (hkind : kind = .variable ∨ kind = .space) (h : AtEnd tokens) :
    FormHeard kind tokens := by
  intro l line depth hl
  have hne : NodeKind.emptyExpression ≠ atomKind kind :=
    ne_of_mem_otherKinds hkind (by decide)
  cases tokens with
  | nil =>
    rw [form_nil.1, form_nil.2, Node.valuesOf_nodes hne, heardTexts_open hl (by simp)]
    rfl
  | cons r rest =>
    have hr := atEnd_cons.1 h
    rw [(form_close hr).1, (form_close hr).2, Node.valuesOf_nodes hne, heardTexts_open hl,
      heardTexts_close hr]
    · rfl
    · rintro e l' later h he
      obtain ⟨rfl, -⟩ := List.cons.inj h
      simp [hr] at he

theorem formHeard_call (hkind : kind = .variable ∨ kind = .space) (hc : t.kind ≠ .closeParen)
    (he : t.kind ≠ .equals) (ih : ItemsHeard kind (t :: rest)) : FormHeard kind (t :: rest) := by
  intro l line depth hl
  rw [heardTexts_open hl, ih depth, (form_call hc he).1, (form_call hc he).2,
    heardTexts_tail (atEnd_items _), Node.valuesOf_nodes]
  · simp
  · rw [Node.kind_closedAt, Node.kind_addChildren, Node.kind_leaf]
    exact ne_of_mem_otherKinds hkind (by decide)
  · rintro e l' later h hequals
    obtain ⟨rfl, -⟩ := List.cons.inj h
    exact absurd hequals he

theorem formHeard_plain (hkind : kind = .variable ∨ kind = .space) (he : t.kind = .equals)
    (h : ∀ u ∈ rest.head?, u.kind ≠ .openParen) (ih : ItemsHeard kind rest) :
    FormHeard kind (t :: rest) := by
  intro l line depth hl
  have hword : ¬ t.IsParen := by simp [Token.IsParen, he]
  have hequals : t.kind ≠ kind := by rcases hkind with rfl | rfl <;> simp [he]
  rw [heardTexts_open hl, heardTexts_word hword, if_neg (fun h => hequals h.2), List.nil_append,
    ih depth, (form_plain he h).1, (form_plain he h).2, heardTexts_tail (atEnd_items _),
    Node.valuesOf_nodes]
  · simp
  · rw [Node.kind_closedAt, Node.kind_addChildren, Node.kind_leaf]
    exact ne_of_mem_otherKinds hkind (by decide)
  · rintro e l' later hrest -
    obtain ⟨-, rfl⟩ := List.cons.inj hrest
    exact h l' rfl

theorem formHeard_nameless (hkind : kind = .variable ∨ kind = .space) (he : t.kind = .equals)
    (ho : o.kind = .openParen) (h : AtEnd rest) : FormHeard kind (t :: o :: rest) := by
  intro l line depth hl
  have hne : NodeKind.definition ≠ atomKind kind := ne_of_mem_otherKinds hkind (by decide)
  have hnone : Node.valuesOf (atomKind kind)
      ((Node.leaf .definition "" line).closedAt rest.head?).nodes = [] := by
    rw [Node.valuesOf_nodes (by simpa using hne)]
    simp [Node.valuesOf]
  rw [(form_nameless he ho h).1, (form_nameless he ho h).2, hnone, List.nil_append]
  cases rest with
  | nil =>
    have hequals : t.kind ≠ kind := by rcases hkind with rfl | rfl <;> simp [he]
    simp [heardTexts, hearing, Token.isHeardAt, Token.IsParen, hl, ho, hequals]
  | cons r rest =>
    rw [heardTexts_signature hl he ho, if_pos (atEnd_cons.1 h)]
    rfl

theorem formHeard_named (hkind : kind = .variable ∨ kind = .space) (he : t.kind = .equals)
    (ho : o.kind = .openParen) (hn : name.kind ≠ .closeParen) (hparameters : ItemsHeard kind rest)
    (hbody : ItemsHeard kind (items rest).rest.tail) :
    FormHeard kind (t :: o :: name :: rest) := by
  intro l line depth hl
  have hne {k : NodeKind} (h : k ∈ Part.otherKinds) : k ≠ atomKind kind :=
    ne_of_mem_otherKinds hkind h
  rw [heardTexts_signature hl he ho, if_neg hn, hparameters (depth + 1),
    heardTexts_tail (atEnd_items _), hbody depth, heardTexts_tail (atEnd_items _),
    (form_named he ho hn).1, (form_named he ho hn).2, Node.valuesOf_nodes,
    Node.children_closedAt, Node.children_addChildren, Node.children_leaf, List.nil_append,
    List.flatMap_cons, Node.valuesOf_append, Node.valuesOf_nodes]
  · simp
  · rw [Node.kind_signatureClosedAt, Node.kind_addChildren, Node.kind_leaf]
    exact hne (by decide)
  · rw [Node.kind_closedAt, Node.kind_addChildren, Node.kind_leaf]
    exact hne (by decide)

end

theorem heard_all {kind : TokenKind} (hkind : kind = .variable ∨ kind = .space) :
    (∀ tokens, ItemsHeard kind tokens) ∧ ∀ tokens, FormHeard kind tokens :=
  Parser.induction (fun _ => itemsHeard_stop) (fun _ _ => itemsHeard_atom hkind)
    (fun _ _ => itemsHeard_open) (fun _ => formHeard_empty hkind)
    (fun _ _ => formHeard_call hkind) (fun _ _ => formHeard_plain hkind)
    (fun _ _ _ => formHeard_nameless hkind) (fun _ _ _ _ => formHeard_named hkind)

theorem valuesOf_topLevels_cons {kind : TokenKind} (hkind : kind = .variable ∨ kind = .space)
    {t : Token} {rest : List Token} (ho : t.kind ≠ .openParen) :
    Node.valuesOf (atomKind kind) ((topLevels (t :: rest)).flatMap Node.nodes) =
      Node.valuesOf (atomKind kind) ((topLevels rest).flatMap Node.nodes) := by
  rw [topLevels_cons]
  by_cases hc : t.kind = .comment
  · rw [(topLevel_comment hc).1, (topLevel_comment hc).2, Option.toList_some, List.singleton_append,
      List.flatMap_cons, Node.valuesOf_append, Node.valuesOf_nodes]
    · rfl
    · exact ne_of_mem_otherKinds hkind (by simp [comment, Part.otherKinds])
  by_cases he : t.kind = .execute
  · rw [(topLevel_execute he).1, (topLevel_execute he).2, Option.toList_some,
      List.singleton_append, List.flatMap_cons, Node.valuesOf_append]
    have hne : NodeKind.execution ≠ atomKind kind := ne_of_mem_otherKinds hkind (by decide)
    by_cases hopen : ∀ u ∈ rest.head?, u.kind ≠ .openParen
    · rw [(execution_alone hopen).1, (execution_alone hopen).2, Node.valuesOf_nodes hne]
      rfl
    · obtain ⟨u, rest, rfl⟩ : ∃ u later, rest = u :: later :=
        List.exists_cons_of_ne_nil (by rintro rfl; simp at hopen)
      have hu : u.kind = .openParen := by simpa using hopen
      rw [(execution_open hu).1, (execution_open hu).2, topLevels_cons, (topLevel_open hu).1,
        (topLevel_open hu).2, Node.valuesOf_nodes (by simpa using hne)]
      simp [Node.valuesOf_append]
  · rw [(topLevel_other hc he ho).1, (topLevel_other hc he ho).2]
    rfl

theorem valuesOf_topLevels {kind : TokenKind} (hkind : kind = .variable ∨ kind = .space)
    (tokens : List Token) :
    Node.valuesOf (atomKind kind) ((topLevels tokens).flatMap Node.nodes) =
      heardTexts kind 0 tokens := by
  induction hn : tokens.length using Nat.strongRecOn generalizing tokens with
  | ind n ih =>
    cases tokens with
    | nil => simp [topLevels, Node.valuesOf, heardTexts_nil]
    | cons t rest =>
      rw [List.length_cons] at hn
      by_cases ho : t.kind = .openParen
      · have hle := (form t.line rest).rest_le
        have hlater := ih _ (by omega) (form t.line rest).rest rfl
        rw [topLevels_cons, (topLevel_open ho).1, (topLevel_open ho).2,
          (heard_all hkind).2 rest t t.line 0 ho, ← hlater, Option.toList_some,
          List.singleton_append, List.flatMap_cons, Node.valuesOf_append]
      · have hlater := ih rest.length (by omega) rest rfl
        rw [valuesOf_topLevels_cons hkind ho, hlater]
        by_cases hc : t.kind = .closeParen
        · rw [heardTexts_close hc]
        · rw [heardTexts_word (not_or.2 ⟨ho, hc⟩)]
          rfl

end Parser

section
variable {t : Token} {tokens : List Token} {i : Nat}

theorem open_of_rise_pos (h : 0 < t.rise) : t.kind = .openParen := by
  unfold Token.rise at h
  split at h
  · assumption
  · split at h <;> omega

theorem balance_take_succ (h : tokens[i]? = some t) :
    balance (tokens.take (i + 1)) = balance (tokens.take i) + t.rise := by
  rw [List.take_add_one, h, balance_append, Option.toList_some, balance_cons, balance_nil,
    Int.add_zero]

theorem balance_take_drop {a k : Nat} (h : a ≤ k) :
    balance (tokens.take k) = balance (tokens.take a) + balance ((tokens.take k).drop a) := by
  rw [← balance_append]
  conv_lhs => rw [← List.take_append_drop a (tokens.take k), List.take_take, Nat.min_eq_left h]

theorem Balanced.balance_take_nonneg (h : Balanced tokens) (k : Nat) :
    0 ≤ balance (tokens.take k) := by
  have hstays := h.stays
  rw [← List.take_append_drop k tokens, stays_append, Int.zero_add] at hstays
  exact hstays.2.zero_le

theorem Balanced.exists_last_closed (h : Balanced tokens) (hpos : 0 < balance (tokens.take i)) :
    ∃ a < i, balance (tokens.take a) = 0 ∧ ∀ k, a < k → k ≤ i → 0 < balance (tokens.take k) := by
  let closed (k : Nat) : Prop := balance (tokens.take k) = 0
  have ha : closed (Nat.findGreatest closed i) := Nat.findGreatest_spec (Nat.zero_le i) rfl
  refine ⟨Nat.findGreatest closed i, ?_, ha, fun k hk hki => ?_⟩
  · refine Nat.lt_of_le_of_ne (Nat.findGreatest_le i) fun heq => ?_
    rw [heq] at ha
    exact absurd ha (Int.ne_of_gt hpos)
  · have hne : ¬ closed k := Nat.findGreatest_is_greatest hk hki
    exact Int.lt_iff_le_and_ne.2 ⟨h.balance_take_nonneg k, Ne.symm hne⟩

theorem Balanced.exists_next_closed (h : Balanced tokens) (hi : i < tokens.length) :
    ∃ b, i ≤ b ∧ b < tokens.length ∧ balance (tokens.take (b + 1)) = 0 ∧
      ∀ k, i ≤ k → k < b → 0 < balance (tokens.take (k + 1)) := by
  have hlast : i ≤ tokens.length - 1 ∧ balance (tokens.take (tokens.length - 1 + 1)) = 0 := by
    refine ⟨by omega, ?_⟩
    rw [Nat.sub_add_cancel (by omega), List.take_length]
    exact h.total
  have hsome : ∃ k, i ≤ k ∧ balance (tokens.take (k + 1)) = 0 := ⟨_, hlast⟩
  obtain ⟨hib, hb⟩ := Nat.find_spec hsome
  refine ⟨Nat.find hsome, hib, ?_, hb, fun k hk hkb => ?_⟩
  · have hmin := Nat.find_min' hsome hlast
    omega
  · have hne := Nat.find_min hsome hkb
    exact Int.lt_iff_le_and_ne.2 ⟨h.balance_take_nonneg (k + 1), fun heq => hne ⟨hk, heq.symm⟩⟩

/-- The outermost parentheses around a word: from the last place before it at which nothing is open
to the first such place behind it. -/
theorem enclosed_of_balance_pos (h : Balanced tokens) (ht : tokens[i]? = some t)
    (hword : ¬ t.IsParen) (hpos : 0 < balance (tokens.take i)) : Enclosed tokens i := by
  obtain ⟨hi, -⟩ := List.getElem?_eq_some_iff.1 ht
  obtain ⟨a, hai, ha, hbefore⟩ := h.exists_last_closed hpos
  obtain ⟨b, hib, hlength, hb, hafter⟩ := h.exists_next_closed hi
  have hlt : i < b := by
    refine Nat.lt_of_le_of_ne hib fun heq => ?_
    rw [← heq, balance_take_succ ht, rise_word hword] at hb
    omega
  have hpiece (k : Nat) (hk : a < k) :
      balance ((tokens.take k).drop a) = balance (tokens.take k) := by
    rw [balance_take_drop (Nat.le_of_lt hk), ha, Int.zero_add]
  refine ⟨a, b, ⟨?_, by omega, hlength, fun k hak hkb => ?_, ?_⟩, hai, hlt⟩
  · have hget := List.getElem?_eq_getElem (show a < tokens.length by omega)
    have hrise := hbefore (a + 1) (Nat.lt_succ_self a) hai
    rw [balance_take_succ hget, ha, Int.zero_add] at hrise
    exact ⟨_, hget, open_of_rise_pos hrise⟩
  · rw [hpiece k hak]
    rcases Nat.lt_or_ge i k with hik | hki
    · have hlater := hafter (k - 1) (by omega) (by omega)
      rwa [Nat.sub_add_cancel (by omega)] at hlater
    · exact hbefore k hak hki
  · rw [hpiece (b + 1) (by omega)]
    exact hb

theorem depthAfter_le {depth : Nat} {base : Int} (hle : (depth : Int) ≤ base)
    (hstays : 0 ≤ base + t.rise) : (t.depthAfter depth : Int) ≤ base + t.rise := by
  by_cases ho : t.kind = .openParen
  · have hdepth : t.depthAfter depth = depth + 1 := by simp [Token.depthAfter, ho]
    rw [hdepth, rise_open ho]
    omega
  by_cases hc : t.kind = .closeParen
  · have hdepth : t.depthAfter depth = depth - 1 := by simp [Token.depthAfter, hc]
    rw [rise_close hc] at hstays ⊢
    rw [hdepth]
    omega
  · rw [depthAfter_word (not_or.2 ⟨ho, hc⟩), rise_word (not_or.2 ⟨ho, hc⟩)]
    omega

theorem balance_pos_cons {rest : List Token} {flags : List Bool} {depth : Nat} {base : Int}
    (hle : (depth : Int) ≤ base) (hheard : (t.isHeardAt depth :: flags)[i]? = some true)
    (ih : ∀ j, flags[j]? = some true → 0 < base + t.rise + balance (rest.take j)) :
    0 < base + balance ((t :: rest).take i) := by
  cases i with
  | zero =>
    have hdepth : 0 < depth ∧ ¬ t.IsParen := by simpa [Token.isHeardAt] using hheard
    rw [List.take_zero, balance_nil]
    omega
  | succ j =>
    rw [List.take_succ_cons, balance_cons, ← Int.add_assoc]
    exact ih j hheard

theorem balance_pos_of_hearing {depth : Nat} {base : Int} (hle : (depth : Int) ≤ base)
    (hstays : Stays base tokens) (hheard : (hearing depth tokens)[i]? = some true) :
    0 < base + balance (tokens.take i) := by
  fun_induction hearing depth tokens generalizing base i with
  | case1 depth l e l' name rest hhead ih =>
    obtain ⟨hl, he, hl'⟩ := hhead
    have hword : ¬ e.IsParen := by simp [Token.IsParen, he]
    obtain ⟨-, -, -, -, hrest⟩ := hstays
    rw [rise_open hl, rise_word hword, rise_open hl'] at hrest
    -- The four tokens of the head are not heard themselves.
    obtain ⟨j, rfl⟩ : ∃ j, i = j + 4 := by
      rcases i with _ | _ | _ | _ | j
      iterate 4 cases hheard
      exact ⟨j, rfl⟩
    have hdepth : ((if name.kind = .closeParen then depth else depth + 2 : Nat) : Int) ≤
        base + 1 + 0 + 1 + name.rise := by
      by_cases hname : name.kind = .closeParen
      · rw [if_pos hname, rise_close hname]
        omega
      · have hnonneg : 0 ≤ name.rise := by
          unfold Token.rise
          split <;> simp
        rw [if_neg hname]
        omega
    have hpos := ih hdepth hrest hheard
    simp only [List.take_succ_cons, balance_cons, rise_open hl, rise_word hword, rise_open hl']
    omega
  | case2 depth l e l' name rest hhead ih =>
    refine balance_pos_cons hle hheard fun j hj => ?_
    exact ih (depthAfter_le hle hstays.2.zero_le) hstays.2 hj
  | case3 depth t rest hshort ih =>
    refine balance_pos_cons hle hheard fun j hj => ?_
    exact ih (depthAfter_le hle hstays.2.zero_le) hstays.2 hj
  | case4 => cases hheard

theorem Balanced.enclosed_of_heard (h : Balanced tokens) (ht : tokens[i]? = some t)
    (hword : ¬ t.IsParen) (hheard : Heard tokens i) : Enclosed tokens i := by
  have hpos := balance_pos_of_hearing (Int.le_refl 0) h.stays hheard
  rw [Int.zero_add] at hpos
  exact enclosed_of_balance_pos h ht hword hpos

end

theorem told_eq_sortedUnique (source : List UInt8) {kind : TokenKind} {told : List String}
    (h : (kind, told) ∈ [(.variable, (Node.ofBytes source).definitions.variableNames),
      (.space, (Node.ofBytes source).definitions.spaces)]) :
    (kind = .variable ∨ kind = .space) ∧ told = Text.sortedUnique
      (heardTexts kind 0 (tokenize (String.ofList (Text.Utf8.decodeLenient source)))) := by
  have hroot : (Node.ofBytes source).kind = .program := by simp [Node.ofBytes, Node.ofTokens]
  obtain ⟨-, -, -, -, hvariables, hspaces⟩ := Node.definitions_program hroot
  have hchildren : (Node.ofBytes source).children =
      Parser.topLevels (tokenize (String.ofList (Text.Utf8.decodeLenient source))) := by
    simp [Node.ofBytes, Node.ofTokens]
  rw [hchildren] at hvariables hspaces
  rcases List.mem_pair.1 h with heq | heq
  · obtain ⟨rfl, rfl⟩ := Prod.mk.inj heq
    exact ⟨.inl rfl, by rw [hvariables, ← Parser.valuesOf_topLevels (.inl rfl)]; rfl⟩
  · obtain ⟨rfl, rfl⟩ := Prod.mk.inj heq
    exact ⟨.inr rfl, by rw [hspaces, ← Parser.valuesOf_topLevels (.inr rfl)]; rfl⟩

/-- The variables and the spaces of a report are those that are heard, once each and in order. In a
balanced program all of them are enclosed in parentheses; they are all that are enclosed just if
each of them that is not heard in one place is heard in another. -/
theorem words_told_iff (source : List UInt8) (kind : TokenKind) (told : List String)
    (h : (kind, told) ∈ [(.variable, (Node.ofBytes source).definitions.variableNames),
      (.space, (Node.ofBytes source).definitions.spaces)]) :
    let tokens := tokenize (String.ofList (Text.Utf8.decodeLenient source))
    told.Pairwise (· < ·) ∧
      (∀ text, text ∈ told ↔ ∃ i, Says tokens i kind text ∧ Heard tokens i) ∧
      (Balanced tokens →
        (∀ i text, Says tokens i kind text → Heard tokens i → Enclosed tokens i) ∧
        ((∀ text, text ∈ told ↔ ∃ i, Says tokens i kind text ∧ Enclosed tokens i) ↔
          ∀ i text, Says tokens i kind text → Enclosed tokens i → ¬ Heard tokens i →
            ∃ j, Says tokens j kind text ∧ Heard tokens j)) := by
  intro tokens
  obtain ⟨hkind, htold⟩ := told_eq_sortedUnique source h
  have hmem (text : String) : text ∈ told ↔ ∃ i, Says tokens i kind text ∧ Heard tokens i := by
    rw [htold, Text.mem_sortedUnique, mem_heardTexts]
  refine ⟨htold ▸ Text.sortedUnique_pairwise _, hmem, fun hbalanced => ?_⟩
  have henclosed (i : Nat) (text : String) (hsaid : Says tokens i kind text)
      (hheard : Heard tokens i) : Enclosed tokens i := by
    obtain ⟨t, ht, rfl, -⟩ := hsaid
    have hword : ¬ t.IsParen := by rcases hkind with hk | hk <;> simp [Token.IsParen, hk]
    exact hbalanced.enclosed_of_heard ht hword hheard
  refine ⟨henclosed, fun hall i text hsaid hinside _ => ?_, fun hlost text => ?_⟩
  · exact (hmem text).1 ((hall text).2 ⟨i, hsaid, hinside⟩)
  · rw [hmem]
    constructor
    · rintro ⟨i, hsaid, hheard⟩
      exact ⟨i, hsaid, henclosed i text hsaid hheard⟩
    · rintro ⟨i, hsaid, hinside⟩
      by_cases hheard : Heard tokens i
      · exact ⟨i, hsaid, hheard⟩
      · exact hlost i text hsaid hinside hheard

def halfHeard : List UInt8 := Text.Utf8.encode "(= ($f &kb) $f)\n(= () $x)"

def halfHeardTokens : List Token :=
  tokenize (String.ofList (Text.Utf8.decodeLenient halfHeard))

theorem halfHeard_not_told :
    Balanced halfHeardTokens ∧
      ¬ (∀ text, text ∈ (Node.ofBytes halfHeard).definitions.variableNames ↔
        ∃ i, Says halfHeardTokens i .variable text ∧ Enclosed halfHeardTokens i) ∧
      ∀ text, text ∈ (Node.ofBytes halfHeard).definitions.spaces ↔
        ∃ i, Says halfHeardTokens i .space text ∧ Enclosed halfHeardTokens i := by
  have hbalanced : Balanced halfHeardTokens := by decide +kernel
  refine ⟨hbalanced, fun hall => ?_, ?_⟩
  · have hlost := (((words_told_iff halfHeard .variable _ (by simp)).2.2 hbalanced).2.1 hall)
    have hget : halfHeardTokens[12]? = some ⟨.variable, "$x", 2, 6⟩ := by decide +kernel
    have hinside : Enclosed halfHeardTokens 12 :=
      enclosed_of_balance_pos hbalanced hget (by decide) (by decide +kernel)
    have hunheard : ¬ Heard halfHeardTokens 12 := by
      unfold Heard
      decide +kernel
    have hheard := mem_heardTexts.2 (hlost 12 "$x" ⟨_, hget, rfl, rfl⟩ hinside hunheard)
    revert hheard
    decide +kernel
  · refine (((words_told_iff halfHeard .space _ (by simp)).2.2 hbalanced).2.2 ?_)
    rintro i text ⟨t, ht, hkind, -⟩ - hunheard
    change halfHeardTokens[i]? = some t at ht
    change ¬ (hearing 0 halfHeardTokens)[i]? = some true at hunheard
    have hall : (List.range halfHeardTokens.length).all (fun i =>
        halfHeardTokens[i]?.map Token.kind != some .space ||
          (hearing 0 halfHeardTokens)[i]? == some true) = true := by decide +kernel
    obtain ⟨hi, -⟩ := List.getElem?_eq_some_iff.1 ht
    have hheard := List.all_eq_true.1 hall i (List.mem_range.2 hi)
    rw [ht, Option.map_some, hkind] at hheard
    simp [hunheard] at hheard

end CodeAtlas.Metta
