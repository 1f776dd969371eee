import CodeAtlas.Proofs.Metta.Lines
import CodeAtlas.Proofs.Metta.Parentheses

/-! What becomes of the tokens of a form. A scan from left to right that remembers nothing but what
the last token opened says which tokens are made into nodes, and of which kind: the token behind `(=
(` names a signature, parentheses and the equals sign of a definition are made into nothing, and
every other token is an atom. The nodes of a form that are made from tokens are those of the scan,
in order, whether the form is well-formed or not. -/

namespace CodeAtlas.Metta

inductive Spot
  | item
  | opening
  | equals
  | signature
  deriving DecidableEq, Repr

def Spot.next : Spot → TokenKind → Spot
  | .opening, .equals => .equals
  | .equals, .openParen => .signature
  | .signature, _ => .item
  | _, .openParen => .opening
  | _, _ => .item

def Spot.role? : Spot → TokenKind → Option NodeKind
  | _, .closeParen => none
  | .signature, _ => some .signature
  | _, .openParen => none
  | .opening, .equals => none
  | _, kind => some (Parser.atomKind kind)

structure Mark where
  kind : NodeKind
  value : String
  line : Int
  deriving DecidableEq, Repr

def Token.mark (t : Token) (kind : NodeKind) : Mark := ⟨kind, t.text, t.line⟩

def Node.mark (node : Node) : Mark := ⟨node.kind, node.value, node.line⟩

def marks (spot : Spot) : List Token → List Mark
  | [] => []
  | t :: rest => ((spot.role? t.kind).map t.mark).toList ++ marks (spot.next t.kind) rest

def Node.isMade (node : Node) : Bool :=
  !(node.kind ∈ [.definition, .expression, .emptyExpression] && node.value = "")

def Node.marks (node : Node) : List Mark := (node.nodes.filter Node.isMade).map Node.mark

theorem Node.marks_eq (node : Node) :
    node.marks = (if node.isMade then [node.mark] else []) ++ node.children.flatMap Node.marks := by
  have hbelow : ((node.children.flatMap Node.nodes).filter Node.isMade).map Node.mark =
      node.children.flatMap Node.marks := by
    rw [List.filter_flatMap, List.map_flatMap]
    rfl
  rw [Node.marks, Node.nodes_eq, List.filter_cons, ← hbelow]
  split <;> rfl

section
variable {t : Token} {rest tokens : List Token} {spot : Spot}

theorem marks_append (spot : Spot) (tokens rest : List Token) :
    marks spot (tokens ++ rest) =
      marks spot tokens ++ marks ((tokens.map Token.kind).foldl Spot.next spot) rest := by
  induction tokens generalizing spot with
  | nil => rfl
  | cons t tokens ih => simp [marks, ih]

theorem next_close (h : t.kind = .closeParen) : spot.next t.kind = .item := by
  rw [h]
  cases spot <;> rfl

theorem marks_close (h : t.kind = .closeParen) : marks spot (t :: rest) = marks .item rest := by
  have hrole : spot.role? t.kind = none := by
    rw [h]
    cases spot <;> rfl
  rw [marks, hrole, next_close h]
  rfl

theorem marks_atEnd (h : Parser.AtEnd tokens) : marks spot tokens = marks .item tokens.tail := by
  cases tokens with
  | nil => rfl
  | cons t rest => exact marks_close (Parser.atEnd_cons.1 h)

theorem marks_open (h : t.kind = .openParen) :
    marks .item (t :: rest) = marks .opening rest := by
  rw [marks, h]
  rfl

theorem marks_atom (h : ¬ t.IsParen) :
    marks .item (t :: rest) = (Parser.atom t).mark :: marks .item rest := by
  rw [Token.IsParen, not_or] at h
  have hrole : Spot.role? .item t.kind = some (Parser.atomKind t.kind) := by
    unfold Spot.role?
    split <;> simp_all
  have hnext : Spot.next .item t.kind = .item := by
    unfold Spot.next
    split <;> simp_all
  rw [marks, hrole, hnext]
  rfl

theorem marks_opening (h : t.kind ≠ .equals) :
    marks .opening (t :: rest) = marks .item (t :: rest) := by
  have hrole : Spot.role? .opening t.kind = Spot.role? .item t.kind := by
    cases hkind : t.kind <;> first | rfl | exact absurd hkind h
  have hnext : Spot.next .opening t.kind = Spot.next .item t.kind := by
    cases hkind : t.kind <;> first | rfl | exact absurd hkind h
  rw [marks, marks, hrole, hnext]

theorem marks_equals (h : t.kind = .equals) :
    marks .opening (t :: rest) = marks .equals rest := by
  rw [marks, h]
  rfl

theorem marks_body (h : ∀ u ∈ tokens.head?, u.kind ≠ .openParen) :
    marks .equals tokens = marks .item tokens := by
  cases tokens with
  | nil => rfl
  | cons t rest =>
    have ht : t.kind ≠ .openParen := by simpa using h
    have hrole : Spot.role? .equals t.kind = Spot.role? .item t.kind := by
      cases hkind : t.kind <;> rfl
    have hnext : Spot.next .equals t.kind = Spot.next .item t.kind := by
      cases hkind : t.kind <;> first | rfl | exact absurd hkind ht
    rw [marks, marks, hrole, hnext]

theorem marks_head {o : Token} (he : t.kind = .equals) (ho : o.kind = .openParen) :
    marks .opening (t :: o :: rest) = marks .signature rest := by
  rw [marks_equals he, marks, ho]
  rfl

theorem marks_name (h : t.kind ≠ .closeParen) :
    marks .signature (t :: rest) = t.mark .signature :: marks .item rest := by
  have hrole : Spot.role? .signature t.kind = some .signature := by
    cases hkind : t.kind <;> first | rfl | exact absurd hkind h
  have hnext : Spot.next .signature t.kind = .item := by
    cases hkind : t.kind <;> rfl
  rw [marks, hrole, hnext]
  rfl

end

namespace Parser

variable {t : Token} {rest tokens : List Token}

def ItemsMarked (tokens : List Token) : Prop :=
  marks .item tokens =
    (items tokens).value.flatMap Node.marks ++ marks .item (items tokens).rest

def FormMarked (tokens : List Token) : Prop :=
  ∀ line, marks .opening tokens =
    (form line tokens).value.marks ++ marks .item (form line tokens).rest

theorem itemsMarked_stop (h : AtEnd tokens) : ItemsMarked tokens := by
  rw [ItemsMarked, (items_atEnd h).1, (items_atEnd h).2]
  rfl

theorem itemsMarked_atom (ht : ¬ t.IsParen) (ih : ItemsMarked rest) : ItemsMarked (t :: rest) := by
  have hatom : (atom t).marks = [(atom t).mark] := by
    have hmade : (atom t).isMade := by
      cases hkind : t.kind <;> simp [Node.isMade, atom, atomKind, hkind]
    rw [Node.marks_eq, if_pos hmade]
    rfl
  rw [ItemsMarked, (items_atom ht).1, (items_atom ht).2, marks_atom ht, ih, List.flatMap_cons,
    hatom, List.append_assoc]
  rfl

theorem itemsMarked_open (ht : t.kind = .openParen) (hform : FormMarked rest)
    (ih : ItemsMarked (form t.line rest).rest) : ItemsMarked (t :: rest) := by
  rw [ItemsMarked, (items_open ht).1, (items_open ht).2, marks_open ht, hform t.line, ih,
    List.flatMap_cons, List.append_assoc]

theorem marks_form {node : Node} {children : List Node} {left : List Token}
    (hkind : node.kind ∈ [.definition, .expression, .emptyExpression]) (hvalue : node.value = "")
    (hchildren : node.children = []) (hend : AtEnd left) (closing : Option Token) :
    ((node.addChildren children).closedAt closing).marks ++ marks .item left.tail =
      children.flatMap Node.marks ++ marks .item left := by
  have hmade : ((node.addChildren children).closedAt closing).isMade = false := by
    simp [Node.isMade, hvalue, hkind]
  rw [Node.marks_eq, hmade, marks_atEnd hend]
  simp [hchildren]

theorem formMarked_empty (h : AtEnd tokens) : FormMarked tokens := by
  intro line
  have hform : (form line tokens).value = .leaf .emptyExpression "" line ∧
      (form line tokens).rest = tokens.tail := by
    cases tokens with
    | nil => exact form_nil
    | cons r rest => exact form_close (atEnd_cons.1 h)
  have hleaf : (Node.leaf .emptyExpression "" line).marks = [] := by
    rw [Node.marks_eq, if_neg (by simp [Node.isMade])]
    rfl
  rw [hform.1, hform.2, hleaf, marks_atEnd h]
  rfl

theorem formMarked_call (hc : t.kind ≠ .closeParen) (he : t.kind ≠ .equals)
    (ih : ItemsMarked (t :: rest)) : FormMarked (t :: rest) := by
  intro line
  rw [(form_call hc he).1, (form_call hc he).2,
    marks_form (by simp) (by simp) (by simp) (atEnd_items _), marks_opening he]
  exact ih

theorem formMarked_plain (he : t.kind = .equals) (h : ∀ u ∈ rest.head?, u.kind ≠ .openParen)
    (ih : ItemsMarked rest) : FormMarked (t :: rest) := by
  intro line
  rw [(form_plain he h).1, (form_plain he h).2,
    marks_form (by simp) (by simp) (by simp) (atEnd_items _), marks_equals he, marks_body h]
  exact ih

theorem formMarked_nameless {o : Token} (he : t.kind = .equals) (ho : o.kind = .openParen)
    (h : AtEnd rest) : FormMarked (t :: o :: rest) := by
  intro line
  have hclosed := @marks_form (.leaf .definition "" line) [] rest (by simp) rfl rfl h rest.head?
  rw [(form_nameless he ho h).1, (form_nameless he ho h).2, marks_head he ho, marks_atEnd h]
  rw [marks_atEnd h] at hclosed
  exact hclosed.symm

theorem formMarked_named {o name : Token} (he : t.kind = .equals) (ho : o.kind = .openParen)
    (hn : name.kind ≠ .closeParen) (hparameters : ItemsMarked rest)
    (hbody : ItemsMarked (items rest).rest.tail) : FormMarked (t :: o :: name :: rest) := by
  intro line
  have hsignature : (((Node.leaf .signature name.text name.line).addChildren
      (items rest).value).signatureClosedAt (items rest).rest.head?).marks =
        name.mark .signature :: (items rest).value.flatMap Node.marks := by
    have hmade : (((Node.leaf .signature name.text name.line).addChildren
        (items rest).value).signatureClosedAt (items rest).rest.head?).isMade := by
      simp [Node.isMade]
    rw [Node.marks_eq, if_pos hmade]
    simp [Node.mark, Token.mark]
  rw [(form_named he ho hn).1, (form_named he ho hn).2,
    marks_form (by simp) (by simp) (by simp) (atEnd_items _), List.flatMap_cons, hsignature,
    marks_head he ho, marks_name hn, List.append_assoc, ← hbody, List.cons_append,
    ← marks_atEnd (atEnd_items rest), ← hparameters]

theorem marked_all : (∀ tokens, ItemsMarked tokens) ∧ ∀ tokens, FormMarked tokens :=
  Parser.induction (fun _ => itemsMarked_stop) (fun _ _ => itemsMarked_atom)
    (fun _ _ => itemsMarked_open) (fun _ => formMarked_empty) (fun _ _ => formMarked_call)
    (fun _ _ => formMarked_plain) (fun _ _ _ => formMarked_nameless)
    (fun _ _ _ _ => formMarked_named)

end Parser

/-- How the tokens are written that a scan may leave out, and that no others are written so. -/
structure Token.IsSpelled (t : Token) : Prop where
  openParen : t.kind = .openParen → t.text = "("
  closeParen : t.kind = .closeParen ↔ t.text = ")"
  equals : t.kind = .equals → t.text = "="
  ne_empty : t.text ≠ ""

namespace Lexer

theorem firstLexeme_closeParen (cs : List Char) :
    firstLexeme (')' :: cs) = (.token .closeParen, 1) := by
  simp [firstLexeme_eq, rules, found?, comment_cons, one]

theorem isSpelled_lexeme {cs : List Char} {kind : TokenKind} (line column : Nat) (hcs : cs ≠ [])
    (h : (firstLexeme cs).1 = .token kind) :
    (Token.mk kind (String.ofList (cs.take (firstLexeme cs).2)) line column).IsSpelled := by
  have hpos := (firstLexeme_bounds hcs).1
  have hhead : (cs.take (firstLexeme cs).2).head? = cs.head? := by
    rw [List.head?_take, if_neg (by omega)]
  refine ⟨?_, ⟨?_, fun htext => ?_⟩, ?_, fun htext => ?_⟩
  · rintro rfl
    rw [take_of_one '(' (by simp [rules]) (by simp) h]
  · rintro rfl
    rw [take_of_one ')' (by simp [rules]) (by simp) h]
  · have htake : cs.take (firstLexeme cs).2 = [')'] := by
      simpa using congrArg String.toList htext
    rw [htake, List.head?_cons] at hhead
    obtain ⟨rest, rfl⟩ := List.head?_eq_some_iff.1 hhead.symm
    rw [firstLexeme_closeParen] at h
    exact (Lexeme.token.inj h).symm
  · rintro rfl
    rw [take_of_one '=' (by simp [rules]) (by simp) h]
  · have htake : cs.take (firstLexeme cs).2 = [] := by
      simpa using congrArg String.toList htext
    rw [htake, List.head?_nil] at hhead
    exact hcs (List.head?_eq_none_iff.1 hhead.symm)

end Lexer

theorem isSpelled_of_mem {s : String} {t : Token} (h : t ∈ tokenize s) : t.IsSpelled := by
  have hpieces : ∀ piece ∈ Lexer.lexemes s.toList, ∀ kind, piece.1 = .token kind →
      (Token.mk kind (String.ofList piece.2) t.line t.column).IsSpelled :=
    Lexer.forall_lexemes (fun _ hcs _ => Lexer.isSpelled_lexeme _ _ hcs) _
  rw [tokenize, Lexer.tokensFrom_eq] at h
  obtain ⟨piece, hpiece, hlexeme, htext⟩ := Lexer.mem_tokensAt h
  have hspelled := hpieces piece hpiece t.kind hlexeme
  rwa [← htext] at hspelled

theorem values_marks {tokens : List Token} (h : ∀ t ∈ tokens, t.IsSpelled) (spot : Spot) :
    ((marks spot tokens).map Mark.value).filter (· ∉ ["", "(", "="]) =
      (tokens.map Token.text).filter (· ∉ ["(", ")", "="]) := by
  induction tokens generalizing spot with
  | nil => rfl
  | cons t rest ih =>
    obtain ⟨ht, hrest⟩ := List.forall_mem_cons.1 h
    have hfirst : (((spot.role? t.kind).map t.mark).toList.map Mark.value).filter
        (· ∉ ["", "(", "="]) = [t.text].filter (· ∉ ["(", ")", "="]) := by
      cases hrole : spot.role? t.kind with
      | none =>
        have hkind : t.kind = .closeParen ∨ t.kind = .openParen ∨ t.kind = .equals := by
          cases spot <;> cases hkind : t.kind <;> simp_all [Spot.role?]
        rcases hkind with hkind | hkind | hkind
        · simp [ht.closeParen.1 hkind]
        · simp [ht.openParen hkind]
        · simp [ht.equals hkind]
      | some kind =>
        have hclose : t.text ≠ ")" := by
          intro htext
          rw [ht.closeParen.2 htext] at hrole
          cases spot <;> cases hrole
        have hempty := ht.ne_empty
        simp [Token.mark, List.filter_cons, hclose, hempty]
    rw [marks, List.map_append, List.filter_append, hfirst, ih hrest, ← List.filter_append]
    rfl

theorem take_drop_append {tokens left : List Token} {i : Nat} (h : left <:+ tokens.drop i)
    (hi : i ≤ tokens.length) :
    (tokens.take (tokens.length - left.length)).drop i ++ left = tokens.drop i := by
  obtain ⟨taken, htaken⟩ := h
  have hlength := congrArg List.length htaken
  rw [List.length_append, List.length_drop] at hlength
  have htake : tokens.length - left.length - i = taken.length := by omega
  rw [List.drop_take, htake, ← htaken, List.take_left]

theorem marks_taken {tokens taken : List Token} {l : Token} {line : Int} (hl : l.kind = .openParen)
    (h : taken ++ (Parser.form line tokens).rest = l :: tokens) :
    (Parser.form line tokens).value.marks = marks .item taken := by
  have hform := Parser.marked_all.2 tokens line
  rw [← marks_open hl, ← h, marks_append] at hform
  obtain ⟨inside, r, hr, hinside, -⟩ | ⟨hout, -⟩ := Parser.taken_all.2 tokens l line hl
  · have hsplit : taken ++ (Parser.form line tokens).rest =
        l :: inside ++ [r] ++ (Parser.form line tokens).rest := by
      rw [h, List.append_assoc]
      exact congrArg (l :: ·) hinside
    -- Behind a closing parenthesis the scan starts anew.
    have hspot : (taken.map Token.kind).foldl Spot.next .item = .item := by
      rw [List.append_cancel_right hsplit, List.map_append, List.foldl_append]
      exact next_close hr
    rw [hspot] at hform
    exact (List.append_cancel_right hform).symm
  · rw [hout] at hform
    simpa [marks] using hform.symm

theorem values_of_marks (node : Node) :
    (node.nodes.map Node.value).filter (· ∉ ["", "(", "="]) =
      (node.marks.map Mark.value).filter (· ∉ ["", "(", "="]) := by
  rw [Node.marks, List.map_map]
  induction node.nodes with
  | nil => rfl
  | cons node nodes ih =>
    by_cases hmade : node.isMade
    · rw [List.filter_cons_of_pos hmade, List.map_cons, List.map_cons, List.filter_cons, ih,
        List.filter_cons]
      rfl
    · have hvalue : node.value = "" := by
        simp only [Node.isMade, Bool.not_eq_true', Bool.not_eq_false, Bool.and_eq_true,
          decide_eq_true_eq] at hmade
        exact hmade.2
      rw [List.filter_cons_of_neg hmade, List.map_cons, List.filter_cons_of_neg (by simp [hvalue]),
        ih]

/-- No token inside of a form is lost, repeated or put in another place, be the program well-formed
or not: the nodes of the form that are made from tokens are just those that the scan of its tokens
gives. -/
theorem form_keeps_tokens (s : String) (i : Nat) (l : Token) (hi : (tokenize s)[i]? = some l)
    (hl : l.kind = .openParen) :
    ∃ (node : Node) (c : Cursor),
      (Cursor.at (tokenize s) i).step .form = (.ok (.node node), c) ∧
      c.tokens = (tokenize s).drop c.position ∧
      let taken := ((tokenize s).take c.position).drop i
      (node.nodes.map Node.value).filter (· ∉ ["", "(", "="]) =
          (taken.map Token.text).filter (· ∉ ["(", ")", "="]) ∧
        (node.nodes.filter Node.isMade).map Node.mark = marks .item taken := by
  obtain ⟨hlt, hget⟩ := List.getElem?_eq_some_iff.1 hi
  have hdrop : (tokenize s).drop i = l :: (tokenize s).drop (i + 1) := by
    rw [List.drop_eq_getElem_cons hlt, hget]
  generalize htokens : (tokenize s).drop (i + 1) = tokens at hdrop
  have hsuffix : (Parser.form l.line tokens).rest <:+ (tokenize s).drop i :=
    hdrop ▸ (Parser.rest_form_suffix l.line tokens).trans (List.suffix_cons l tokens)
  have hsplit := take_drop_append hsuffix (Nat.le_of_lt hlt)
  have hmarks := marks_taken hl (hsplit.trans hdrop)
  refine ⟨(Parser.form l.line tokens).value, ⟨(tokenize s).length, _⟩, ?_, ?_, ?_, hmarks⟩
  · simp [Cursor.at, Cursor.step, Cursor.withFirst, hdrop]
  · exact List.suffix_iff_eq_drop.1 (hsuffix.trans (List.drop_suffix i _))
  · rw [values_of_marks, hmarks]
    refine values_marks (fun t ht => ?_) .item
    exact isSpelled_of_mem (List.mem_of_mem_take (List.mem_of_mem_drop ht))

def tornForm : String := "x (= ((f ; note\n) $x ] (= () &s"

theorem tornForm_keeps_tokens :
    (tokenize tornForm)[1]? = some ⟨.openParen, "(", 1, 2⟩ ∧
      ∃ (node : Node) (c : Cursor),
        (Cursor.at (tokenize tornForm) 1).step .form = (.ok (.node node), c) ∧
        c.tokens = (tokenize tornForm).drop c.position ∧
        let taken := ((tokenize tornForm).take c.position).drop 1
        (node.nodes.map Node.value).filter (· ∉ ["", "(", "="]) =
            (taken.map Token.text).filter (· ∉ ["(", ")", "="]) ∧
          (node.nodes.filter Node.isMade).map Node.mark = marks .item taken := by
  have hopen : (tokenize tornForm)[1]? = some ⟨.openParen, "(", 1, 2⟩ := by decide +kernel
  exact ⟨hopen, form_keeps_tokens tornForm 1 _ hopen rfl⟩

end CodeAtlas.Metta
