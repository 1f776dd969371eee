import CodeAtlas.Proofs.Metta.Comments
import CodeAtlas.Proofs.Metta.Joining

/-! Comments in the tree of a program. Inside of a form a comment is read as an unknown word, here
called a remark. As long as no comment stands where a reader decides what it reads, the tree of the
program without comments is the tree without remarks. -/

namespace CodeAtlas.Metta

def Node.isRemark (node : Node) : Bool :=
  (node.kind = .comment || node.kind = .unknown && node.value.toList.head? = some ';') &&
    node.children.isEmpty

mutual

def Node.bare : Node → Node
  | ⟨kind, value, line, lastLine, _, _, children⟩ =>
    ⟨kind, value, line, lastLine, 0, 0, Node.bareAll children⟩

def Node.bareAll : List Node → List Node
  | [] => []
  | node :: nodes =>
    if node.isRemark then Node.bareAll nodes else node.bare :: Node.bareAll nodes

end

def Node.rowless (node : Node) : Node := node.mapPlaces id fun _ => 0

def hides (kind : TokenKind) (tokens : List Token) : Bool :=
  tokens.head?.any (·.kind = .comment) && (uncommented tokens).head?.any (·.kind = kind)

def namedByComment (tokens : List Token) : Bool :=
  tokens.head?.any (·.kind = .openParen) && tokens.tail.head?.any (·.kind = .comment)

/-- What is looked for behind a token is not hidden by a comment: an equals sign or the end behind a
parenthesis, a form behind a mark, a signature behind an equals sign, and its name. -/
def headClear (t : Token) (rest : List Token) : Bool :=
  match t.kind with
  | .openParen => !hides .equals rest && !hides .closeParen rest
  | .execute => !hides .openParen rest
  | .equals => !hides .openParen rest && !namedByComment rest
  | _ => true

def headsClear : List Token → Bool
  | [] => true
  | t :: rest => headClear t rest && headsClear rest

namespace Node

theorem bareAll_eq (nodes : List Node) :
    bareAll nodes = (nodes.filter fun node => !node.isRemark).map bare := by
  induction nodes with
  | nil => rfl
  | cons node nodes ih =>
    rw [bareAll, ih]
    cases h : node.isRemark <;> simp [h]

theorem bare_eq (node : Node) : node.bare =
    ⟨node.kind, node.value, node.line, node.lastLine, 0, 0, bareAll node.children⟩ := by
  cases node
  rw [bare]

theorem rowless_eq (node : Node) : node.rowless =
    ⟨node.kind, node.value, node.line, node.lastLine, 0, 0, node.children.map rowless⟩ :=
  mapPlaces_eq _ _ node

theorem bare_eq_rowless {node node' : Node} (hkind : node.kind = node'.kind)
    (hvalue : node.value = node'.value) (hline : node.line = node'.line)
    (hlastLine : node.lastLine = node'.lastLine)
    (hchildren : bareAll node.children = node'.children.map rowless) :
    node.bare = node'.rowless := by
  rw [bare_eq, rowless_eq, hkind, hvalue, hline, hlastLine, hchildren]

theorem lastLine_of_bare_eq {node node' : Node} (h : node.bare = node'.rowless) :
    node.lastLine = node'.lastLine := by
  have hlines := congrArg lastLine h
  rwa [bare_eq, rowless_eq] at hlines

section
variable {children children' : List Node} (h : bareAll children = children'.map rowless)
  (kind : NodeKind) (value : String) (line : Int) (r : Token)
include h

theorem bare_closed : (((leaf kind value line).addChildren children).closedAt (some r)).bare =
    (((leaf kind value line).addChildren children').closedAt (some r)).rowless := by
  apply bare_eq_rowless <;> simp [h]

theorem bare_signature :
    (((leaf kind value line).addChildren children).signatureClosedAt (some r)).bare =
      (((leaf kind value line).addChildren children').signatureClosedAt (some r)).rowless := by
  apply bare_eq_rowless
  · simp
  · simp
  · simp [signatureClosedAt]
  · rfl
  · simp [h]

end

theorem bare_run {body body' : Node} (h : body.bare = body'.rowless) (hbody : ¬ body.isRemark)
    (line : Int) :
    ((make .execution "!" line (some body.lastLine)).addChild body).bare =
      ((make .execution "!" line (some body'.lastLine)).addChild body').rowless := by
  have hlastLine := lastLine_of_bare_eq h
  apply bare_eq_rowless
  · simp
  · simp
  · simp
  · rw [lastLine_addChild, lastLine_addChild, hlastLine]
  · simp [bareAll, hbody, h]

end Node

theorem uncommented_comment {t : Token} (h : t.kind = .comment) (rest : List Token) :
    uncommented (t :: rest) = uncommented rest := List.filter_cons_of_neg (by simp [h])

theorem uncommented_cons {t : Token} (h : t.kind ≠ .comment) (rest : List Token) :
    uncommented (t :: rest) = t :: uncommented rest := List.filter_cons_of_pos (by simp [h])

theorem uncommented_append (a b : List Token) :
    uncommented (a ++ b) = uncommented a ++ uncommented b := List.filter_append _ _

theorem head?_of_hides {kind : TokenKind} {tokens : List Token} (h : hides kind tokens = false)
    {u : Token} (hu : (uncommented tokens).head? = some u) (hkind : u.kind = kind) :
    tokens.head? = some u := by
  match tokens with
  | [] => cases hu
  | t :: rest =>
    by_cases hc : t.kind = .comment
    · simp [hides, hc, hu, hkind] at h
    · rw [uncommented_cons hc] at hu
      exact hu

structure Clear (tokens : List Token) : Prop where
  heads : headsClear tokens = true
  told : ∀ t ∈ tokens, t.text.toList.head? = some ';' ↔ t.kind = .comment

theorem Clear.tail {t : Token} {rest : List Token} (h : Clear (t :: rest)) : Clear rest := by
  have hheads := h.heads
  rw [headsClear, Bool.and_eq_true] at hheads
  exact ⟨hheads.2, (List.forall_mem_cons.1 h.told).2⟩

theorem Clear.head {t : Token} {rest : List Token} (h : Clear (t :: rest)) :
    headClear t rest = true := by
  have hheads := h.heads
  rw [headsClear, Bool.and_eq_true] at hheads
  exact hheads.1

theorem Clear.name_ne_comment {t o name : Token} {rest : List Token}
    (h : Clear (t :: o :: name :: rest)) (he : t.kind = .equals) (ho : o.kind = .openParen) :
    name.kind ≠ .comment := by
  have hhead := h.head
  simp only [headClear, he, Bool.and_eq_true, Bool.not_eq_true'] at hhead
  simpa [namedByComment, ho] using hhead.2

theorem Clear.suffix {tokens later : List Token} (h : Clear tokens) (hlater : later <:+ tokens) :
    Clear later := by
  obtain ⟨before, rfl⟩ := hlater
  induction before with
  | nil => exact h
  | cons t before ih => exact ih h.tail

namespace Parser

variable {t : Token} {rest tokens : List Token}

theorem isRemark_atom (h : t.text.toList.head? = some ';' ↔ t.kind = .comment) :
    (atom t).isRemark = true ↔ t.kind = .comment := by
  by_cases hc : t.kind = .comment
  · simp [Node.isRemark, hc, atomKind, h.2 hc]
  · have htext : ¬ t.text.toList.head? = some ';' := fun htext => hc (h.1 htext)
    have hkind : atomKind t.kind ≠ .comment := by cases t.kind <;> simp [atomKind]
    simp [Node.isRemark, hc, hkind, htext]

theorem not_isRemark_form (line : Int) (tokens : List Token) :
    ¬ (form line tokens).value.isRemark := by
  obtain h | h | h := kind_form line tokens <;> simp [Node.isRemark, h]

theorem rest_items_suffix (tokens : List Token) : (items tokens).rest <:+ tokens := by
  obtain ⟨taken, htaken, -⟩ := taken_all.1 tokens
  exact ⟨taken, htaken.symm⟩

def ItemsBare (tokens : List Token) : Prop :=
  Clear tokens → (items tokens).rest ≠ [] →
    Node.bareAll (items tokens).value = (items (uncommented tokens)).value.map Node.rowless ∧
      (items (uncommented tokens)).rest = uncommented (items tokens).rest

def FormBare (tokens : List Token) : Prop :=
  ∀ (l : Token) (line : Int), l.kind = .openParen → Clear (l :: tokens) →
    (form line tokens).rest ≠ [] →
    (form line tokens).value.bare = (form line (uncommented tokens)).value.rowless ∧
      (form line (uncommented tokens)).rest = uncommented (form line tokens).rest

theorem uncommented_close {r : Token} (hr : r.kind = .closeParen) (rest : List Token) :
    uncommented (r :: rest) = r :: uncommented rest := uncommented_cons (by simp [hr]) rest

theorem itemsBare_stop (h : AtEnd tokens) : ItemsBare tokens := by
  intro _ hrest
  rw [(items_atEnd h).2] at hrest
  match tokens, h, hrest with
  | r :: rest, h, _ =>
    have hr := atEnd_cons.1 h
    have hend : AtEnd (r :: uncommented rest) := atEnd_cons.2 hr
    rw [uncommented_close hr, (items_atEnd h).1, (items_atEnd h).2, (items_atEnd hend).1,
      (items_atEnd hend).2, uncommented_close hr]
    exact ⟨rfl, rfl⟩

theorem itemsBare_atom (ht : ¬ t.IsParen) (ih : ItemsBare rest) : ItemsBare (t :: rest) := by
  intro hclear hrest
  rw [(items_atom ht).2] at hrest
  obtain ⟨hvalue, hleft⟩ := ih hclear.tail hrest
  have hremark := isRemark_atom (hclear.told t List.mem_cons_self)
  rw [(items_atom ht).1, (items_atom ht).2]
  by_cases hc : t.kind = .comment
  · rw [uncommented_comment hc, Node.bareAll, if_pos (hremark.2 hc)]
    exact ⟨hvalue, hleft⟩
  · rw [uncommented_cons hc, (items_atom ht).1, (items_atom ht).2, Node.bareAll,
      if_neg fun h => hc (hremark.1 h), hvalue, List.map_cons]
    refine ⟨congrArg (· :: _) ?_, hleft⟩
    exact Node.bare_eq_rowless rfl rfl rfl rfl rfl

theorem itemsBare_open (ht : t.kind = .openParen) (hform : FormBare rest)
    (ih : ItemsBare (form t.line rest).rest) : ItemsBare (t :: rest) := by
  intro hclear hrest
  rw [(items_open ht).2] at hrest
  have hmiddle : (form t.line rest).rest ≠ [] := by
    intro hnil
    rw [hnil, (items_atEnd atEnd_nil).2] at hrest
    exact hrest rfl
  obtain ⟨hfirst, hafter⟩ := hform t t.line ht hclear hmiddle
  obtain ⟨hvalue, hleft⟩ := ih (hclear.tail.suffix (rest_form_suffix t.line rest)) hrest
  rw [uncommented_cons (by simp [ht]), (items_open ht).1, (items_open ht).2, (items_open ht).1,
    (items_open ht).2, hafter, Node.bareAll, if_neg (not_isRemark_form t.line rest), hfirst,
    hvalue, List.map_cons]
  exact ⟨rfl, hleft⟩

theorem formBare_empty (h : AtEnd tokens) : FormBare tokens := by
  intro l line _ _ hrest
  match tokens, h with
  | [], _ => exact absurd form_nil.2 hrest
  | r :: rest, h =>
    have hr := atEnd_cons.1 h
    rw [uncommented_close hr, (form_close hr).1, (form_close hr).2, (form_close hr).1,
      (form_close hr).2]
    exact ⟨Node.bare_eq_rowless rfl rfl rfl rfl rfl, rfl⟩

theorem items_closed (h : (items tokens).rest.tail ≠ []) :
    ∃ r left, (items tokens).rest = r :: left ∧ r.kind = .closeParen := by
  have hend := atEnd_items tokens
  match hrest : (items tokens).rest, h with
  | r :: left, _ =>
    rw [hrest] at hend
    exact ⟨r, left, rfl, atEnd_cons.1 hend⟩

theorem formBare_call (hc : t.kind ≠ .closeParen) (he : t.kind ≠ .equals)
    (ih : ItemsBare (t :: rest)) : FormBare (t :: rest) := by
  intro l line hl hclear hrest
  rw [(form_call hc he).2] at hrest
  obtain ⟨r, left, hleft, hr⟩ := items_closed hrest
  obtain ⟨hvalue, hafter⟩ := ih hclear.tail (by simp [hleft])
  rw [hleft, uncommented_close hr] at hafter
  have hhead := hclear.head
  simp only [headClear, hl, Bool.and_eq_true, Bool.not_eq_true'] at hhead
  match hbare : uncommented (t :: rest) with
  | [] =>
    rw [hbare, (items_atEnd atEnd_nil).2] at hafter
    cases hafter
  | u :: bare =>
    have hfront : (uncommented (t :: rest)).head? = some u := by rw [hbare]; rfl
    have hc' : u.kind ≠ .closeParen := by
      intro hu
      obtain rfl : t = u := Option.some.inj (head?_of_hides hhead.2 hfront hu)
      exact hc hu
    have he' : u.kind ≠ .equals := by
      intro hu
      obtain rfl : t = u := Option.some.inj (head?_of_hides hhead.1 hfront hu)
      exact he hu
    rw [hbare] at hvalue hafter
    rw [(form_call hc he).1, (form_call hc he).2, (form_call hc' he').1, (form_call hc' he').2,
      hleft, hafter]
    exact ⟨Node.bare_closed hvalue _ _ _ _, rfl⟩

theorem formBare_plain (he : t.kind = .equals) (h : ∀ u ∈ rest.head?, u.kind ≠ .openParen)
    (ih : ItemsBare rest) : FormBare (t :: rest) := by
  intro l line _ hclear hrest
  rw [(form_plain he h).2] at hrest
  obtain ⟨r, left, hleft, hr⟩ := items_closed hrest
  obtain ⟨hvalue, hafter⟩ := ih hclear.tail.tail (by simp [hleft])
  rw [hleft, uncommented_close hr] at hafter
  have hhead := hclear.tail.head
  simp only [headClear, he, Bool.and_eq_true, Bool.not_eq_true'] at hhead
  have h' : ∀ u ∈ (uncommented rest).head?, u.kind ≠ .openParen := by
    intro u hu hopen
    exact h u (head?_of_hides hhead.1 hu hopen) hopen
  rw [uncommented_cons (by simp [he]), (form_plain he h).1, (form_plain he h).2,
    (form_plain he h').1, (form_plain he h').2, hleft, hafter]
  exact ⟨Node.bare_closed hvalue _ _ _ _, rfl⟩

theorem formBare_nameless {o : Token} (he : t.kind = .equals) (ho : o.kind = .openParen)
    (h : AtEnd rest) : FormBare (t :: o :: rest) := by
  intro l line _ _ hrest
  rw [(form_nameless he ho h).2] at hrest
  match rest, h, hrest with
  | r :: rest, h, _ =>
    have hr := atEnd_cons.1 h
    have h' : AtEnd (r :: uncommented rest) := atEnd_cons.2 hr
    rw [uncommented_cons (by simp [he]), uncommented_cons (by simp [ho]), uncommented_close hr,
      (form_nameless he ho h).1, (form_nameless he ho h).2, (form_nameless he ho h').1,
      (form_nameless he ho h').2]
    exact ⟨Node.bare_eq_rowless rfl rfl rfl rfl rfl, rfl⟩

theorem formBare_named {o name : Token} (he : t.kind = .equals) (ho : o.kind = .openParen)
    (hn : name.kind ≠ .closeParen) (hparameters : ItemsBare rest)
    (hbody : ItemsBare (items rest).rest.tail) : FormBare (t :: o :: name :: rest) := by
  intro l line _ hclear hrest
  rw [(form_named he ho hn).2] at hrest
  have hname := hclear.tail.name_ne_comment he ho
  obtain ⟨r, left, hleft, hr⟩ := items_closed hrest
  have hinner : (items rest).rest.tail ≠ [] := by
    intro hnil
    rw [hnil, (items_atEnd atEnd_nil).2] at hleft
    cases hleft
  obtain ⟨r', middle, hmiddle, hr'⟩ := items_closed hinner
  have hclear' : Clear (items rest).rest.tail :=
    hclear.tail.tail.tail.tail.suffix ((List.tail_suffix _).trans (rest_items_suffix rest))
  obtain ⟨hvalue, hafter⟩ := hparameters hclear.tail.tail.tail.tail (by simp [hmiddle])
  obtain ⟨hvalue', hafter'⟩ := hbody hclear' (by simp [hleft])
  have hsignature := Node.bare_signature hvalue .signature name.text name.line r'
  rw [hmiddle, List.tail_cons] at hleft hvalue' hafter'
  rw [hmiddle, uncommented_close hr'] at hafter
  rw [hleft, uncommented_close hr] at hafter'
  rw [uncommented_cons (by simp [he]), uncommented_cons (by simp [ho]), uncommented_cons hname,
    (form_named he ho hn).1, (form_named he ho hn).2, (form_named he ho hn).1,
    (form_named he ho hn).2, hmiddle, hafter, List.tail_cons, List.tail_cons, hleft, hafter']
  refine ⟨Node.bare_closed ?_ _ _ _ _, rfl⟩
  rw [Node.bareAll, if_neg (by simp [Node.isRemark]), hvalue', List.map_cons]
  exact congrArg (· :: _) hsignature

theorem bare_all : (∀ tokens, ItemsBare tokens) ∧ ∀ tokens, FormBare tokens :=
  Parser.induction (fun _ => itemsBare_stop) (fun _ _ => itemsBare_atom)
    (fun _ _ => itemsBare_open) (fun _ => formBare_empty) (fun _ _ => formBare_call)
    (fun _ _ => formBare_plain) (fun _ _ _ => formBare_nameless)
    (fun _ _ _ _ => formBare_named)

end Parser

def filler : Token := ⟨.atom, "x", 0, 0⟩

theorem hides_filler {kind : TokenKind} (h : kind ≠ .atom) (tokens : List Token) :
    hides kind (tokens ++ [filler]) = hides kind tokens := by
  have hkind : filler.kind ≠ kind := fun heq => h heq.symm
  have hfiller : uncommented [filler] = [filler] := rfl
  cases tokens with
  | nil => rfl
  | cons t rest =>
    rw [hides, hides, uncommented_append, hfiller]
    cases uncommented (t :: rest) <;> simp [hkind]

theorem namedByComment_filler (tokens : List Token) :
    namedByComment (tokens ++ [filler]) = namedByComment tokens := by
  match tokens with
  | [] => rfl
  | [o] => simp [namedByComment, filler]
  | o :: c :: rest => rfl

theorem headsClear_filler (tokens : List Token) :
    headsClear (tokens ++ [filler]) = headsClear tokens := by
  induction tokens with
  | nil => rfl
  | cons t rest ih =>
    have hhead : headClear t (rest ++ [filler]) = headClear t rest := by
      unfold headClear
      rw [hides_filler (by simp), hides_filler (by simp), hides_filler (by simp),
        namedByComment_filler]
    rw [List.cons_append, headsClear, headsClear, hhead, ih]

theorem Clear.filler {tokens : List Token} (h : Clear tokens) : Clear (tokens ++ [filler]) := by
  refine ⟨(headsClear_filler tokens).trans h.heads, fun t ht => ?_⟩
  rcases List.mem_append.1 ht with hmem | hlast
  · exact h.told t hmem
  · obtain rfl := List.mem_singleton.1 hlast
    decide

theorem balance_uncommented (tokens : List Token) :
    balance (uncommented tokens) = balance tokens := by
  induction tokens with
  | nil => rfl
  | cons t rest ih =>
    by_cases hc : t.kind = .comment
    · rw [uncommented_comment hc, ih, balance_cons, rise_word (by simp [Token.IsParen, hc]),
        Int.zero_add]
    · rw [uncommented_cons hc, balance_cons, balance_cons, ih]

theorem ClosesAll.uncommented {tokens : List Token} (h : ClosesAll tokens) :
    ClosesAll (uncommented tokens) := by
  induction tokens with
  | nil => exact h
  | cons t rest ih =>
    have hrest := ih (Parser.closesAll_suffix h (List.suffix_cons t rest))
    have hall := h _ (List.suffix_refl _)
    rw [← balance_uncommented] at hall
    by_cases hc : t.kind = .comment
    · rw [uncommented_comment hc]
      exact hrest
    · rw [uncommented_cons hc] at hall ⊢
      intro later hlater
      rcases List.suffix_cons_iff.1 hlater with rfl | hlater
      · exact hall
      · exact hrest later hlater

namespace Parser

variable {t : Token} {rest tokens : List Token}

theorem form_uncommented (ht : t.kind = .openParen) (hclear : Clear (t :: rest))
    (hcloses : ClosesAll (t :: rest)) (line : Int) :
    (form line rest).value.bare = (form line (uncommented rest)).value.rowless ∧
      (form line (uncommented rest)).rest = uncommented (form line rest).rest := by
  -- The readers need that something is left, and a form that is closed does not see the filler.
  have hfiller : uncommented [filler] = [filler] := rfl
  have hcloses' : ClosesAll (t :: uncommented rest) := by
    have hbare := hcloses.uncommented
    rwa [uncommented_cons (by simp [ht])] at hbare
  have hform := @form_append t rest [filler] ht hcloses line
  have hform' := @form_append t (uncommented rest) [filler] ht hcloses' line
  obtain ⟨hvalue, hrest⟩ := bare_all.2 (rest ++ [filler]) t line ht hclear.filler
    (by rw [hform.2]; simp)
  rw [uncommented_append, hfiller, hform.1, hform'.1] at hvalue
  rw [uncommented_append, hfiller, hform.2, hform'.2, uncommented_append, hfiller] at hrest
  exact ⟨hvalue, List.append_cancel_right hrest⟩

theorem execution_uncommented (ht : t.kind = .execute) (hclear : Clear (t :: rest))
    (hcloses : ClosesAll rest) :
    (execution t rest).value.bare = (execution t (uncommented rest)).value.rowless ∧
      (execution t (uncommented rest)).rest = uncommented (execution t rest).rest := by
  have hhead := hclear.head
  simp only [headClear, ht, Bool.not_eq_true'] at hhead
  rcases open_or_not rest with hopen | ⟨u, later, rfl, hu⟩
  · have hopen' : ∀ u ∈ (uncommented rest).head?, u.kind ≠ .openParen := by
      intro u hu hkind
      exact hopen u (head?_of_hides hhead hu hkind) hkind
    rw [(execution_alone hopen).1, (execution_alone hopen).2, (execution_alone hopen').1,
      (execution_alone hopen').2]
    exact ⟨Node.bare_eq_rowless rfl rfl rfl rfl rfl, rfl⟩
  · obtain ⟨hvalue, hafter⟩ := form_uncommented hu hclear.tail hcloses u.line
    rw [uncommented_cons (by simp [hu]), (execution_open hu).1, (execution_open hu).2,
      (execution_open hu).1, (execution_open hu).2]
    exact ⟨Node.bare_run hvalue (not_isRemark_form u.line later) t.line, hafter⟩

theorem not_isRemark_execution (mark : Token) (tokens : List Token) :
    ¬ (execution mark tokens).value.isRemark := by
  rcases open_or_not tokens with hopen | ⟨u, later, rfl, hu⟩
  · rw [(execution_alone hopen).1]
    simp [Node.isRemark]
  · rw [(execution_open hu).1]
    simp [Node.isRemark]

theorem topLevels_uncommented (hclear : Clear tokens) (hcloses : ClosesAll tokens) :
    Node.bareAll (topLevels tokens) = (topLevels (uncommented tokens)).map Node.rowless := by
  induction tokens using topLevels_induction with
  | nil => simp [topLevels, Node.bareAll, uncommented]
  | step t rest ih =>
    have hsuffix := rest_topLevel_suffix t rest
    have hlater := ih (hclear.tail.suffix hsuffix)
      (closesAll_suffix hcloses (hsuffix.trans (List.suffix_cons t rest)))
    rw [topLevels_cons]
    by_cases ho : t.kind = .openParen
    · obtain ⟨hvalue, hafter⟩ := form_uncommented ho hclear hcloses t.line
      rw [(topLevel_open ho).2, ← hafter] at hlater
      rw [uncommented_cons (by simp [ho]), topLevels_cons, (topLevel_open ho).1,
        (topLevel_open ho).2, (topLevel_open ho).1, (topLevel_open ho).2]
      simp [Node.bareAll, not_isRemark_form, hvalue, hlater]
    by_cases he : t.kind = .execute
    · have hrest := closesAll_suffix hcloses (List.suffix_cons t rest)
      obtain ⟨hvalue, hafter⟩ := execution_uncommented he hclear hrest
      rw [(topLevel_execute he).2, ← hafter] at hlater
      rw [uncommented_cons (by simp [he]), topLevels_cons, (topLevel_execute he).1,
        (topLevel_execute he).2, (topLevel_execute he).1, (topLevel_execute he).2]
      simp [Node.bareAll, not_isRemark_execution, hvalue, hlater]
    by_cases hc : t.kind = .comment
    · rw [(topLevel_comment hc).2] at hlater
      rw [uncommented_comment hc, (topLevel_comment hc).1, (topLevel_comment hc).2, ← hlater]
      simp [Node.bareAll, comment, Node.isRemark]
    · rw [(topLevel_other hc he ho).2] at hlater
      rw [uncommented_cons hc, topLevels_cons, (topLevel_other hc he ho).1,
        (topLevel_other hc he ho).2, (topLevel_other hc he ho).1, (topLevel_other hc he ho).2]
      exact hlater

end Parser

end CodeAtlas.Metta
