import CodeAtlas.Metta.Parser
import CodeAtlas.Proofs.Metta.Nodes

/-! The readers case by case. Each case says what is read and which tokens are left, so that nothing
below has to open the readers themselves; `Parser.induction` is the induction along their calls. -/

namespace CodeAtlas.Metta

def Token.IsParen (t : Token) : Prop := t.kind = .openParen ∨ t.kind = .closeParen

instance (t : Token) : Decidable t.IsParen := inferInstanceAs (Decidable (_ ∨ _))

def TokenOf (kind : TokenKind) := { t : Token // t.kind = kind }

def Word := { t : Token // ¬ t.IsParen }

namespace Parser

variable {t : Token} {rest tokens : List Token} {line : Int}

def AtEnd (tokens : List Token) : Prop := ∀ t ∈ tokens.head?, t.kind = .closeParen

theorem atEnd_nil : AtEnd [] := by simp [AtEnd]

theorem atEnd_cons : AtEnd (t :: rest) ↔ t.kind = .closeParen := by simp [AtEnd]

theorem close_eq (node : Node) (h : AtEnd tokens) :
    (close node tokens).value = node.closedAt tokens.head? ∧
      (close node tokens).rest = tokens.tail := by
  cases tokens with
  | nil => exact ⟨rfl, rfl⟩
  | cons t rest => simp [close, atEnd_cons.1 h, Node.closedAt]

theorem closeSignature_eq (node : Node) (h : AtEnd tokens) :
    (closeSignature node tokens).value = node.signatureClosedAt tokens.head? ∧
      (closeSignature node tokens).rest = tokens.tail := by
  cases tokens with
  | nil => exact ⟨rfl, rfl⟩
  | cons t rest => simp [closeSignature, atEnd_cons.1 h, Node.signatureClosedAt]

theorem items_atEnd (h : AtEnd tokens) :
    (items tokens).value = [] ∧ (items tokens).rest = tokens := by
  rw [items.eq_def]
  cases tokens with
  | nil => exact ⟨rfl, rfl⟩
  | cons t rest => simp [atEnd_cons.1 h]

theorem items_open (h : t.kind = .openParen) :
    (items (t :: rest)).value =
        (form t.line rest).value :: (items (form t.line rest).rest).value ∧
      (items (t :: rest)).rest = (items (form t.line rest).rest).rest := by
  rw [items]
  simp [h]

theorem items_atom (h : ¬ t.IsParen) :
    (items (t :: rest)).value = atom t :: (items rest).value ∧
      (items (t :: rest)).rest = (items rest).rest := by
  rw [Token.IsParen, not_or] at h
  rw [items]
  split <;> simp_all

theorem atEnd_items (tokens : List Token) : AtEnd (items tokens).rest := by
  induction hn : tokens.length using Nat.strongRecOn generalizing tokens with
  | ind n ih =>
    cases tokens with
    | nil =>
      rw [(items_atEnd atEnd_nil).2]
      exact atEnd_nil
    | cons t rest =>
      rw [List.length_cons] at hn
      by_cases ho : t.kind = .openParen
      · have hle := (form t.line rest).rest_le
        rw [(items_open ho).2]
        exact ih _ (by omega) _ rfl
      · by_cases hc : t.kind = .closeParen
        · rw [(items_atEnd (atEnd_cons.2 hc)).2]
          exact atEnd_cons.2 hc
        · rw [(items_atom (not_or.2 ⟨ho, hc⟩)).2]
          exact ih _ (by omega) _ rfl

theorem call_eq : (call line tokens).value =
      (Node.leaf .expression "" line).addChildren (items tokens).value ∧
    (call line tokens).rest = (items tokens).rest := by
  rw [call]
  exact ⟨rfl, rfl⟩

theorem signature_name (h : t.kind ≠ .closeParen) :
    (signature (t :: rest)).value =
        some (((Node.leaf .signature t.text t.line).addChildren
          (items rest).value).signatureClosedAt (items rest).rest.head?) ∧
      (signature (t :: rest)).rest = (items rest).rest.tail := by
  have hs := closeSignature_eq ((Node.leaf .signature t.text t.line).addChildren (items rest).value)
    (atEnd_items rest)
  rw [signature]
  simp only [h, if_false]
  exact ⟨congrArg some hs.1, hs.2⟩

theorem signature_atEnd (h : AtEnd tokens) :
    (signature tokens).value = none ∧ (signature tokens).rest = tokens := by
  rw [signature.eq_def]
  cases tokens with
  | nil => exact ⟨rfl, rfl⟩
  | cons t rest => simp [atEnd_cons.1 h]

theorem definition_plain (h : ∀ t ∈ tokens.head?, t.kind ≠ .openParen) :
    (definition line tokens).value =
        (Node.leaf .definition "" line).addChildren (items tokens).value ∧
      (definition line tokens).rest = (items tokens).rest := by
  rw [definition.eq_def]
  cases tokens with
  | nil => exact ⟨rfl, rfl⟩
  | cons t rest =>
    have ht : t.kind ≠ .openParen := by simpa using h
    dsimp only
    rw [if_neg ht]
    exact ⟨rfl, rfl⟩

theorem definition_open (h : t.kind = .openParen) :
    (definition line (t :: rest)).value =
        (Node.leaf .definition "" line).addChildren
          ((signature rest).value.toList ++ (items (signature rest).rest).value) ∧
      (definition line (t :: rest)).rest = (items (signature rest).rest).rest := by
  rw [definition]
  dsimp only
  rw [if_pos h]
  exact ⟨rfl, rfl⟩

theorem form_nil : (form line []).value = .leaf .emptyExpression "" line ∧
    (form line []).rest = [] := by
  rw [form]
  exact ⟨rfl, rfl⟩

theorem form_close (h : t.kind = .closeParen) :
    (form line (t :: rest)).value = .leaf .emptyExpression "" line ∧
      (form line (t :: rest)).rest = rest := by
  rw [form]
  simp [h]

theorem form_call (hc : t.kind ≠ .closeParen) (he : t.kind ≠ .equals) :
    (form line (t :: rest)).value =
        ((Node.leaf .expression "" line).addChildren (items (t :: rest)).value).closedAt
          (items (t :: rest)).rest.head? ∧
      (form line (t :: rest)).rest = (items (t :: rest)).rest.tail := by
  have hend : AtEnd (call line (t :: rest)).rest := call_eq.2 ▸ atEnd_items (t :: rest)
  have hs := close_eq (call line (t :: rest)).value hend
  rw [← call_eq.1, ← call_eq.2]
  rw [form]
  split
  · contradiction
  · contradiction
  · exact hs

theorem atEnd_definition (line : Int) (tokens : List Token) :
    AtEnd (definition line tokens).rest := by
  cases tokens with
  | nil =>
    rw [(definition_plain (by simp)).2]
    exact atEnd_items []
  | cons t rest =>
    by_cases h : t.kind = .openParen
    · rw [(definition_open h).2]
      exact atEnd_items _
    · rw [(definition_plain (by simpa using h)).2]
      exact atEnd_items _

theorem form_equals (h : t.kind = .equals) :
    (form line (t :: rest)).value =
        (definition line rest).value.closedAt (definition line rest).rest.head? ∧
      (form line (t :: rest)).rest = (definition line rest).rest.tail := by
  have hs := close_eq (definition line rest).value (atEnd_definition line rest)
  rw [form]
  split
  · simp_all
  · exact hs
  · contradiction

theorem form_plain (he : t.kind = .equals) (h : ∀ u ∈ rest.head?, u.kind ≠ .openParen) :
    (form line (t :: rest)).value =
        ((Node.leaf .definition "" line).addChildren (items rest).value).closedAt
          (items rest).rest.head? ∧
      (form line (t :: rest)).rest = (items rest).rest.tail := by
  have hf := @form_equals t rest line he
  rwa [(definition_plain h).1, (definition_plain h).2] at hf

theorem form_nameless {o : Token} (he : t.kind = .equals) (ho : o.kind = .openParen)
    (h : AtEnd rest) :
    (form line (t :: o :: rest)).value = (Node.leaf .definition "" line).closedAt rest.head? ∧
      (form line (t :: o :: rest)).rest = rest.tail := by
  have hf := @form_equals t (o :: rest) line he
  rw [(definition_open ho).1, (definition_open ho).2, (signature_atEnd h).1,
    (signature_atEnd h).2, (items_atEnd h).1, (items_atEnd h).2] at hf
  exact hf

theorem form_named {o name : Token} (he : t.kind = .equals) (ho : o.kind = .openParen)
    (hn : name.kind ≠ .closeParen) :
    (form line (t :: o :: name :: rest)).value =
        ((Node.leaf .definition "" line).addChildren
          (((Node.leaf .signature name.text name.line).addChildren
              (items rest).value).signatureClosedAt (items rest).rest.head? ::
            (items (items rest).rest.tail).value)).closedAt
          (items (items rest).rest.tail).rest.head? ∧
      (form line (t :: o :: name :: rest)).rest = (items (items rest).rest.tail).rest.tail := by
  have hf := @form_equals t (o :: name :: rest) line he
  rw [(definition_open ho).1, (definition_open ho).2, (signature_name hn).1,
    (signature_name hn).2] at hf
  exact hf

theorem kind_definition (line : Int) (tokens : List Token) :
    (definition line tokens).value.kind = .definition := by
  by_cases h : ∀ t ∈ tokens.head?, t.kind ≠ .openParen
  · rw [(definition_plain h).1]
    simp
  · match tokens, h with
    | t :: rest, h =>
      have ht : t.kind = .openParen := by simpa using h
      rw [(definition_open ht).1]
      simp
    | [], h => simp at h

theorem kind_form (line : Int) (tokens : List Token) :
    (form line tokens).value.kind = .emptyExpression ∨
      (form line tokens).value.kind = .expression ∨
      (form line tokens).value.kind = .definition := by
  cases tokens with
  | nil => exact .inl (congrArg Node.kind form_nil.1)
  | cons t rest =>
    by_cases hc : t.kind = .closeParen
    · exact .inl (congrArg Node.kind (form_close hc).1)
    · by_cases he : t.kind = .equals
      · rw [(form_equals he).1, Node.kind_closedAt, kind_definition]
        simp
      · rw [(form_call hc he).1, Node.kind_closedAt, Node.kind_addChildren]
        simp

/-- What holds of all items and of all forms, given that it passes from what a reader calls to the
reader itself. A form is given by the tokens after its opening parenthesis. -/
theorem induction {P Q : List Token → Prop}
    (stop : ∀ tokens, AtEnd tokens → P tokens)
    (atom : ∀ t rest, ¬ t.IsParen → P rest → P (t :: rest))
    (opened : ∀ t rest, t.kind = .openParen → Q rest → P (form t.line rest).rest →
      P (t :: rest))
    (empty : ∀ tokens, AtEnd tokens → Q tokens)
    (call : ∀ t rest, t.kind ≠ .closeParen → t.kind ≠ .equals → P (t :: rest) → Q (t :: rest))
    (plain : ∀ t rest, t.kind = .equals → (∀ u ∈ rest.head?, u.kind ≠ .openParen) → P rest →
      Q (t :: rest))
    (nameless : ∀ t o rest, t.kind = .equals → o.kind = .openParen → AtEnd rest →
      Q (t :: o :: rest))
    (named : ∀ t o name rest, t.kind = .equals → o.kind = .openParen →
      name.kind ≠ .closeParen → P rest → P (items rest).rest.tail → Q (t :: o :: name :: rest)) :
    (∀ tokens, P tokens) ∧ ∀ tokens, Q tokens := by
  have key : ∀ n (tokens : List Token), tokens.length = n → P tokens ∧ Q tokens := by
    intro n
    induction n using Nat.strongRecOn with
    | ind n ih =>
      intro tokens hn
      have shorter (ts : List Token) (h : ts.length < n) : P ts ∧ Q ts := ih _ h ts rfl
      have hP : P tokens := by
        cases tokens with
        | nil => exact stop [] atEnd_nil
        | cons t rest =>
          rw [List.length_cons] at hn
          by_cases ho : t.kind = .openParen
          · have hle := (form t.line rest).rest_le
            exact opened t rest ho (shorter rest (by omega)).2 (shorter _ (by omega)).1
          · by_cases hc : t.kind = .closeParen
            · exact stop _ (atEnd_cons.2 hc)
            · exact atom t rest (not_or.2 ⟨ho, hc⟩) (shorter rest (by omega)).1
      -- A call reads all of its tokens as items, so forms come after items of the same length.
      refine ⟨hP, ?_⟩
      match tokens, hn, hP with
      | [], _, _ => exact empty [] atEnd_nil
      | t :: rest, hn, hP =>
        rw [List.length_cons] at hn
        by_cases hc : t.kind = .closeParen
        · exact empty _ (atEnd_cons.2 hc)
        by_cases he : t.kind = .equals
        · match rest, hn with
          | [], _ => exact plain t [] he (by simp) (stop [] atEnd_nil)
          | o :: rest, hn =>
            rw [List.length_cons] at hn
            by_cases ho : o.kind = .openParen
            · match rest, hn with
              | [], _ => exact nameless t o [] he ho atEnd_nil
              | name :: rest, hn =>
                rw [List.length_cons] at hn
                by_cases hname : name.kind = .closeParen
                · exact nameless t o _ he ho (atEnd_cons.2 hname)
                · have hle := (items rest).rest_le
                  have htail := (items rest).rest.length_tail
                  exact named t o name rest he ho hname (shorter rest (by omega)).1
                    (shorter _ (by omega)).1
            · refine plain t (o :: rest) he (by simpa using ho) (shorter _ ?_).1
              rw [List.length_cons]
              omega
        · exact call t rest hc he hP
  exact ⟨fun tokens => (key _ tokens rfl).1, fun tokens => (key _ tokens rfl).2⟩

def ReadsItems (taken : List Token) (nodes : List Node) : Prop :=
  ∀ rest, AtEnd rest → (items (taken ++ rest)).value = nodes ∧ (items (taken ++ rest)).rest = rest

def ReadsForm (line : Int) (taken : List Token) (node : Node) : Prop :=
  ∀ rest, (form line (taken ++ rest)).value = node ∧ (form line (taken ++ rest)).rest = rest

section
variable {taken later : List Token} {node : Node} {nodes nodes' : List Node} {r : Token}

theorem readsItems_nil : ReadsItems [] [] := fun _ hrest => items_atEnd hrest

theorem readsItems_atom (ht : ¬ t.IsParen) (h : ReadsItems taken nodes) :
    ReadsItems (t :: taken) (atom t :: nodes) := by
  intro rest hrest
  have hitems := @items_atom t (taken ++ rest) ht
  rw [(h rest hrest).1, (h rest hrest).2] at hitems
  exact hitems

theorem readsItems_form (ht : t.kind = .openParen) (hform : ReadsForm t.line taken node)
    (h : ReadsItems later nodes) : ReadsItems (t :: (taken ++ later)) (node :: nodes) := by
  intro rest hrest
  have hitems := @items_open t (taken ++ (later ++ rest)) ht
  rw [(hform (later ++ rest)).1, (hform (later ++ rest)).2, (h rest hrest).1,
    (h rest hrest).2] at hitems
  rw [List.cons_append, List.append_assoc]
  exact hitems

theorem readsForm_empty (hr : r.kind = .closeParen) :
    ReadsForm line [r] (.leaf .emptyExpression "" line) := fun _ => form_close hr

theorem readsForm_call (hc : t.kind ≠ .closeParen) (he : t.kind ≠ .equals)
    (h : ReadsItems (t :: taken) nodes) (hr : r.kind = .closeParen) :
    ReadsForm line (t :: taken ++ [r])
      (((Node.leaf .expression "" line).addChildren nodes).closedAt (some r)) := by
  intro rest
  have hitems := h (r :: rest) (atEnd_cons.2 hr)
  have hform := @form_call t (taken ++ r :: rest) line hc he
  rw [List.cons_append] at hitems
  rw [hitems.1, hitems.2] at hform
  rw [List.append_assoc]
  exact hform

theorem readsForm_plain (he : t.kind = .equals) (hopen : ∀ u ∈ taken.head?, u.kind ≠ .openParen)
    (h : ReadsItems taken nodes) (hr : r.kind = .closeParen) :
    ReadsForm line (t :: (taken ++ [r]))
      (((Node.leaf .definition "" line).addChildren nodes).closedAt (some r)) := by
  intro rest
  have hitems := h (r :: rest) (atEnd_cons.2 hr)
  have hhead : ∀ u ∈ (taken ++ r :: rest).head?, u.kind ≠ .openParen := by
    cases taken with
    | nil => simp [hr]
    | cons u taken => exact hopen
  have hform := @form_plain t (taken ++ r :: rest) line he hhead
  rw [hitems.1, hitems.2] at hform
  rw [List.cons_append, List.append_assoc]
  exact hform

theorem readsForm_nameless {o : Token} (he : t.kind = .equals) (ho : o.kind = .openParen)
    (hr : r.kind = .closeParen) :
    ReadsForm line [t, o, r] ((Node.leaf .definition "" line).closedAt (some r)) :=
  fun _ => form_nameless he ho (atEnd_cons.2 hr)

theorem readsForm_named {o name r' : Token} (he : t.kind = .equals) (ho : o.kind = .openParen)
    (hn : name.kind ≠ .closeParen) (hparameters : ReadsItems taken nodes)
    (hr' : r'.kind = .closeParen) (hbody : ReadsItems later nodes') (hr : r.kind = .closeParen) :
    ReadsForm line (t :: o :: name :: (taken ++ r' :: (later ++ [r])))
      (((Node.leaf .definition "" line).addChildren
        (((Node.leaf .signature name.text name.line).addChildren nodes).signatureClosedAt
          (some r') :: nodes')).closedAt (some r)) := by
  intro rest
  have hlast := hbody (r :: rest) (atEnd_cons.2 hr)
  have hfirst := hparameters (r' :: (later ++ r :: rest)) (atEnd_cons.2 hr')
  have hform := @form_named t (taken ++ r' :: (later ++ r :: rest)) line o name he ho hn
  rw [hfirst.1, hfirst.2, List.tail_cons, hlast.1, hlast.2] at hform
  have happend : t :: o :: name :: (taken ++ r' :: (later ++ [r])) ++ rest =
      t :: o :: name :: (taken ++ r' :: (later ++ r :: rest)) := by simp
  rw [happend]
  exact hform

end

theorem topLevels_cons : topLevels (t :: rest) =
    (topLevel t rest).value.toList ++ topLevels (topLevel t rest).rest := by
  rw [topLevels]

theorem topLevel_comment (h : t.kind = .comment) :
    (topLevel t rest).value = some (comment t) ∧ (topLevel t rest).rest = rest := by
  simp [topLevel, h]

theorem topLevel_open (h : t.kind = .openParen) :
    (topLevel t rest).value = some (form t.line rest).value ∧
      (topLevel t rest).rest = (form t.line rest).rest := by
  simp [topLevel, h]

theorem topLevel_execute (h : t.kind = .execute) :
    (topLevel t rest).value = some (execution t rest).value ∧
      (topLevel t rest).rest = (execution t rest).rest := by
  simp [topLevel, h]

theorem topLevel_other (hc : t.kind ≠ .comment) (he : t.kind ≠ .execute)
    (ho : t.kind ≠ .openParen) :
    (topLevel t rest).value = none ∧ (topLevel t rest).rest = rest := by
  rw [topLevel]
  split <;> simp_all

theorem execution_open {mark : Token} (h : t.kind = .openParen) :
    (execution mark (t :: rest)).value =
        (Node.make .execution "!" mark.line (some (form t.line rest).value.lastLine)).addChild
          (form t.line rest).value ∧
      (execution mark (t :: rest)).rest = (form t.line rest).rest := by
  simp [execution, h]

theorem execution_alone {mark : Token} (h : ∀ t ∈ tokens.head?, t.kind ≠ .openParen) :
    (execution mark tokens).value = .leaf .execution "!" mark.line ∧
      (execution mark tokens).rest = tokens := by
  cases tokens with
  | nil => exact ⟨rfl, rfl⟩
  | cons t rest =>
    have ht : t.kind ≠ .openParen := by simpa using h
    simp [execution, ht]

end Parser

end CodeAtlas.Metta
