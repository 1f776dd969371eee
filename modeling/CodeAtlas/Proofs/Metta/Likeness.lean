import CodeAtlas.Proofs.Metta.Reading
import Mathlib.Data.List.Forall2

/-! Tokens that are alike are read as nodes that are alike. What counts as alike is left open: a
relation of tokens and a relation of nodes go together if every way of making nodes respects them,
and then the readers respect them too. -/

namespace CodeAtlas.Metta

open List (Forall₂)

structure Likeness (T : Token → Token → Prop) (N : Node → Node → Prop) : Prop where
  kind {t u : Token} : T t u → t.kind = u.kind
  text {t u : Token} : T t u → t.text = u.text
  leaf {t u : Token} (kind : NodeKind) (value : String) : T t u →
    N (.leaf kind value t.line) (.leaf kind value u.line)
  addChild {node node' child child' : Node} : N node node' → N child child' →
    N (node.addChild child) (node'.addChild child')
  closedAt {node node' : Node} {t u : Token} : N node node' → T t u →
    N (node.closedAt (some t)) (node'.closedAt (some u))
  signatureClosedAt {node node' : Node} {t u : Token} : N node node' → T t u →
    N (node.signatureClosedAt (some t)) (node'.signatureClosedAt (some u))
  run {body body' : Node} {t u : Token} : T t u → N body body' →
    N ((Node.make .execution "!" t.line (some body.lastLine)).addChild body)
      ((Node.make .execution "!" u.line (some body'.lastLine)).addChild body')

namespace Likeness

open CodeAtlas.Metta.Parser

variable {T : Token → Token → Prop} {N : Node → Node → Prop}

theorem isParen (h : Likeness T N) {t u : Token} (htu : T t u) : t.IsParen ↔ u.IsParen := by
  rw [Token.IsParen, Token.IsParen, h.kind htu]

theorem atEnd (h : Likeness T N) {tokens tokens' : List Token} (hall : Forall₂ T tokens tokens')
    (hend : AtEnd tokens) : AtEnd tokens' := by
  cases hall with
  | nil => exact atEnd_nil
  | cons htu _ => exact atEnd_cons.2 (h.kind htu ▸ atEnd_cons.1 hend)

theorem atom (h : Likeness T N) {t u : Token} (htu : T t u) :
    N (Parser.atom t) (Parser.atom u) := by
  have hleaf := h.leaf (atomKind t.kind) t.text htu
  rw [Parser.atom, Parser.atom, ← h.kind htu, ← h.text htu]
  exact hleaf

theorem addChildren (h : Likeness T N) {node node' : Node} {children children' : List Node}
    (hnode : N node node') (hall : Forall₂ N children children') :
    N (node.addChildren children) (node'.addChildren children') := by
  induction hall generalizing node node' with
  | nil => exact hnode
  | cons hchild _ ih => exact ih (h.addChild hnode hchild)

theorem closedAt_head? (h : Likeness T N) {node node' : Node} {tokens tokens' : List Token}
    (hnode : N node node') (hall : Forall₂ T tokens tokens') :
    N (node.closedAt tokens.head?) (node'.closedAt tokens'.head?) := by
  cases hall with
  | nil => exact hnode
  | cons htu _ => exact h.closedAt hnode htu

theorem signatureClosedAt_head? (h : Likeness T N) {node node' : Node}
    {tokens tokens' : List Token} (hnode : N node node') (hall : Forall₂ T tokens tokens') :
    N (node.signatureClosedAt tokens.head?) (node'.signatureClosedAt tokens'.head?) := by
  cases hall with
  | nil => exact hnode
  | cons htu _ => exact h.signatureClosedAt hnode htu

theorem tail {tokens tokens' : List Token} (hall : Forall₂ T tokens tokens') :
    Forall₂ T tokens.tail tokens'.tail := by
  cases hall with
  | nil => exact .nil
  | cons _ hrest => exact hrest

def Items (T : Token → Token → Prop) (N : Node → Node → Prop) (tokens : List Token) : Prop :=
  ∀ tokens', Forall₂ T tokens tokens' →
    Forall₂ N (items tokens).value (items tokens').value ∧
      Forall₂ T (items tokens).rest (items tokens').rest

def Forms (T : Token → Token → Prop) (N : Node → Node → Prop) (tokens : List Token) : Prop :=
  ∀ l l' tokens', T l l' → Forall₂ T tokens tokens' →
    N (form l.line tokens).value (form l'.line tokens').value ∧
      Forall₂ T (form l.line tokens).rest (form l'.line tokens').rest

theorem items_stop (h : Likeness T N) {tokens : List Token} (hend : AtEnd tokens) :
    Items T N tokens := by
  intro tokens' hall
  have hend' := h.atEnd hall hend
  rw [(items_atEnd hend).1, (items_atEnd hend).2, (items_atEnd hend').1, (items_atEnd hend').2]
  exact ⟨.nil, hall⟩

theorem items_word (h : Likeness T N) {t : Token} {rest : List Token} (ht : ¬ t.IsParen)
    (ih : Items T N rest) : Items T N (t :: rest) := by
  rintro _ (_ | ⟨htu, hrest⟩)
  have hu := (h.isParen htu).not.1 ht
  rw [(items_atom ht).1, (items_atom ht).2, (items_atom hu).1, (items_atom hu).2]
  exact ⟨.cons (h.atom htu) (ih _ hrest).1, (ih _ hrest).2⟩

theorem items_form (h : Likeness T N) {t : Token} {rest : List Token} (ht : t.kind = .openParen)
    (hform : Forms T N rest) (ih : Items T N (form t.line rest).rest) : Items T N (t :: rest) := by
  rintro _ (_ | ⟨htu, hrest⟩)
  have hu := h.kind htu ▸ ht
  obtain ⟨hfirst, hmiddle⟩ := hform _ _ _ htu hrest
  rw [(items_open ht).1, (items_open ht).2, (items_open hu).1, (items_open hu).2]
  exact ⟨.cons hfirst (ih _ hmiddle).1, (ih _ hmiddle).2⟩

theorem form_empty (h : Likeness T N) {tokens : List Token} (hend : AtEnd tokens) :
    Forms T N tokens := by
  intro l l' tokens' hl hall
  have hleaf := h.leaf .emptyExpression "" hl
  cases hall with
  | nil =>
    rw [form_nil.1, form_nil.2, form_nil.1, form_nil.2]
    exact ⟨hleaf, .nil⟩
  | cons htu hrest =>
    have ht := atEnd_cons.1 hend
    have hu := h.kind htu ▸ ht
    rw [(form_close ht).1, (form_close ht).2, (form_close hu).1, (form_close hu).2]
    exact ⟨hleaf, hrest⟩

theorem form_list (h : Likeness T N) {t : Token} {rest : List Token} (hc : t.kind ≠ .closeParen)
    (he : t.kind ≠ .equals) (ih : Items T N (t :: rest)) : Forms T N (t :: rest) := by
  intro l l' tokens' hl hall
  obtain ⟨hvalue, hleft⟩ := ih tokens' hall
  cases hall with
  | cons htu hrest =>
    rw [h.kind htu] at hc he
    have hc' := h.kind htu ▸ hc
    have he' := h.kind htu ▸ he
    rw [(form_call hc' he').1, (form_call hc' he').2, (form_call hc he).1, (form_call hc he).2]
    exact ⟨h.closedAt_head? (h.addChildren (h.leaf _ _ hl) hvalue) hleft, tail hleft⟩

theorem head_ne_open (h : Likeness T N) {tokens tokens' : List Token}
    (hall : Forall₂ T tokens tokens') (hne : ∀ t ∈ tokens.head?, t.kind ≠ .openParen) :
    ∀ u ∈ tokens'.head?, u.kind ≠ .openParen := by
  cases hall with
  | nil => simp
  | cons htu _ => simpa [← h.kind htu] using hne

theorem form_equation (h : Likeness T N) {t : Token} {rest : List Token} (he : t.kind = .equals)
    (hne : ∀ u ∈ rest.head?, u.kind ≠ .openParen) (ih : Items T N rest) :
    Forms T N (t :: rest) := by
  rintro l l' _ hl (_ | ⟨htu, hrest⟩)
  have he' := h.kind htu ▸ he
  have hne' := h.head_ne_open hrest hne
  obtain ⟨hvalue, hleft⟩ := ih _ hrest
  rw [(form_plain he hne).1, (form_plain he hne).2, (form_plain he' hne').1,
    (form_plain he' hne').2]
  exact ⟨h.closedAt_head? (h.addChildren (h.leaf _ _ hl) hvalue) hleft, tail hleft⟩

theorem form_headless (h : Likeness T N) {t o : Token} {rest : List Token} (he : t.kind = .equals)
    (ho : o.kind = .openParen) (hend : AtEnd rest) : Forms T N (t :: o :: rest) := by
  rintro l l' _ hl (_ | ⟨htu, _ | ⟨hov, hrest⟩⟩)
  have he' := h.kind htu ▸ he
  have ho' := h.kind hov ▸ ho
  have hend' := h.atEnd hrest hend
  rw [(form_nameless he ho hend).1, (form_nameless he ho hend).2, (form_nameless he' ho' hend').1,
    (form_nameless he' ho' hend').2]
  exact ⟨h.closedAt_head? (h.leaf _ _ hl) hrest, tail hrest⟩

theorem form_function (h : Likeness T N) {t o name : Token} {rest : List Token}
    (he : t.kind = .equals) (ho : o.kind = .openParen) (hn : name.kind ≠ .closeParen)
    (hparameters : Items T N rest) (hbody : Items T N (items rest).rest.tail) :
    Forms T N (t :: o :: name :: rest) := by
  rintro l l' _ hl (_ | ⟨htu, _ | ⟨hov, _ | ⟨hname, hrest⟩⟩⟩)
  have he' := h.kind htu ▸ he
  have ho' := h.kind hov ▸ ho
  have hn' := h.kind hname ▸ hn
  obtain ⟨hvalue, hleft⟩ := hparameters _ hrest
  obtain ⟨hvalue', hleft'⟩ := hbody _ (tail hleft)
  have hsignature := h.leaf .signature name.text hname
  have hdefinition := h.leaf .definition "" hl
  rw [(form_named he ho hn).1, (form_named he ho hn).2, (form_named he' ho' hn').1,
    (form_named he' ho' hn').2, ← h.text hname]
  refine ⟨h.closedAt_head? (h.addChildren hdefinition (.cons ?_ hvalue')) hleft', tail hleft'⟩
  exact h.signatureClosedAt_head? (h.addChildren hsignature hvalue) hleft

theorem read_all (h : Likeness T N) :
    (∀ tokens, Items T N tokens) ∧ ∀ tokens, Forms T N tokens :=
  Parser.induction (fun _ => h.items_stop) (fun _ _ => h.items_word) (fun _ _ => h.items_form)
    (fun _ => h.form_empty) (fun _ _ => h.form_list) (fun _ _ => h.form_equation)
    (fun _ _ _ => h.form_headless) (fun _ _ _ _ => h.form_function)

theorem execution (h : Likeness T N) {t u : Token} {tokens tokens' : List Token} (htu : T t u)
    (hall : Forall₂ T tokens tokens') :
    N (execution t tokens).value (execution u tokens').value ∧
      Forall₂ T (execution t tokens).rest (execution u tokens').rest := by
  by_cases hne : ∀ o ∈ tokens.head?, o.kind ≠ .openParen
  · have hne' := h.head_ne_open hall hne
    rw [(execution_alone hne).1, (execution_alone hne).2, (execution_alone hne').1,
      (execution_alone hne').2]
    exact ⟨h.leaf _ _ htu, hall⟩
  · cases hall with
    | nil => simp at hne
    | cons hov hrest =>
      have ho := Classical.not_not.1 (by simpa using hne)
      have ho' := h.kind hov ▸ ho
      obtain ⟨hbody, hleft⟩ := h.read_all.2 _ _ _ _ hov hrest
      rw [(execution_open ho).1, (execution_open ho).2, (execution_open ho').1,
        (execution_open ho').2]
      exact ⟨h.run htu hbody, hleft⟩

theorem topLevels (h : Likeness T N) {tokens tokens' : List Token}
    (hall : Forall₂ T tokens tokens') : Forall₂ N (topLevels tokens) (topLevels tokens') := by
  -- On the length, because a form takes many tokens at once.
  induction hn : tokens.length using Nat.strongRecOn generalizing tokens tokens' with
  | ind n ih =>
    cases hall with
    | nil =>
      rw [Parser.topLevels]
      exact .nil
    | @cons t u rest rest' htu hrest =>
      rw [List.length_cons] at hn
      have hle := (topLevel t rest).rest_le
      have hkind := h.kind htu
      have hstep (hleft : Forall₂ T (topLevel t rest).rest (topLevel u rest').rest) :=
        ih _ (by omega) hleft rfl
      rw [topLevels_cons, topLevels_cons]
      by_cases hc : t.kind = .comment
      · have hc' := hkind ▸ hc
        rw [(topLevel_comment hc).2, (topLevel_comment hc').2] at hstep
        rw [(topLevel_comment hc).1, (topLevel_comment hc').1, (topLevel_comment hc).2,
          (topLevel_comment hc').2, comment, comment, ← h.text htu]
        exact .cons (h.leaf _ _ htu) (hstep hrest)
      by_cases he : t.kind = .execute
      · have he' := hkind ▸ he
        obtain ⟨hnode, hleft⟩ := h.execution htu hrest
        rw [(topLevel_execute he).2, (topLevel_execute he').2] at hstep
        rw [(topLevel_execute he).1, (topLevel_execute he').1, (topLevel_execute he).2,
          (topLevel_execute he').2]
        exact .cons hnode (hstep hleft)
      by_cases ho : t.kind = .openParen
      · have ho' := hkind ▸ ho
        obtain ⟨hnode, hleft⟩ := h.read_all.2 _ _ _ _ htu hrest
        rw [(topLevel_open ho).2, (topLevel_open ho').2] at hstep
        rw [(topLevel_open ho).1, (topLevel_open ho').1, (topLevel_open ho).2,
          (topLevel_open ho').2]
        exact .cons hnode (hstep hleft)
      · have hskip := @topLevel_other t rest hc he ho
        rw [hkind] at hc he ho
        have hskip' := @topLevel_other u rest' hc he ho
        rw [hskip.2, hskip'.2] at hstep
        rw [hskip.1, hskip.2, hskip'.1, hskip'.2]
        exact hstep hrest

theorem ofTokens (h : Likeness T N) {tokens tokens' : List Token}
    (hroot : N (.leaf .program "" 1) (.leaf .program "" 1)) (hall : Forall₂ T tokens tokens') :
    N (.ofTokens tokens) (.ofTokens tokens') := h.addChildren hroot (h.topLevels hall)

end Likeness

end CodeAtlas.Metta
