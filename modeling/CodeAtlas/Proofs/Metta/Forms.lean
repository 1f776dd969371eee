import CodeAtlas.Proofs.Metta.Reading

/-! Programs by their grammar, apart from how they are read: forms nested in forms, each with the
tokens it is written with. A list does not start with an equals sign, and a definition without a
signature does not go on with a parenthesis; where this hangs on the first token of a sequence, the
sequence is indexed by the kind of that token. Reading the tokens of a program gives its tree. -/

namespace CodeAtlas.Metta

mutual

inductive Form
  | empty (l : TokenOf .openParen) (r : TokenOf .closeParen)
  | list {kind : TokenKind} (l : TokenOf .openParen) (elements : Elements (some kind))
      (r : TokenOf .closeParen) (not_equals : kind ≠ .equals)
  | equation {kind : Option TokenKind} (l : TokenOf .openParen) (e : TokenOf .equals)
      (body : Elements kind) (r : TokenOf .closeParen) (not_open : kind ≠ some .openParen)
  | function {kind kind' : Option TokenKind} (l : TokenOf .openParen) (e : TokenOf .equals)
      (l' : TokenOf .openParen) (name : Word) (parameters : Elements kind)
      (r' : TokenOf .closeParen) (body : Elements kind') (r : TokenOf .closeParen)

inductive Elements : Option TokenKind → Type
  | nil : Elements none
  | word {kind : Option TokenKind} (w : Word) (later : Elements kind) : Elements (some w.1.kind)
  | form {kind : Option TokenKind} (f : Form) (later : Elements kind) :
      Elements (some .openParen)

end

/-- Top-level items in a row, the first token of which is of the given kind. A mark that runs
nothing is followed by no form. -/
inductive Program : Option TokenKind → Type
  | nil : Program none
  | comment {kind : Option TokenKind} (t : TokenOf .comment) (later : Program kind) :
      Program (some .comment)
  | run {kind : Option TokenKind} (t : TokenOf .execute) (f : Form) (later : Program kind) :
      Program (some .execute)
  | mark {kind : Option TokenKind} (t : TokenOf .execute) (later : Program kind)
      (not_open : kind ≠ some .openParen) : Program (some .execute)
  | form {kind : Option TokenKind} (f : Form) (later : Program kind) : Program (some .openParen)
  | other {kind : Option TokenKind} (w : Word) (later : Program kind)
      (not_comment : w.1.kind ≠ .comment) (not_execute : w.1.kind ≠ .execute) :
      Program (some w.1.kind)

def Form.opening : Form → Token
  | .empty l _ => l.1
  | .list l _ _ _ => l.1
  | .equation l _ _ _ _ => l.1
  | .function l _ _ _ _ _ _ _ => l.1

theorem Form.opening_kind (f : Form) : f.opening.kind = .openParen := by
  cases f with
  | empty l => exact l.2
  | list l => exact l.2
  | equation l => exact l.2
  | function l => exact l.2

mutual

def Form.inner : Form → List Token
  | .empty _ r => [r.1]
  | .list _ elements r _ => elements.tokens ++ [r.1]
  | .equation _ e body r _ => e.1 :: (body.tokens ++ [r.1])
  | .function _ e l' name parameters r' body r =>
    e.1 :: l'.1 :: name.1 :: (parameters.tokens ++ r'.1 :: (body.tokens ++ [r.1]))

def Elements.tokens {kind : Option TokenKind} : Elements kind → List Token
  | .nil => []
  | .word w later => w.1 :: later.tokens
  | .form f later => f.opening :: (f.inner ++ later.tokens)

end

def Program.tokens {kind : Option TokenKind} : Program kind → List Token
  | .nil => []
  | .comment t later => t.1 :: later.tokens
  | .run t f later => t.1 :: f.opening :: (f.inner ++ later.tokens)
  | .mark t later _ => t.1 :: later.tokens
  | .form f later => f.opening :: (f.inner ++ later.tokens)
  | .other w later _ _ => w.1 :: later.tokens

def signatureNode (name : Word) (parameters : List Node) (r : TokenOf .closeParen) : Node :=
  ((Node.leaf .signature name.1.text name.1.line).addChildren parameters).signatureClosedAt r.1

mutual

def Form.node : Form → Node
  | .empty l _ => .leaf .emptyExpression "" l.1.line
  | .list l elements r _ =>
    ((Node.leaf .expression "" l.1.line).addChildren elements.nodes).closedAt r.1
  | .equation l _ body r _ =>
    ((Node.leaf .definition "" l.1.line).addChildren body.nodes).closedAt r.1
  | .function l _ _ name parameters r' body r =>
    ((Node.leaf .definition "" l.1.line).addChildren
      (signatureNode name parameters.nodes r' :: body.nodes)).closedAt r.1

def Elements.nodes {kind : Option TokenKind} : Elements kind → List Node
  | .nil => []
  | .word w later => Parser.atom w.1 :: later.nodes
  | .form f later => f.node :: later.nodes

end

def runNode (t : TokenOf .execute) (body : Node) : Node :=
  (Node.make .execution "!" t.1.line (some body.lastLine)).addChild body

def Program.nodes {kind : Option TokenKind} : Program kind → List Node
  | .nil => []
  | .comment t later => Parser.comment t.1 :: later.nodes
  | .run t f later => runNode t f.node :: later.nodes
  | .mark t later _ => .leaf .execution "!" t.1.line :: later.nodes
  | .form f later => f.node :: later.nodes
  | .other _ later _ _ => later.nodes

theorem Elements.head?_tokens {kind : Option TokenKind} (elements : Elements kind) :
    elements.tokens.head?.map Token.kind = kind := by
  cases elements with
  | nil => rfl
  | word w later => rfl
  | form f later => exact congrArg some f.opening_kind

theorem Program.head?_tokens {kind : Option TokenKind} (program : Program kind) :
    program.tokens.head?.map Token.kind = kind := by
  cases program with
  | nil => rfl
  | comment t later => exact congrArg some t.2
  | run t f later => exact congrArg some t.2
  | mark t later => exact congrArg some t.2
  | form f later => exact congrArg some f.opening_kind
  | other w later => rfl

theorem Elements.kind_ne_close {kind : Option TokenKind} (elements : Elements kind) :
    kind ≠ some .closeParen := by
  cases elements with
  | nil => simp
  | word w later => exact fun h => w.2 (.inr (Option.some.inj h))
  | form f later => simp

theorem Elements.tokens_eq_cons {kind : TokenKind} (elements : Elements (some kind)) :
    ∃ t tokens, elements.tokens = t :: tokens ∧ t.kind = kind := by
  have h := elements.head?_tokens
  cases htokens : elements.tokens with
  | nil => simp [htokens] at h
  | cons t tokens => exact ⟨t, tokens, rfl, by simpa [htokens] using h⟩

theorem head_not_open {tokens : List Token} {kind : Option TokenKind}
    (h : tokens.head?.map Token.kind = kind) (hk : kind ≠ some .openParen) :
    ∀ u ∈ tokens.head?, u.kind ≠ .openParen := by
  intro u hu ho
  rw [Option.mem_def.1 hu, Option.map_some, ho] at h
  exact hk h.symm

open CodeAtlas.Metta.Parser

mutual

theorem Form.reading : ∀ f : Form, ReadsForm f.opening.line f.inner f.node
  | .empty l r => readsForm_empty r.2
  | .list l elements r not_equals => by
    have ih := elements.reading
    obtain ⟨t, tokens, htokens, rfl⟩ := elements.tokens_eq_cons
    have hclose : t.kind ≠ .closeParen := fun h => elements.kind_ne_close (congrArg some h)
    rw [htokens] at ih
    rw [Form.inner, htokens]
    exact readsForm_call hclose not_equals ih r.2
  | .equation l e body r not_open =>
    readsForm_plain e.2 (head_not_open body.head?_tokens not_open) body.reading r.2
  | .function l e l' name parameters r' body r =>
    readsForm_named e.2 l'.2 (fun h => name.2 (.inr h)) parameters.reading r'.2 body.reading r.2

theorem Elements.reading {kind : Option TokenKind} : ∀ elements : Elements kind,
    ReadsItems elements.tokens elements.nodes
  | .nil => readsItems_nil
  | .word w later => readsItems_atom w.2 later.reading
  | .form f later => readsItems_form f.opening_kind f.reading later.reading

end

theorem Program.topLevels_tokens {kind : Option TokenKind} (program : Program kind) :
    topLevels program.tokens = program.nodes := by
  induction program with
  | nil => rw [Program.tokens, topLevels, Program.nodes]
  | comment t later ih =>
    rw [Program.tokens, topLevels_cons, (topLevel_comment t.2).1, (topLevel_comment t.2).2, ih]
    rfl
  | run t f later ih =>
    have hform := f.reading later.tokens
    have hrun := @execution_open f.opening (f.inner ++ later.tokens) t.1 f.opening_kind
    rw [hform.1, hform.2] at hrun
    rw [Program.tokens, topLevels_cons, (topLevel_execute t.2).1, (topLevel_execute t.2).2,
      hrun.1, hrun.2, ih]
    rfl
  | mark t later not_open ih =>
    have halone := head_not_open later.head?_tokens not_open
    rw [Program.tokens, topLevels_cons, (topLevel_execute t.2).1, (topLevel_execute t.2).2,
      (execution_alone halone).1, (execution_alone halone).2, ih]
    rfl
  | form f later ih =>
    have hform := f.reading later.tokens
    rw [Program.tokens, topLevels_cons, (topLevel_open f.opening_kind).1,
      (topLevel_open f.opening_kind).2, hform.1, hform.2, ih]
    rfl
  | other w later not_comment not_execute ih =>
    have hskip := @topLevel_other w.1 later.tokens not_comment not_execute
      (fun h => w.2 (.inl h))
    rw [Program.tokens, topLevels_cons, hskip.1, hskip.2, ih]
    rfl

end CodeAtlas.Metta
