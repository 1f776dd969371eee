import CodeAtlas.Metta.Lexer
import CodeAtlas.Metta.Node
import CodeAtlas.Text.Utf8

/-! From tokens to trees. Every token list has a tree: a form that is not closed ends with the
tokens, and tokens between top-level forms are passed over. Each reader below says what it read and
which tokens are left, never more than there were. -/

namespace CodeAtlas.Metta.Parser

structure Reading (α : Type) (tokens : List Token) where
  value : α
  rest : List Token
  rest_le : rest.length ≤ tokens.length

def atomKind : TokenKind → NodeKind
  | .variable => .variable
  | .space => .space
  | .string => .string
  | .number => .number
  | .operator => .operator
  | .atom => .atom
  | _ => .unknown

def atom (t : Token) : Node := .leaf (atomKind t.kind) t.text t.line

def comment (t : Token) : Node := .leaf .comment (Text.strip t.text) t.line

def close (node : Node) (tokens : List Token) : Reading Node tokens :=
  match tokens with
  | t :: rest =>
    if t.kind = .closeParen then
      ⟨{ node with lastLine := t.line, lastRow := t.line - 1 }, rest, by simp⟩
    else ⟨node, t :: rest, Nat.le_refl _⟩
  | [] => ⟨node, [], Nat.le_refl _⟩

/-- Takes the parenthesis that closes a signature. Only its last line moves, not its last row. -/
def closeSignature (node : Node) (tokens : List Token) : Reading Node tokens :=
  match tokens with
  | t :: rest =>
    if t.kind = .closeParen then ⟨{ node with lastLine := t.line }, rest, by simp⟩
    else ⟨node, t :: rest, Nat.le_refl _⟩
  | [] => ⟨node, [], Nat.le_refl _⟩

mutual

def items (tokens : List Token) : Reading (List Node) tokens :=
  match tokens with
  | [] => ⟨[], [], Nat.le_refl _⟩
  | t :: rest =>
    match t.kind with
    | .closeParen => ⟨[], t :: rest, Nat.le_refl _⟩
    | .openParen =>
      let ⟨first, middle, h⟩ := form t.line rest
      let ⟨later, left, h'⟩ := items middle
      ⟨first :: later, left, by simp only [List.length_cons]; omega⟩
    | _ =>
      let ⟨later, left, h⟩ := items rest
      ⟨atom t :: later, left, by simp only [List.length_cons]; omega⟩
termination_by 3 * tokens.length

def form (line : Int) (tokens : List Token) : Reading Node tokens :=
  match tokens with
  | [] => ⟨.leaf .emptyExpression "" line, [], Nat.le_refl _⟩
  | t :: rest =>
    match t.kind with
    | .closeParen => ⟨.leaf .emptyExpression "" line, rest, by simp⟩
    | .equals =>
      let ⟨node, middle, h⟩ := definition line rest
      let ⟨closed, left, h'⟩ := close node middle
      ⟨closed, left, by simp only [List.length_cons]; omega⟩
    | _ =>
      let ⟨node, middle, h⟩ := call line (t :: rest)
      let ⟨closed, left, h'⟩ := close node middle
      ⟨closed, left, by omega⟩
termination_by 3 * tokens.length + 2

def call (line : Int) (tokens : List Token) : Reading Node tokens :=
  let ⟨children, left, h⟩ := items tokens
  ⟨(Node.leaf .expression "" line).addChildren children, left, h⟩
termination_by 3 * tokens.length + 1

def definition (line : Int) (tokens : List Token) : Reading Node tokens :=
  let ⟨head, middle, h⟩ : Reading (List Node) tokens :=
    match tokens with
    | [] => ⟨[], [], Nat.le_refl _⟩
    | t :: rest =>
      if t.kind = .openParen then
        let ⟨read, left, h⟩ := signature rest
        ⟨read.toList, left, by simp only [List.length_cons]; omega⟩
      else ⟨[], t :: rest, Nat.le_refl _⟩
  let ⟨body, left, h'⟩ := items middle
  ⟨(Node.leaf .definition "" line).addChildren (head ++ body), left, by omega⟩
termination_by 3 * tokens.length + 1

/-- A signature after its opening parenthesis: a name, which any token can be, and parameters. If
there is no name then there is no signature, and a closing parenthesis is left. -/
def signature (tokens : List Token) : Reading (Option Node) tokens :=
  match tokens with
  | [] => ⟨none, [], Nat.le_refl _⟩
  | t :: rest =>
    if t.kind = .closeParen then ⟨none, t :: rest, Nat.le_refl _⟩
    else
      let ⟨parameters, middle, h⟩ := items rest
      let ⟨closed, left, h'⟩ :=
        closeSignature ((Node.leaf .signature t.text t.line).addChildren parameters) middle
      ⟨some closed, left, by simp only [List.length_cons]; omega⟩
termination_by 3 * tokens.length + 1

end

def execution (mark : Token) (tokens : List Token) : Reading Node tokens :=
  match tokens with
  | t :: rest =>
    if t.kind = .openParen then
      let ⟨body, left, h⟩ := form t.line rest
      ⟨(Node.make .execution "!" mark.line (some body.lastLine)).addChild body, left, by
        simp only [List.length_cons]; omega⟩
    else ⟨.leaf .execution "!" mark.line, t :: rest, Nat.le_refl _⟩
  | [] => ⟨.leaf .execution "!" mark.line, [], Nat.le_refl _⟩

def topLevel (t : Token) (rest : List Token) : Reading (Option Node) rest :=
  match t.kind with
  | .comment => ⟨some (comment t), rest, Nat.le_refl _⟩
  | .execute =>
    let ⟨node, left, h⟩ := execution t rest
    ⟨some node, left, h⟩
  | .openParen =>
    let ⟨node, left, h⟩ := form t.line rest
    ⟨some node, left, h⟩
  | _ => ⟨none, rest, Nat.le_refl _⟩

def topLevels : List Token → List Node
  | [] => []
  | t :: rest =>
    let ⟨node, left, _⟩ := topLevel t rest
    node.toList ++ topLevels left
termination_by tokens => tokens.length
decreasing_by simp only [List.length_cons]; omega

end Parser

def Node.ofTokens (tokens : List Token) : Node :=
  (Node.leaf .program "" 1).addChildren (Parser.topLevels tokens)

def Node.ofBytes (bytes : List UInt8) : Node :=
  .ofTokens (tokenize (String.ofList (Text.Utf8.decodeLenient bytes)))

end CodeAtlas.Metta
