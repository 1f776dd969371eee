import CodeAtlas.Metta.Parser

/-! Reading a program step by step. A cursor holds the tokens that are left; every step looks at
them or takes some of them away. -/

namespace CodeAtlas.Metta

structure Cursor where
  total : Nat
  tokens : List Token

inductive Step
  | isAtEnd
  | peek
  | advance
  | accepts (kinds : List String)
  | topLevel
  | comment
  | execution
  | form
  | definition (line : Int)
  | signature
  | call (line : Int)
  | item
  | atom
  deriving Repr

inductive StepResult
  | nothing
  | answer (value : Bool)
  | token (t : Token)
  | node (n : Node)
  deriving Repr

def StepResult.ofNode? : Option Node → StepResult
  | some n => .node n
  | none => .nothing

inductive StepError
  | noText
  | noLine
  deriving DecidableEq, Repr

def StepError.message : StepError → String
  | .noText => "'NoneType' object has no attribute 'value'"
  | .noLine => "'NoneType' object has no attribute 'line'"

namespace Cursor

def ofTokens (tokens : List Token) : Cursor := ⟨tokens.length, tokens⟩

def position (c : Cursor) : Nat := c.total - c.tokens.length

def withFirst (c : Cursor) (missing : Except StepError StepResult)
    (read : Token → List Token → StepResult × List Token) : Except StepError StepResult × Cursor :=
  match c.tokens with
  | [] => (missing, c)
  | t :: rest =>
    let (result, left) := read t rest
    (.ok result, { c with tokens := left })

def step (c : Cursor) : Step → Except StepError StepResult × Cursor
  | .isAtEnd => (.ok (.answer c.tokens.isEmpty), c)
  | .peek => c.withFirst (.ok .nothing) fun t rest => (.token t, t :: rest)
  | .advance => c.withFirst (.ok .nothing) fun t rest => (.token t, rest)
  | .accepts kinds =>
    c.withFirst (.ok .nothing) fun t rest => (.answer (kinds.contains t.kind.name), t :: rest)
  | .topLevel => c.withFirst (.ok .nothing) fun t rest =>
    let read := Parser.topLevel t rest
    (.ofNode? read.value, read.rest)
  | .comment => c.withFirst (.error .noText) fun t rest => (.node (Parser.comment t), rest)
  | .execution => c.withFirst (.error .noLine) fun t rest =>
    let read := Parser.execution t rest
    (.node read.value, read.rest)
  | .form => c.withFirst (.error .noLine) fun t rest =>
    let read := Parser.form t.line rest
    (.node read.value, read.rest)
  | .definition line =>
    let read := Parser.definition line c.tokens.tail
    (.ok (.node read.value), { c with tokens := read.rest })
  | .signature => c.withFirst (.ok .nothing) fun _ rest =>
    let read := Parser.signature rest
    (.ofNode? read.value, read.rest)
  | .call line =>
    let read := Parser.call line c.tokens
    (.ok (.node read.value), { c with tokens := read.rest })
  | .item => c.withFirst (.ok .nothing) fun t rest =>
    if t.kind = .openParen then
      let read := Parser.form t.line rest
      (.node read.value, read.rest)
    else (.node (Parser.atom t), rest)
  | .atom => c.withFirst (.ok .nothing) fun t rest => (.node (Parser.atom t), rest)

/-- The outcomes of steps taken one after the other, each with the position after it. A step that
fails leaves the cursor where it got to. -/
def run (c : Cursor) : List Step → List (Except StepError StepResult × Nat)
  | [] => []
  | s :: steps =>
    let (result, next) := c.step s
    (result, next.position) :: next.run steps

end Cursor

end CodeAtlas.Metta
