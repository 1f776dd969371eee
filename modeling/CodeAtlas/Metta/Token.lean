/-! Tokens of MeTTa programs. -/

namespace CodeAtlas.Metta

inductive TokenKind
  | comment
  | execute
  | openParen
  | closeParen
  | openBracket
  | closeBracket
  | space
  | variable
  | string
  | number
  | equals
  | operator
  | atom
  deriving DecidableEq, Repr

def TokenKind.all : List TokenKind :=
  [.comment, .execute, .openParen, .closeParen, .openBracket, .closeBracket, .space, .variable,
    .string, .number, .equals, .operator, .atom]

def TokenKind.name : TokenKind → String
  | .comment => "COMMENT"
  | .execute => "EXECUTE"
  | .openParen => "LPAREN"
  | .closeParen => "RPAREN"
  | .openBracket => "LBRACKET"
  | .closeBracket => "RBRACKET"
  | .space => "ATOMESPACE"
  | .variable => "VARIABLE"
  | .string => "STRING"
  | .number => "NUMBER"
  | .equals => "EQUALS"
  | .operator => "OPERATOR"
  | .atom => "ATOM"

structure Token where
  kind : TokenKind
  text : String
  line : Nat
  column : Nat
  deriving DecidableEq, Repr

def Token.describe (t : Token) : String :=
  s!"Token({t.kind.name}, '{t.text}', {t.line}:{t.column})"

end CodeAtlas.Metta
