import CodeAtlas.Metta.Token
import CodeAtlas.Text.Character

/-! From text to tokens. At each place the first rule that matches takes its lexeme, whatever a
later rule could take; a character at which no rule matches is left out. Lines are counted at line
feeds that no other lexeme takes in. -/

namespace CodeAtlas.Metta.Lexer

/-- A rule gives the length of its lexeme at the head of the text, zero if it does not match. -/
abbrev Rule := List Char → Nat

def isNameStart (c : Char) : Bool := c.isAlpha || c = '_'

def isNamePart (c : Char) : Bool := c.isAlphanum || c = '_' || c = '-'

def isOperator (c : Char) : Bool := c ∈ ['+', '-', '*', '/', '>', '<', '!', '=']

def run (p : Char → Bool) : Rule := fun cs => (cs.takeWhile p).length

def one (c : Char) : Rule
  | [] => 0
  | d :: _ => if d = c then 1 else 0

def comment : Rule
  | ';' :: cs => 1 + run (· ≠ '\n') cs
  | _ => 0

def name : Rule
  | [] => 0
  | c :: cs => if isNameStart c then 1 + run isNamePart cs else 0

def marked (mark : Char) : Rule
  | [] => 0
  | c :: cs => if c = mark ∧ name cs ≠ 0 then 1 + name cs else 0

/-- The characters of a string after its opening quote, up to and with the closing one. A backslash
takes the next character with it, which may not be a line feed. -/
def stringRest : List Char → Option Nat
  | [] => none
  | '"' :: _ => some 1
  | '\\' :: c :: cs => if c = '\n' then none else (stringRest cs).map (· + 2)
  | '\\' :: [] => none
  | _ :: cs => (stringRest cs).map (· + 1)

def string : Rule
  | '"' :: cs => ((stringRest cs).map (· + 1)).getD 0
  | _ => 0

def fraction : Rule
  | '.' :: cs => if run Text.isDigit cs = 0 then 0 else 1 + run Text.isDigit cs
  | _ => 0

def unsigned : Rule := fun cs =>
  let whole := run Text.isDigit cs
  if whole = 0 then 0 else whole + fraction (cs.drop whole)

def number : Rule
  | '-' :: cs => if unsigned cs = 0 then 0 else 1 + unsigned cs
  | cs => unsigned cs

def operator : Rule := run isOperator

def atom : Rule := fun cs =>
  if name cs = 0 then 0 else name cs + one '!' (cs.drop (name cs))

inductive Lexeme
  | token (kind : TokenKind)
  | padding
  | newline
  | stray
  deriving DecidableEq, Repr

def rules : List (Lexeme × Rule) :=
  [(.token .comment, comment), (.token .execute, one '!'), (.token .openParen, one '('),
    (.token .closeParen, one ')'), (.token .openBracket, one '['), (.token .closeBracket, one ']'),
    (.token .space, marked '&'), (.token .variable, marked '$'), (.token .string, string),
    (.token .number, number), (.token .equals, one '='), (.token .operator, operator),
    (.token .atom, atom), (.padding, run Text.isPad), (.newline, one '\n')]

def firstLexeme (cs : List Char) : Lexeme × Nat :=
  (rules.findSome? fun (lexeme, rule) =>
    if rule cs = 0 then none else some (lexeme, rule cs)).getD (.stray, 1)

structure Place where
  line : Nat
  column : Nat
  deriving DecidableEq, Repr

def Place.start : Place := ⟨1, 0⟩

def Place.after (place : Place) (lexeme : Lexeme) (length : Nat) : Place :=
  match lexeme with
  | .newline => ⟨place.line + 1, 0⟩
  | _ => ⟨place.line, place.column + length⟩

def tokensFrom (place : Place) : List Char → List Token
  | [] => []
  | c :: cs =>
    let (lexeme, length) := firstLexeme (c :: cs)
    let later := tokensFrom (place.after lexeme length) (cs.drop (length - 1))
    match lexeme with
    | .token kind =>
      ⟨kind, String.ofList ((c :: cs).take length), place.line, place.column⟩ :: later
    | _ => later
termination_by cs => cs.length
decreasing_by simp only [List.length_drop, List.length_cons]; omega

end Lexer

def tokenize (s : String) : List Token := Lexer.tokensFrom .start s.toList

end CodeAtlas.Metta
