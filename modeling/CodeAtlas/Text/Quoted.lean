import CodeAtlas.Text.CodePoint
import CodeAtlas.Text.Printable

/-! A text between quotes, as messages and nested values show it. Apostrophes surround it, unless
it holds an apostrophe and no double quote. -/

namespace CodeAtlas.Text

def hexadecimal (width n : Nat) : List Char :=
  let digits := Nat.toDigits 16 n
  List.replicate (width - digits.length) '0' ++ digits

def quoteFor (ps : Points) : Char :=
  if .char '\'' ∈ ps ∧ .char '"' ∉ ps then '"' else '\''

/-- One character between quotes; what cannot be shown stands by its number, in the shortest of
three forms. -/
def quotedChar (quote c : Char) : List Char :=
  if c = quote ∨ c = '\\' then ['\\', c]
  else if c = '\t' then ['\\', 't']
  else if c = '\n' then ['\\', 'n']
  else if c = '\r' then ['\\', 'r']
  else if isPrintable c then [c]
  else if c.toNat < 0x100 then '\\' :: 'x' :: hexadecimal 2 c.toNat
  else if c.toNat < 0x10000 then '\\' :: 'u' :: hexadecimal 4 c.toNat
  else '\\' :: 'U' :: hexadecimal 8 c.toNat

def quotedPoint (quote : Char) : CodePoint → List Char
  | .char c => quotedChar quote c
  | .surrogate n => '\\' :: 'u' :: hexadecimal 4 (0xd800 + n)

def quotedPoints (ps : Points) : List Char :=
  let quote := quoteFor ps
  quote :: ps.flatMap (quotedPoint quote) ++ [quote]

def quoted (s : String) : String := String.ofList (quotedPoints s)

end CodeAtlas.Text
