import CodeAtlas.Json.Value
import CodeAtlas.Text.Quoted

/-! JSON as text. A value goes on one line, or each item and member on a line of its own; an empty
list or object always stays on one line. -/

namespace CodeAtlas.Json

open Text (Points CodePoint)

structure Style where
  step : Option Nat
  ascii : Bool
  deriving DecidableEq, Repr

def Style.saved : Style := ⟨some 2, false⟩

def escapeUnit (n : Nat) : List Char := '\\' :: 'u' :: Text.hexadecimal 4 n

/-- A character by its number; above the first plane, the two halves of the pair that stands for it
in sixteen-bit units. -/
def escapeNumber (c : Char) : List Char :=
  let n := c.toNat
  if n < 0x10000 then escapeUnit n
  else escapeUnit (0xd800 + (n - 0x10000) / 0x400) ++ escapeUnit (0xdc00 + (n - 0x10000) % 0x400)

def escapeChar (ascii : Bool) (c : Char) : List Char :=
  if c = '"' ∨ c = '\\' then ['\\', c]
  else if c = '\n' then ['\\', 'n']
  else if c = '\r' then ['\\', 'r']
  else if c = '\t' then ['\\', 't']
  else if c = '\x0c' then ['\\', 'f']
  else if c = '\x08' then ['\\', 'b']
  else if c.toNat < 0x20 ∨ (ascii = true ∧ 0x7e < c.toNat) then escapeNumber c
  else [c]

def escapePoint (ascii : Bool) : CodePoint → List Char
  | .char c => escapeChar ascii c
  | .surrogate n => escapeUnit (0xd800 + n)

def writeText (ascii : Bool) (s : Points) : List Char :=
  '"' :: s.flatMap (escapePoint ascii) ++ ['"']

def writeDouble : Number.Double → List Char
  | .finite d => d.toChars
  | .infinite negative => (if negative then "-Infinity" else "Infinity").toList
  | .notANumber => "NaN".toList

def breakAt (style : Style) (depth : Nat) : List Char :=
  match style.step with
  | none => []
  | some step => '\n' :: List.replicate (step * depth) ' '

def comma (style : Style) (depth : Nat) : List Char :=
  match style.step with
  | none => [',', ' ']
  | some _ => ',' :: breakAt style depth

mutual

def write (style : Style) (depth : Nat) : Json → List Char
  | null => "null".toList
  | bool b => (if b then "true" else "false").toList
  | int n => (toString n).toList
  | real x => writeDouble x
  | str s => writeText style.ascii s
  | arr [] => ['[', ']']
  | arr (item :: items) =>
    '[' :: (breakAt style (depth + 1) ++ write style (depth + 1) item
      ++ writeItems style (depth + 1) items ++ breakAt style depth ++ [']'])
  | obj [] => ['\x7b', '\x7d']
  | obj ((key, value) :: members) =>
    '\x7b' :: (breakAt style (depth + 1) ++ writeText style.ascii key ++ ':' :: ' ' ::
      write style (depth + 1) value ++ writeMembers style (depth + 1) members
      ++ breakAt style depth ++ ['\x7d'])

def writeItems (style : Style) (depth : Nat) : List Json → List Char
  | [] => []
  | item :: items => comma style depth ++ write style depth item ++ writeItems style depth items

def writeMembers (style : Style) (depth : Nat) : List (Points × Json) → List Char
  | [] => []
  | (key, value) :: members =>
    comma style depth ++ writeText style.ascii key ++ ':' :: ' ' :: write style depth value
      ++ writeMembers style depth members

end

def toText (style : Style) (j : Json) : String := String.ofList (write style 0 j)

end CodeAtlas.Json
