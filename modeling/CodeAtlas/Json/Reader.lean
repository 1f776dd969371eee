import CodeAtlas.Json.Value

/-! Reading JSON text. Beside the standard the reader takes `NaN`, `Infinity` and `-Infinity`; of a
key that comes twice the last value counts, in the first place. An error names what was expected
and where. -/

namespace CodeAtlas.Json

open Text (Points CodePoint)

namespace Reader

inductive Problem
  | value
  | propertyName
  | colon
  | comma
  | unterminated
  | controlCharacter
  | escape
  | unicodeEscape
  | extraData
  | byteOrderMark
  deriving DecidableEq, Repr

def Problem.message : Problem → String
  | .value => "Expecting value"
  | .propertyName => "Expecting property name enclosed in double quotes"
  | .colon => "Expecting ':' delimiter"
  | .comma => "Expecting ',' delimiter"
  | .unterminated => "Unterminated string starting at"
  | .controlCharacter => "Invalid control character at"
  | .escape => "Invalid \\escape"
  | .unicodeEscape => "Invalid \\uXXXX escape"
  | .extraData => "Extra data"
  | .byteOrderMark => "Unexpected UTF-8 BOM (decode using utf-8-sig)"

/-- Why reading stopped. A place is given by how many characters were left there. -/
inductive Stop
  | problem (what : Problem) (left : Nat)
  | tooManyDigits (count : Nat)
  deriving DecidableEq, Repr

def isSpace (c : Char) : Bool := c = ' ' || c = '\t' || c = '\n' || c = '\r'

def skipSpace (cs : List Char) : List Char := cs.dropWhile isSpace

def isAsciiDigit (c : Char) : Bool := '0' ≤ c && c ≤ '9'

def hexValue? (c : Char) : Option Nat :=
  if '0' ≤ c ∧ c ≤ '9' then some (c.toNat - '0'.toNat)
  else if 'a' ≤ c ∧ c ≤ 'f' then some (c.toNat - 'a'.toNat + 10)
  else if 'A' ≤ c ∧ c ≤ 'F' then some (c.toNat - 'A'.toNat + 10)
  else none

def unit? (a b c d : Char) : Option Nat := do
  let a ← hexValue? a
  let b ← hexValue? b
  let c ← hexValue? c
  let d ← hexValue? d
  return ((a * 16 + b) * 16 + c) * 16 + d

def isHighHalf (n : Nat) : Bool := 0xd800 ≤ n && n < 0xdc00
def isLowHalf (n : Nat) : Bool := 0xdc00 ≤ n && n < 0xe000

def unitPoint (n : Nat) : CodePoint :=
  if h : 0xd800 ≤ n ∧ n < 0xe000 then .surrogate ⟨n - 0xd800, by omega⟩ else .char (Char.ofNat n)

def pairChar (high low : Nat) : Char :=
  Char.ofNat (0x10000 + (high - 0xd800) * 0x400 + (low - 0xdc00))

def plainEscape? (c : Char) : Option Char :=
  if c = '"' ∨ c = '\\' ∨ c = '/' then some c
  else if c = 'b' then some '\x08'
  else if c = 'f' then some '\x0c'
  else if c = 'n' then some '\n'
  else if c = 'r' then some '\r'
  else if c = 't' then some '\t'
  else none

/-- What follows the `u` of an escape: the code point and the number of characters it takes. An
escape that nothing follows is not complete, since a string needs its closing quote. -/
def unicodeEscape (cs : List Char) : Except Stop (CodePoint × Nat) :=
  match cs with
  | a :: b :: c :: d :: e :: rest =>
    match unit? a b c d with
    | none => .error (.problem .unicodeEscape (cs.length + 1))
    | some n =>
      if isHighHalf n then
        match e :: rest with
        | '\\' :: 'u' :: a :: b :: c :: d :: _ :: rest =>
          match unit? a b c d with
          | none => .error (.problem .unicodeEscape (rest.length + 6))
          | some m => if isLowHalf m then .ok (.char (pairChar n m), 10) else .ok (unitPoint n, 4)
        | _ => .ok (unitPoint n, 4)
      else .ok (unitPoint n, 4)
  | _ => .error (.problem .unicodeEscape (cs.length + 1))

def stringRest (opened : List Char) : List Char → Except Stop (Points × List Char)
  | [] => .error (.problem .unterminated (opened.length + 1))
  | c :: cs =>
    if c = '"' then .ok ([], cs)
    else if c = '\\' then
      match cs with
      | [] => .error (.problem .unterminated (opened.length + 1))
      | e :: rest =>
        if e = 'u' then
          match unicodeEscape rest with
          | .error stop => .error stop
          | .ok (x, taken) =>
            (stringRest opened (rest.drop taken)).map fun (xs, rest) => (x :: xs, rest)
        else match plainEscape? e with
          | none => .error (.problem .escape (cs.length + 1))
          | some x => (stringRest opened rest).map fun (xs, rest) => (.char x :: xs, rest)
    else if c.toNat < 0x20 then .error (.problem .controlCharacter (cs.length + 1))
    else (stringRest opened cs).map fun (xs, rest) => (.char c :: xs, rest)
termination_by cs => cs.length
decreasing_by all_goals simp only [List.length_drop, List.length_cons]; omega

def natOfDigits (digits : List Char) : Nat :=
  digits.foldl (fun n c => n * 10 + (c.toNat - '0'.toNat)) 0

def maxDigits : Nat := 4300

def integer (negative : Bool) (digits : List Char) : Except Stop Json :=
  if maxDigits < digits.length then .error (.tooManyDigits digits.length)
  else .ok (.int (if negative then -(natOfDigits digits : Int) else natOfDigits digits))

def fraction (cs : List Char) : List Char × List Char :=
  match cs with
  | '.' :: rest =>
    match rest.takeWhile isAsciiDigit with
    | [] => ([], cs)
    | digits => (digits, rest.dropWhile isAsciiDigit)
  | _ => ([], cs)

def exponent? (cs : List Char) : Option (Int × List Char) :=
  match cs with
  | e :: rest =>
    if e = 'e' ∨ e = 'E' then
      let (negative, rest) := match rest with
        | '-' :: rest => (true, rest)
        | '+' :: rest => (false, rest)
        | rest => (false, rest)
      match rest.takeWhile isAsciiDigit with
      | [] => none
      | digits =>
        let size : Int := natOfDigits digits
        some (if negative then -size else size, rest.dropWhile isAsciiDigit)
    else none
  | [] => none

def wholePart (cs : List Char) : List Char × List Char :=
  match cs with
  | '0' :: rest => (['0'], rest)
  | _ => (cs.takeWhile isAsciiDigit, cs.dropWhile isAsciiDigit)

def number (cs : List Char) : Except Stop (Json × List Char) :=
  let (negative, body) := match cs with
    | '-' :: rest => (true, rest)
    | _ => (false, cs)
  match wholePart body with
  | ([], _) => .error (.problem .value cs.length)
  | (whole, rest) =>
    match fraction rest, exponent? (fraction rest).2 with
    | ([], _), none => (integer negative whole).map fun j => (j, rest)
    | (decimals, rest), none =>
      .ok (.real (.ofDecimal ⟨negative, natOfDigits (whole ++ decimals), -decimals.length⟩), rest)
    | (decimals, _), some (power, rest) =>
      .ok (.real (.ofDecimal ⟨negative, natOfDigits (whole ++ decimals),
        power - decimals.length⟩), rest)

def words : List (String × Json) :=
  [("null", .null), ("true", .bool true), ("false", .bool false), ("NaN", .real .notANumber),
    ("Infinity", .real (.infinite false)), ("-Infinity", .real (.infinite true))]

def word? (cs : List Char) : Option (Json × List Char) :=
  words.findSome? fun (word, value) =>
    if word.toList.isPrefixOf cs then some (value, cs.drop word.length) else none

mutual

/-- A value at the head of the text. The first argument bounds the depth of the recursion. -/
def value : Nat → List Char → Except Stop (Json × List Char)
  | 0, cs => .error (.problem .value cs.length)
  | fuel + 1, cs =>
    match cs with
    | '"' :: rest => (stringRest rest rest).map fun (xs, rest) => (.str xs, rest)
    | '\x7b' :: rest =>
      match skipSpace rest with
      | '\x7d' :: rest => .ok (.obj [], rest)
      | rest => (members fuel [] rest).map fun (ms, rest) => (.obj ms, rest)
    | '[' :: rest =>
      match skipSpace rest with
      | ']' :: rest => .ok (.arr [], rest)
      | rest => (items fuel rest).map fun (xs, rest) => (.arr xs, rest)
    | _ =>
      match word? cs with
      | some result => .ok result
      | none => number cs

def items : Nat → List Char → Except Stop (List Json × List Char)
  | 0, cs => .error (.problem .value cs.length)
  | fuel + 1, cs =>
    match value fuel cs with
    | .error stop => .error stop
    | .ok (x, rest) =>
      match skipSpace rest with
      | ']' :: rest => .ok ([x], rest)
      | ',' :: rest => (items fuel (skipSpace rest)).map fun (xs, rest) => (x :: xs, rest)
      | rest => .error (.problem .comma rest.length)

def members : Nat → List (Points × Json) → List Char →
    Except Stop (List (Points × Json) × List Char)
  | 0, _, cs => .error (.problem .value cs.length)
  | fuel + 1, before, cs =>
    match cs with
    | '"' :: rest =>
      match stringRest rest rest with
      | .error stop => .error stop
      | .ok (key, rest) =>
        match skipSpace rest with
        | ':' :: rest =>
          match value fuel (skipSpace rest) with
          | .error stop => .error stop
          | .ok (x, rest) =>
            let now := put key x before
            match skipSpace rest with
            | '\x7d' :: rest => .ok (now, rest)
            | ',' :: rest => members fuel now (skipSpace rest)
            | rest => .error (.problem .comma rest.length)
        | rest => .error (.problem .colon rest.length)
    | _ => .error (.problem .propertyName cs.length)

end

/-- A whole text as one value. Every call of the three readers above that does not take a
character is followed by one that does, so twice the length bounds their depth. -/
def document (cs : List Char) : Except Stop Json :=
  if cs.head? = some '\ufeff' then .error (.problem .byteOrderMark cs.length)
  else match value (2 * cs.length + 2) (skipSpace cs) with
    | .error stop => .error stop
    | .ok (j, rest) =>
      match skipSpace rest with
      | [] => .ok j
      | rest => .error (.problem .extraData rest.length)

end Reader

inductive ReadError
  | malformed (what : Reader.Problem) (position line column : Nat)
  | tooManyDigits (count : Nat)
  deriving DecidableEq, Repr

def ReadError.message : ReadError → String
  | .malformed what position line column =>
    s!"{what.message}: line {line} column {column} (char {position})"
  | .tooManyDigits count =>
    s!"Exceeds the limit ({Reader.maxDigits} digits) for integer string conversion: value has " ++
      s!"{count} digits; use sys.set_int_max_str_digits() to increase the limit"

def ReadError.ofPlace (cs : List Char) (what : Reader.Problem) (position : Nat) : ReadError :=
  let before := cs.take position
  .malformed what position (before.count '\n' + 1)
    ((before.reverse.takeWhile (· ≠ '\n')).length + 1)

def ofText (s : String) : Except ReadError Json :=
  let cs := s.toList
  match Reader.document cs with
  | .ok j => .ok j
  | .error (.tooManyDigits count) => .error (.tooManyDigits count)
  | .error (.problem what left) => .error (.ofPlace cs what (cs.length - left))

end CodeAtlas.Json
