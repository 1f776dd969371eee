import CodeAtlas.Text.Lines
import CodeAtlas.Text.Quoted

/-! Reading bytes as UTF-8. A malformed stretch is the longest start of a well-formed character
that the bytes have at that place, at least one byte. The strict reader stops at the first such
stretch and says where it is; the lenient one leaves all of them out. -/

namespace CodeAtlas.Text.Utf8

inductive Reason
  | invalidStart
  | invalidContinuation
  | unexpectedEnd
  deriving DecidableEq, Repr

def Reason.message : Reason → String
  | .invalidStart => "invalid start byte"
  | .invalidContinuation => "invalid continuation byte"
  | .unexpectedEnd => "unexpected end of data"

inductive Head
  | character (code : Nat) (more : Nat)
  | malformed (reason : Reason) (more : Nat)
  deriving DecidableEq, Repr

def isContinuation (b : UInt8) : Bool := 0x80 ≤ b.toNat && b.toNat < 0xc0

def payload (b : UInt8) : Nat := b.toNat % 0x40

/-- Head of a character of three bytes. A second byte is refused if the character would fit in
fewer bytes or would be a surrogate. -/
def headOfThree (first : UInt8) : List UInt8 → Head
  | [] => .malformed .unexpectedEnd 0
  | b :: rest =>
    if !isContinuation b || (if b.toNat < 0xa0 then first.toNat = 0xe0 else first.toNat = 0xed) then
      .malformed .invalidContinuation 0
    else match rest with
      | [] => .malformed .unexpectedEnd 1
      | c :: _ =>
        if isContinuation c then
          .character ((first.toNat % 0x10 * 0x40 + payload b) * 0x40 + payload c) 2
        else .malformed .invalidContinuation 1

/-- Head of a character of four bytes. A second byte is refused if the character would fit in
fewer bytes or would lie above the last code point. -/
def headOfFour (first : UInt8) : List UInt8 → Head
  | [] => .malformed .unexpectedEnd 0
  | b :: rest =>
    if !isContinuation b || (if b.toNat < 0x90 then first.toNat = 0xf0 else first.toNat = 0xf4) then
      .malformed .invalidContinuation 0
    else match rest with
      | [] => .malformed .unexpectedEnd 1
      | c :: rest =>
        if !isContinuation c then .malformed .invalidContinuation 1
        else match rest with
          | [] => .malformed .unexpectedEnd 2
          | d :: _ =>
            if isContinuation d then
              .character (((first.toNat % 0x8 * 0x40 + payload b) * 0x40 + payload c) * 0x40
                + payload d) 3
            else .malformed .invalidContinuation 2

def head (first : UInt8) (rest : List UInt8) : Head :=
  if first.toNat < 0x80 then .character first.toNat 0
  else if first.toNat < 0xc2 then .malformed .invalidStart 0
  else if first.toNat < 0xe0 then
    match rest with
    | [] => .malformed .unexpectedEnd 0
    | b :: _ =>
      if isContinuation b then .character (first.toNat % 0x20 * 0x40 + payload b) 1
      else .malformed .invalidContinuation 0
  else if first.toNat < 0xf0 then headOfThree first rest
  else if first.toNat < 0xf5 then headOfFour first rest
  else .malformed .invalidStart 0

def decodeLenient : List UInt8 → List Char
  | [] => []
  | b :: rest =>
    match head b rest with
    | .character code more => Char.ofNat code :: decodeLenient (rest.drop more)
    | .malformed _ more => decodeLenient (rest.drop more)
termination_by bytes => bytes.length
decreasing_by all_goals simp only [List.length_drop, List.length_cons]; omega

structure Malformed where
  start : Nat
  bytes : List UInt8
  reason : Reason
  deriving DecidableEq, Repr

def Malformed.message (m : Malformed) : String :=
  let place := match m.bytes with
    | [b] => "byte 0x" ++ String.ofList (hexadecimal 2 b.toNat) ++ s!" in position {m.start}"
    | bytes => s!"bytes in position {m.start}-{m.start + bytes.length - 1}"
  "'utf-8' codec can't decode " ++ place ++ ": " ++ m.reason.message

def decodeFrom (position : Nat) : List UInt8 → Except Malformed (List Char)
  | [] => .ok []
  | b :: rest =>
    match head b rest with
    | .character code more => do
      let cs ← decodeFrom (position + 1 + more) (rest.drop more)
      return Char.ofNat code :: cs
    | .malformed reason more => .error ⟨position, b :: rest.take more, reason⟩
termination_by bytes => bytes.length
decreasing_by simp only [List.length_drop, List.length_cons]; omega

def decode (bytes : List UInt8) : Except Malformed (List Char) := decodeFrom 0 bytes

def encode (s : String) : List UInt8 := s.toUTF8.toList

structure Unencodable where
  start : Nat
  first : Fin 0x800
  more : Nat
  deriving DecidableEq, Repr

def Unencodable.message (u : Unencodable) : String :=
  let place :=
    if u.more = 0 then
      "character '\\u" ++ String.ofList (hexadecimal 4 (0xd800 + u.first)) ++
        s!"' in position {u.start}"
    else s!"characters in position {u.start}-{u.start + u.more}"
  "'utf-8' codec can't encode " ++ place ++ ": surrogates not allowed"

def unencodableFrom? (position : Nat) : Points → Option Unencodable
  | [] => none
  | .char _ :: ps => unencodableFrom? (position + 1) ps
  | .surrogate n :: ps => some ⟨position, n, (ps.takeWhile CodePoint.isSurrogate).length⟩

def encodePoints (ps : Points) : Except Unencodable (List UInt8) :=
  match unencodableFrom? 0 ps with
  | some u => .error u
  | none => .ok (encode ps.replaced)

def readText (bytes : List UInt8) : Except Malformed String := do
  return String.ofList (unifyNewlines (← decode bytes))

end CodeAtlas.Text.Utf8
