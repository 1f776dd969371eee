/-! Texts of code points. A `String` holds characters only; a text that was written with escapes may
also hold one half of a surrogate pair without the other. -/

namespace CodeAtlas.Text

inductive CodePoint
  | char (c : Char)
  | surrogate (n : Fin 0x800)
  deriving DecidableEq, Repr

namespace CodePoint

def toNat : CodePoint → Nat
  | char c => c.toNat
  | surrogate n => 0xd800 + n

def char? : CodePoint → Option Char
  | char c => some c
  | surrogate _ => none

def isSurrogate : CodePoint → Bool
  | char _ => false
  | surrogate _ => true

end CodePoint

abbrev Points := List CodePoint

namespace Points

def ofChars (cs : List Char) : Points := cs.map .char

def ofString (s : String) : Points := ofChars s.toList

def toString? (ps : Points) : Option String := (ps.mapM CodePoint.char?).map String.ofList

def replaced (ps : Points) : String := String.ofList (ps.map fun p => p.char?.getD '\ufffd')

end Points

instance : Coe String Points := ⟨Points.ofString⟩

/-! Sorted lists of texts without repetition, by code points. -/

def insertSorted (text : String) : List String → List String
  | [] => [text]
  | t :: texts =>
    if text < t then text :: t :: texts
    else if text = t then t :: texts
    else t :: insertSorted text texts

def sortedUnique : List String → List String
  | [] => []
  | t :: texts => insertSorted t (sortedUnique texts)

end CodeAtlas.Text
