import CodeAtlas.Text.CodePoint

/-! Classes of characters, and texts without white space at their ends. -/

namespace CodeAtlas.Text

def inRanges (ranges : List (Nat × Nat)) (c : Char) : Bool :=
  ranges.any fun (low, high) => low ≤ c.toNat && c.toNat ≤ high

/-- White space in the wide sense of Unicode: the spaces of all scripts, the line and paragraph
separators and the control characters that end lines, fields, groups, records and units, but not the
zero-width space. -/
def blankRanges : List (Nat × Nat) :=
  [(0x9, 0xd), (0x1c, 0x20), (0x85, 0x85), (0xa0, 0xa0), (0x1680, 0x1680), (0x2000, 0x200a),
    (0x2028, 0x2029), (0x202f, 0x202f), (0x205f, 0x205f), (0x3000, 0x3000)]

def isBlank (c : Char) : Bool := inRanges blankRanges c

def isPad (c : Char) : Bool := c = ' ' || c = '\t'

def CodePoint.isBlank : CodePoint → Bool
  | char c => Text.isBlank c
  | surrogate _ => false

def CodePoint.isPad : CodePoint → Bool
  | char c => Text.isPad c
  | surrogate _ => false

def trim {α : Type} (p : α → Bool) (as : List α) : List α :=
  ((as.dropWhile p).reverse.dropWhile p).reverse

def strip (s : String) : String := String.ofList (trim isBlank s.toList)

def Points.strip (ps : Points) : Points := trim CodePoint.isBlank ps

/-- The zero of every run of decimal digits in Unicode 14. Runs have ten digits, zero first. -/
def digitZeros : List Nat :=
  [0x30, 0x660, 0x6f0, 0x7c0, 0x966, 0x9e6, 0xa66, 0xae6, 0xb66, 0xbe6, 0xc66, 0xce6, 0xd66,
    0xde6, 0xe50, 0xed0, 0xf20, 0x1040, 0x1090, 0x17e0, 0x1810, 0x1946, 0x19d0, 0x1a80, 0x1a90,
    0x1b50, 0x1bb0, 0x1c40, 0x1c50, 0xa620, 0xa8d0, 0xa900, 0xa9d0, 0xa9f0, 0xaa50, 0xabf0,
    0xff10, 0x104a0, 0x10d30, 0x11066, 0x110f0, 0x11136, 0x111d0, 0x112f0, 0x11450, 0x114d0,
    0x11650, 0x116c0, 0x11730, 0x118e0, 0x11950, 0x11c50, 0x11d50, 0x11da0, 0x16a60, 0x16ac0,
    0x16b50, 0x1d7ce, 0x1d7d8, 0x1d7e2, 0x1d7ec, 0x1d7f6, 0x1e140, 0x1e2f0, 0x1e950, 0x1fbf0]

def isDigit (c : Char) : Bool := digitZeros.any fun first => first ≤ c.toNat && c.toNat < first + 10

end CodeAtlas.Text
