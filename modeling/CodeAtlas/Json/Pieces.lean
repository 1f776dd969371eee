import CodeAtlas.Json.Writer

/-! The pieces in which JSON text goes out to a file, each item and member on a line of its own. Put
together they are the text; a text with a surrogate ends up in a piece of its own list item, key
or value, with the surrogate as it is. -/

namespace CodeAtlas.Json

open Text (Points CodePoint)

def rawPoint : CodePoint → Points
  | .char c => Points.ofChars (escapeChar false c)
  | .surrogate n => [.surrogate n]

def rawText (s : Points) : Points := .char '"' :: s.flatMap rawPoint ++ [.char '"']

def rawValue (j : Json) : Points :=
  match j with
  | str s => rawText s
  | j => Points.ofChars (write .saved 0 j)

def isOpened : Json → Bool
  | arr (_ :: _) => true
  | obj (_ :: _) => true
  | _ => false

def lineBreak (depth : Nat) : Points := Points.ofChars (breakAt .saved depth)

mutual

def pieces (depth : Nat) : Json → List Points
  | arr (item :: items) =>
    itemPieces (depth + 1) (.char '[' :: lineBreak (depth + 1)) (item :: items)
      ++ [lineBreak depth, [.char ']']]
  | obj ((key, value) :: members) =>
    [.char '\x7b'] :: lineBreak (depth + 1) :: rawText key :: Points.ofString ": "
      :: pieces (depth + 1) value ++ memberPieces (depth + 1) members
      ++ [lineBreak depth, [.char '\x7d']]
  | j => [rawValue j]

def itemPieces (depth : Nat) (before : Points) : List Json → List Points
  | [] => []
  | item :: items =>
    (if item.isOpened then before :: pieces depth item else [before ++ rawValue item])
      ++ itemPieces depth (.char ',' :: lineBreak depth) items

def memberPieces (depth : Nat) : List (Points × Json) → List Points
  | [] => []
  | (key, value) :: members =>
    (.char ',' :: lineBreak depth) :: rawText key :: Points.ofString ": " :: pieces depth value
      ++ memberPieces depth members

end

end CodeAtlas.Json
