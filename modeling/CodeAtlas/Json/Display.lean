import CodeAtlas.Json.Value
import CodeAtlas.Text.Quoted

/-! Values inside sentences. A text stands as it is, and quoted where it is part of another value;
null, true and false are written `None`, `True` and `False`. -/

namespace CodeAtlas.Json

open Text (Points)

def displayDouble : Number.Double → List Char
  | .finite d => d.toChars
  | .infinite negative => if negative then ['-', 'i', 'n', 'f'] else ['i', 'n', 'f']
  | .notANumber => ['n', 'a', 'n']

mutual

def displayPart : Json → List Char
  | null => "None".toList
  | bool b => (if b then "True" else "False").toList
  | int n => (toString n).toList
  | real x => displayDouble x
  | str s => Text.quotedPoints s
  | arr items => '[' :: displayItems items ++ [']']
  | obj members => '\x7b' :: displayMembers members ++ ['\x7d']

def displayItems : List Json → List Char
  | [] => []
  | [item] => displayPart item
  | item :: items => displayPart item ++ ',' :: ' ' :: displayItems items

def displayMembers : List (Points × Json) → List Char
  | [] => []
  | [(key, value)] => Text.quotedPoints key ++ ':' :: ' ' :: displayPart value
  | (key, value) :: members =>
    Text.quotedPoints key ++ ':' :: ' ' :: displayPart value ++ ',' :: ' ' ::
      displayMembers members

end

def shown (j : Json) : String := String.ofList (displayPart j)

def display : Json → Points
  | str s => s
  | j => j.shown

end CodeAtlas.Json
