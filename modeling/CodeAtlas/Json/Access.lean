import CodeAtlas.Json.Value
import CodeAtlas.Text.Quoted

/-! Reaching into a value whose shape is not known beforehand, and what can go wrong on the way. -/

namespace CodeAtlas.Json

open Text (Points)

inductive Fault
  | missingKey (key : String)
  | notSubscriptable (kind : Kind)
  | listIndex
  | textIndex
  | noAttribute (kind : Kind) (name : String)
  | notIterable (kind : Kind)
  | notContainer (kind : Kind)
  | notHashable (kind : Kind)
  deriving DecidableEq, Repr

def Fault.message : Fault → String
  | .missingKey key => Text.quoted key
  | .notSubscriptable kind => s!"'{kind.name}' object is not subscriptable"
  | .listIndex => "list indices must be integers or slices, not str"
  | .textIndex => "string indices must be integers, not 'str'"
  | .noAttribute kind name => s!"'{kind.name}' object has no attribute '{name}'"
  | .notIterable kind => s!"'{kind.name}' object is not iterable"
  | .notContainer kind => s!"argument of type '{kind.name}' is not iterable"
  | .notHashable kind => s!"unhashable type: '{kind.name}'"

def require (j : Json) (key : String) : Except Fault Json :=
  match j with
  | obj members =>
    match member? members key with
    | some value => .ok value
    | none => .error (.missingKey key)
  | arr _ => .error .listIndex
  | str _ => .error .textIndex
  | other => .error (.notSubscriptable other.kind)

def get? (j : Json) (key : String) : Except Fault (Option Json) :=
  match j with
  | obj members => .ok (member? members key)
  | other => .error (.noAttribute other.kind "get")

def getD (j : Json) (key : String) (default : Json) : Except Fault Json := do
  return (← j.get? key).getD default

def hasKey (members : List (Points × Json)) (key : String) : Bool := (member? members key).isSome

def containsRun {α : Type} [BEq α] (needle : List α) : List α → Bool
  | [] => needle.isEmpty
  | a :: as => needle.isPrefixOf (a :: as) || containsRun needle as

/-- Whether a key is in the value: a key of an object, an item of a list, a stretch of a text. -/
def contains (j : Json) (key : String) : Except Fault Bool :=
  match j with
  | obj members => .ok (hasKey members key)
  | arr items => .ok (items.any (isStr key))
  | str s => .ok (containsRun (Points.ofString key) s)
  | other => .error (.notContainer other.kind)

def parts : Json → Except Fault (List Json)
  | arr items => .ok items
  | obj members => .ok (members.map fun (key, _) => str key)
  | str s => .ok (s.map fun p => str [p])
  | other => .error (.notIterable other.kind)

end CodeAtlas.Json
