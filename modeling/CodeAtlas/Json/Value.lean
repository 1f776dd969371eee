import CodeAtlas.Number.Double
import CodeAtlas.Text.CodePoint

/-! JSON values. Members of an object keep the order in which their keys first came. -/

namespace CodeAtlas

open Text (Points)

inductive Json
  | null
  | bool (value : Bool)
  | int (value : Int)
  | real (value : Number.Double)
  | str (text : Points)
  | arr (items : List Json)
  | obj (members : List (Points × Json))
  deriving Repr

namespace Json

instance : Inhabited Json := ⟨null⟩

inductive Kind
  | null | bool | int | real | str | arr | obj
  deriving DecidableEq, Repr

def kind : Json → Kind
  | null => .null
  | bool _ => .bool
  | int _ => .int
  | real _ => .real
  | str _ => .str
  | arr _ => .arr
  | obj _ => .obj

def Kind.name : Kind → String
  | .null => "NoneType"
  | .bool => "bool"
  | .int => "int"
  | .real => "float"
  | .str => "str"
  | .arr => "list"
  | .obj => "dict"

/-- Null, false, zero and everything empty count as absent. -/
def isPresent : Json → Bool
  | null => false
  | bool b => b
  | int n => n != 0
  | real (.finite d) => d.digits != 0
  | real _ => true
  | str s => !s.isEmpty
  | arr items => !items.isEmpty
  | obj members => !members.isEmpty

def ofStrings (texts : List String) : Json := arr (texts.map fun (text : String) => str text)

def ofNat (n : Nat) : Json := int n

def ofMembers (members : List (String × Json)) : Json :=
  obj (members.map fun (key, value) => (Points.ofString key, value))

/-- Sets the value of a key: in its place if the object has it, at the end otherwise. -/
def put (key : Points) (value : Json) : List (Points × Json) → List (Points × Json)
  | [] => [(key, value)]
  | (k, v) :: members =>
    if k = key then (k, value) :: members else (k, v) :: put key value members

def member? (members : List (Points × Json)) (key : String) : Option Json :=
  members.lookup (Points.ofString key)

def find? (key : String) : Json → Option Json
  | obj members => member? members key
  | _ => none

def isStr (text : String) : Json → Bool
  | str s => s == Points.ofString text
  | _ => false

/-- The integer that a value counts as: true is one, false is zero, and a number without decimals
is an integer. -/
def asInt? : Json → Option Int
  | bool b => some (if b then 1 else 0)
  | int n => some n
  | real x => x.toInt?
  | _ => none

/-- Whether two values are one and the same id. Numbers of the same size are, and so is what is no
number with itself. -/
def isSameId (a b : Json) : Bool :=
  match a.asInt?, b.asInt? with
  | some m, some n => m == n
  | none, none =>
    match a, b with
    | null, null => true
    | real x, real y => x == y
    | str s, str t => s == t
    | _, _ => false
  | _, _ => false

def isHashable : Json → Bool
  | arr _ => false
  | obj _ => false
  | _ => true

end Json

end CodeAtlas
