import CodeAtlas.Json.Access

/-! A report as a tree. Reports may come from anywhere, so a node is any JSON value; what stands
under the key `children` of an object is what lies below it. -/

namespace CodeAtlas.Report

open Text (Points)

inductive Node
  | object (members : List (Points × Json)) (children : List Node)
  | value (j : Json)
  deriving Repr

mutual

def Node.ofJson : Json → Node
  | .obj members => .object members (Node.childrenOf members)
  | j => .value j

def Node.childrenOf : List (Points × Json) → List Node
  | [] => []
  | (key, j) :: members =>
    if key = Points.ofString "children" then Node.partsOf j else Node.childrenOf members

/-- The parts of a value as nodes. The parts of an object are its keys, those of a text its
characters. -/
def Node.partsOf : Json → List Node
  | .arr items => Node.ofJsonAll items
  | .obj members => members.map fun (key, _) => .value (.str key)
  | .str s => s.map fun p => .value (.str [p])
  | _ => []

def Node.ofJsonAll : List Json → List Node
  | [] => []
  | j :: js => Node.ofJson j :: Node.ofJsonAll js

end

def Node.toJson : Node → Json
  | .object members _ => .obj members
  | .value j => j

/-- Whether the children of an object can be gone through. An object without children has none to
go through, which is fine. -/
def checkChildren (members : List (Points × Json)) : Except Json.Fault Unit :=
  match Json.member? members "children" with
  | none => .ok ()
  | some j =>
    match j.parts with
    | .ok _ => .ok ()
    | .error fault => .error fault

end CodeAtlas.Report
