import CodeAtlas.Json.Display
import CodeAtlas.Report.Node

/-! The lines that tell a reader what a report holds: one for each file, module, class, function and
variable, indented by two spaces a level. -/

namespace CodeAtlas.Readme

open Json (Fault)
open Text (Points)

def indentation (level : Int) : String := String.ofList (List.replicate (2 * level.toNat) ' ')

/-- What a node says it is, in small letters. All the words that are told apart are ASCII, and no
other character has an ASCII letter of theirs as its small form. -/
def nodeType (members : List (Points × Json)) : Except Fault String :=
  match (Json.member? members "type").getD (.str "") with
  | .str s => .ok s.replaced.toLower
  | j => .error (.noAttribute j.kind "lower")

def nodeName (members : List (Points × Json)) : Points :=
  let present key := (Json.member? members key).filter Json.isPresent
  match present "name", present "path" with
  | some name, _ => name.display
  | none, some path => path.display
  | none, none => "unknown"

def shownAt (members : List (Points × Json)) (key default : String) : Points :=
  ((Json.member? members key).map Json.display).getD default

def variableWidth : Nat := 100

def methodLines (margin : String) (members : List (Points × Json)) :
    Except Fault (List Points) := do
  match Json.member? members "methods" with
  | none => return []
  | some methods =>
    return (← methods.parts).map fun method =>
      (s!"{margin}  - Method: `" : Points) ++ method.display ++ "`"

/-- The line of a node that may hold others. A node of no known type has one only if it does. -/
def holderLine? (type margin : String) (name : Points) (members : List (Points × Json)) :
    Option Points :=
  if type = "file" then
    some ((s!"{margin}📄 **File**: `" : Points) ++ name ++ "` | Language: `"
      ++ shownAt members "language" "unknown" ++ "`")
  else if type = "module" then some ((s!"{margin}📦 Module: `" : Points) ++ name ++ "`")
  else if Json.hasKey members "children" then some ((s!"{margin}📁 " : Points) ++ name)
  else none

mutual

def entities (level : Int) : Report.Node → Except Fault (List Points)
  | .value j => .error (.noAttribute j.kind "get")
  | .object members children => do
    let type ← nodeType members
    let margin := indentation level
    let name := nodeName members
    if type = "class" then
      return ((s!"{margin}CppClass `" : Points) ++ name ++ "`") :: (← methodLines margin members)
    else if type = "function" then
      return [(s!"{margin}CppMethod `" : Points) ++ name ++ shownAt members "signature" "" ++ "`"]
    else if type = "variable" then
      let line := (s!"{margin}CppMethod Variable: `" : Points) ++ name ++ "` = `"
        ++ shownAt members "value" "" ++ "`"
      return [line.take variableWidth]
    else
      Report.checkChildren members
      let below ← entitiesAll (level + 1) children
      return (holderLine? type margin name members).toList ++ below

def entitiesAll (level : Int) : List Report.Node → Except Fault (List Points)
  | [] => return []
  | node :: nodes => do
    let first ← entities level node
    let rest ← entitiesAll level nodes
    return first ++ rest

end

end CodeAtlas.Readme
