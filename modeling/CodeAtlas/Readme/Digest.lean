import CodeAtlas.Readme.Entities
import CodeAtlas.Text.Lines

/-! The digest of a report, which a model is to write about. -/

namespace CodeAtlas.Readme

open Json (Fault)
open Text (Points)

def title : String := "# Project Code Structure Summary\n"

def isObject : Json → Bool
  | .obj _ => true
  | _ => false

def isTyped : Json → Bool
  | .obj members => Json.hasKey members "type"
  | _ => false

/-- What a report speaks of: its children, else its files, else all its values that say what type
they are of. -/
def subjects (members : List (Points × Json)) : Except Fault (List Json) :=
  match Json.member? members "children" with
  | some children => children.parts
  | none =>
    match Json.member? members "files" with
    | some (.arr files) => .ok files
    | _ =>
      if ((Json.member? members "type").getD .null).isStr "project" then .ok []
      else .ok ((members.map Prod.snd).filter isTyped)

def subjectLines (subject : Json) : Except Fault (List Points) := do
  if isObject subject then
    let lines ← entities 0 (.ofJson subject)
    return if lines.isEmpty then [] else lines ++ [[]]
  else return []

def digest (report : Json) : Except Fault Points := do
  match report with
  | .obj members =>
    let lines ← (← subjects members).mapM subjectLines
    return Text.joinLines (title :: lines.flatten)
  | _ => return "Invalid JSON structure."

end CodeAtlas.Readme
