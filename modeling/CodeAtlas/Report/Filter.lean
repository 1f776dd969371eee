import CodeAtlas.Report.Node

/-! The MeTTa part of a report: files of other languages are left out, and folders that hold
nothing else. -/

namespace CodeAtlas.Report

open Json (Fault)

mutual

/-- What is kept of a node, if anything. A node that is neither file nor folder is kept as it is. -/
def keepMetta : Node → Except Fault (Option Json)
  | .value j => do
    let _ ← j.require "type"
    return some j
  | .object members children => do
    let type ← (Json.obj members).require "type"
    if type.isStr "file" then
      let language := (Json.member? members "language").getD .null
      return if language.isStr "metta" then some (.obj members) else none
    else if type.isStr "folder" then
      checkChildren members
      let kept ← keepMettaAll children
      if kept.isEmpty then return none
      else return some (.obj (Json.put (Text.Points.ofString "children") (.arr kept) members))
    else return some (.obj members)

def keepMettaAll : List Node → Except Fault (List Json)
  | [] => return []
  | node :: nodes => do
    let kept ← keepMetta node
    let rest ← keepMettaAll nodes
    return kept.toList ++ rest

end

def mettaOnly (report : Json) : Except Fault Json := do
  return (← keepMetta (.ofJson report)).getD .null

end CodeAtlas.Report
