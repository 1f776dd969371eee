import CodeAtlas.Graph.Drawing
import CodeAtlas.Json.Display
import CodeAtlas.Report.Node

/-! The graph of a report: folders, files, classes and functions. The id of a definition is that of
what holds it, a colon, and its name. -/

namespace CodeAtlas.Graph.Outline

open Drawing
open Text (Points)

def idBelow (id name : Json) : Json := .str (id.display ++ Points.ofString ":" ++ name.display)

def drawFunction (holder : Json) (relation : String) (function : Json) : Drawing :=
  after (function.require "name") fun name =>
    let id := idBelow holder name
    ofEdits [.node id [("type", .str "function"), ("name", name)], .edge holder id relation]

def drawClass (file : Json) (cls : Json) : Drawing :=
  after (cls.require "name") fun name =>
    let id := idBelow file name
    ofEdits [.node id [("type", .str "class"), ("name", name)], .edge file id "defines"]
      ++ eachAt cls "functions" (drawFunction id "hasMethod")

def drawDefinitions (file definitions : Json) : Drawing :=
  eachAt definitions "classes" (drawClass file)
    ++ eachAt definitions "functions" (drawFunction file "defines")

def nodeId (members : List (Points × Json)) : Json :=
  (Json.member? members "path").getD ((Json.member? members "name").getD .null)

def drawSelf (parent id type name : Json) : Drawing :=
  node id [("type", type), ("name", name)] ++ contained parent id

mutual

def drawNode (parent : Json) : Report.Node → Drawing
  | .value j => ⟨[], some (.noAttribute j.kind "get")⟩
  | .object members children =>
    let id := nodeId members
    after ((Json.obj members).require "type") fun type =>
    after ((Json.obj members).require "name") fun name =>
      drawSelf parent id type name
        ++ (if type.isStr "file" then
            match Json.member? members "definitions" with
            | some definitions => drawDefinitions id definitions
            | none => empty
          else empty)
        ++ after (Report.checkChildren members) fun _ => drawNodes id children

def drawNodes (parent : Json) : List Report.Node → Drawing
  | [] => empty
  | node :: nodes => drawNode parent node ++ drawNodes parent nodes

end

def draw (report : Json) : Drawing := drawNode .null (.ofJson report)

end CodeAtlas.Graph.Outline
