import CodeAtlas.Graph.Drawing
import CodeAtlas.Json.Display
import CodeAtlas.Report.Node

/-! The knowledge graph of a report: folders, files with their languages, classes, functions and the
variables that functions use. The id of a definition says what kind of thing it is. -/

namespace CodeAtlas.Graph.Knowledge

open Drawing
open Text (Points)

def idBelow (id : Json) (kind : String) (name : Json) : Json :=
  .str (id.display ++ Points.ofString s!"::{kind}::" ++ name.display)

def drawVariable (function : Json) (name : Json) : Drawing :=
  let id := idBelow function "var" name
  ofEdits [.node id [("type", .str "variable"), ("name", name)], .edge function id "uses"]

def drawFunction (holder : Json) (function : Json) : Drawing :=
  after (function.require "name") fun name =>
    let id := idBelow holder "func" name
    ofEdits [.node id [("type", .str "function"), ("name", name)], .edge holder id "defines"]
      ++ eachAt function "variables" (drawVariable id)

def drawClass (file : Json) (cls : Json) : Drawing :=
  after (cls.require "name") fun name =>
    let id := idBelow file "class" name
    ofEdits [.node id [("type", .str "class"), ("name", name)], .edge file id "defines"]
      ++ eachAt cls "functions" (drawFunction id)

def drawDefinitions (file definitions : Json) : Drawing :=
  eachAt definitions "classes" (drawClass file)
    ++ eachAt definitions "functions" (drawFunction file)

/-- What a node is known by: its path, else its name, which has to be there. -/
def nodeId (node : Json) : Except Json.Fault Json := do
  if ← node.contains "path" then node.require "path" else node.require "name"

def drawSelf (parent id name type language : Json) : Drawing :=
  node id [("name", name), ("type", type), ("language", language)] ++ contained parent id

mutual

def drawNode (parent : Json) : Report.Node → Drawing
  | .value j => after (nodeId j) fun _ => ⟨[], some (.noAttribute j.kind "get")⟩
  | .object members children =>
    let node := Json.obj members
    after (nodeId node) fun id =>
    after (node.require "name") fun name =>
    after (node.require "type") fun type =>
      drawSelf parent id name type ((Json.member? members "language").getD (.str ""))
        ++ (if type.isStr "file" then
            match Json.member? members "definitions" with
            | some definitions => drawDefinitions id definitions
            | none => empty
          else empty)
        ++ after (Report.checkChildren members) fun _ => drawNodes id children

def drawNodes (parent : Json) : List Report.Node → Drawing
  | [] => empty
  | node :: nodes => drawNode parent node ++ drawNodes parent nodes

end

def draw (report : Json) : Drawing := drawNode .null (.ofJson report)

end CodeAtlas.Graph.Knowledge
