import CodeAtlas.Graph.Knowledge
import CodeAtlas.Report.Save

/-! Turning a saved report into a knowledge graph on disk. -/

namespace CodeAtlas.Graph

inductive Failure
  | load (error : Report.LoadError)
  | fault (fault : Json.Fault)
  | file (error : FileError)
  deriving Repr

def Failure.message : Failure → String
  | .load error => error.message
  | .fault f => f.message
  | .file error => error.message

structure Triple where
  source : Json
  relation : String
  target : Json
  deriving Repr

def firstForm (edits : List Edit) (id : Json) : Json :=
  match id with
  | .str text => .str text
  | id =>
    let found := edits.findSome? fun
      | .node known _ => if known.isSameId id then some known else none
      | .edge .. => none
    found.getD id

def setRelation (source target : Json) (relation : String) : List Triple → List Triple
  | [] => [⟨source, relation, target⟩]
  | t :: triples =>
    if t.source.isSameId source && t.target.isSameId target then { t with relation } :: triples
    else t :: setRelation source target relation triples

/-- The edges with their relations. An edge starts at a node in its first form, and keeps the form
in which its end first came. Of edges with the same ends the last relation counts. -/
def triples (edits : List Edit) : List Triple :=
  edits.foldl
    (fun found edit =>
      match edit with
      | .edge source target relation =>
        setRelation (firstForm edits source) target relation found
      | .node _ _ => found)
    []

structure Published where
  disk : Disk
  edits : List Edit
  written : Option String
  turtle : Option (String × List Triple)
  printed : List String
  failure : Option Failure

def graphFile (d : Disk) (path : String) : Except FileError Disk := do
  (← d.needPath (Path.parent path) path.length).write path []

/-- Writes the graph of a report to `output`. The triples are written too if a path for them is
given, which needs a writer for them to be installed. -/
def publishReport (d : Disk) (report : Json) (output : String) (turtlePath : Option String)
    (hasTurtleWriter : Bool) : Published :=
  let drawing := Knowledge.draw report
  match drawing.fault with
  | some fault => ⟨d, drawing.edits, none, none, [], some (.fault fault)⟩
  | none =>
    match graphFile d output with
    | .error e => ⟨d, drawing.edits, none, none, [], some (.file e)⟩
    | .ok d =>
      let saved := s!"✅ Graph saved: {output}"
      match turtlePath with
      | some path =>
        if path = "" then ⟨d, drawing.edits, some output, none, [saved], none⟩
        else if hasTurtleWriter then
          ⟨d, drawing.edits, some output, some (path, triples drawing.edits),
            [saved, s!"✅ RDF Turtle saved: {path}"], none⟩
        else
          ⟨d, drawing.edits, some output, none,
            [saved, "⚠️ Install rdflib to export RDF Turtle"], none⟩
      | none => ⟨d, drawing.edits, some output, none, [saved], none⟩

def publish (d : Disk) (input output : String) (turtlePath : Option String)
    (hasTurtleWriter : Bool) : Published :=
  match Report.load d input with
  | .error e => ⟨d, [], none, none, [], some (.load e)⟩
  | .ok report => publishReport d report output turtlePath hasTurtleWriter

end CodeAtlas.Graph
