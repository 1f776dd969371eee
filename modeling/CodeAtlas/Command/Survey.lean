import CodeAtlas.CommandLine
import CodeAtlas.Embedding.Model
import CodeAtlas.Graph.Outline
import CodeAtlas.Report.Filter
import CodeAtlas.Report.Save
import CodeAtlas.Report.Summary
import CodeAtlas.Survey.Walk

/-! The command that surveys a folder: it saves the report, sums it up, draws its graph and saves
the vectors that a model gives to the nodes. -/

namespace CodeAtlas.Command.Survey

structure Settings where
  root : CommandLine.Value
  output : CommandLine.Value
  graphOutput : CommandLine.Value
  vectorOutput : CommandLine.Value
  debug : Bool
  mettaOnly : Bool
  deriving DecidableEq, Repr

def options : CommandLine.Options :=
  ⟨["root", "output", "graph-output", "emb-output"], ["debug", "metta-only"], []⟩

def Settings.ofCommandLine (s : CommandLine.Settings) : Settings :=
  { root := s.valueD "root" "."
    output := s.valueD "output" "docs/ast_summary.json"
    graphOutput := s.valueD "graph-output" "docs/ast_graph.graphml"
    vectorOutput := s.valueD "emb-output" "docs/ast_embeddings.json"
    debug := s.isSet "debug"
    mettaOnly := s.isSet "metta-only" }

inductive Failure
  | noPath
  | file (error : FileError)
  | save (error : Report.SaveError)
  | fault (fault : Json.Fault)
  deriving Repr

def Failure.message : Failure → String
  | .noPath => CommandLine.noPathMessage
  | .file error => error.message
  | .save error => error.message
  | .fault f => f.message

structure Training where
  model : List (String × Nat)
  fit : List (String × Nat)
  deriving DecidableEq, Repr

def training : Training :=
  ⟨[("dimensions", 64), ("walk_length", 20), ("num_walks", 100), ("workers", 1)],
    [("window", 10), ("min_count", 1), ("batch_words", 4)]⟩

structure Session where
  disk : Disk
  printed : List String
  logged : List String
  edits : List Graph.Edit
  written : Option String
  trained : Option Training

def Session.start (d : Disk) : Session := ⟨d, [], [], [], none, none⟩

abbrev Run := ExceptT Failure (StateM Session)

def say (lines : List String) : Run Unit :=
  modify fun s => { s with printed := s.printed ++ lines }

def check {α : Type} : Except Json.Fault α → Run α
  | .ok a => pure a
  | .error fault => throw (.fault fault)

def onDisk (change : Disk → Except FileError Disk) : Run Unit := do
  match change (← get).disk with
  | .ok disk => modify fun s => { s with disk }
  | .error e => throw (.file e)

def needPath : CommandLine.Value → Run String
  | some path => pure path
  | none => throw .noPath

def saveReport (report : Json) (path : String) : Run Unit := do
  match Report.save report path (← get).disk with
  | .ok disk => modify fun s => { s with disk }
  | .error (e, disk) =>
    modify fun s => { s with disk }
    throw (.save e)

def vectorStyle : Json.Style := ⟨some 2, true⟩

def drawGraph (report : Json) : Run Unit := do
  let drawing := Graph.Outline.draw report
  modify fun s => { s with edits := drawing.edits }
  match drawing.fault with
  | some fault => throw (.fault fault)
  | none => pure ()

def report (lib : Grammar.Library) (root : String) (debug mettaOnly : Bool) : Run Json := do
  let (entry, progress) := Survey.survey lib (← get).disk root .none
  if debug then modify fun s => { s with logged := s.logged ++ progress.log }
  if mettaOnly then check (Report.mettaOnly entry.toJson) else return entry.toJson

def saveGraph (output : CommandLine.Value) : Run Unit := do
  let path ← needPath output
  onDisk fun d => d.write path []
  modify fun s => { s with written := some path }
  say [s!"✅ Graph saved to: {path}"]

def saveVectors (model : Embedding.Model) (output : CommandLine.Value) : Run Unit := do
  modify fun s => { s with trained := some training }
  let vectors := model.embed (Graph.nodeIds (← get).edits)
  let path ← needPath output
  onDisk fun d => d.writeText path ((Json.ofMembers vectors).toText vectorStyle)
  say [s!"✅ Embeddings saved to: {path}"]

def finish (model : Embedding.Model) (settings : Settings) (found : Json) : Run Unit := do
  drawGraph found
  saveGraph settings.graphOutput
  if (← get).edits.isEmpty then say ["⚠️ Graph empty — skipping embeddings"]
  else saveVectors model settings.vectorOutput

/-- Runs the command with a model that training is taken to give. The languages are shown in the
order in which they are listed. -/
def run (lib : Grammar.Library) (model : Embedding.Model) (listed : List String)
    (settings : Settings) : Run Unit := do
  let root ← needPath settings.root
  say ["🔍 Scanning: " ++ Path.absolute (← get).disk.cwd root,
    "🌐 Languages supported: " ++ ", ".intercalate listed]
  if settings.mettaOnly then say ["🎯 MeTTa-only mode enabled"]
  let found ← report lib root settings.debug settings.mettaOnly
  let output ← needPath settings.output
  saveReport found output
  say [Report.savedMessage output]
  say (← check (Report.count found)).lines
  finish model settings found

end CodeAtlas.Command.Survey
