import CodeAtlas.CommandLine
import CodeAtlas.Readme.Author
import CodeAtlas.Readme.Digest
import CodeAtlas.Readme.Prompt
import CodeAtlas.Report.Save

/-! The command that has a README written from a saved report. -/

namespace CodeAtlas.Command.Readme

open CodeAtlas.Readme (Answer)
open Text (Points)

structure Settings where
  json : CommandLine.Value
  output : CommandLine.Value
  model : CommandLine.Value
  deriving DecidableEq, Repr

def options : CommandLine.Options := ⟨["json", "out", "model"], [], ["json"]⟩

def Settings.ofCommandLine (s : CommandLine.Settings) : Settings :=
  { json := s.valueD "json" ""
    output := s.valueD "out" "README_docs.md"
    model := s.valueD "model" CodeAtlas.Readme.defaultModel }

inductive Failure
  | noPath
  | load (error : Report.LoadError)
  | fault (error : Json.Fault)
  | refused (message : String)
  | notText (kind : Json.Kind)
  | file (error : FileError)
  | encoding (error : Text.Utf8.Unencodable)
  deriving Repr

def Failure.message : Failure → String
  | .noPath => CommandLine.noPathMessage
  | .load error => error.message
  | .fault error => error.message
  | .refused message => message
  | .notText kind => s!"data must be str, not {kind.name}"
  | .file error => error.message
  | .encoding error => error.message

def promptOf (report : Json) : Except Failure Points :=
  match CodeAtlas.Readme.digest report with
  | .error e => .error (.fault e)
  | .ok digest => .ok (CodeAtlas.Readme.prompt digest)

def promptFor (d : Disk) (path : CommandLine.Value) : Except Failure Points :=
  match path with
  | none => .error .noPath
  | some path =>
    match Report.load d path with
    | .error e => .error (.load e)
    | .ok report => promptOf report

def content : Answer → Except Failure Json
  | .text j => .ok j
  | .shown s => .ok (.str s)
  | .refused message => .error (.refused message)

/-- Writes a text to a file. A text without bytes leaves an empty file behind. -/
def store (d : Disk) (path : String) (text : Points) : Except Failure Unit × Disk :=
  match d.write path [], Text.Utf8.encodePoints text with
  | .error e, _ => (.error (.file e), d)
  | .ok d, .error u => (.error (.encoding u), d)
  | .ok d, .ok bytes =>
    match d.write path bytes with
    | .ok d => (.ok (), d)
    | .error e => (.error (.file e), d)

def publish (d : Disk) (path : CommandLine.Value) (sent : Json) : Except Failure String × Disk :=
  match path, sent with
  | none, _ => (.error .noPath, d)
  | some path, .str text =>
    match store d (Path.clean path) text with
    | (.error e, d) => (.error e, d)
    | (.ok (), d) =>
      match d.resolve (Path.clean path) with
      | .ok place => (.ok place, d)
      | .error e => (.error (.file e), d)
  | some _, j => (.error (.notText j.kind), d)

structure Outcome where
  disk : Disk
  printed : List String
  prompt : Option Points
  failure : Option Failure

def failed (d : Disk) (prompt : Option Points) (e : Failure) : Outcome :=
  ⟨d, ["❌ Failed: " ++ e.message], prompt, some e⟩

def run (d : Disk) (settings : Settings) (ask : CommandLine.Value → Points → Answer) : Outcome :=
  match promptFor d settings.json with
  | .error e => failed d none e
  | .ok prompt =>
    match content (ask settings.model prompt) with
    | .error e => failed d (some prompt) e
    | .ok sent =>
      match publish d settings.output sent with
      | (.error e, d) => failed d (some prompt) e
      | (.ok place, d) => ⟨d, ["✅ Deep README generated: " ++ place], some prompt, none⟩

end CodeAtlas.Command.Readme
