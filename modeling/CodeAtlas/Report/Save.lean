import CodeAtlas.Disk.Basic
import CodeAtlas.Json.Pieces
import CodeAtlas.Json.Reader

/-! Saving a report as JSON text, and reading it back. -/

namespace CodeAtlas.Report

open Text (Points)
open Text.Utf8 (Unencodable)

def savedText (report : Json) : String := report.toText .saved

inductive SaveError
  | file (error : FileError)
  | encoding (error : Unencodable)
  deriving DecidableEq, Repr

def SaveError.message : SaveError → String
  | .file error => error.message
  | .encoding error => error.message

/-- The first piece that has no bytes, with all that stands before it. -/
def firstUnencodable? : List Points → Option (Points × Unencodable)
  | [] => none
  | piece :: pieces =>
    match Text.Utf8.unencodableFrom? 0 piece with
    | some u => some ([], u)
    | none => (firstUnencodable? pieces).map fun (before, u) => (piece ++ before, u)

def prepare (path : String) (d : Disk) : Except (FileError × Disk) Disk :=
  let folder := Path.dirName path
  if folder = "" then .ok d else d.needFolders folder

/-- Writes a report, and makes the folders that its path needs. If a text in it cannot be written,
the file ends before it. -/
def save (report : Json) (path : String) (d : Disk) : Except (SaveError × Disk) Disk :=
  let put (text : String) : Except (SaveError × Disk) Disk :=
    match prepare path d >>= fun d => d.attempt fun d => d.writeText path text with
    | .ok d => .ok d
    | .error (e, d) => .error (.file e, d)
  match firstUnencodable? (report.pieces 0) with
  | none => put (savedText report)
  | some (before, u) => do
    let d ← put before.replaced
    throw (.encoding u, d)

def savedMessage (path : String) : String := s!"✅ Documentation generated: {path}"

inductive LoadError
  | file (error : FileError)
  | encoding (error : Text.Utf8.Malformed)
  | json (error : Json.ReadError)
  deriving Repr

def LoadError.message : LoadError → String
  | .file error => error.message
  | .encoding error => error.message
  | .json error => error.message

def load (d : Disk) (path : String) : Except LoadError Json :=
  match d.read path with
  | .error e => .error (.file e)
  | .ok bytes =>
    match Text.Utf8.readText bytes with
    | .error e => .error (.encoding e)
    | .ok text =>
      match Json.ofText text with
      | .error e => .error (.json e)
      | .ok j => .ok j

end CodeAtlas.Report
