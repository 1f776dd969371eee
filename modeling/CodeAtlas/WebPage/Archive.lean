import CodeAtlas.Disk.Basic

/-! Archives of named members. A name that ends in a slash stands for a folder. -/

namespace CodeAtlas.WebPage

/-- Why a member cannot be unpacked, and what is written of it until this shows. Of a member that
cannot even be opened nothing is written, not an empty file either. -/
structure Flaw where
  message : String
  written : Option (List UInt8)
  deriving DecidableEq, Repr

structure Member where
  name : String
  bytes : List UInt8
  flaw : Option Flaw := none
  deriving DecidableEq, Repr

/-- The member of a name, which ends at the first null character. -/
def Member.named (name : String) (bytes : List UInt8) : Member :=
  { name := String.ofList (name.toList.takeWhile (· ≠ '\x00')), bytes }

abbrev Archive := List Member

def Member.isFolder (m : Member) : Bool := Path.endsInSlash m.name

/-- The parts of a name that count. None of them leads upwards or out of a folder. -/
def memberParts (name : String) : List String := (Path.parts name).filter (· ≠ "..")

def memberPath (folder name : String) : String :=
  Path.normalize (Path.join folder ("/".intercalate (memberParts name)))

inductive UnpackError
  | file (error : FileError)
  | nameless
  | damaged (message : String)
  deriving DecidableEq, Repr

def UnpackError.message : UnpackError → String
  | .file error => error.message
  | .nameless => "string index out of range"
  | .damaged message => message

def UnpackError.ofFile {α : Type} (result : Except (FileError × Disk) α) :
    Except (UnpackError × Disk) α :=
  result.mapError fun (e, d) => (.file e, d)

def unpackFile (path : String) (d : Disk) (m : Member) : Except (UnpackError × Disk) Disk :=
  match m.flaw with
  | none => UnpackError.ofFile (d.attempt fun d => d.write path m.bytes)
  | some ⟨message, none⟩ => throw (.damaged message, d)
  | some ⟨message, some bytes⟩ => do
    let d ← UnpackError.ofFile (d.attempt fun d => d.write path bytes)
    throw (.damaged message, d)

def unpack (folder : String) (d : Disk) (m : Member) : Except (UnpackError × Disk) Disk := do
  let path := memberPath folder m.name
  let above := Path.dirName path
  let d ← if d.contains above then .ok d else UnpackError.ofFile (d.needFolders above)
  if m.name = "" then throw (.nameless, d)
  if m.isFolder then UnpackError.ofFile (d.attempt fun d => d.needFolder path)
  else unpackFile path d m

def unpackAll (folder : String) (d : Disk) (members : Archive) :
    Except (UnpackError × Disk) Disk :=
  members.foldlM (unpack folder) d

def isClutter (name : String) : Bool := name = "__MACOSX" || name = ".DS_Store"

/-- The folder of the project in an unpacked archive: the only folder in it, if there is nothing
else, or all of it. -/
def projectRoot (d : Disk) (folder : String) : String :=
  let names := match d.status folder with
    | .ok t => (t.entries.map Prod.fst).filter fun name => !isClutter name
    | .error _ => []
  match names with
  | [name] =>
    let only := Path.join folder name
    if d.isFolder only then only else folder
  | _ => folder

/-- Packs the files among the entries of a folder. Links to folders are left out, and a file that
cannot be read ends it. -/
def packFiles (d : Disk) (path name : String) :
    List (String × FileTree) → Except FileError Archive
  | [] => .ok []
  | (entry, .file bytes) :: entries => do
    return { name := Path.join name entry, bytes } :: (← packFiles d path name entries)
  | (entry, .link _) :: entries => do
    let file := Path.join path entry
    if d.isFolder file then packFiles d path name entries
    else
      let bytes ← d.read file
      return { name := Path.join name entry, bytes } :: (← packFiles d path name entries)
  | (_, .folder _) :: entries => packFiles d path name entries

mutual

/-- Packs a folder, its own files before those of the folders in it. -/
def packTree (d : Disk) (path name : String) : FileTree → Except FileError Archive
  | .folder entries => do
    let files ← packFiles d path name entries
    return files ++ (← packFolders d path name entries)
  | _ => .ok []

def packFolders (d : Disk) (path name : String) :
    List (String × FileTree) → Except FileError Archive
  | [] => .ok []
  | (entry, t) :: entries => do
    let first ← packTree d (Path.join path entry) (Path.join name entry) t
    return first ++ (← packFolders d path name entries)

end

def pack (d : Disk) (path : String) : Except FileError Archive :=
  match d.status path with
  | .ok t => packTree d path "" t
  | .error _ => .ok []

end CodeAtlas.WebPage
