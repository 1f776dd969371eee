import CodeAtlas.Disk.FileTree
import CodeAtlas.Path
import CodeAtlas.Text.Quoted
import CodeAtlas.Text.Utf8

/-! A disk with a current folder. Paths lead through folders and links; an operation that cannot be
done says why, with the path as it was given. -/

namespace CodeAtlas

inductive FileError.Cause
  | notFound
  | denied
  | alreadyThere
  | notFolder
  | isFolder
  | nameTooLong
  | tooManyLinks
  | nullByte
  deriving DecidableEq, Repr

structure FileError where
  cause : FileError.Cause
  path : String
  deriving DecidableEq, Repr

/-- A path that cannot be a path is not shown. -/
def FileError.message (e : FileError) : String :=
  let about (what : String) := what ++ ": " ++ Text.quoted e.path
  match e.cause with
  | .notFound => about "[Errno 2] No such file or directory"
  | .denied => about "[Errno 13] Permission denied"
  | .alreadyThere => about "[Errno 17] File exists"
  | .notFolder => about "[Errno 20] Not a directory"
  | .isFolder => about "[Errno 21] Is a directory"
  | .nameTooLong => about "[Errno 36] File name too long"
  | .tooManyLinks => about "[Errno 40] Too many levels of symbolic links"
  | .nullByte => "embedded null byte"

structure Disk where
  root : FileTree
  here : List String

namespace Disk

/-- Links on the way to a place are followed, but no more of them than this. -/
def maxLinks : Nat := 40

def maxName : Nat := 255

def maxPath : Nat := 4095

def names (path : String) : List String :=
  ((Path.pieces path.toList).map String.ofList).filter (· ≠ "")

/-- The steps that a path takes. A slash at the end asks for a folder, as a dot would. -/
def steps (path : String) : List String :=
  names path ++ if Path.endsInSlash path then ["."] else []

def lookUp (root : FileTree) (folder : List String) (name : String) :
    Except FileError.Cause (Option FileTree) :=
  if maxName < name.utf8ByteSize then .error .nameTooLong else .ok (root.get? (folder ++ [name]))

def follow (root : FileTree) (links : Nat) (here : List String) (todo : List String) :
    Except FileError.Cause (List String) :=
  match todo with
  | [] => .ok here
  | name :: rest =>
    if name = "." then follow root links here rest
    else if name = ".." then follow root links here.dropLast rest
    else
      match lookUp root here name with
      | .error cause => .error cause
      | .ok none => .error .notFound
      | .ok (some (.folder _)) => follow root links (here ++ [name]) rest
      | .ok (some (.file _)) => if rest.isEmpty then .ok (here ++ [name]) else .error .notFolder
      | .ok (some (.link target)) =>
        match links with
        | 0 => .error .tooManyLinks
        | n + 1 =>
          follow root n (if Path.isAbsolute target then [] else here) (steps target ++ rest)
termination_by (links, todo.length)

def start (d : Disk) (path : String) : List String := if Path.isAbsolute path then [] else d.here

def checkPath (path : String) : Except FileError.Cause Unit :=
  if path.toList.contains '\x00' then .error .nullByte
  else if path = "" then .error .notFound
  else if maxPath < path.utf8ByteSize then .error .nameTooLong
  else .ok ()

def locate (d : Disk) (path : String) : Except FileError.Cause (List String) := do
  checkPath path
  follow d.root maxLinks (d.start path) (steps path)

/-- The folder that a path ends in and the last name of the path, which need not be there. There is
no such name if the path ends in dots or at the root. -/
def locateEnd (d : Disk) (path : String) :
    Except FileError.Cause (List String × Option String) := do
  checkPath path
  let folder ← follow d.root maxLinks (d.start path) ((names path).dropLast ++ ["."])
  match (names path).getLast? with
  | none => return (folder, none)
  | some name => return (folder, if name = "." ∨ name = ".." then none else some name)

def status (d : Disk) (path : String) : Except FileError.Cause FileTree := do
  match d.root.get? (← d.locate path) with
  | some t => return t
  | none => throw .notFound

def contains (d : Disk) (path : String) : Bool :=
  match d.status path with
  | .ok _ => true
  | .error _ => false

/-- Whether a path leads to something, or why that cannot be said: names that are too long are not
looked for. -/
def check (d : Disk) (path : String) : Except FileError Bool :=
  match d.status path with
  | .ok _ => .ok true
  | .error .nameTooLong => .error ⟨.nameTooLong, path⟩
  | .error _ => .ok false

def isFolder (d : Disk) (path : String) : Bool :=
  match d.status path with
  | .ok t => t.isFolder
  | .error _ => false

def read (d : Disk) (path : String) : Except FileError (List UInt8) :=
  match d.status path with
  | .ok (.file bytes) => .ok bytes
  | .ok _ => .error ⟨.isFolder, path⟩
  | .error cause => .error ⟨cause, path⟩

/-- The place of a file that is to be written. The folder has to be there; the file may be new. -/
def placeToWrite (d : Disk) (path : String) : Except FileError.Cause (List String) := do
  match ← d.locateEnd path with
  | (_, none) => throw .isFolder
  | (folder, some name) =>
    if Path.endsInSlash path then throw .isFolder
    match ← lookUp d.root folder name with
    | some (.folder _) => throw .isFolder
    | some (.link _) =>
      let place ← d.locate path
      if ((d.root.get? place).map FileTree.isFolder).getD false then throw .isFolder
      return place
    | _ => return folder ++ [name]

def write (d : Disk) (path : String) (bytes : List UInt8) : Except FileError Disk :=
  match d.placeToWrite path with
  | .ok place => .ok { d with root := .put (.file bytes) place d.root }
  | .error cause => .error ⟨cause, path⟩

def writeText (d : Disk) (path text : String) : Except FileError Disk :=
  d.write path (Text.Utf8.encode text)

def placeToMake (d : Disk) (path : String) : Except FileError.Cause (List String) := do
  match ← d.locateEnd path with
  | (_, none) => throw .alreadyThere
  | (folder, some name) =>
    match ← lookUp d.root folder name with
    | some _ => throw .alreadyThere
    | none => return folder ++ [name]

def makeFolder (d : Disk) (path : String) : Except FileError Disk :=
  match d.placeToMake path with
  | .ok place => .ok { d with root := .put (.folder []) place d.root }
  | .error cause => .error ⟨cause, path⟩

def needFolder (d : Disk) (path : String) : Except FileError Disk :=
  if d.isFolder path then .ok d else d.makeFolder path

def ancestors : Nat → String → List String
  | 0, path => [path]
  | n + 1, path =>
    let above := Path.dirName path
    if above = "" || above = path then [path] else ancestors n above ++ [path]

def fillIn (d : Disk) (path : String) : Except FileError Disk :=
  if d.contains path then .ok d else d.makeFolder path

/-- A change that may fail, together with what it leaves behind. -/
def attempt (d : Disk) (change : Disk → Except FileError Disk) : Except (FileError × Disk) Disk :=
  match change d with
  | .ok d => .ok d
  | .error e => .error (e, d)

/-- Makes sure that there is a folder, after all the folders it lies in. Those that were made before
a failure stay. -/
def needFolders (d : Disk) (path : String) : Except (FileError × Disk) Disk := do
  let above := (ancestors path.length path).dropLast
  let d ← above.foldlM (fun d folder => d.attempt fun d => d.fillIn folder) d
  d.attempt fun d => d.needFolder path

/-- Makes sure that there is a folder; the folders it lies in are made only if it turns out that
they are missing. -/
def needPath (d : Disk) (path : String) : Nat → Except FileError Disk
  | 0 => d.needFolder path
  | n + 1 =>
    match d.needFolder path with
    | .error ⟨.notFound, missing⟩ =>
      let above := Path.parent path
      if above = path then .error ⟨.notFound, missing⟩
      else do (← d.needPath above n).needFolder path
    | result => result

def placeToRemove (d : Disk) (path : String) : Except FileError.Cause (List String) := do
  match ← d.locateEnd path with
  | (_, none) => throw .isFolder
  | (folder, some name) =>
    match ← lookUp d.root folder name with
    | some _ => return folder ++ [name]
    | none => throw .notFound

def remove (d : Disk) (path : String) : Except FileError Disk :=
  match d.placeToRemove path with
  | .error cause => .error ⟨cause, path⟩
  | .ok place =>
    if ((d.root.get? place).map FileTree.isFolder).getD false then .error ⟨.isFolder, path⟩
    else .ok { d with root := d.root.erase place }

def removeAll (d : Disk) (path : String) : Disk :=
  match d.placeToRemove path with
  | .error _ => d
  | .ok place => { d with root := d.root.erase place }

/-- Puts something where a path points, in place of whatever the path names. -/
def putAll (d : Disk) (path : String) (new : FileTree) : Disk :=
  match d.locateEnd path with
  | .ok (folder, some name) => { d with root := .put new (folder ++ [name]) d.root }
  | _ => d

def cwd (d : Disk) : String := "/" ++ "/".intercalate d.here

/-- Takes steps from a place and says where they lead. Links are followed; what is not there is
taken as it is named. -/
def trace (root : FileTree) (links : Nat) (here : List String) (todo : List String) :
    List String :=
  match todo with
  | [] => here
  | name :: rest =>
    if name = "." then trace root links here rest
    else if name = ".." then trace root links here.dropLast rest
    else
      match root.get? (here ++ [name]) with
      | some (.link target) =>
        match links with
        | 0 => here ++ name :: rest
        | n + 1 => trace root n (if Path.isAbsolute target then [] else here) (names target ++ rest)
      | _ => trace root links (here ++ [name]) rest
termination_by (links, todo.length)

def resolve (d : Disk) (path : String) : Except FileError String :=
  if path.toList.contains '\x00' then .error ⟨.nullByte, path⟩
  else .ok ("/" ++ "/".intercalate (trace d.root maxLinks (d.start path) (names path)))

end Disk

end CodeAtlas
