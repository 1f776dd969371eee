/-! Paths are texts whose parts are divided by slashes. These functions look at the text alone,
never at a disk. -/

namespace CodeAtlas.Path

def pieces : List Char → List (List Char)
  | [] => [[]]
  | c :: cs =>
    if c = '/' then [] :: pieces cs
    else
      match pieces cs with
      | [] => [[c]]
      | p :: ps => (c :: p) :: ps

def isAbsolute (path : String) : Bool := path.toList.head? = some '/'

def endsInSlash (path : String) : Bool := path.toList.getLast? = some '/'

def join (base name : String) : String :=
  if isAbsolute name then name
  else if base.isEmpty || endsInSlash base then base ++ name
  else base ++ "/" ++ name

def baseName (path : String) : String := String.ofList ((pieces path.toList).getLastD [])

def dropTrailingSlashes (cs : List Char) : List Char := (cs.reverse.dropWhile (· = '/')).reverse

def dirName (path : String) : String :=
  let head := (path.toList.reverse.dropWhile (· ≠ '/')).reverse
  String.ofList (if head.all (· = '/') then head else dropTrailingSlashes head)

/-- The last dot of the name with all that follows it. Dots that start the name do not count. -/
def extension (path : String) : String :=
  let name := (baseName path).toList.dropWhile (· = '.')
  if name.contains '.' then
    String.ofList ('.' :: (name.reverse.takeWhile (· ≠ '.')).reverse)
  else ""

/-- The slashes that a path keeps at its start: two if there are just two, else one or none. -/
def lead (path : String) : String :=
  match path.toList with
  | '/' :: '/' :: '/' :: _ => "/"
  | '/' :: '/' :: _ => "//"
  | '/' :: _ => "/"
  | _ => ""

def parts (path : String) : List String :=
  ((pieces path.toList).map String.ofList).filter fun part => part ≠ "" && part ≠ "."

/-- Lets each `..` undo the part before it. What cannot be undone stays, or is lost at the root.
The parts done so far are given last first. -/
def settle (rooted : Bool) (done : List String) : List String → List String
  | [] => done.reverse
  | part :: rest =>
    if part = ".." then
      match done with
      | [] => settle rooted (if rooted then [] else [".."]) rest
      | ".." :: _ => settle rooted (".." :: done) rest
      | _ :: before => settle rooted before rest
    else settle rooted (part :: done) rest

def assemble (lead : String) (parts : List String) : String :=
  let path := lead ++ "/".intercalate parts
  if path = "" then "." else path

def normalize (path : String) : String :=
  assemble (lead path) (settle (lead path ≠ "") [] (parts path))

def absolute (cwd path : String) : String := normalize (join cwd path)

def clean (path : String) : String := assemble (lead path) (parts path)

def parent (path : String) : String :=
  match (parts path).reverse with
  | [] => clean path
  | _ :: before => assemble (lead path) before.reverse

end CodeAtlas.Path
