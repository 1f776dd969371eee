import CodeAtlas.Disk.View
import CodeAtlas.Survey.Entry

/-! The survey of a folder: every visible file below it is read, in order of name, and what cannot
be read is noted with the reason. -/

namespace CodeAtlas.Survey

structure Setting where
  library : Grammar.Library
  cwd : String

structure Progress where
  loaded : List Language
  failures : List (String × String)
  deriving Repr

def Progress.none : Progress := ⟨[], []⟩

def Progress.log (p : Progress) : List String :=
  p.failures.map fun (path, message) => s!"Error parsing {path}: {message}"

def readFile (s : Setting) (path : String) (language : Language)
    (content : Except FileError (List UInt8)) (p : Progress) : Finding × Progress :=
  match content with
  | .error e => (.failed e.message, { p with failures := p.failures ++ [(path, e.message)] })
  | .ok code =>
    match Definitions.ofSource s.library language code p.loaded with
    | (.ok definitions, loaded) => (.read language definitions, { p with loaded })
    | (.error e, loaded) =>
      (.failed e.message, ⟨loaded, p.failures ++ [(path, e.message)]⟩)

def surveyFile (s : Setting) (path : String) (content : Except FileError (List UInt8))
    (p : Progress) : Entry × Progress :=
  let (finding, p) :=
    match Language.ofPath? path with
    | some language => readFile s path language content p
    | none => (.unknown, p)
  (.file (Path.baseName path) (Path.absolute s.cwd path) finding, p)

mutual

def surveyView (s : Setting) (path : String) (p : Progress) : View → Entry × Progress
  | .file content => surveyFile s path content p
  | .folder entries =>
    let (children, p) := surveyEach s path p entries
    (.folder (Path.baseName path) (Path.absolute s.cwd path) children, p)

def surveyEach (s : Setting) (path : String) (p : Progress) :
    List (String × View) → List Entry × Progress
  | [] => ([], p)
  | (name, seen) :: entries =>
    let (first, p) := surveyView s (Path.join path name) p seen
    let (rest, p) := surveyEach s path p entries
    (first :: rest, p)

end

/-- Surveys what a path leads to on a disk. A path that leads nowhere counts as a file. -/
def survey (lib : Grammar.Library) (d : Disk) (path : String) (p : Progress) : Entry × Progress :=
  surveyView ⟨lib, d.cwd⟩ path p (d.view path)

/-- Surveys with the rights that there are. A folder that may not be listed ends the survey. -/
def walk (lib : Grammar.Library) (r : Disk.Rights) (d : Disk) (path : String) (p : Progress) :
    Except FileError (Entry × Progress) :=
  (d.look r path).map (surveyView ⟨lib, d.cwd⟩ path p)

end CodeAtlas.Survey
