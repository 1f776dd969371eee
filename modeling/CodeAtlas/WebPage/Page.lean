import CodeAtlas.Child
import CodeAtlas.Json.Value
import CodeAtlas.Text.ShellWords
import CodeAtlas.WebPage.Archive

/-! The web page: it takes an archive, runs the pipeline on what it holds, and shows the results.
What the page shows is a list of elements, in order. -/

namespace CodeAtlas.WebPage

open Child (Scene Ending)

structure Element where
  name : String
  arguments : List Json
  options : List (String × Json)
  download : Option Archive
  deriving Repr

def Element.shows (name text : String) : Element := ⟨name, [.str text], [], none⟩

def Element.labelled (name label : String) (options : List (String × Json)) : Element :=
  ⟨name, [.str label], options, none⟩

structure Controls where
  skipBuild : Bool
  noOpen : Bool
  extraWords : String
  showLogs : Bool
  generate : Bool
  listContents : Bool
  deriving DecidableEq, Repr

inductive Content
  | unreadable (message : String)
  | foreign
  | archive (members : Archive)
  deriving Repr

structure Upload where
  name : String
  bytes : List UInt8
  content : Content
  deriving Repr

structure Places where
  root : String
  interpreter : String
  upload : String
  unpacked : String

def Places.readme (p : Places) : String := p.root ++ "/README_docs.md"
def Places.docs (p : Places) : String := p.root ++ "/docs"
def Places.html (p : Places) : String := p.docs ++ "/index.html"
def Places.pipeline (p : Places) : String := p.root ++ "/run_docs.py"

inductive Failure
  | upload (message : String)
  | foreignFile
  | unpack (error : UnpackError)
  | file (error : FileError)
  | refused (message : String)
  deriving Repr

def Failure.message : Failure → String
  | .upload message => message
  | .foreignFile => "File is not a zip file"
  | .unpack error => error.message
  | .file error => error.message
  | .refused message => message

structure Page where
  scene : Scene
  elements : List Element

abbrev Run := ExceptT Failure (StateM Page)

def add (e : Element) : Run Unit := modify fun p => { p with elements := p.elements ++ [e] }

def addAll (es : List Element) : Run Unit :=
  modify fun p => { p with elements := p.elements ++ es }

def disk : Run Disk := return (← get).scene.disk

def setDisk (d : Disk) : Run Unit :=
  modify fun p => { p with scene := { p.scene with disk := d } }

def tidy (change : Disk → Except FileError Disk) : Run Unit := do
  match change (← disk) with
  | .ok d => setDisk d
  | .error _ => return ()

def form : List Element :=
  [⟨"set_page_config", [],
      [("page_title", .str "Auto Document Generator"), ("layout", .str "wide")], none⟩,
    .shows "title" "Auto Document Generation — Web UI",
    .shows "write"
      "Upload a zipped project and this app will run the documentation pipeline and show results.",
    .labelled "file_uploader" "Upload project as ZIP"
      [("type", .ofStrings ["zip"]),
        ("help", .str "Compress your project folder to .zip and upload here.")],
    ⟨"columns", [.int 2], [], none⟩,
    .shows "enter" "column0",
    .labelled "checkbox" "Skip building parsers (`--skip-build`)" [("value", .bool false)],
    .labelled "checkbox" "Don't open HTML (recommended for server)" [("value", .bool true)],
    .shows "exit" "column0",
    .shows "enter" "column1",
    .labelled "text_input" "Extra args for run_docs.py (optional)"
      [("value", .str ""), ("placeholder", .str "e.g. --some-flag value")],
    .labelled "checkbox" "Show run logs (stdout/stderr)" [("value", .bool true)],
    .shows "exit" "column1",
    .shows "button" "Generate docs"]

def listingLength : Nat := 200

def listContents (content : Content) : Run Unit := do
  match content with
  | .archive members =>
    addAll [.shows "write" s!"Sample of zip contents (first {listingLength} entries):",
      ⟨"write", [.ofStrings ((members.map Member.name).take listingLength)], [], none⟩]
  | _ => add (.shows "error" ("Cannot read zip: " ++ Failure.foreignFile.message))

def unpackUpload (p : Places) (content : Content) : Run (Except Failure Unit) := do
  match content with
  | .archive members =>
    match unpackAll p.unpacked (← disk) members with
    | .ok d =>
      setDisk d
      return .ok ()
    | .error (e, d) =>
      setDisk d
      return .error (.unpack e)
  | _ => return .error .foreignFile

/-- The words that a visitor adds. A text that is no proper command line is one word. -/
def extraWords (text : String) : List String :=
  if text = "" then [] else (Text.ShellWords.split? text).getD [text]

def command (p : Places) (c : Controls) (target : String) : List String :=
  [p.interpreter, p.pipeline, "--root", target]
    ++ (if c.skipBuild then ["--skip-build"] else [])
    ++ (if c.noOpen then ["--no-open"] else [])
    ++ extraWords c.extraWords

def removeUnpacked (p : Places) : Run Unit := tidy fun d => .ok (d.removeAll p.unpacked)

/-- What follows when the pipeline is over. If that is by a failure to run it, what was unpacked is
taken away. -/
def concludeLaunch (p : Places) : Ending → Run (Int × Option String × Option String)
  | .ended code out err => do
    add (.shows "exit" "spinner")
    return (code, out, err)
  | .refused message => do
    add (.shows "error" s!"Failed to run pipeline: {message}")
    removeUnpacked p
    add (.shows "exit" "spinner")
    throw (.refused message)

def launch (p : Places) (words : List String) : Run (Int × Option String × Option String) := do
  addAll
    [.shows "spinner" "Running documentation pipeline (this can take a minute or more)...",
      .shows "enter" "spinner"]
  let (ending, scene) := (← get).scene.launch ⟨.ofWords words, .capturedIn p.root⟩
  modify fun page => { page with scene }
  concludeLaunch p ending

def logs (out err : Option String) : List Element :=
  [.shows "subheader" "Process output",
    .shows "markdown" "**STDOUT**",
    .shows "code" ((Child.written out).getD "<no stdout>"),
    .shows "markdown" "**STDERR**",
    .shows "code" ((Child.written err).getD "<no stderr>")]

def verdict (code : Int) : Element :=
  if code ≠ 0 then .shows "error" s!"Pipeline failed with exit code {code}. See logs above."
  else .shows "success" "Pipeline completed successfully."

def readShown (d : Disk) (path : String) : Except String String :=
  match d.read path with
  | .error e => .error e.message
  | .ok bytes =>
    match Text.Utf8.readText bytes with
    | .error e => .error e.message
    | .ok text => .ok text

/-- Whether something is there. A path that cannot be looked for ends the page. -/
def isThere (path : String) : Run Bool := do
  match (← disk).check path with
  | .ok there => return there
  | .error e => throw (.file e)

def readmePart (d : Disk) (p : Places) (there : Bool) : List Element :=
  if there then
    .shows "subheader" "Generated README (`README_docs.md`)" ::
      match readShown d p.readme with
      | .ok text => [.labelled "markdown" text [("unsafe_allow_html", .bool true)]]
      | .error message => [.shows "error" s!"Failed to load README_docs.md: {message}"]
  else [.shows "warning" "README_docs.md not found in app root after pipeline."]

def htmlPart (d : Disk) (p : Places) (there : Bool) : List Element :=
  if there then
    .shows "subheader" "Generated HTML (`docs/index.html`) preview" ::
      match readShown d p.html with
      | .ok text =>
        [.labelled "components.html" text [("height", .int 800), ("scrolling", .bool true)]]
      | .error message => [.shows "error" s!"Failed to show HTML preview: {message}"]
  else [.shows "info" "No docs/index.html found. Maybe md->html step was skipped or failed."]

def downloadPart (d : Disk) (p : Places) (there : Bool) : List Element :=
  if there then
    .shows "subheader" "Download generated docs" ::
      match pack d p.docs with
      | .ok members =>
        [⟨"download_button", [.str "Download docs as ZIP"], [("file_name", .str "docs.zip")],
          some members⟩]
      | .error e => [.shows "error" ("Failed to create docs ZIP: " ++ e.message)]
  else [.shows "info" "No docs directory to download."]

def cleanUp (p : Places) : Run Unit := do
  tidy fun d => d.remove p.upload
  removeUnpacked p
  add (.shows "info" "Temporary files cleaned up.")

def present (p : Places) (code : Int) : Run Unit := do
  add (verdict code)
  let d ← disk
  addAll (readmePart d p (← isThere p.readme))
  addAll (htmlPart d p (← isThere p.html))
  addAll (downloadPart d p (← isThere p.docs))
  cleanUp p

def runPipeline (p : Places) (c : Controls) : Run Unit := do
  let target := projectRoot (← disk) p.unpacked
  add (.shows "success" s!"Detected project root: {target}")
  let words := command p c target
  addAll [.shows "write" "Running pipeline command:", .shows "code" (" ".intercalate words)]
  let (code, out, err) ← launch p words
  if c.showLogs then addAll (logs out err)
  present p code

def generate (p : Places) (c : Controls) (content : Content) : Run Unit := do
  tidy fun d => d.makeFolder p.unpacked
  add (.shows "info" ("Extracting to: " ++ p.unpacked))
  match ← unpackUpload p content with
  | .error e =>
    add (.shows "error" ("Failed to extract zip: " ++ e.message))
    throw e
  | .ok () => runPipeline p c

def receive (p : Places) (c : Controls) (upload : Upload) : Run Unit := do
  match upload.content with
  | .unreadable message =>
    tidy fun d => d.write p.upload []
    add (.shows "error" s!"Failed saving uploaded file: {message}")
    throw (.upload message)
  | content =>
    tidy fun d => d.write p.upload upload.bytes
    addAll [.shows "info" "Uploaded zip saved. Ready to extract.",
      ⟨"write", [.str "File name:", .str upload.name], [], none⟩,
      .shows "button" "List zip contents"]
    if c.listContents then listContents content
    if c.generate then generate p c content

def run (p : Places) (c : Controls) (upload : Option Upload) : Run Unit := do
  addAll form
  match upload with
  | some upload => receive p c upload
  | none => return ()

end CodeAtlas.WebPage
