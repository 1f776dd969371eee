import CodeAtlas.Child
import CodeAtlas.CommandLine
import CodeAtlas.Json.Access
import CodeAtlas.Pipeline.Stage

/-! The command that runs the whole pipeline in a terminal. A stage that fails ends the command with
its own code. -/

namespace CodeAtlas.Command.Pipeline

open CodeAtlas.Pipeline (Layout Stage)
open Child (Scene Ending)

structure Settings where
  root : CommandLine.Value
  skipBuild : Bool
  noOpen : Bool
  deriving DecidableEq, Repr

def options : CommandLine.Options := ⟨["root"], ["skip-build", "no-open"], ["root"]⟩

def Settings.ofCommandLine (s : CommandLine.Settings) : Settings :=
  ⟨s.valueD "root" "", s.isSet "skip-build", s.isSet "no-open"⟩

structure Machine where
  layout : Layout
  platform : String
  hasProgram : String → Bool

inductive Stop
  | exit (code : Int)
  | refused (message : String)
  | noPath
  | file (error : FileError)
  deriving DecidableEq, Repr

structure Session where
  scene : Scene
  printed : List String
  complaints : List String

def Session.start (scene : Scene) : Session := ⟨scene, [], []⟩

abbrev Run := ExceptT Stop (StateM Session)

def say (line : String) : Run Unit :=
  modify fun s => { s with printed := s.printed ++ [line] }

def complain (line : String) : Run Unit :=
  modify fun s => { s with complaints := s.complaints ++ [line] }

def launch (l : Child.Launch) : Run Ending := do
  let s ← get
  let (ending, scene) := s.scene.launch l
  set { s with scene }
  return ending

def sayWritten (out : Option String) : Run Unit :=
  match Child.written out with
  | some text => say text
  | none => pure ()

def conclude : Ending → Run Unit
  | .refused message => throw (.refused message)
  | .ended code out err => do
    sayWritten out
    if code ≠ 0 then
      complain (s!"❌ Failed (exit {code}). stderr:\n" ++ Child.shownText err)
      throw (.exit code)

def runCommand (command : Child.Command) (folder : Option String) (title : String) : Run Unit := do
  say s!"\n🚀 {title}"
  say ("   $ " ++ command.shown)
  conclude (← launch ⟨command, .stage folder⟩)

def probeSeconds : Nat := 10

def mentions (text word : String) : Bool := Json.containsRun word.toList text.toList

/-- Whether the help of a module speaks of a word. A probe that cannot be started says no. -/
def accepts (interpreter folder module word : String) : Run Bool := do
  let command := Child.Command.ofWords [interpreter, "-m", module, "--help"]
  match ← launch ⟨command, .probe folder probeSeconds⟩ with
  | .refused _ => return false
  | .ended _ out err => return mentions (out.getD "" ++ err.getD "") word

def runWords (m : Machine) (words : List String) (title : String) : Run Unit :=
  runCommand (.ofWords words) (some m.layout.root) title

def moduleOf : Stage → String
  | .grammars => "galaxy_ast_docs.build_parsers"
  | .survey => "galaxy_ast_docs.generate_ast_docs"
  | .readme => "llm.generate_readme"
  | .page => "tools.md_to_html"

def titleOf : Stage → String
  | .grammars => "1. Building language parsers..."
  | .survey => "2. Parsing code into AST..."
  | .readme => "3. Generating README with LLM..."
  | .page => "4. Converting README to HTML..."

def wordsOf (l : Layout) (target : String) : Stage → List String
  | .grammars => [l.interpreter, "-m", moduleOf .grammars]
  | .survey => [l.interpreter, "-m", moduleOf .survey, "--root", target, "--output", l.report]
  | .readme => [l.interpreter, "-m", moduleOf .readme, "--json", l.report, "--out", l.readme]
  | .page => [l.interpreter, "-m", moduleOf .page, "--md", l.readme, "--out", l.page]

/-- The words of a stage that is told the project's root: it comes last for the grammars, and right
after the module for all others. -/
def rootedWords (l : Layout) (target : String) (stage : Stage) : List String :=
  let words := wordsOf l target stage
  let root := ["--root", target]
  match stage with
  | .grammars => words ++ root
  | _ => words.take 3 ++ root ++ words.drop 3

def runProbed (m : Machine) (target : String) (stage : Stage) : Run Unit := do
  let rooted ← accepts m.layout.interpreter m.layout.root (moduleOf stage) "--root"
  let words := if rooted then rootedWords m.layout target stage else wordsOf m.layout target stage
  runWords m words (titleOf stage)

/-- Only the survey, which is always told the root, is not probed. -/
def runStage (m : Machine) (target : String) (stage : Stage) : Run Unit :=
  if stage = .survey then runWords m (wordsOf m.layout target stage) (titleOf stage)
  else runProbed m target stage

def runStages (m : Machine) (target : String) : List Stage → Run Unit
  | [] => pure ()
  | stage :: stages => do
    runStage m target stage
    runStages m target stages

def openPlain (words : List String) : Run (Except String Unit) := do
  match ← launch ⟨.ofWords words, .plain⟩ with
  | .refused message => return .error message
  | .ended .. => return .ok ()

def startsWith (text start : String) : Bool := start.toList.isPrefixOf text.toList

def showPage (m : Machine) : Run (Except String Unit) := do
  if m.platform = "darwin" then openPlain ["open", m.layout.page]
  else if startsWith m.platform "linux" then
    if m.hasProgram "xdg-open" then openPlain ["xdg-open", m.layout.page]
    else
      say "⚠️  xdg-open not available; skipping auto-open."
      return .ok ()
  else if m.platform = "win32" then return .error "module 'os' has no attribute 'startfile'"
  else return .ok ()

def openPage (m : Machine) : Run Unit := do
  match ← showPage m with
  | .ok () => say ("\n✅ Docs ready! Opened: " ++ m.layout.page)
  | .error message =>
    say s!"⚠️  Could not open browser: {message}"
    say ("📄 View manually: file://" ++ m.layout.page)

def orStop {α : Type} : Except FileError α → Run α
  | .ok a => pure a
  | .error e => throw (.file e)

def needRoot : CommandLine.Value → Run String
  | some root => pure root
  | none => throw .noPath

def makePage (m : Machine) (target : String) (noOpen : Bool) : Run Unit := do
  if (← get).scene.disk.contains m.layout.converter then
    runStage m target .page
    if !noOpen then openPage m
  else say "⚠️  tools/md_to_html.py not found. Skipping HTML conversion."

def finish (m : Machine) (target : String) (noOpen : Bool) : Run Unit := do
  makePage m target noOpen
  say "\n🏁 Done."

def run (m : Machine) (settings : Settings) : Run Unit := do
  let disk := (← get).scene.disk
  let target ← orStop (disk.resolve (Path.clean (← needRoot settings.root)))
  if !(← orStop (disk.check target)) then
    complain s!"❌ Project root not found: {target}"
    throw (.exit 1)
  say s!"📁 Analyzing project: {target}"
  runStages m target
    (if settings.skipBuild then [.survey, .readme] else [.grammars, .survey, .readme])
  finish m target settings.noOpen

end CodeAtlas.Command.Pipeline
