import CodeAtlas.Child
import CodeAtlas.Desktop.Backdrop
import CodeAtlas.Desktop.Button
import CodeAtlas.Desktop.Toolkit
import CodeAtlas.Pipeline.Stage
import CodeAtlas.Text.Character

/-! The desktop application: a window with drifting circles, a button to select a folder, a button
to run the pipeline on it, and a console. -/

namespace CodeAtlas.Desktop

open CodeAtlas.Pipeline (Layout Stage)
open Child (Scene)

/-- Random draws; each may depend on how many there were before. -/
structure Chance where
  between : Nat → Int → Int → Int
  speed : Nat → Rat
  choose : Nat → Nat → Nat

structure Surroundings where
  width : Int
  height : Int
  widgetWidth : Int
  widgetHeight : Int
  chance : Chance
  layout : Layout

inductive ButtonName
  | select
  | run
  deriving DecidableEq, Repr

def ButtonName.widget : ButtonName → Widget
  | select => .selectButton
  | run => .runButton

inductive Callback
  | button (name : ButtonName) (timer : Timer)
  | restLabel
  | drift
  deriving DecidableEq, Repr

structure App where
  folder : String
  circles : List Circle
  selectButton : Button
  runButton : Button
  pending : List Callback
  choices : List String
  draws : Nat
  scene : Scene
  requests : List Request

inductive Failure
  | refused (message : String)
  | file (error : FileError)
  deriving Repr

def Failure.message : Failure → String
  | .refused message => message
  | .file error => error.message

abbrev Run := ExceptT Failure (StateM App)

def request (r : Request) : Run Unit := modify fun a => { a with requests := a.requests ++ [r] }

def requestAll (rs : List Request) : Run Unit :=
  modify fun a => { a with requests := a.requests ++ rs }

def later (widget : Widget) (milliseconds : Nat) (callback : Callback) : Run Unit := do
  request (.call widget "after" [.number milliseconds])
  modify fun a => { a with pending := a.pending ++ [callback] }

def nextDraw : Run Nat := modifyGet fun a => (a.draws, { a with draws := a.draws + 1 })

def drawBetween (s : Surroundings) (low high : Int) : Run Int := do
  let n ← nextDraw
  request (.general "randint" (numbers [low, high]))
  return s.chance.between n low high

def drawSpeed (s : Surroundings) : Run Rat := do
  let n ← nextDraw
  request (.general "uniform" (numbers [1 / 2, 2]))
  return s.chance.speed n

def circleColours : List String := ["#58a6ff", "#1f6feb", "#388bfd", "#79c0ff"]

def drawColour (s : Surroundings) : Run String := do
  let n ← nextDraw
  request (.general "choice" (circleColours.map .text))
  return circleColours.getD (s.chance.choose n circleColours.length) ""

def ground : Value := .text "#0d1117"
def quietText : Value := .text "#c9d1d9"
def brightText : Value := .text "#58a6ff"

def addCircle (s : Surroundings) : Run Unit := do
  let x ← drawBetween s 50 (s.width - 50)
  let y ← drawBetween s 50 (s.height - 50)
  let radius ← drawBetween s 30 100
  let speedX ← drawSpeed s
  let speedY ← drawSpeed s
  let colour ← drawColour s
  let item := (← get).circles.length + 1
  let circle := Circle.draw item x y radius speedX speedY
  let box := circle.drifter.box
  request ⟨some .backdrop, "create_oval", numbers [box.left, box.top, box.right, box.bottom],
    [("fill", .text colour), ("outline", .text "")]⟩
  modify fun a => { a with circles := a.circles ++ [circle] }

def driftCircles (s : Surroundings) : Run Unit := do
  let circles := (← get).circles
  requestAll (circles.map fun c =>
    .call .backdrop "move" (numbers [c.item, c.drifter.speedX, c.drifter.speedY]))
  modify fun a => { a with circles := circles.map (Circle.drift s.width s.height) }
  later .window 50 .drift

def addCircles (s : Surroundings) : Nat → Run Unit
  | 0 => return ()
  | n + 1 => do
    addCircle s
    addCircles s n

def circleCount : Nat := 8

def setUpBackdrop (s : Surroundings) : Run Unit := do
  addCircles s circleCount
  driftCircles s

def buttonWidth : Int := 200
def buttonHeight : Int := 50

def restButton : Button := .rest 1 3 "#161b22" "#58a6ff" "#238636"

def buildButton (widget : Widget) (caption : String) : List Request :=
  [.make widget "Canvas" (some .buttonRow)
      [("width", .number buttonWidth), ("height", .number buttonHeight),
        ("highlightthickness", .number 0), ("bg", ground)],
    ⟨some widget, "create_rectangle", numbers [2, 2, buttonWidth - 2, buttonHeight - 2],
      [("fill", .text restButton.background), ("outline", .text restButton.foreground),
        ("width", .number 2)]⟩,
    ⟨some widget, "create_text", numbers [buttonWidth / 2, buttonHeight / 2],
      [("text", .text caption), ("fill", .text restButton.foreground),
        ("font", font "Segoe UI" 12 ["bold"])]⟩,
    .call widget "bind" [.text "<Enter>"],
    .call widget "bind" [.text "<Leave>"],
    .call widget "bind" [.text "<Button-1>"],
    .set widget "pack" [("side", .text "left"), ("padx", .number 10)]]

def buildLabel (widget : Widget) (caption colour : String) (size : Nat) (weight : List String)
    (padding : Value) : List Request :=
  [.make widget "Label" (some .panel)
      [("text", .text caption), ("font", font "Segoe UI" size weight), ("fg", .text colour),
        ("bg", ground)],
    .set widget "pack" [("pady", padding)]]

def buildPanel : List Request :=
  [.make .panel "Frame" (some .backdrop) [("bg", ground)],
    .set .panel "place"
      [("relx", .number (1 / 2)), ("rely", .number (1 / 2)), ("anchor", .text "center")]]
  ++ buildLabel .title "AI POWERED AUTO DOCUMENT CREATOR" "white" 32 ["bold"]
    (.list (numbers [0, 20]))
  ++ buildLabel .subtitle "Transform Your Code into Professional Documentation" "#8b949e" 14 []
    (.list (numbers [0, 20]))
  ++ buildLabel .folderLabel "📁 Selected Folder: None" "#c9d1d9" 12 [] (.number 10)
  ++ [.make .buttonRow "Frame" (some .panel) [("bg", ground)],
    .set .buttonRow "pack" [("pady", .number 20)]]
  ++ buildButton .selectButton "📂 SELECT FOLDER"
  ++ buildButton .runButton "🚀 START PARSING"
  ++ [.make .console "ScrolledText" (some .panel)
      [("width", .number 100), ("height", .number 20), ("bg", ground), ("fg", brightText),
        ("font", font "Consolas" 10 []), ("state", .text "disabled")],
    .set .console "pack" [("pady", .number 20)]]

def build (s : Surroundings) : Run Unit := do
  requestAll
    [.make .window "Tk" none [],
      .call .window "title" [.text "🚀 AI POWERED AUTO DOCUMENT CREATOR"],
      .call .window "geometry" [.text s!"{s.width}x{s.height}+0+0"],
      .make .backdrop "Canvas" (some .window) [("bg", ground), ("highlightthickness", .number 0)],
      .set .backdrop "pack" [("fill", .text "both"), ("expand", .flag true)]]
  setUpBackdrop s
  requestAll buildPanel

def App.start (scene : Scene) (choices : List String) : App :=
  { folder := ""
    circles := []
    selectButton := restButton
    runButton := restButton
    pending := []
    choices
    draws := 0
    scene
    requests := [] }

/-- Lets the user choose a folder. An empty choice changes nothing. -/
def selectFolder : Run Unit := do
  let folder ← modifyGet fun a => (a.choices.headD "", { a with choices := a.choices.tail })
  if folder ≠ "" then
    modify fun a => { a with folder }
    request (.set .folderLabel "config"
      [("text", .text s!"📁 Selected Folder: {folder}"), ("fg", brightText)])
    later .window 1000 .restLabel

def restLabel : Run Unit := request (.set .folderLabel "config" [("fg", quietText)])

def consoleLine (message colour : String) : List Request :=
  [.set .console "configure" [("state", .text "normal")],
    .call .console "insert" [.text "end", .text (message ++ "\n")],
    .call .console "tag_add"
      [.text colour, .text ("end-" ++ toString (message.length + 1) ++ "c"), .text "end"],
    ⟨some .console, "tag_config", [.text colour], [("foreground", .text colour)]⟩,
    .call .console "see" [.text "end"],
    .set .console "configure" [("state", .text "disabled")]]

def printLine (message colour : String) : Run Unit := requestAll (consoleLine message colour)

def plainColour : String := "#58a6ff"
def stageColour : String := "#f0c674"
def commandColour : String := "#8abeb7"
def errorColour : String := "#ff6c6b"
def successColour : String := "#50fa7b"

def printWritten (text : Option String) (colour : String) : Run Unit :=
  match Child.written text with
  | some text => printLine (Text.strip text) colour
  | none => return ()

def launch (l : Child.Launch) : Run Child.Ending :=
  modifyGet fun a =>
    let (ending, scene) := a.scene.launch l
    (ending, { a with scene })

def conclude : Child.Ending → Run Bool
  | .refused message => throw (.refused message)
  | .ended code out err => do
    printWritten out plainColour
    printWritten err errorColour
    if code ≠ 0 then printLine s!"❌ Error: Command failed with code {code}" errorColour
    return code = 0

def stageTitle : Stage → String
  | .grammars => "1. Building language parsers..."
  | .survey => "2. Parsing code into AST..."
  | .readme => "3. Generating README with LLM..."
  | .page => "4. Converting README to HTML..."

def stageWords (l : Layout) (target : String) : Stage → List String
  | .grammars => [l.interpreter, "-m", "galaxy_ast_docs.build_parsers"]
  | .survey =>
    [l.interpreter, "-m", "galaxy_ast_docs.generate_ast_docs", "--root", target, "--output",
      l.report]
  | .readme =>
    [l.interpreter, "-m", "llm.generate_readme", "--json", l.report, "--out", l.readme]
  | .page => [l.interpreter, "-m", "tools.md_to_html", "--md", l.readme, "--out", l.page]

def runStage (s : Surroundings) (target : String) (stage : Stage) : Run Bool := do
  let command := Child.Command.ofWords (stageWords s.layout target stage)
  printLine ("🔄 " ++ stageTitle stage) stageColour
  printLine ("$ " ++ command.shown) commandColour
  conclude (← launch ⟨command, .captured⟩)

def runStages (s : Surroundings) (target : String) : List Stage → Run Bool
  | [] => return true
  | stage :: stages => do
    if ← runStage s target stage then runStages s target stages else return false

def makePage (s : Surroundings) (target : String) : Run Bool := do
  if (← get).scene.disk.contains s.layout.converter then
    if ← runStage s target .page then
      request (.general "browser" [.text ("file://" ++ s.layout.page)])
      return true
    else return false
  else return true

def target : Run String := do
  let a ← get
  match a.scene.disk.resolve (Path.clean a.folder) with
  | .ok path => return path
  | .error e => throw (.file e)

def runPipeline (s : Surroundings) : Run Unit := do
  let a ← get
  if a.folder = "" then
    request (.general "showerror" [.text "Error", .text "Please select a folder first."])
  else
    let target ← target
    let read ← runStages s target [.grammars, .survey, .readme]
    let succeeded ← if read then makePage s target else pure false
    if succeeded then printLine "✅ Documentation completed successfully!" successColour
    else printLine "❌ Pipeline failed. See above logs." errorColour

def runInBackground (s : Surroundings) : Run Unit := do
  request ⟨none, "thread", [], [("daemon", .flag true)]⟩
  runPipeline s

def buttonOf (a : App) : ButtonName → Button
  | .select => a.selectButton
  | .run => a.runButton

def setButton (name : ButtonName) (b : Button) : Run Unit :=
  modify fun a =>
    match name with
    | .select => { a with selectButton := b }
    | .run => { a with runButton := b }

def perform (s : Surroundings) (name : ButtonName) : Act → Run Unit
  | .fill item colour =>
    request ⟨some name.widget, "itemconfig", [.number item], [("fill", .text colour)]⟩
  | .delete item => request (.call name.widget "delete" [.number item])
  | .oval _ left top right bottom colour =>
    request ⟨some name.widget, "create_oval", numbers [left, top, right, bottom],
      [("outline", .text colour), ("width", .number 1)]⟩
  | .after milliseconds timer => later name.widget milliseconds (.button name timer)
  | .command =>
    match name with
    | .select => selectFolder
    | .run => runInBackground s

def performAll (s : Surroundings) (name : ButtonName) : List Act → Run Unit
  | [] => return ()
  | act :: acts => do
    perform s name act
    performAll s name acts

def settleButton (s : Surroundings) (name : ButtonName) (result : Button × List Act) :
    Run Unit := do
  setButton name result.1
  performAll s name result.2

def signal (s : Surroundings) (name : ButtonName) (sig : Signal) : Run Unit := do
  settleButton s name ((buttonOf (← get) name).handle s.widgetWidth s.widgetHeight sig)

def callBack (s : Surroundings) : Callback → Run Unit
  | .button name timer => do
    settleButton s name ((buttonOf (← get) name).fire s.widgetWidth s.widgetHeight timer)
  | .restLabel => restLabel
  | .drift => driftCircles s

def tick (s : Surroundings) : Run Unit := do
  match (← get).pending with
  | [] => return ()
  | callback :: pending =>
    modify fun a => { a with pending }
    callBack s callback

end CodeAtlas.Desktop
