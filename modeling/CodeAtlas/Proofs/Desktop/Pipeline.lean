import CodeAtlas.Desktop.App
import CodeAtlas.Proofs.Command.Pipeline
import CodeAtlas.Proofs.Survey.Visits

/-! The pipeline behind the button of the desktop application, stage by stage, and its agreement
with the command. There are no probes here, and a stage that fails does not end the run with an
error: the console says that the pipeline failed. -/

namespace CodeAtlas.Desktop

open CodeAtlas.Pipeline
open Child (Outcome Ending Scene)

def writtenLines (text : Option String) (colour : String) : List Request :=
  (Child.written text).toList.flatMap fun text => consoleLine (Text.strip text) colour

def heard : Ending → List Request
  | .refused _ => []
  | .ended code out err =>
    writtenLines out plainColour ++ writtenLines err errorColour ++
      if code = 0 then [] else consoleLine s!"❌ Error: Command failed with code {code}" errorColour

def verdict : Option Fault → Except Failure Bool
  | none => .ok true
  | some (.code _) => .ok false
  | some (.refused message) => .error (.refused message)

section

variable (s : Surroundings) (target : String) (outcomes : Stage → Outcome)

def stageCommand (stage : Stage) : Child.Command := .ofWords (stageWords s.layout target stage)

def shown (stage : Stage) : List Request :=
  consoleLine ("🔄 " ++ stageTitle stage) stageColour
    ++ consoleLine ("$ " ++ (stageCommand s target stage).shown) commandColour
    ++ heard (outcomes stage).ending

def App.after (a : App) (stage : Stage) : App :=
  { a with
    scene :=
      { disk := (outcomes stage).change a.scene.disk
        script := a.scene.script.tail
        launches := a.scene.launches ++ [⟨stageCommand s target stage, .captured⟩] }
    requests := a.requests ++ shown s target outcomes stage }

end

def App.asking (a : App) (more : List Request) : App := { a with requests := a.requests ++ more }

@[simp] theorem asking_nil (a : App) : a.asking [] = a := by
  rw [App.asking, List.append_nil]

@[simp] theorem asking_asking (a : App) (more last : List Request) :
    (a.asking more).asking last = a.asking (more ++ last) := by
  rw [App.asking, App.asking, App.asking, List.append_assoc]

theorem upshot_printLine (message colour : String) (a : App) :
    upshot (printLine message colour) a = (.ok (), a.asking (consoleLine message colour)) := rfl

theorem upshot_printWritten (text : Option String) (colour : String) (a : App) :
    upshot (printWritten text colour) a = (.ok (), a.asking (writtenLines text colour)) := by
  unfold printWritten writtenLines
  cases Child.written text with
  | none => rw [Option.toList_none, List.flatMap_nil, asking_nil]; rfl
  | some text => rw [Option.toList_some, List.flatMap_singleton]; rfl

theorem upshot_conclude (ending : Ending) (a : App) :
    upshot (conclude ending) a = (verdict (fault? ending), a.asking (heard ending)) := by
  cases ending with
  | refused message =>
    rw [heard, asking_nil]
    rfl
  | ended code out err =>
    rw [conclude, upshot_bind_ok (upshot_printWritten out _ a),
      upshot_bind_ok (upshot_printWritten err _ _), asking_asking, heard, fault?]
    by_cases hcode : code = 0
    · subst hcode
      rw [if_pos rfl, if_pos rfl, List.append_nil]
      rfl
    · rw [if_pos hcode, if_neg hcode, if_neg hcode, upshot_bind_ok (upshot_printLine _ _ _),
        asking_asking, decide_eq_false hcode]
      rfl

section

variable {s : Surroundings} {target : String} {outcomes : Stage → Outcome}

theorem upshot_launch (l : Child.Launch) (a : App) (outcome : Outcome) (rest : List Outcome)
    (h : a.scene.script = outcome :: rest) :
    upshot (launch l) a = (.ok outcome.ending,
      { a with scene := ⟨outcome.change a.scene.disk, rest, a.scene.launches ++ [l]⟩ }) := by
  have hlaunch : a.scene.launch l =
      (outcome.ending, ⟨outcome.change a.scene.disk, rest, a.scene.launches ++ [l]⟩) := by
    rw [Scene.launch, h]
    rfl
  have hrun : upshot (launch l) a =
      (.ok (a.scene.launch l).1, { a with scene := (a.scene.launch l).2 }) := rfl
  rw [hrun, hlaunch]

theorem upshot_runStage {stage : Stage} {a : App} {rest : List Outcome}
    (h : a.scene.script = outcomes stage :: rest) :
    upshot (runStage s target stage) a =
      (verdict (fault? (outcomes stage).ending), a.after s target outcomes stage) := by
  rw [runStage, upshot_bind_ok (upshot_printLine _ _ a), upshot_bind_ok (upshot_printLine _ _ _)]
  refine (upshot_bind_ok (upshot_launch _ _ (outcomes stage) rest ?_) _).trans ?_
  · exact h
  · rw [upshot_conclude, App.after, h]
    simp [shown, stageCommand, App.asking]

theorem upshot_runStages {stages : List Stage} {a : App} {rest : List Outcome}
    (h : a.scene.script = stages.map outcomes ++ rest) :
    upshot (runStages s target stages) a = (verdict (firstFault? outcomes stages),
      (started outcomes stages).foldl (App.after s target outcomes) a) := by
  induction stages generalizing a with
  | nil => rfl
  | cons stage stages ih =>
    have hstage : upshot (runStage s target stage) a = _ := upshot_runStage h
    rw [runStages]
    cases hfault : fault? (outcomes stage).ending with
    | some fault =>
      rw [hfault] at hstage
      rw [firstFault?_cons_of_some hfault, started_cons_of_some hfault]
      cases fault with
      | code code => exact upshot_bind_ok hstage _
      | refused message => exact upshot_bind_error hstage _
    | none =>
      rw [hfault] at hstage
      rw [firstFault?_cons_of_none hfault, started_cons_of_none hfault]
      refine (upshot_bind_ok hstage _).trans (ih ?_)
      rw [App.after, h]
      rfl

end

section

variable (s : Surroundings) (target : String) (outcomes : Stage → Outcome) (stages : List Stage)
  (a : App)

theorem requests_foldl_after :
    (stages.foldl (App.after s target outcomes) a).requests =
      a.requests ++ stages.flatMap (shown s target outcomes) :=
  view_foldl App.requests (fun _ _ => rfl) stages a

theorem launches_foldl_after :
    (stages.foldl (App.after s target outcomes) a).scene.launches =
      a.scene.launches ++
        stages.flatMap fun stage => [⟨stageCommand s target stage, .captured⟩] :=
  view_foldl (fun a : App => a.scene.launches) (fun _ _ => rfl) stages a

theorem script_foldl_after :
    (stages.foldl (App.after s target outcomes) a).scene.script =
      a.scene.script.drop stages.length := by
  induction stages generalizing a with
  | nil => rfl
  | cons stage stages ih => rw [List.foldl_cons, ih, App.after, List.drop_tail]; rfl

theorem disk_foldl_after :
    (stages.foldl (App.after s target outcomes) a).scene.disk =
      diskAfter outcomes a.scene.disk stages := by
  induction stages generalizing a with
  | nil => rfl
  | cons stage stages ih => exact ih _

end

def browsing (s : Surroundings) (stages : List Stage) : List Request :=
  if .page ∈ stages then [.general "browser" [.text ("file://" ++ s.layout.page)]] else []

def closing (s : Surroundings) (stages : List Stage) : Option Fault → List Request
  | none => browsing s stages ++ consoleLine "✅ Documentation completed successfully!" successColour
  | some (.code _) => consoleLine "❌ Pipeline failed. See above logs." errorColour
  | some (.refused _) => []

def result : Option Fault → Except Failure Unit
  | some (.refused message) => .error (.refused message)
  | _ => .ok ()

section

variable {s : Surroundings} {target : String} {outcomes : Stage → Outcome}

theorem upshot_makePage {a : App} {rest : List Outcome} {pages : List Stage}
    (h : a.scene.script = outcomes .page :: rest)
    (hpages : pages = if a.scene.disk.contains s.layout.converter then [.page] else []) :
    upshot (makePage s target) a = (verdict (firstFault? outcomes pages),
      ((started outcomes pages).foldl (App.after s target outcomes) a).asking
        (if (firstFault? outcomes pages).isNone then browsing s pages else [])) := by
  have hget : upshot (get : Run App) a = (.ok a, a) := rfl
  rw [makePage, upshot_bind_ok hget, hpages]
  split
  · have hpage : upshot (runStage s target .page) a = _ := upshot_runStage h
    cases hfault : fault? (outcomes .page).ending with
    | some fault =>
      rw [hfault] at hpage
      rw [firstFault?_cons_of_some hfault, started_cons_of_some hfault, Option.isNone_some,
        if_neg Bool.false_ne_true, asking_nil]
      cases fault with
      | code code => exact upshot_bind_ok hpage _
      | refused message => exact upshot_bind_error hpage _
    | none =>
      rw [hfault] at hpage
      rw [firstFault?_cons_of_none hfault, started_cons_of_none hfault]
      exact upshot_bind_ok hpage _
  · exact congrArg (Prod.mk (Except.ok true)) (asking_nil a).symm

theorem upshot_runPipeline {a : App} {rest : List Outcome} (hfolder : a.folder ≠ "")
    (hresolve : a.scene.disk.resolve (Path.clean a.folder) = .ok target)
    (h : a.scene.script = textStages.map outcomes ++ outcomes .page :: rest)
    {stages : List Stage} (hstages : stages = plan outcomes s.layout a.scene.disk) :
    upshot (runPipeline s) a = (result (firstFault? outcomes stages),
      ((started outcomes stages).foldl (App.after s target outcomes) a).asking
        (closing s stages (firstFault? outcomes stages))) := by
  have hget : upshot (get : Run App) a = (.ok a, a) := rfl
  have htarget : upshot Desktop.target a = (.ok target, a) := by
    rw [Desktop.target, upshot_bind_ok hget, hresolve]
    rfl
  have htext : upshot (runStages s target textStages) a = _ := upshot_runStages h
  rw [runPipeline, upshot_bind_ok hget, if_neg hfolder, upshot_bind_ok htarget, hstages, plan_eq]
  cases hfault : firstFault? outcomes textStages with
  | some fault =>
    rw [hfault] at htext
    rw [started_append_of_some hfault, firstFault?_append_of_some hfault]
    cases fault with
    | code code => exact upshot_bind_ok htext _
    | refused message => exact (upshot_bind_error htext _).trans (by rw [closing, asking_nil]; rfl)
  | none =>
    rw [hfault, started_of_none hfault] at htext
    have hscript : (textStages.foldl (App.after s target outcomes) a).scene.script =
        outcomes .page :: rest := by
      rw [script_foldl_after, h]
      rfl
    have hmake : upshot (makePage s target) _ = _ := upshot_makePage hscript rfl
    rw [disk_foldl_after] at hmake
    refine (upshot_bind_ok htext _).trans ?_
    rw [started_append_of_none hfault, firstFault?_append_of_none hfault, List.foldl_append]
    generalize hpages : (if (diskAfter outcomes a.scene.disk textStages).contains s.layout.converter
      then [Stage.page] else []) = pages at hmake ⊢
    have hbrowsing : browsing s (textStages ++ pages) = browsing s pages := by
      simp [browsing, textStages]
    cases hlast : firstFault? outcomes pages with
    | none =>
      rw [hlast] at hmake
      refine (upshot_bind_ok hmake _).trans ?_
      rw [closing, hbrowsing, ← asking_asking]
      rfl
    | some fault =>
      rw [hlast] at hmake
      rw [Option.isNone_some, if_neg Bool.false_ne_true, asking_nil] at hmake
      cases fault with
      | code code => exact upshot_bind_ok hmake _
      | refused message =>
        refine (upshot_bind_error hmake _).trans ?_
        rw [closing, asking_nil]
        rfl

end

end CodeAtlas.Desktop

namespace CodeAtlas.Pipeline

open Child (Outcome)
open Command.Pipeline (IsUnaware IsClosing)

theorem wordsOf_eq_stageWords (l : Layout) (target : String) (stage : Stage) :
    Command.Pipeline.wordsOf l target stage = Desktop.stageWords l target stage := by
  cases stage <;> rfl

def toolDisk : Disk where
  root := .folder [("w", .folder [("tools", .folder [("md_to_html.py", .file [])])])]
  here := []

theorem resolve_toolDisk {path : String} (hnull : ¬ path.toList.contains '\x00')
    (hnames : Disk.names path = ["w"]) : toolDisk.resolve path = .ok "/w" := by
  have hstart : toolDisk.start path = [] := by
    unfold Disk.start
    split <;> rfl
  have htrace : Disk.trace toolDisk.root Disk.maxLinks [] ["w"] = ["w"] := by
    rw [Disk.trace, if_neg (by decide), if_neg (by decide)]
    exact Disk.trace.eq_1 ..
  rw [Disk.resolve, if_neg hnull, hstart, hnames, htrace]
  rfl

theorem check_toolDisk : toolDisk.check "/w" = .ok true := by
  have hsteps : Disk.steps "/w" = ["w"] := by decide +kernel
  have hfollow : Disk.follow toolDisk.root Disk.maxLinks (toolDisk.start "/w") (Disk.steps "/w") =
      .ok ["w"] := by
    rw [hsteps, Disk.follow, if_neg (by decide), if_neg (by decide)]
    exact Disk.follow.eq_1 ..
  rw [Disk.check, @Disk.status_of_follow toolDisk "/w" ["w"] _ rfl hfollow rfl]

def readmeFails : Stage → Outcome
  | .readme =>
    { removes := ["/w/tools/md_to_html.py"], ending := .ended 3 (some "no key") (some "") }
  | _ => .quiet

def toolMachine : Command.Pipeline.Machine := ⟨⟨"/w", "PY"⟩, "linux", fun _ => true⟩

def toolWindow : Desktop.Surroundings :=
  ⟨100, 100, 10, 10, ⟨fun _ low _ => low, fun _ => 1, fun _ _ => 0⟩, toolMachine.layout⟩

def toolApp : Desktop.App :=
  { Desktop.App.start (.start toolDisk (textStages.map readmeFails ++ [readmeFails .page])) [] with
    folder := "/w" }

end CodeAtlas.Pipeline
