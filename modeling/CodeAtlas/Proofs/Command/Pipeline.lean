import CodeAtlas.Command.Pipeline
import CodeAtlas.Proofs.Pipeline.Stages

/-! The pipeline in a terminal, stage by stage. A stage whose help may speak of the root is probed
before it is run; a probe that says nothing of the root, or cannot be started, changes nothing but
the list of launches. -/

namespace CodeAtlas.Command.Pipeline

open CodeAtlas.Pipeline
open Child (Outcome Launch Ending Scene)

/-- A probe that leaves the disk alone and whose help does not speak of a word. -/
structure IsUnaware (word : String) (probe : Outcome) : Prop where
  change (d : Disk) : probe.change d = d
  help (code : Int) (out err : Option String) (h : probe.ending = .ended code out err) :
    mentions (out.getD "" ++ err.getD "") word = false

def heard : Ending → List String
  | .refused _ => []
  | .ended _ out _ => (Child.written out).toList

def complaint : Ending → List String
  | .refused _ => []
  | .ended code _ err =>
    if code = 0 then [] else [s!"❌ Failed (exit {code}). stderr:\n" ++ Child.shownText err]

section

variable (m : Machine) (target : String) (probes outcomes : Stage → Outcome)

def script (stage : Stage) : List Outcome :=
  if stage = .survey then [outcomes stage] else [probes stage, outcomes stage]

def wholeScript (rest : List Outcome) : List Outcome :=
  textStages.flatMap (script probes outcomes) ++ (script probes outcomes .page ++ rest)

def stageCommand (stage : Stage) : Child.Command := .ofWords (wordsOf m.layout target stage)

def launches (stage : Stage) : List Launch :=
  let probe : Launch := ⟨.ofWords [m.layout.interpreter, "-m", moduleOf stage, "--help"],
    .probe m.layout.root probeSeconds⟩
  let run : Launch := ⟨stageCommand m target stage, .stage (some m.layout.root)⟩
  if stage = .survey then [run] else [probe, run]

def shown (stage : Stage) : List String :=
  [s!"\n🚀 {titleOf stage}", "   $ " ++ (stageCommand m target stage).shown]
    ++ heard (outcomes stage).ending

def Session.after (s : Session) (stage : Stage) : Session where
  scene :=
    { disk := (outcomes stage).change s.scene.disk
      script := s.scene.script.drop (script probes outcomes stage).length
      launches := s.scene.launches ++ launches m target stage }
  printed := s.printed ++ shown m target outcomes stage
  complaints := s.complaints ++ complaint (outcomes stage).ending

end

def stop : Fault → Stop
  | .code code => .exit code
  | .refused message => .refused message

def result : Option Fault → Except Stop Unit
  | none => .ok ()
  | some fault => .error (stop fault)

section

variable {m : Machine} {target : String} {probes outcomes : Stage → Outcome}

theorem upshot_say (line : String) (s : Session) :
    upshot (say line) s = (.ok (), { s with printed := s.printed ++ [line] }) := rfl

theorem upshot_launch (l : Launch) (s : Session) (outcome : Outcome) (rest : List Outcome)
    (h : s.scene.script = outcome :: rest) :
    upshot (launch l) s = (.ok outcome.ending,
      { s with scene := ⟨outcome.change s.scene.disk, rest, s.scene.launches ++ [l]⟩ }) := by
  have hlaunch : s.scene.launch l =
      (outcome.ending, ⟨outcome.change s.scene.disk, rest, s.scene.launches ++ [l]⟩) := by
    rw [Scene.launch, h]
    rfl
  have hrun : upshot (launch l) s =
      (.ok (s.scene.launch l).1, { s with scene := (s.scene.launch l).2 }) := rfl
  rw [hrun, hlaunch]

theorem upshot_sayWritten (out : Option String) (s : Session) :
    upshot (sayWritten out) s =
      (.ok (), { s with printed := s.printed ++ (Child.written out).toList }) := by
  unfold sayWritten
  cases Child.written out with
  | none => rw [Option.toList_none, List.append_nil]; rfl
  | some text => rfl

theorem upshot_conclude (ending : Ending) (s : Session) :
    upshot (conclude ending) s = (result (fault? ending),
      { s with
        printed := s.printed ++ heard ending
        complaints := s.complaints ++ complaint ending }) := by
  cases ending with
  | refused message =>
    rw [heard, complaint, List.append_nil, List.append_nil]
    rfl
  | ended code out err =>
    rw [conclude, upshot_bind_ok (upshot_sayWritten out s), complaint, fault?]
    by_cases hcode : code = 0
    · rw [if_neg (not_not_intro hcode), if_pos hcode, if_pos hcode, List.append_nil]
      rfl
    · rw [if_pos hcode, if_neg hcode, if_neg hcode]
      rfl

theorem upshot_runCommand (command : Child.Command) (folder : Option String) (title : String)
    {s : Session} {outcome : Outcome} {rest : List Outcome} (h : s.scene.script = outcome :: rest) :
    upshot (runCommand command folder title) s =
      (result (fault? outcome.ending),
        { scene :=
            ⟨outcome.change s.scene.disk, rest, s.scene.launches ++ [⟨command, .stage folder⟩]⟩
          printed :=
            s.printed ++ ([s!"\n🚀 {title}", "   $ " ++ command.shown] ++ heard outcome.ending)
          complaints := s.complaints ++ complaint outcome.ending }) := by
  rw [runCommand, upshot_bind_ok (upshot_say _ s), upshot_bind_ok (upshot_say _ _)]
  refine (upshot_bind_ok (upshot_launch _ _ outcome rest ?_) _).trans ?_
  · exact h
  · rw [upshot_conclude]
    simp

theorem upshot_accepts (interpreter folder module word : String) {s : Session} {probe : Outcome}
    {rest : List Outcome} (hprobe : IsUnaware word probe) (h : s.scene.script = probe :: rest) :
    upshot (accepts interpreter folder module word) s = (.ok false,
      { s with scene := ⟨s.scene.disk, rest, s.scene.launches ++
        [⟨.ofWords [interpreter, "-m", module, "--help"], .probe folder probeSeconds⟩]⟩ }) := by
  rw [accepts]
  refine (upshot_bind_ok (upshot_launch _ s probe rest h) _).trans ?_
  rw [hprobe.change]
  cases hending : probe.ending with
  | refused message => rfl
  | ended code out err =>
    have hhelp := hprobe.help code out err hending
    dsimp only
    rw [hhelp]
    rfl

theorem upshot_runStage (hprobes : ∀ stage, IsUnaware "--root" (probes stage)) {stage : Stage}
    {s : Session} (h : script probes outcomes stage <+: s.scene.script) :
    upshot (runStage m target stage) s =
      (result (fault? (outcomes stage).ending), s.after m target probes outcomes stage) := by
  obtain ⟨rest, hrest⟩ := h
  rw [runStage, Session.after, ← hrest, List.drop_left]
  by_cases hstage : stage = .survey
  · rw [script, if_pos hstage] at hrest
    rw [if_pos hstage, runWords, upshot_runCommand _ _ _ hrest.symm, launches, if_pos hstage]
    rfl
  · rw [script, if_neg hstage] at hrest
    rw [if_neg hstage, runProbed,
      upshot_bind_ok (upshot_accepts _ _ _ _ (hprobes stage) hrest.symm), launches, if_neg hstage]
    refine (upshot_runCommand _ _ _ rfl).trans ?_
    simp [shown, stageCommand]

theorem upshot_runStages (hprobes : ∀ stage, IsUnaware "--root" (probes stage))
    {stages : List Stage} {s : Session}
    (h : stages.flatMap (script probes outcomes) <+: s.scene.script) :
    upshot (runStages m target stages) s = (result (firstFault? outcomes stages),
      (started outcomes stages).foldl (Session.after m target probes outcomes) s) := by
  induction stages generalizing s with
  | nil => rfl
  | cons stage stages ih =>
    rw [List.flatMap_cons] at h
    have hstage : upshot (runStage m target stage) s = _ :=
      upshot_runStage hprobes ((List.prefix_append _ _).trans h)
    rw [runStages]
    cases hfault : fault? (outcomes stage).ending with
    | some fault =>
      rw [hfault] at hstage
      rw [upshot_bind_error hstage, firstFault?_cons_of_some hfault, started_cons_of_some hfault]
      rfl
    | none =>
      rw [hfault] at hstage
      rw [upshot_bind_ok hstage, firstFault?_cons_of_none hfault, started_cons_of_none hfault]
      refine ih ?_
      obtain ⟨rest, hrest⟩ := h
      rw [Session.after, ← hrest, List.append_assoc, List.drop_left]
      exact List.prefix_append _ _

end

section

variable (m : Machine) (target : String) (probes outcomes : Stage → Outcome) (stages : List Stage)
  (s : Session)

theorem printed_foldl_after :
    (stages.foldl (Session.after m target probes outcomes) s).printed =
      s.printed ++ stages.flatMap (shown m target outcomes) :=
  view_foldl Session.printed (fun _ _ => rfl) stages s

theorem launches_foldl_after :
    (stages.foldl (Session.after m target probes outcomes) s).scene.launches =
      s.scene.launches ++ stages.flatMap (launches m target) :=
  view_foldl (fun s : Session => s.scene.launches) (fun _ _ => rfl) stages s

theorem script_foldl_after :
    (stages.foldl (Session.after m target probes outcomes) s).scene.script =
      s.scene.script.drop (stages.flatMap (script probes outcomes)).length := by
  induction stages generalizing s with
  | nil => rfl
  | cons stage stages ih =>
    rw [List.foldl_cons, ih, Session.after, List.drop_drop, List.flatMap_cons, List.length_append]

theorem disk_foldl_after :
    (stages.foldl (Session.after m target probes outcomes) s).scene.disk =
      diskAfter outcomes s.scene.disk stages := by
  induction stages generalizing s with
  | nil => rfl
  | cons stage stages ih => exact ih _

end

theorem stageCommands_launches (m : Machine) (target : String) (stage : Stage) :
    stageCommands (launches m target stage) = [stageCommand m target stage] := by
  rw [launches]
  split <;> rfl

def IsAside {α : Type} (run : Run α) : Prop :=
  ∀ s, ∃ a later, upshot run s = (.ok a, later) ∧ s.printed <+: later.printed ∧
    stageCommands later.scene.launches = stageCommands s.scene.launches

theorem IsAside.bind {α β : Type} {run : Run α} {next : α → Run β} (h : IsAside run)
    (hnext : ∀ a, IsAside (next a)) : IsAside (run >>= next) := by
  intro s
  obtain ⟨a, later, hrun, hprinted, hlaunches⟩ := h s
  obtain ⟨b, last, hlast, hprinted', hlaunches'⟩ := hnext a later
  exact ⟨b, last, (upshot_bind_ok hrun next).trans hlast, hprinted.trans hprinted',
    hlaunches'.trans hlaunches⟩

theorem isAside_pure {α : Type} (a : α) : IsAside (pure a) :=
  fun s => ⟨a, s, rfl, List.prefix_refl _, rfl⟩

theorem isAside_say (line : String) : IsAside (say line) :=
  fun s => ⟨(), _, upshot_say line s, List.prefix_append _ _, rfl⟩

theorem isAside_openPlain (words : List String) : IsAside (openPlain words) := by
  have hlaunch : IsAside (launch ⟨.ofWords words, .plain⟩) := by
    intro s
    refine ⟨_, _, rfl, List.prefix_refl _, ?_⟩
    exact (stageCommands_append _ _).trans (List.append_nil _)
  refine hlaunch.bind fun ending => ?_
  cases ending with
  | refused message => exact isAside_pure _
  | ended code out err => exact isAside_pure _

theorem isAside_openPage (m : Machine) : IsAside (openPage m) := by
  have hshow : IsAside (showPage m) := by
    unfold showPage
    split
    · exact isAside_openPlain _
    · split
      · split
        · exact isAside_openPlain _
        · exact (isAside_say _).bind fun _ => isAside_pure _
      · split
        · exact isAside_pure _
        · exact isAside_pure _
  refine hshow.bind fun result => ?_
  cases result with
  | ok => exact isAside_say _
  | error message => exact (isAside_say _).bind fun _ => isAside_say _

section

variable {m : Machine} {settings : Settings} {root target : String} {d : Disk}

theorem upshot_run (hroot : settings.root = some root) (hbuild : settings.skipBuild = false)
    (hresolve : d.resolve (Path.clean root) = .ok target) (hthere : d.check target = .ok true)
    (script : List Outcome) :
    upshot (run m settings) (.start (.start d script)) =
      upshot (runStages m target textStages >>= fun _ => finish m target settings.noOpen)
        ⟨.start d script, [s!"📁 Analyzing project: {target}"], []⟩ := by
  have hget (s : Session) : upshot (get : Run Session) s = (.ok s, s) := rfl
  have hneed (s : Session) : upshot (needRoot settings.root) s = (.ok root, s) := by rw [hroot]; rfl
  have hok {α : Type} (a : α) (s : Session) : upshot (orStop (.ok a)) s = (.ok a, s) := rfl
  rw [run, upshot_bind_ok (hget _), upshot_bind_ok (hneed _)]
  simp only [Session.start, Scene.start, hresolve]
  rw [upshot_bind_ok (hok target _), hthere, upshot_bind_ok (hok true _)]
  simp only [Bool.not_true, Bool.false_eq_true, if_false, hbuild]
  exact upshot_bind_ok (upshot_say _ _) _

end

/-- What may be printed after the stages: nothing if one of them failed, and if none did, at last
that the command is done. -/
def IsClosing (closing : List String) : Option Fault → Prop
  | some _ => closing = []
  | none => ["\n🏁 Done."] <:+ closing

section

variable {m : Machine} {target : String} {probes outcomes : Stage → Outcome}

theorem upshot_makePage (m : Machine) (target : String)
    (hprobes : ∀ stage, IsUnaware "--root" (probes stage)) (noOpen : Bool) {s : Session}
    (h : script probes outcomes .page <+: s.scene.script) {pages : List Stage}
    (hpages : pages = if s.scene.disk.contains m.layout.converter then [.page] else []) :
    ∃ later lines,
      upshot (makePage m target noOpen) s = (result (firstFault? outcomes pages), later) ∧
        later.printed =
          s.printed ++ (started outcomes pages).flatMap (shown m target outcomes) ++ lines ∧
        stageCommands later.scene.launches = stageCommands s.scene.launches ++
          (started outcomes pages).map (stageCommand m target) ∧
        ((firstFault? outcomes pages).isSome → lines = []) := by
  have hget : upshot (get : Run Session) s = (.ok s, s) := rfl
  rw [makePage, upshot_bind_ok hget, hpages]
  split
  · have hpage : upshot (runStage m target .page) s = _ := upshot_runStage hprobes h
    have hcommands : stageCommands (s.after m target probes outcomes .page).scene.launches =
        stageCommands s.scene.launches ++ [stageCommand m target .page] :=
      (stageCommands_append _ _).trans (by rw [stageCommands_launches])
    cases hfault : fault? (outcomes .page).ending with
    | some fault =>
      rw [hfault] at hpage
      rw [upshot_bind_error hpage, firstFault?_cons_of_some hfault, started_cons_of_some hfault]
      exact ⟨_, [], rfl, by simp [Session.after], hcommands, fun _ => rfl⟩
    | none =>
      rw [hfault] at hpage
      have haside : IsAside (if !noOpen then openPage m else pure ()) := by
        split
        · exact isAside_openPage m
        · exact isAside_pure ()
      obtain ⟨⟨⟩, later, hlater, ⟨lines, hlines⟩, hlaunches⟩ :=
        haside (s.after m target probes outcomes .page)
      rw [upshot_bind_ok hpage, firstFault?_cons_of_none hfault, started_cons_of_none hfault]
      refine ⟨later, lines, hlater, ?_, hlaunches.trans hcommands, nofun⟩
      rw [← hlines]
      simp [Session.after, started]
  · refine ⟨_, ["⚠️  tools/md_to_html.py not found. Skipping HTML conversion."],
      upshot_say _ s, ?_, ?_, nofun⟩
    · simp [started]
    · simp [started]

theorem upshot_finish (m : Machine) (target : String)
    (hprobes : ∀ stage, IsUnaware "--root" (probes stage)) (noOpen : Bool) {s : Session}
    (h : script probes outcomes .page <+: s.scene.script) {pages : List Stage}
    (hpages : pages = if s.scene.disk.contains m.layout.converter then [.page] else []) :
    ∃ later closing,
      upshot (finish m target noOpen) s = (result (firstFault? outcomes pages), later) ∧
        later.printed =
          s.printed ++ (started outcomes pages).flatMap (shown m target outcomes) ++ closing ∧
        stageCommands later.scene.launches = stageCommands s.scene.launches ++
          (started outcomes pages).map (stageCommand m target) ∧
        IsClosing closing (firstFault? outcomes pages) := by
  obtain ⟨later, lines, hmake, hprinted, hlaunches, hlines⟩ :=
    upshot_makePage m target hprobes noOpen h hpages
  rw [finish]
  cases hfault : firstFault? outcomes pages with
  | some fault =>
    rw [hfault] at hmake hlines
    exact ⟨later, lines, upshot_bind_error hmake _, hprinted, hlaunches, hlines rfl⟩
  | none =>
    rw [hfault] at hmake
    refine ⟨_, lines ++ ["\n🏁 Done."], (upshot_bind_ok hmake _).trans (upshot_say _ later), ?_,
      hlaunches, List.suffix_append _ _⟩
    rw [hprinted, ← List.append_assoc]

theorem upshot_runStages_finish (m : Machine) (target : String)
    (hprobes : ∀ stage, IsUnaware "--root" (probes stage)) (noOpen : Bool) (s : Session)
    {rest : List Outcome} (h : s.scene.script = wholeScript probes outcomes rest)
    {stages : List Stage} (hstages : stages = plan outcomes m.layout s.scene.disk) :
    ∃ later closing,
      upshot (runStages m target textStages >>= fun _ => finish m target noOpen) s =
          (result (firstFault? outcomes stages), later) ∧
        later.printed =
          s.printed ++ (started outcomes stages).flatMap (shown m target outcomes) ++ closing ∧
        stageCommands later.scene.launches = stageCommands s.scene.launches ++
          (started outcomes stages).map (stageCommand m target) ∧
        IsClosing closing (firstFault? outcomes stages) := by
  have htext : upshot (runStages m target textStages) s = _ := upshot_runStages hprobes ⟨_, h.symm⟩
  have hcommands := stageCommands_flatMap (stageCommands_launches m target)
  rw [hstages, plan_eq]
  cases hfault : firstFault? outcomes textStages with
  | some fault =>
    rw [hfault] at htext
    rw [upshot_bind_error htext, started_append_of_some hfault, firstFault?_append_of_some hfault]
    refine ⟨_, [], rfl, ?_, ?_, rfl⟩
    · rw [printed_foldl_after, List.append_nil]
    · rw [launches_foldl_after, stageCommands_append, hcommands]
  | none =>
    rw [hfault, started_of_none hfault] at htext
    have hscript : script probes outcomes .page <+:
        (textStages.foldl (Session.after m target probes outcomes) s).scene.script := by
      rw [script_foldl_after, h, wholeScript, List.drop_left]
      exact List.prefix_append _ _
    obtain ⟨later, closing, hlater, hprinted, hlaunches, hclosing⟩ :=
      upshot_finish m target hprobes noOpen hscript rfl
    rw [disk_foldl_after] at hlater hprinted hlaunches hclosing
    rw [upshot_bind_ok htext, started_append_of_none hfault, firstFault?_append_of_none hfault]
    refine ⟨later, closing, hlater, ?_, ?_, hclosing⟩
    · rw [hprinted, printed_foldl_after, List.flatMap_append, List.append_assoc s.printed]
    · rw [hlaunches, launches_foldl_after, stageCommands_append, hcommands, List.map_append,
        List.append_assoc]

end

end CodeAtlas.Command.Pipeline
