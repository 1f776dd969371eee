import CodeAtlas.Command.Survey
import CodeAtlas.Proofs.Survey.MettaPart
import CodeAtlas.Proofs.Upshot

/-! What the survey command prints, up to the summary. Every step either goes on or ends the run,
and no step takes back what was printed before it. With only the MeTTa part asked for, the run ends
at the summary if there are no MeTTa files. -/

namespace CodeAtlas.Command.Survey

section

variable {α β : Type}

theorem upshot_get (s : Session) : upshot (get : Run Session) s = (.ok s, s) := rfl

theorem upshot_say (lines : List String) (s : Session) :
    upshot (say lines) s = (.ok (), { s with printed := s.printed ++ lines }) := rfl

theorem upshot_needPath (path : String) (s : Session) :
    upshot (needPath (some path)) s = (.ok path, s) := rfl

/-- A relation between sessions that only lines and written files may come between. -/
structure IsFrame (R : Session → Session → Prop) : Prop where
  refl (s : Session) : R s s
  trans (s t u : Session) : R s t → R t u → R s u
  said (s : Session) (lines : List String) : R s { s with printed := s.printed ++ lines }
  saved (s : Session) (disk : Disk) : R s { s with disk }
  wrote (s : Session) (path : Option String) : R s { s with written := path }

variable {R : Session → Session → Prop} (hR : IsFrame R)

include hR

theorem IsFrame.bind {run : Run α} {next : α → Run β} (h : Relates R run)
    (hnext : ∀ a, Relates R (next a)) : Relates R (run >>= next) :=
  Relates.bind hR.trans h hnext

theorem IsFrame.needPath (value : CommandLine.Value) : Relates R (needPath value) := by
  cases value with
  | none => exact hR.refl
  | some path => exact hR.refl

theorem IsFrame.onDisk (change : Disk → Except FileError Disk) : Relates R (onDisk change) := by
  intro s
  unfold Survey.onDisk
  rw [upshot_bind_ok (upshot_get s)]
  cases change s.disk with
  | error e => exact hR.refl s
  | ok disk => exact hR.saved s disk

theorem IsFrame.saveGraph (output : CommandLine.Value) : Relates R (saveGraph output) := by
  refine hR.bind (hR.needPath output) fun path => ?_
  refine hR.bind (hR.onDisk _) fun _ => ?_
  exact hR.bind (fun s => hR.wrote s (some path)) fun _ s => hR.said s _

end

def Grows (s later : Session) : Prop := s.printed <+: later.printed

theorem isFrame_grows : IsFrame Grows where
  refl s := List.prefix_refl s.printed
  trans _ _ _ h h' := List.IsPrefix.trans h h'
  said s lines := List.prefix_append s.printed lines
  saved s _ := List.prefix_refl s.printed
  wrote s _ := List.prefix_refl s.printed

theorem grows_drawGraph (report : Json) : Relates Grows (drawGraph report) := by
  refine isFrame_grows.bind (fun s => List.prefix_refl s.printed) fun _ => ?_
  cases (Graph.Outline.draw report).fault with
  | none => exact isFrame_grows.refl
  | some fault => exact isFrame_grows.refl

theorem grows_saveVectors (model : Embedding.Model) (output : CommandLine.Value) :
    Relates Grows (saveVectors model output) := by
  refine isFrame_grows.bind (fun s => List.prefix_refl s.printed) fun _ => ?_
  refine isFrame_grows.bind isFrame_grows.refl fun s => ?_
  refine isFrame_grows.bind (isFrame_grows.needPath output) fun path => ?_
  exact isFrame_grows.bind (isFrame_grows.onDisk _) fun _ s => isFrame_grows.said s _

theorem grows_finish (model : Embedding.Model) (settings : Settings) (found : Json) :
    Relates Grows (finish model settings found) := by
  refine isFrame_grows.bind (grows_drawGraph found) fun _ => ?_
  refine isFrame_grows.bind (isFrame_grows.saveGraph settings.graphOutput) fun _ => ?_
  refine isFrame_grows.bind isFrame_grows.refl fun s => ?_
  split
  · exact fun s => isFrame_grows.said s _
  · exact grows_saveVectors model settings.vectorOutput

theorem isFrame_edits : IsFrame fun s later => later.edits = s.edits where
  refl _ := rfl
  trans _ _ _ h h' := h'.trans h
  said _ _ := rfl
  saved _ _ := rfl
  wrote _ _ := rfl

theorem edits_draw_ne_nil {report : Json} (h : (Graph.Outline.draw report).fault = none) :
    (Graph.Outline.draw report).edits ≠ [] := by
  have happend {a b : Graph.Drawing} (ha : a.edits ≠ []) : (a ++ b).edits ≠ [] := by
    change (Graph.Drawing.append a b).edits ≠ []
    unfold Graph.Drawing.append
    cases a.fault with
    | some fault => exact ha
    | none => exact List.append_ne_nil_of_left_ne_nil ha _
  unfold Graph.Outline.draw at h ⊢
  cases hnode : Report.Node.ofJson report with
  | value j =>
    rw [hnode, Graph.Outline.drawNode] at h
    cases h
  | object members children =>
    rw [hnode, Graph.Outline.drawNode] at h
    rw [Graph.Outline.drawNode]
    cases htype : (Json.obj members).require "type" with
    | error fault =>
      rw [htype] at h
      cases h
    | ok type =>
      cases hname : (Json.obj members).require "name" with
      | error fault =>
        rw [htype, hname] at h
        cases h
      | ok name => exact happend (happend (happend (List.cons_ne_nil _ _)))

theorem of_upshot_drawGraph {found : Json} {s drawn : Session}
    (h : upshot (drawGraph found) s = (.ok (), drawn)) :
    (Graph.Outline.draw found).fault = none ∧ drawn.edits = (Graph.Outline.draw found).edits := by
  unfold drawGraph at h
  dsimp only at h
  cases hfault : (Graph.Outline.draw found).fault with
  | some fault =>
    rw [hfault] at h
    cases h
  | none =>
    rw [hfault] at h
    cases h
    exact ⟨rfl, rfl⟩

/-- The graph is never empty, so that its nodes always get their vectors. -/
theorem upshot_finish (model : Embedding.Model) (settings : Settings) (found : Json)
    (s : Session) :
    upshot (finish model settings found) s =
      upshot (drawGraph found >>= fun _ => saveGraph settings.graphOutput >>= fun _ =>
        saveVectors model settings.vectorOutput) s := by
  refine upshot_bind_congr fun _ drawn hdrawn => upshot_bind_congr fun _ later hlater => ?_
  obtain ⟨hfault, hedits⟩ := of_upshot_drawGraph hdrawn
  have hkept := isFrame_edits.saveGraph settings.graphOutput drawn
  rw [hlater, hedits] at hkept
  have hsome : later.edits.isEmpty = false := by
    rw [List.isEmpty_eq_false_iff, hkept]
    exact edits_draw_ne_nil hfault
  rw [upshot_bind_ok (upshot_get later), hsome]
  rfl

def opening (d : Disk) (root : String) (listed : List String) : List String :=
  ["🔍 Scanning: " ++ Path.absolute d.cwd root,
    "🌐 Languages supported: " ++ ", ".intercalate listed,
    "🎯 MeTTa-only mode enabled"]

section

variable {lib : Grammar.Library} {settings : Settings} {d saved : Disk} {root output : String}
  {kept : Json} (hroot : settings.root = some root) (houtput : settings.output = some output)
  (hmetta : settings.mettaOnly)
  (hkept : Report.mettaOnly (Survey.survey lib d root .none).1.toJson = .ok kept)
  (hsaved : Report.save kept output d = .ok saved) (model : Embedding.Model)
  (listed : List String)

include hroot houtput hmetta hkept hsaved

theorem upshot_run :
    ∃ logged, upshot (run lib model listed settings) (.start d) =
      upshot (check (Report.count kept) >>= fun counts => say counts.lines >>= fun _ =>
          finish model settings kept)
        { Session.start saved with
          printed := opening d root listed ++ [Report.savedMessage output], logged } := by
  obtain ⟨logged, hreport⟩ : ∃ logged,
      upshot (report lib root settings.debug true)
          { Session.start d with printed := opening d root listed } =
        (.ok kept, { Session.start d with printed := opening d root listed, logged }) := by
    rw [report, upshot_bind_ok (upshot_get _)]
    dsimp only [Session.start]
    cases settings.debug with
    | false => exact ⟨[], by rw [if_neg Bool.false_ne_true, if_pos rfl, hkept]; rfl⟩
    | true => exact ⟨_, by rw [if_pos rfl, if_pos rfl, hkept]; rfl⟩
  have hsave : upshot (saveReport kept output)
        { Session.start d with printed := opening d root listed, logged } =
      (.ok (), { Session.start saved with printed := opening d root listed, logged }) := by
    rw [saveReport, upshot_bind_ok (upshot_get _)]
    dsimp only [Session.start]
    rw [hsaved]
    rfl
  -- Up to the report nothing can fail any more, and only lines are printed.
  refine ⟨logged, ?_⟩
  unfold run
  rw [hroot, houtput, hmetta, upshot_bind_ok (upshot_needPath root _),
    upshot_bind_ok (upshot_get _), upshot_bind_ok (upshot_say _ _)]
  dsimp only
  rw [if_pos rfl, upshot_bind_ok (upshot_say _ _)]
  refine (upshot_bind_ok hreport _).trans ?_
  rw [upshot_bind_ok (upshot_needPath output _), upshot_bind_ok hsave,
    upshot_bind_ok (upshot_say _ _)]

theorem upshot_run_error {fault : Json.Fault} (hcount : Report.count kept = .error fault) :
    ∃ logged, upshot (run lib model listed settings) (.start d) =
      (.error (.fault fault), { Session.start saved with
        printed := opening d root listed ++ [Report.savedMessage output], logged }) := by
  obtain ⟨logged, hrun⟩ := upshot_run hroot houtput hmetta hkept hsaved model listed
  refine ⟨logged, ?_⟩
  rw [hrun, hcount, upshot_bind_error]
  rfl

theorem lines_prefix_printed {counts : Report.Counts} (hcount : Report.count kept = .ok counts) :
    opening d root listed ++ [Report.savedMessage output] ++ counts.lines <+:
      (upshot (run lib model listed settings) (.start d)).2.printed := by
  obtain ⟨logged, hrun⟩ := upshot_run hroot houtput hmetta hkept hsaved model listed
  rw [hrun, hcount]
  exact grows_finish model settings kept
    { Session.start saved with
      printed := opening d root listed ++ [Report.savedMessage output] ++ counts.lines, logged }

end

/-- The MeTTa part of a survey is summed up just if there are MeTTa files that can be opened, and
then they are all that is counted. Without them the command ends where the summary would come. -/
theorem metta_summed_up_iff (lib : Grammar.Library) (d : Disk) (root : String) :
    let metta := (d.files root).countP fun path => Path.isMetta path && (d.read path).isOk
    (∀ p, let report := (Survey.survey lib d root p).1.toJson
      (Report.count report).map Report.Counts.metta = .ok metta ∧
        (Report.mettaOnly report).bind Report.count =
          if metta = 0 then .error (.notSubscriptable .null) else .ok ⟨metta, metta, 0, 0⟩) ∧
    ∀ (model : Embedding.Model) (listed : List String) (settings : Settings) (output : String)
      (kept : Json) (saved : Disk),
      settings.root = some root → settings.output = some output → settings.mettaOnly →
      Report.mettaOnly (Survey.survey lib d root .none).1.toJson = .ok kept →
      Report.save kept output d = .ok saved →
      let ended := upshot (run lib model listed settings) (.start d)
      let before := opening d root listed ++ [Report.savedMessage output]
      if metta = 0 then
        ended.1 = .error (.fault (.notSubscriptable .null)) ∧ ended.2.printed = before
      else before ++ Report.Counts.lines ⟨metta, metta, 0, 0⟩ <+: ended.2.printed := by
  have hmetta (p : Survey.Progress) := Entry.countP_isMetta (Survey.files_isOf lib d root p)
  have hcount (p : Survey.Progress) := Report.count_mettaOnly (Survey.survey lib d root p).1
  simp only [hmetta] at hcount
  refine ⟨fun p => ⟨?_, hcount p⟩, ?_⟩
  · rw [Entry.count_of_isOf (Survey.files_isOf lib d root p)]
    rfl
  · intro model listed settings output kept saved hroot houtput honly hkept hsaved
    have hkeptCount := hcount .none
    rw [hkept, Except.bind] at hkeptCount
    dsimp only
    split
    · next hzero =>
      rw [if_pos hzero] at hkeptCount
      obtain ⟨logged, hrun⟩ :=
        upshot_run_error hroot houtput honly hkept hsaved model listed hkeptCount
      rw [hrun]
      exact ⟨rfl, rfl⟩
    · next hsome =>
      rw [if_neg hsome] at hkeptCount
      exact lines_prefix_printed hroot houtput honly hkept hsaved model listed hkeptCount

open CodeAtlas.Survey (twoFiles withoutScripts visits_twoFiles)

def twoFilesSaved : Disk :=
  ⟨.folder [("a.py", .file []), ("b.py", .file []),
    ("out.json", .file (Text.Utf8.encode "null"))], []⟩

theorem save_twoFiles : Report.save .null "out.json" twoFiles = .ok twoFilesSaved := by
  have hfollow : Disk.follow twoFiles.root Disk.maxLinks (twoFiles.start "out.json") ["."] =
      .ok [] := by
    rw [Disk.follow, if_pos rfl, Disk.follow]
    rfl
  have hend : twoFiles.locateEnd "out.json" = .ok ([], some "out.json") := by
    have hnames : Disk.names "out.json" = ["out.json"] := by decide +kernel
    rw [Disk.locateEnd, hnames, List.dropLast_singleton, List.nil_append, hfollow]
    rfl
  have hwrite : twoFiles.writeText "out.json" "null" = .ok twoFilesSaved := by
    rw [Disk.writeText, Disk.write, Disk.placeToWrite, hend]
    rfl
  have hprepare : Report.prepare "out.json" twoFiles = .ok twoFiles := by
    have hfolder : Path.dirName "out.json" = "" := by decide +kernel
    rw [Report.prepare, hfolder]
    rfl
  have hpieces : Report.firstUnencodable? (Json.null.pieces 0) = none := rfl
  have htext : Report.savedText .null = "null" := by decide +kernel
  rw [Report.save, hpieces]
  simp only [hprepare, htext, bind, Except.bind, Disk.attempt, hwrite]

theorem summary_breaks_off :
    Report.mettaOnly (Survey.survey withoutScripts twoFiles "/" .none).1.toJson = .ok .null ∧
      Report.save .null "out.json" twoFiles = .ok twoFilesSaved ∧
      let ended := upshot (run withoutScripts ⟨fun _ => true, fun _ _ => .null⟩ Language.sortedNames
        ⟨some "/", some "out.json", some "out.graphml", some "vectors.json", false, true⟩)
          (.start twoFiles)
      ended.1 = .error (.fault (.notSubscriptable .null)) ∧
        ended.2.printed =
          opening twoFiles "/" Language.sortedNames ++ [Report.savedMessage "out.json"] := by
  have hzero : ((twoFiles.files "/").countP fun path =>
      Path.isMetta path && (twoFiles.read path).isOk) = 0 := by
    have hpaths : ∀ path ∈ ["/a.py", "/b.py"], Path.isMetta path = false := by decide +kernel
    rw [Disk.files, visits_twoFiles]
    refine List.countP_eq_zero.2 fun path hpath => ?_
    simp [hpaths path hpath]
  have hkept : Report.mettaOnly (Survey.survey withoutScripts twoFiles "/" .none).1.toJson =
      .ok .null := by
    have hnone : (Survey.survey withoutScripts twoFiles "/" .none).1.mettaPart = none := by
      rw [Entry.mettaPart_eq_none_iff, ← List.length_eq_zero_iff, ← List.countP_eq_length_filter,
        Entry.countP_isMetta (Survey.files_isOf withoutScripts twoFiles "/" .none), hzero]
    rw [Report.mettaOnly_entry, hnone]
    rfl
  have hended := (metta_summed_up_iff withoutScripts twoFiles "/").2
    ⟨fun _ => true, fun _ _ => .null⟩ Language.sortedNames
    ⟨some "/", some "out.json", some "out.graphml", some "vectors.json", false, true⟩ "out.json"
    .null twoFilesSaved rfl rfl rfl hkept save_twoFiles
  dsimp only at hended
  rw [if_pos hzero] at hended
  exact ⟨hkept, save_twoFiles, hended⟩

end CodeAtlas.Command.Survey
