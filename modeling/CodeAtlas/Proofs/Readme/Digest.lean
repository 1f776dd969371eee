import CodeAtlas.Proofs.Report.Node
import CodeAtlas.Proofs.Survey.Visits
import CodeAtlas.Proofs.Text.Lines
import CodeAtlas.Readme.Digest

/-! The digest of a survey. Every file and every folder below the root has one headline, and nothing
else is told: a survey keeps what a file defines where the digest does not look. -/

namespace CodeAtlas

open Text (Points)

mutual

def Entry.preorder (level : Int) : Entry → List (Int × Entry)
  | .file name path finding => [(level, .file name path finding)]
  | .folder name path children =>
    (level, .folder name path children) :: Entry.preorderEach (level + 1) children

def Entry.preorderEach (level : Int) : List Entry → List (Int × Entry)
  | [] => []
  | e :: es => e.preorder level ++ Entry.preorderEach level es

end

def Finding.languageName : Finding → String
  | .read language _ => language.name
  | _ => "unknown"

namespace Readme

def shownName (name path : String) : String :=
  if name ≠ "" then name else if path ≠ "" then path else "unknown"

def headline : Int × Entry → Points
  | (level, .file name path finding) =>
    (s!"{indentation level}📄 **File**: `" : Points) ++ shownName name path ++ "` | Language: `"
      ++ finding.languageName ++ "`"
  | (level, .folder name path _) => (s!"{indentation level}📁 " : Points) ++ shownName name path

theorem nodeName_eq {members : List (Points × Json)} {name path : String}
    (hname : Json.member? members "name" = some (.str name))
    (hpath : Json.member? members "path" = some (.str path)) :
    nodeName members = shownName name path := by
  have hpresent : ∀ s : String, (Json.str s).isPresent = decide (s ≠ "") := by
    intro s
    by_cases hs : s = "" <;> simp [Json.isPresent, Points.ofString, Points.ofChars, hs]
  by_cases hn : name = "" <;> by_cases hp : path = "" <;>
    simp [nodeName, hname, hpath, shownName, Option.filter, hpresent, hn, hp, Json.display]

theorem nodeType_eq {members : List (Points × Json)} {type : String}
    (h : Json.member? members "type" = some (.str type)) : nodeType members = .ok type.toLower := by
  simp [nodeType, h]

theorem entities_holder {members : List (Points × Json)} {children : List Report.Node}
    {type : String} {level : Int} {lines : List Points} (htype : nodeType members = .ok type)
    (hholder : type ≠ "class" ∧ type ≠ "function" ∧ type ≠ "variable")
    (hcheck : Report.checkChildren members = .ok ())
    (hlines : entitiesAll (level + 1) children = .ok lines) :
    entities level (.object members children) =
      .ok ((holderLine? type (indentation level) (nodeName members) members).toList ++ lines) := by
  simp only [entities, htype, hcheck, hlines, bind, Except.bind, pure, Except.pure,
    if_neg hholder.1, if_neg hholder.2.1, if_neg hholder.2.2]

theorem file_members (name path : String) (finding : Finding) :
    ∃ members, Entry.toJson (.file name path finding) = .obj members ∧
      Json.member? members "name" = some (.str name) ∧
      Json.member? members "path" = some (.str path) ∧
      Json.member? members "type" = some (.str "file") ∧
      Json.member? members "children" = none ∧
      shownAt members "language" "unknown" = finding.languageName := by
  refine ⟨_, rfl, ?_⟩
  cases finding <;>
    simp [Finding.members, Finding.languageName, shownAt, Json.display]

theorem entities_file (level : Int) (name path : String) (finding : Finding) :
    entities level (.ofJson (Entry.toJson (.file name path finding))) =
      .ok [headline (level, .file name path finding)] := by
  obtain ⟨members, hjson, hname, hpath, htype, hchildren, hlanguage⟩ :=
    file_members name path finding
  have hlower : "file".toLower = "file" := by decide +kernel
  have hnode : Report.Node.ofJson (.obj members) = .object members [] := by
    rw [Report.Node.ofJson, Report.Node.childrenOf_eq, hchildren]
    rfl
  rw [hjson, hnode, entities_holder (nodeType_eq htype) (by simp [hlower])
    (by rw [Report.checkChildren, hchildren]) (by rw [entitiesAll]; rfl)]
  simp [holderLine?, hlower, nodeName_eq hname hpath, hlanguage, headline]

theorem folder_members (name path : String) (children : List Entry) :
    ∃ members, Entry.toJson (.folder name path children) = .obj members ∧
      Json.member? members "name" = some (.str name) ∧
      Json.member? members "path" = some (.str path) ∧
      Json.member? members "type" = some (.str "folder") ∧
      Json.member? members "children" = some (.arr (Entry.toJsonAll children)) := by
  refine ⟨_, by rw [Entry.toJson], ?_⟩
  simp

mutual

theorem entities_entry (level : Int) (e : Entry) :
    entities level (.ofJson e.toJson) = .ok ((e.preorder level).map headline) := by
  match e with
  | .file name path finding =>
    rw [entities_file, Entry.preorder]
    rfl
  | .folder name path children =>
    obtain ⟨members, hjson, hname, hpath, htype, hchildren⟩ := folder_members name path children
    -- A folder is of no type that is told apart; it has a line because it has children.
    have hlower : "folder".toLower = "folder" := by decide +kernel
    have hnode : Report.Node.ofJson (.obj members) =
        .object members (Report.Node.ofJsonAll (Entry.toJsonAll children)) := by
      rw [Report.Node.ofJson, Report.Node.childrenOf_eq, hchildren]
      simp [Report.Node.partsOf]
    rw [hjson, hnode, entities_holder (nodeType_eq htype) (by simp [hlower])
      (by rw [Report.checkChildren, hchildren]; rfl) (entities_entries (level + 1) children)]
    simp [holderLine?, hlower, nodeName_eq hname hpath, Json.hasKey, hchildren, headline,
      Entry.preorder]

theorem entities_entries (level : Int) (es : List Entry) :
    entitiesAll level (Report.Node.ofJsonAll (Entry.toJsonAll es)) =
      .ok ((Entry.preorderEach level es).map headline) := by
  match es with
  | [] => rfl
  | e :: es =>
    rw [Entry.toJsonAll, Report.Node.ofJsonAll, entitiesAll, entities_entry level e,
      entities_entries level es, Entry.preorderEach, List.map_append]
    rfl

end

theorem toJsonAll_eq_map (es : List Entry) : Entry.toJsonAll es = es.map Entry.toJson := by
  induction es with
  | nil => rfl
  | cons e es ih => rw [Entry.toJsonAll, ih, List.map_cons]

theorem subjectLines_entry (e : Entry) :
    subjectLines e.toJson = .ok ((e.preorder 0).map headline ++ [[]]) := by
  have hobject : isObject e.toJson := by
    cases e with
    | file name path finding =>
      obtain ⟨members, hjson, -⟩ := file_members name path finding
      rw [hjson, isObject]
    | folder name path children =>
      obtain ⟨members, hjson, -⟩ := folder_members name path children
      rw [hjson, isObject]
  have hsome : e.preorder 0 ≠ [] := by
    cases e <;> simp [Entry.preorder]
  simp [subjectLines, hobject, entities_entry, bind, Except.bind, pure, Except.pure, hsome]

theorem mapM_subjectLines (es : List Entry) :
    (es.map Entry.toJson).mapM subjectLines =
      .ok (es.map fun e => (e.preorder 0).map headline ++ [[]]) := by
  induction es with
  | nil => rfl
  | cons e es ih =>
    rw [List.map_cons, List.mapM_cons, subjectLines_entry, ih]
    rfl

theorem digest_folder (name path : String) (children : List Entry) :
    digest (Entry.toJson (.folder name path children)) =
      .ok (Text.joinLines (title ::
        children.flatMap fun child => (child.preorder 0).map headline ++ [[]])) := by
  obtain ⟨members, hjson, -, -, -, hchildren⟩ := folder_members name path children
  have hsubjects : subjects members = .ok (children.map Entry.toJson) := by
    rw [subjects, hchildren, ← toJsonAll_eq_map]
    rfl
  simp only [hjson, digest, hsubjects, mapM_subjectLines, bind, Except.bind, pure, Except.pure,
    List.flatMap_def]

def block (node : Int × Entry) : List Points := Text.splitLines (headline node)

theorem splitLines_digest (children : List Entry) :
    Text.splitLines (Text.joinLines (title ::
        children.flatMap fun child => (child.preorder 0).map headline ++ [[]])) =
      Points.ofString "# Project Code Structure Summary" :: [] ::
        children.flatMap fun child => (child.preorder 0).flatMap block ++ [[]] := by
  have htitle : Text.splitLines title =
      [Points.ofString "# Project Code Structure Summary", []] := by decide +kernel
  rw [Text.splitLines_joinLines (by simp), List.flatMap_cons, htitle, List.flatMap_assoc]
  simp only [List.flatMap_append, List.flatMap_map, List.flatMap_singleton, Text.splitLines]
  rfl

end Readme

def Definitions.names : Definitions → List String
  | .program definitions => definitions.functions.map Metta.Function.name
  | .outline found =>
    (found.classes.flatMap fun c => c.name :: c.functions.map Grammar.Function.name) ++
      found.functions.map Grammar.Function.name

namespace Readme

open Survey (survey)

/-- The digest of a surveyed folder succeeds and consists of headlines only. So the name of a class,
a method or a function is told with its file just by chance: if the headline of the file holds it
already, and on one line. -/
theorem name_told_iff (lib : Grammar.Library) (d : Disk) (root : String) (p : Survey.Progress)
    (seen : List (String × View)) (h : d.view root = .folder seen) :
    ∃ name path children text, (survey lib d root p).1 = .folder name path children ∧
      digest (survey lib d root p).1.toJson = .ok text ∧
      Text.splitLines text = Points.ofString "# Project Code Structure Summary" :: [] ::
        (children.flatMap fun child => (child.preorder 0).flatMap block ++ [[]]) ∧
      ∀ level name path language definitions,
        (level, .file name path (.read language definitions)) ∈
            children.flatMap (Entry.preorder 0) →
          ∀ word ∈ definitions.names,
            (∃ line ∈ block (level, .file name path (.read language definitions)),
                Points.ofString word <:+: line) ↔
              Points.ofString word <:+:
                  (s!"{indentation level}📄 **File**: `" : Points) ++ shownName name path ++
                    "` | Language: `" ++ language.name ++ "`" ∧
                Text.lineFeed ∉ Points.ofString word := by
  rw [survey, h, Survey.surveyView]
  refine ⟨_, _, _, _, rfl, digest_folder _ _ _, splitLines_digest _, ?_⟩
  intro level name path language definitions _ word _
  exact Text.exists_line_iff (Points.ofString word) _

def areaCode : List UInt8 := Text.Utf8.encode "(= (area $x) $x)"

def oneProgram : Disk := ⟨.folder [("a.metta", .file areaCode)], []⟩

theorem view_oneProgram :
    oneProgram.view "/" = .folder [("a.metta", .file (.ok areaCode))] := by
  have hnames : FileTree.shownNames [("a.metta", .file areaCode)] = ["a.metta"] := by
    decide +kernel
  have hjoin : Path.join "/" "a.metta" = "/a.metta" := by decide +kernel
  have hview : oneProgram.view "/a.metta" = .file (.ok areaCode) :=
    Disk.view_in_root "a.metta" rfl (by decide +kernel) (by decide) rfl
  rw [oneProgram] at *
  rw [Disk.view_root, hnames, List.map_singleton, hjoin, hview]

theorem survey_oneProgram (lib : Grammar.Library) :
    (survey lib oneProgram "/" .none).1 = .folder "" "/" [.file "a.metta" "/a.metta"
      (.read .metta (.program ⟨[⟨"area", 1, 1, ["$x"]⟩], [], [], 0, ["$x"], []⟩))] := by
  have hlanguage : Language.ofPath? (Path.join "/" "a.metta") = some .metta := by decide +kernel
  have hnames : Path.baseName "/" = "" ∧ Path.baseName (Path.join "/" "a.metta") = "a.metta" ∧
      Path.absolute oneProgram.cwd "/" = "/" ∧
      Path.absolute oneProgram.cwd (Path.join "/" "a.metta") = "/a.metta" := by decide +kernel
  have hdefinitions : (Metta.Node.ofBytes areaCode).definitions =
      ⟨[⟨"area", 1, 1, ["$x"]⟩], [], [], 0, ["$x"], []⟩ := by decide +kernel
  rw [survey, view_oneProgram]
  simp only [Survey.surveyView, Survey.surveyEach, Survey.surveyFile, Survey.readFile, hlanguage,
    Definitions.ofSource, if_pos, hdefinitions, hnames]

def unbuilt : Grammar.Library := ⟨"languages.so", false, [], [], fun _ _ => .error "no grammar"⟩

theorem function_not_told :
    oneProgram.view "/" = .folder [("a.metta", .file (.ok areaCode))] ∧
      ∃ definitions, (survey unbuilt oneProgram "/" .none).1 =
          .folder "" "/" [.file "a.metta" "/a.metta" (.read .metta definitions)] ∧
        "area" ∈ definitions.names ∧
        ¬ ∃ line ∈ block (0, .file "a.metta" "/a.metta" (.read .metta definitions)),
          Points.ofString "area" <:+: line := by
  have hnames : "area" ∈ Definitions.names
      (.program ⟨[⟨"area", 1, 1, ["$x"]⟩], [], [], 0, ["$x"], []⟩) := by decide +kernel
  refine ⟨view_oneProgram, _, survey_oneProgram unbuilt, hnames, ?_⟩
  obtain ⟨name, path, children, text, hfolder, -, -, htold⟩ :=
    name_told_iff unbuilt oneProgram "/" .none _ view_oneProgram
  rw [survey_oneProgram] at hfolder
  injection hfolder with _ _ hchildren
  rw [htold 0 _ _ _ _ (by simp [← hchildren, Entry.preorder]) "area" hnames]
  decide +kernel

end Readme

end CodeAtlas
