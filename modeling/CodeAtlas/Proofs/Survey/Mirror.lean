import CodeAtlas.Proofs.Disk.Rights
import CodeAtlas.Proofs.Json.Members

/-! A survey mirrors the disk: folder for folder, file for file. -/

namespace CodeAtlas

namespace Path

def hasExtension (extensions : List String) (path : String) : Bool :=
  (extension path).toLower ∈ extensions

def isMetta (path : String) : Bool := hasExtension [".metta", ".mta"] path

def hasGrammar (path : String) : Bool := hasExtension [".py", ".js", ".java"] path

theorem hasExtension_baseName (extensions : List String) (path : String) :
    hasExtension extensions (baseName path) = hasExtension extensions path := by
  rw [hasExtension, extension_baseName, hasExtension]

@[simp] theorem isMetta_baseName (path : String) : isMetta (baseName path) = isMetta path :=
  hasExtension_baseName _ path

@[simp] theorem hasGrammar_baseName (path : String) :
    hasGrammar (baseName path) = hasGrammar path := hasExtension_baseName _ path

theorem hasGrammar_of_isMetta {path : String} (h : isMetta path) : hasGrammar path = false := by
  simp only [isMetta, hasGrammar, hasExtension, decide_eq_true_eq] at h ⊢
  rcases List.mem_pair.1 h with h | h
  all_goals
    rw [h]
    decide

theorem isMetta_of_hasGrammar {path : String} (h : hasGrammar path) : isMetta path = false := by
  by_contra hmetta
  rw [hasGrammar_of_isMetta (Bool.of_not_eq_false hmetta)] at h
  cases h

end Path

theorem Language.ofPath?_cases (path : String) :
    ofPath? path = none ∧ Path.isMetta path = false ∧ Path.hasGrammar path = false ∨
      ofPath? path = some .metta ∧ Path.isMetta path ∨
      ∃ language, ofPath? path = some language ∧ language ≠ .metta ∧ Path.hasGrammar path := by
  simp only [ofPath?, Path.isMetta, Path.hasGrammar, Path.hasExtension]
  generalize (Path.extension path).toLower = found
  by_cases hknown : found ∈ byExtension.map Prod.fst
  · simp only [byExtension, List.map_cons, List.map_nil, List.mem_cons, List.not_mem_nil,
      or_false] at hknown
    rcases hknown with rfl | rfl | rfl | rfl | rfl <;> decide
  · left
    have hnone : byExtension.lookup found = none := by
      rw [List.lookup_eq_none_iff]
      intro entry hentry
      exact bne_iff_ne.2 fun heq => hknown (heq ▸ List.mem_map_of_mem hentry)
    refine ⟨hnone, ?_⟩
    simp only [byExtension, List.map_cons, List.map_nil, List.mem_cons, List.not_mem_nil, or_false,
      not_or] at hknown
    simp [hknown]

def findingKeys : List String := ["language", "definitions", "parse_error"]

namespace Entry

def name : Entry → String
  | file name _ _ => name
  | folder name _ _ => name

def has (e : Entry) (key : String) : Bool :=
  match e.toJson with
  | .obj members => Json.hasKey members key
  | _ => false

def told (e : Entry) : List String := findingKeys.filter e.has

/-- The keys that the entry of a file has to have: by its extension, and if it is a MeTTa file, by
whether it can be read. -/
def Tells (path : String) (content : Except FileError (List UInt8)) (keys : List String) : Prop :=
  if Path.isMetta path then
    keys = if content.isOk then ["language", "definitions"] else ["parse_error"]
  else if Path.hasGrammar path then keys = ["language", "definitions"] ∨ keys = ["parse_error"]
  else keys = []

mutual

/-- The entry tells what stands at a path: of a folder all that is in it and not hidden, once and in
order; of a file that it is of no known language, or what it defines, or why it was not read. -/
def Mirrors (r : Disk.Rights) (d : Disk) (path : String) : Entry → Prop
  | file name full finding =>
    name = Path.baseName path ∧ full = Path.absolute d.cwd path ∧ ¬ d.isFolder path ∧
      Tells path (d.readWith r path) (file name full finding).told
  | folder name full children =>
    name = Path.baseName path ∧ full = Path.absolute d.cwd path ∧
      (∃ entries, d.status path = .ok (.folder entries) ∧
        (children.map Entry.name).Pairwise (· < ·) ∧
        ∀ name, name ∈ children.map Entry.name ↔
          name ∈ entries.map Prod.fst ∧ FileTree.isName name ∧ ¬ FileTree.isHidden name) ∧
      MirrorsEach r d path children

def MirrorsEach (r : Disk.Rights) (d : Disk) (path : String) : List Entry → Prop
  | [] => True
  | e :: es => e.Mirrors r d (Path.join path e.name) ∧ MirrorsEach r d path es

end

theorem has_file (name path : String) (finding : Finding) (key : String) :
    (file name path finding).has key =
      decide (key ∈ ["name", "path", "type"] ++ finding.members.map Prod.fst) := by
  have hkeys : ∀ members : List (String × Json),
      Json.hasKey (members.map fun member => (Text.Points.ofString member.1, member.2)) key =
        decide (key ∈ members.map Prod.fst) := by
    intro members
    induction members with
    | nil => rfl
    | cons member members ih =>
      by_cases h : key = member.1 <;> simp_all [Json.hasKey]
  rw [has, toJson, Json.ofMembers]
  exact hkeys _

theorem told_file (name path : String) (finding : Finding) :
    (file name path finding).told = match finding with
      | .unknown => []
      | .read _ _ => ["language", "definitions"]
      | .failed _ => ["parse_error"] := by
  cases finding <;> simp [told, findingKeys, has_file, Finding.members]

end Entry

inductive Finding.Fits (path : String) (content : Except FileError (List UInt8)) : Finding → Prop
  | unknown : Path.isMetta path = false → Path.hasGrammar path = false → Fits path content .unknown
  | metta {definitions : Definitions} : Path.isMetta path → content.isOk →
      Fits path content (.read .metta definitions)
  | unopened {message : String} : Path.isMetta path → content.isOk = false →
      Fits path content (.failed message)
  | grammar {language : Language} {definitions : Definitions} : Path.hasGrammar path →
      language ≠ .metta → Fits path content (.read language definitions)
  | failed {message : String} : Path.hasGrammar path → Fits path content (.failed message)

theorem Entry.tells_of_fits {path : String} {content : Except FileError (List UInt8)}
    {finding : Finding} (h : finding.Fits path content) (name full : String) :
    Tells path content (file name full finding).told := by
  rw [told_file, Tells]
  cases h with
  | unknown hmetta hgrammar => simp [hmetta, hgrammar]
  | metta hmetta hopened => simp [hmetta, hopened]
  | unopened hmetta hopened => simp [hmetta, hopened]
  | grammar hgrammar hlanguage => simp [hgrammar, Path.isMetta_of_hasGrammar hgrammar]
  | failed hgrammar => simp [hgrammar, Path.isMetta_of_hasGrammar hgrammar]

namespace Survey

theorem fits_readFile_metta (s : Setting) {path : String} (h : Path.isMetta path)
    (content : Except FileError (List UInt8)) (p : Progress) :
    (readFile s path .metta content p).1.Fits path content := by
  cases content with
  | error e => exact .unopened h rfl
  | ok code =>
    rw [readFile, Definitions.ofSource, if_pos rfl]
    exact .metta h rfl

theorem fits_readFile (s : Setting) {path : String} (h : Path.hasGrammar path)
    {language : Language} (hlanguage : language ≠ .metta)
    (content : Except FileError (List UInt8)) (p : Progress) :
    (readFile s path language content p).1.Fits path content := by
  cases content with
  | error e => exact .failed h
  | ok code =>
    rcases hsource : Definitions.ofSource s.library language code p.loaded with ⟨result, loaded⟩
    simp only [readFile, hsource]
    cases result with
    | ok definitions => exact .grammar h hlanguage
    | error e => exact .failed h

theorem surveyFile_eq (s : Setting) (path : String) (content : Except FileError (List UInt8))
    (p : Progress) : ∃ finding : Finding,
      (surveyFile s path content p).1 =
        .file (Path.baseName path) (Path.absolute s.cwd path) finding ∧
      finding.Fits path content := by
  unfold surveyFile
  rcases Language.ofPath?_cases path with
    ⟨hpath, hother⟩ | ⟨hpath, hmetta⟩ | ⟨language, hpath, hlanguage, hgrammar⟩
  · exact ⟨.unknown, by rw [hpath], .unknown hother.1 hother.2⟩
  · exact ⟨_, by rw [hpath], fits_readFile_metta s hmetta content p⟩
  · exact ⟨_, by rw [hpath], fits_readFile s hgrammar hlanguage content p⟩

theorem name_surveyView (s : Setting) (path : String) (p : Progress) (seen : View) :
    (surveyView s path p seen).1.name = Path.baseName path := by
  cases seen with
  | file content =>
    obtain ⟨finding, heq, -⟩ := surveyFile_eq s path content p
    rw [surveyView, heq, Entry.name]
  | folder entries => simp [surveyView, Entry.name]

theorem mirrors_surveyFile (lib : Grammar.Library) (r : Disk.Rights) {d : Disk} {path : String}
    (h : ¬ d.isFolder path) (p : Progress) :
    (surveyFile ⟨lib, d.cwd⟩ path (d.readWith r path) p).1.Mirrors r d path := by
  obtain ⟨finding, heq, hfits⟩ := surveyFile_eq ⟨lib, d.cwd⟩ path (d.readWith r path) p
  rw [heq, Entry.Mirrors]
  exact ⟨rfl, rfl, h, Entry.tells_of_fits hfits _ _⟩

theorem mirrorsEach_surveyEach (lib : Grammar.Library) {r : Disk.Rights} {d : Disk} {path : String}
    (seen : List (String × View)) (hnames : ∀ entry ∈ seen, FileTree.isName entry.1)
    (ih : ∀ entry ∈ seen, ∀ p, (surveyView ⟨lib, d.cwd⟩ (Path.join path entry.1) p
      entry.2).1.Mirrors r d (Path.join path entry.1)) (p : Progress) :
    (surveyEach ⟨lib, d.cwd⟩ path p seen).1.map Entry.name = seen.map Prod.fst ∧
      Entry.MirrorsEach r d path (surveyEach ⟨lib, d.cwd⟩ path p seen).1 := by
  induction seen generalizing p with
  | nil => exact ⟨rfl, trivial⟩
  | cons entry seen ih' =>
    obtain ⟨hname, hnames⟩ := List.forall_mem_cons.1 hnames
    obtain ⟨hfirst, hrest⟩ := List.forall_mem_cons.1 ih
    have hlater := ih' hnames hrest (surveyView ⟨lib, d.cwd⟩ (Path.join path entry.1) p entry.2).2
    have hbase : (surveyView ⟨lib, d.cwd⟩ (Path.join path entry.1) p entry.2).1.name = entry.1 := by
      rw [name_surveyView, Path.baseName_join hname]
    simp only [List.map_cons, surveyEach, Entry.MirrorsEach, hbase]
    exact ⟨congrArg (entry.1 :: ·) hlater.1, hfirst p, hlater.2⟩

theorem mirrors_of_look (lib : Grammar.Library) {r : Disk.Rights} {d : Disk} {path : String}
    {seen : View} (h : d.look r path = .ok seen) :
    ∀ p, (surveyView ⟨lib, d.cwd⟩ path p seen).1.Mirrors r d path := by
  induction path using Disk.files_induction (d := d) generalizing seen with
  | file path hfile =>
    intro p
    rw [Disk.look_file hfile] at h
    cases h
    exact mirrors_surveyFile lib r hfile p
  | folder path entries hstatus ih =>
    intro p
    obtain ⟨shown, rfl, hshown, hentries⟩ := Disk.folder_of_look hstatus h
    have hmem : ∀ entry ∈ shown, entry.1 ∈ FileTree.shownNames entries := by
      intro entry hentry
      exact hshown ▸ List.mem_map_of_mem hentry
    obtain ⟨hchildren, heach⟩ := mirrorsEach_surveyEach lib shown
      (fun entry hentry => Disk.isName_of_shown (hmem entry hentry))
      (fun entry hentry => ih entry.1 (hmem entry hentry) (hentries entry hentry)) p
    rw [surveyView, Entry.Mirrors]
    refine ⟨rfl, rfl, ⟨entries, hstatus, ?_, ?_⟩, heach⟩
    · rw [hchildren, hshown]
      exact FileTree.shownNames_pairwise entries
    · intro name
      rw [hchildren, hshown]
      exact FileTree.mem_shownNames

theorem walk_all (lib : Grammar.Library) (d : Disk) (path : String) (p : Progress) :
    walk lib .all d path p = .ok (survey lib d path p) := by
  rw [walk, Disk.look_all]
  rfl

theorem mirrors_survey (lib : Grammar.Library) (d : Disk) (path : String) (p : Progress) :
    (survey lib d path p).1.Mirrors .all d path :=
  mirrors_of_look lib (d.look_all path) p

end Survey

end CodeAtlas
