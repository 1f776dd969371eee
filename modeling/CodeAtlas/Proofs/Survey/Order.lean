import CodeAtlas.Proofs.Grammar.Loading
import CodeAtlas.Proofs.Survey.Visits

/-! Whether the entry of a file depends on the files that were visited before it. All that a visit
leaves to the next is what is loaded, and that is settled by the first file that needs a grammar:
from then on, languages before the first failure are read, while on its own a file of such a
language meets the failure. -/

namespace CodeAtlas

def Definitions.ofLoaded (lib : Grammar.Library) (language : Language) (code : List UInt8) :
    Except SourceError Definitions :=
  match lib.parse language code with
  | .error reason => .error (.unparsed reason)
  | .ok t => Definitions.ofTree language.name code t

def Finding.ofResult (language : Language) : Except SourceError Definitions → Finding
  | .ok definitions => .read language definitions
  | .error e => .failed e.message

def Visit.needsGrammar (visit : Visit) : Bool :=
  match visit.content, Language.ofPath? visit.path with
  | .ok _, some language => language ≠ .metta
  | _, _ => false

theorem Definitions.ofSource_eq {language : Language} (h : language ≠ .metta)
    (lib : Grammar.Library) (code : List UInt8) (loaded : List Language) :
    ofSource lib language code loaded =
      (match (lib.need language loaded).1 with
        | .ok () => ofLoaded lib language code
        | .error failure => .error (.library failure),
      (lib.need language loaded).2) := by
  rw [ofSource, if_neg h]
  rcases lib.need language loaded with ⟨result, after⟩
  cases result with
  | error failure => rfl
  | ok =>
    dsimp only [ofLoaded]
    cases lib.parse language code <;> rfl

namespace Survey

theorem readFile_ok (s : Setting) (path : String) (language : Language) (code : List UInt8)
    (p : Progress) :
    (readFile s path language (.ok code) p).1 =
        .ofResult language (Definitions.ofSource s.library language code p.loaded).1 ∧
      (readFile s path language (.ok code) p).2.loaded =
        (Definitions.ofSource s.library language code p.loaded).2 := by
  rcases hsource : Definitions.ofSource s.library language code p.loaded with ⟨result, loaded⟩
  cases result <;> simp [readFile, hsource, Finding.ofResult]

theorem surveyFile_congr (s : Setting) (visit : Visit) {p q : Progress}
    (h : visit.needsGrammar → ∀ language, Language.ofPath? visit.path = some language →
      (s.library.need language p.loaded).1 = (s.library.need language q.loaded).1) :
    (surveyFile s visit.path visit.content p).1 = (surveyFile s visit.path visit.content q).1 := by
  unfold Visit.needsGrammar at h
  unfold surveyFile
  cases hpath : Language.ofPath? visit.path with
  | none => rfl
  | some language =>
    cases hcontent : visit.content with
    | error e => rfl
    | ok code =>
      have hp := (readFile_ok s visit.path language code p).1
      have hq := (readFile_ok s visit.path language code q).1
      dsimp only
      rw [hp, hq]
      by_cases hlanguage : language = .metta
      · simp [hlanguage, Definitions.ofSource]
      · have hneed := h (by simp [hpath, hcontent, hlanguage]) language hpath
        rw [Definitions.ofSource_eq hlanguage, Definitions.ofSource_eq hlanguage, hneed]

theorem loaded_surveyFile (s : Setting) (visit : Visit) (p : Progress) {asked : Bool}
    (h : p.loaded = s.library.loadedAfter asked) :
    (surveyFile s visit.path visit.content p).2.loaded =
      s.library.loadedAfter (asked || visit.needsGrammar) := by
  unfold surveyFile Visit.needsGrammar
  cases Language.ofPath? visit.path with
  | none => simpa using h
  | some language =>
    cases visit.content with
    | error e => simpa [readFile] using h
    | ok code =>
      have hread := (readFile_ok s visit.path language code p).2
      dsimp only
      rw [hread, h]
      by_cases hlanguage : language = .metta
      · simp [hlanguage, Definitions.ofSource]
      · simp [hlanguage, Definitions.ofSource_eq, Grammar.Library.need_loadedAfter]

theorem loaded_surveyVisits (s : Setting) (visits : List Visit) (p : Progress) {asked : Bool}
    (h : p.loaded = s.library.loadedAfter asked) :
    (surveyVisits s p visits).2.loaded =
      s.library.loadedAfter (asked || visits.any Visit.needsGrammar) := by
  induction visits generalizing p asked with
  | nil => simpa [surveyVisits] using h
  | cons visit visits ih =>
    have hfirst := loaded_surveyFile s visit p h
    have hrest := ih _ hfirst
    simpa [surveyVisits, Bool.or_assoc] using hrest

theorem loaded_before (s : Setting) (before : List Visit) :
    (surveyVisits s .none before).2.loaded =
      s.library.loadedAfter (before.any Visit.needsGrammar) := by
  have hnone : Progress.none.loaded = s.library.loadedAfter false := by
    simp [Grammar.Library.loadedAfter, Progress.none]
  simpa using loaded_surveyVisits s before .none hnone

theorem files_survey (lib : Grammar.Library) (d : Disk) (root : String) (p : Progress) :
    (survey lib d root p).1.files =
      (surveyVisits ⟨lib, d.cwd⟩ p ((d.view root).visits root)).1 :=
  congrArg Prod.fst (surveyView_visits ⟨lib, d.cwd⟩ root p (d.view root))

theorem files_survey_at (lib : Grammar.Library) {d : Disk} {root : String}
    {before after : List Visit} {visit : Visit}
    (h : (d.view root).visits root = before ++ visit :: after) :
    (survey lib d root .none).1.files[before.length]? =
      some (surveyFile ⟨lib, d.cwd⟩ visit.path visit.content
        (surveyVisits ⟨lib, d.cwd⟩ .none before).2).1 := by
  have hlength := length_surveyVisits ⟨lib, d.cwd⟩ .none before
  rw [files_survey, h, surveyVisits_append, List.getElem?_append_right (by omega), hlength,
    Nat.sub_self]
  rfl

theorem survey_alone (lib : Grammar.Library) {d : Disk} {root : String} {visit : Visit}
    (h : visit ∈ (d.view root).visits root) :
    survey lib d visit.path .none =
      surveyFile ⟨lib, d.cwd⟩ visit.path visit.content .none := by
  rw [survey, d.view_of_mem_visits root h, surveyView]

/-- The language of a file is loaded although loading fails: an earlier file has seen to that. -/
structure Outruns (lib : Grammar.Library) (before : List Visit) (visit : Visit)
    (language : Language) (code : List UInt8) (failure : Grammar.LibraryError) : Prop where
  ofPath : Language.ofPath? visit.path = some language
  content : visit.content = .ok code
  isBuilt : lib.isBuilt
  loadable : language ∈ lib.loadable
  fails : lib.failure? = some failure
  asked : before.any Visit.needsGrammar

variable {s : Setting} {before : List Visit} {visit : Visit} {p : Progress}

theorem ne_metta_of_loadable {lib : Grammar.Library} {language : Language}
    (h : language ∈ lib.loadable) : language ≠ .metta := by
  have hgrammar := List.takeWhile_subset _ h
  rintro rfl
  exact absurd hgrammar (by decide)

theorem Outruns.walked {language : Language} {code : List UInt8} {failure : Grammar.LibraryError}
    (h : Outruns s.library before visit language code failure)
    (hp : p.loaded = s.library.loadedAfter (before.any Visit.needsGrammar)) :
    (surveyFile s visit.path visit.content p).1 =
      .file (Path.baseName visit.path) (Path.absolute s.cwd visit.path)
        (.ofResult language (Definitions.ofLoaded s.library language code)) := by
  have hloaded : p.loaded = s.library.loadable := by
    rw [hp, Grammar.Library.loadedAfter, h.isBuilt, h.asked]
    rfl
  have hread := (readFile_ok s visit.path language code p).1
  rw [hloaded, Definitions.ofSource_eq (ne_metta_of_loadable h.loadable),
    Grammar.Library.need_loaded h.loadable] at hread
  simp only [surveyFile, h.ofPath, h.content, hread]

theorem Outruns.alone {language : Language} {code : List UInt8} {failure : Grammar.LibraryError}
    (h : Outruns s.library before visit language code failure) :
    (surveyFile s visit.path visit.content .none).1 =
      .file (Path.baseName visit.path) (Path.absolute s.cwd visit.path)
        (.failed failure.message) := by
  have hread := (readFile_ok s visit.path language code .none).1
  rw [Progress.none, Definitions.ofSource_eq (ne_metta_of_loadable h.loadable),
    Grammar.Library.need_fresh h.isBuilt, h.fails] at hread
  simp only [surveyFile, h.ofPath, h.content, Progress.none, hread, Grammar.Library.outcome,
    Finding.ofResult, SourceError.message]

theorem surveyFile_of_not_outruns
    (hp : p.loaded = s.library.loadedAfter (before.any Visit.needsGrammar))
    (h : ∀ language code failure, ¬ Outruns s.library before visit language code failure) :
    (surveyFile s visit.path visit.content p).1 =
      (surveyFile s visit.path visit.content .none).1 := by
  refine surveyFile_congr s visit fun hneeds language hpath => ?_
  rw [hp, Grammar.Library.loadedAfter]
  split
  -- Once the library was asked, only a language before the first failure fares better than alone.
  · rename_i hasked
    obtain ⟨hbuilt, hbefore⟩ := Bool.and_eq_true_iff.1 hasked
    have hcode : ∃ code, visit.content = .ok code := by
      cases hcontent : visit.content with
      | error e => simp [Visit.needsGrammar, hcontent] at hneeds
      | ok code => exact ⟨code, rfl⟩
    obtain ⟨code, hcontent⟩ := hcode
    rw [Progress.none, Grammar.Library.need_fresh hbuilt]
    by_cases hloadable : language ∈ s.library.loadable
    · cases hfails : s.library.failure? with
      | none =>
        rw [Grammar.Library.need_loaded hloadable]
        rfl
      | some failure =>
        exact absurd ⟨hpath, hcontent, hbuilt, hloadable, hfails, hbefore⟩
          (h language code failure)
    · rw [Grammar.Library.need_again hbuilt hloadable]
  · rfl

/-- The entry of a file is the one it gets alone, unless an earlier file has its language loaded
although loading fails. In that case it is read, while alone it is given the failure; the entries
can be the same then only if reading fails with the very same message. -/
theorem walk_order_irrelevant_iff (lib : Grammar.Library) (d : Disk) (root : String)
    (before after : List Visit) (visit : Visit)
    (h : (d.view root).visits root = before ++ visit :: after) :
    ((survey lib d root .none).1.files[before.length]? = some (survey lib d visit.path .none).1 ↔
      ∀ language code failure, Outruns lib before visit language code failure →
        Finding.ofResult language (Definitions.ofLoaded lib language code) =
          .failed failure.message) ∧
    ∀ language code failure, Outruns lib before visit language code failure →
      (survey lib d root .none).1.files[before.length]? =
          some (.file (Path.baseName visit.path) (Path.absolute d.cwd visit.path)
            (.ofResult language (Definitions.ofLoaded lib language code))) ∧
        (survey lib d visit.path .none).1 =
          .file (Path.baseName visit.path) (Path.absolute d.cwd visit.path)
            (.failed failure.message) := by
  have hloaded := loaded_before ⟨lib, d.cwd⟩ before
  rw [files_survey_at lib h, @survey_alone lib d root visit (by simp [h])]
  refine ⟨⟨?_, ?_⟩, ?_⟩
  · intro hsame language code failure houtruns
    rw [Outruns.walked (s := ⟨lib, d.cwd⟩) houtruns hloaded,
      Outruns.alone (s := ⟨lib, d.cwd⟩) houtruns] at hsame
    injection hsame with hentry
    injection hentry
  · intro hmessage
    by_cases houtruns : ∃ language code failure, Outruns lib before visit language code failure
    · obtain ⟨language, code, failure, houtruns⟩ := houtruns
      rw [Outruns.walked (s := ⟨lib, d.cwd⟩) houtruns hloaded,
        Outruns.alone (s := ⟨lib, d.cwd⟩) houtruns, hmessage language code failure houtruns]
    · refine congrArg some (surveyFile_of_not_outruns hloaded fun language code failure hout => ?_)
      exact houtruns ⟨language, code, failure, hout⟩
  · intro language code failure houtruns
    exact ⟨congrArg some (Outruns.walked (s := ⟨lib, d.cwd⟩) houtruns hloaded),
      Outruns.alone (s := ⟨lib, d.cwd⟩) houtruns⟩

def twoFiles : Disk := ⟨.folder [("a.py", .file []), ("b.py", .file [])], []⟩

def withoutScripts : Grammar.Library where
  path := "languages.so"
  isBuilt := true
  failures := [("javascript", "no symbol")]
  versions := []
  parse _ _ := .ok ⟨"module", 0, 0, 0, 0, [], []⟩

theorem visits_twoFiles :
    (twoFiles.view "/").visits "/" = [⟨"/a.py", .ok []⟩, ⟨"/b.py", .ok []⟩] := by
  have hnames : FileTree.shownNames [("a.py", .file []), ("b.py", .file [])] =
      ["a.py", "b.py"] := by decide +kernel
  have ha : Path.join "/" "a.py" = "/a.py" := by decide +kernel
  have hb : Path.join "/" "b.py" = "/b.py" := by decide +kernel
  have hviewa : twoFiles.view "/a.py" = .file (.ok []) :=
    Disk.view_in_root "a.py" rfl (by decide +kernel) (by decide) rfl
  have hviewb : twoFiles.view "/b.py" = .file (.ok []) :=
    Disk.view_in_root "b.py" rfl (by decide +kernel) (by decide) rfl
  rw [twoFiles] at *
  rw [Disk.view_root, hnames]
  simp only [List.map_cons, List.map_nil, ha, hb, hviewa, hviewb, View.visits, View.visitsEach]
  rfl

theorem walk_order_matters :
    (twoFiles.view "/").visits "/" = [⟨"/a.py", .ok []⟩, ⟨"/b.py", .ok []⟩] ∧
      (survey withoutScripts twoFiles "/" .none).1.files[1]? ≠
        some (survey withoutScripts twoFiles "/b.py" .none).1 := by
  refine ⟨visits_twoFiles, fun hsame => ?_⟩
  have hiff := walk_order_irrelevant_iff withoutScripts twoFiles "/" [⟨"/a.py", .ok []⟩] []
    ⟨"/b.py", .ok []⟩ visits_twoFiles
  have houtruns : Outruns withoutScripts [⟨"/a.py", .ok []⟩] ⟨"/b.py", .ok []⟩ .python []
      (.loadFailed .javascript "no symbol") :=
    ⟨by decide +kernel, rfl, rfl, by decide +kernel, by rfl, by decide +kernel⟩
  have hmessage := hiff.1.1 hsame _ _ _ houtruns
  cases hmessage

end Survey

end CodeAtlas
