import CodeAtlas.Proofs.Readme.Digest
import CodeAtlas.Proofs.Survey.Mirror
import CodeAtlas.Proofs.Survey.Order
import CodeAtlas.Report.Summary
import Mathlib.Data.List.Forall2

/-! The summary of a survey counts the files of the disk. It goes by what their entries say; what an
entry says goes by the extension of the file, by whether it can be read, and by what comes of its
grammar. -/

namespace CodeAtlas

def Entry.isMetta : Entry → Bool
  | file _ _ (.read language _) => language = .metta
  | _ => false

namespace Report

def tally (files : List Entry) : Counts :=
  ⟨files.length, files.countP Entry.isMetta, files.countP fun e => !e.isMetta,
    files.countP fun e => e.has "parse_error"⟩

theorem tally_append (a b : List Entry) : tally (a ++ b) = tally a + tally b := by
  simp only [tally, List.length_append, List.countP_append]
  rfl

theorem counted_members (name path : String) (finding : Finding) :
    ∃ members, Entry.toJson (.file name path finding) = .obj members ∧
      Json.member? members "type" = some (.str "file") ∧
      ((Json.member? members "language").getD .null).isStr "metta" =
        (Entry.file name path finding).isMetta ∧
      Json.hasKey members "parse_error" = (Entry.file name path finding).has "parse_error" := by
  have hmetta : ∀ language : Language,
      (Json.str language.name).isStr "metta" = decide (language = .metta) := by
    intro language
    cases language <;> decide
  have hnull : Json.null.isStr "metta" = false := rfl
  refine ⟨_, rfl, ?_, ?_, rfl⟩
  · simp
  · cases finding <;> simp [Finding.members, Entry.isMetta, hmetta, hnull]

theorem count_file (name path : String) (finding : Finding) :
    countNode (.ofJson (Entry.toJson (.file name path finding))) =
      .ok (tally [.file name path finding]) := by
  obtain ⟨members, hjson, htype, hmetta, herror⟩ := counted_members name path finding
  have hfile : (Json.str "file").isStr "file" = true := by decide
  rw [hjson, Node.ofJson]
  simp only [countNode, Json.require, htype, bind, Except.bind, hfile, if_true, pure, Except.pure]
  rw [Counts.ofFile, hmetta, herror]
  cases hm : (Entry.file name path finding).isMetta <;>
    cases hf : (Entry.file name path finding).has "parse_error" <;> simp [tally, hm, hf]

mutual

theorem count_entry (e : Entry) : countNode (.ofJson e.toJson) = .ok (tally e.files) := by
  match e with
  | .file name path finding => exact count_file name path finding
  | .folder name path children =>
    obtain ⟨members, hjson, -, -, htype, hchildren⟩ := Readme.folder_members name path children
    have hnode : Node.ofJson (.obj members) =
        .object members (Node.ofJsonAll (Entry.toJsonAll children)) := by
      rw [Node.ofJson, Node.childrenOf_eq, hchildren]
      simp [Node.partsOf]
    have hcheck : checkChildren members = .ok () := by
      rw [checkChildren, hchildren]
      rfl
    have hfolder : (Json.str "folder").isStr "file" = false ∧
        (Json.str "folder").isStr "folder" = true := by decide
    rw [hjson, hnode, Entry.files]
    simp only [countNode, Json.require, htype, bind, Except.bind, hfolder, hcheck]
    exact count_entries children

theorem count_entries (es : List Entry) :
    countNodes (Node.ofJsonAll (Entry.toJsonAll es)) = .ok (tally (Entry.filesEach es)) := by
  match es with
  | [] => rfl
  | e :: es =>
    rw [Entry.toJsonAll, Node.ofJsonAll, countNodes, count_entry e, count_entries es,
      Entry.filesEach, tally_append]
    rfl

end

end Report

namespace Entry

variable {path : String} {content : Except FileError (List UInt8)} {finding : Finding}

theorem isMetta_of_fits (h : finding.Fits path content) (name full : String) :
    (file name full finding).isMetta = (Path.isMetta path && content.isOk) := by
  cases h with
  | unknown hmetta => simp [isMetta, hmetta]
  | metta hmetta hopened => simp [isMetta, hmetta, hopened]
  | unopened hmetta hopened => simp [isMetta, hopened]
  | grammar hgrammar hlanguage =>
    simp [isMetta, hlanguage, Path.isMetta_of_hasGrammar hgrammar]
  | failed hgrammar => simp [isMetta, Path.isMetta_of_hasGrammar hgrammar]

theorem error_of_fits_metta (h : finding.Fits path content) (name full : String) :
    (Path.isMetta path && (file name full finding).has "parse_error") =
      (Path.isMetta path && !content.isOk) := by
  cases h with
  | unknown hmetta => simp [hmetta]
  | metta hmetta hopened => simp [has_file, Finding.members, hopened]
  | unopened hmetta hopened => simp [has_file, Finding.members, hopened]
  | grammar hgrammar hlanguage => simp [Path.isMetta_of_hasGrammar hgrammar]
  | failed hgrammar => simp [Path.isMetta_of_hasGrammar hgrammar]

theorem error_of_fits_other (h : finding.Fits path content) (name full : String) :
    (!Path.isMetta path && (file name full finding).has "parse_error") =
      (Path.hasGrammar path && !(file name full finding).has "definitions") := by
  cases h with
  | unknown hmetta hgrammar => simp [has_file, Finding.members, hgrammar]
  | metta hmetta hopened => simp [has_file, Finding.members]
  | unopened hmetta hopened => simp [hmetta, Path.hasGrammar_of_isMetta hmetta]
  | grammar hgrammar hlanguage => simp [has_file, Finding.members]
  | failed hgrammar =>
    simp [has_file, Finding.members, hgrammar, Path.isMetta_of_hasGrammar hgrammar]

def IsOf (cwd : String) (opened : String → Except FileError (List UInt8)) (path : String)
    (e : Entry) : Prop :=
  ∃ finding : Finding, e = .file (Path.baseName path) (Path.absolute cwd path) finding ∧
    finding.Fits path (opened path)

variable {cwd : String} {opened : String → Except FileError (List UInt8)} {paths : List String}
  {es : List Entry}

theorem countP_of_isOf (h : List.Forall₂ (IsOf cwd opened) paths es) {f : Entry → Bool}
    {g : String → Bool} (hfg : ∀ path e, IsOf cwd opened path e → f e = g path) :
    es.countP f = paths.countP g := by
  induction h with
  | nil => rfl
  | cons hentry _ ih => rw [List.countP_cons, List.countP_cons, ih, hfg _ _ hentry]

theorem countP_isMetta (h : List.Forall₂ (IsOf cwd opened) paths es) :
    es.countP isMetta = paths.countP fun path => Path.isMetta path && (opened path).isOk := by
  apply countP_of_isOf h
  rintro path e ⟨finding, rfl, hfits⟩
  exact isMetta_of_fits hfits _ _

theorem countP_unopened (h : List.Forall₂ (IsOf cwd opened) paths es) :
    es.countP (fun e => Path.isMetta e.name && e.has "parse_error") =
      paths.countP fun path => Path.isMetta path && !(opened path).isOk := by
  apply countP_of_isOf h
  rintro path e ⟨finding, rfl, hfits⟩
  rw [name, Path.isMetta_baseName, error_of_fits_metta hfits]

theorem countP_errors (h : List.Forall₂ (IsOf cwd opened) paths es) :
    es.countP (fun e => e.has "parse_error") =
      es.countP (fun e => Path.hasGrammar e.name && !e.has "definitions") +
        paths.countP fun path => Path.isMetta path && !(opened path).isOk := by
  induction h with
  | nil => rfl
  | @cons path e paths es hentry _ ih =>
    obtain ⟨finding, rfl, hfits⟩ := hentry
    have hmetta := error_of_fits_metta hfits (Path.baseName path) (Path.absolute cwd path)
    have hother := error_of_fits_other hfits (Path.baseName path) (Path.absolute cwd path)
    rw [List.countP_cons, List.countP_cons, List.countP_cons, ih, name, Path.hasGrammar_baseName,
      ← hmetta, ← hother]
    cases Path.isMetta path <;> simp <;> omega

theorem count_of_isOf {e : Entry} (h : List.Forall₂ (IsOf cwd opened) paths e.files) :
    let metta := paths.countP fun path => Path.isMetta path && (opened path).isOk
    Report.count e.toJson =
      .ok ⟨paths.length, metta, paths.length - metta,
        e.files.countP (fun e => Path.hasGrammar e.name && !e.has "definitions") +
          paths.countP fun path => Path.isMetta path && !(opened path).isOk⟩ := by
  intro metta
  have hmetta : e.files.countP isMetta = metta := countP_isMetta h
  have hother : e.files.countP (fun e => !e.isMetta) = paths.length - metta := by
    have hsplit := List.length_eq_countP_add_countP isMetta (l := e.files)
    simp only [Bool.not_eq_true, Bool.decide_eq_false] at hsplit
    rw [h.length_eq, ← hmetta]
    omega
  rw [Report.count, Report.count_entry, Report.tally, ← h.length_eq, hmetta, hother,
    countP_errors h]

end Entry

namespace Survey

theorem isOf_of_look (lib : Grammar.Library) {r : Disk.Rights} {d : Disk} {root : String}
    {seen : View} (h : d.look r root = .ok seen) (p : Progress) :
    List.Forall₂ (Entry.IsOf d.cwd (d.readWith r)) (d.files root)
      (surveyView ⟨lib, d.cwd⟩ root p seen).1.files := by
  have hvisits := congrArg Prod.fst (surveyView_visits ⟨lib, d.cwd⟩ root p seen)
  dsimp only at hvisits
  rw [hvisits, Disk.visits_look h]
  clear hvisits
  generalize d.files root = files
  induction files generalizing p with
  | nil => exact .nil
  | cons file files ih =>
    exact .cons (surveyFile_eq ⟨lib, d.cwd⟩ file (d.readWith r file) p) (ih _)

variable (lib : Grammar.Library) (d : Disk) (root : String) (p : Progress)

theorem files_isOf :
    List.Forall₂ (Entry.IsOf d.cwd d.read) (d.files root) (survey lib d root p).1.files := by
  rw [← Disk.readWith_all]
  exact isOf_of_look lib (d.look_all root) p

/-- A folder that may not be listed ends the survey. Else its tree mirrors the disk, and its summary
counts the files that are come upon. A MeTTa file that cannot be opened is counted as another file,
and as an error. -/
theorem survey_mirrors_disk (lib : Grammar.Library) (r : Disk.Rights) (d : Disk) (root : String)
    (p : Progress) :
    (∃ e, walk lib r d root p = .error e ∧ e.cause = .denied ∧ d.IsBarrier r root e.path) ∨
    ∃ entry q, walk lib r d root p = .ok (entry, q) ∧ (∀ path, ¬ d.IsBarrier r root path) ∧
      entry.Mirrors r d root ∧
      ∃ paths : List String, paths.Nodup ∧
        (∀ path, path ∈ paths ↔ d.Reaches root path ∧ ¬ d.isFolder path) ∧
        let metta := paths.countP fun path => Path.isMetta path && (d.readWith r path).isOk
        let unopened := paths.countP fun path => Path.isMetta path && !(d.readWith r path).isOk
        let failed := entry.files.countP fun e => Path.hasGrammar e.name && !e.has "definitions"
        (Report.count entry.toJson).map Report.Counts.lines =
          .ok ["\n📊 Summary:", s!"   Total files: {paths.length}", s!"   MeTTa files: {metta}",
            s!"   Other files: {paths.length - metta}",
            s!"   Parse errors: {failed + unopened}"] := by
  unfold walk
  cases hlook : d.look r root with
  | error e => exact .inl ⟨e, rfl, Disk.isBarrier_of_look hlook⟩
  | ok seen =>
    refine .inr ⟨_, _, rfl, ?_, mirrors_of_look lib hlook p, d.files root, d.nodup_files root,
      fun path => Disk.mem_files_iff, ?_⟩
    · intro path hbarrier
      obtain ⟨e, he⟩ := hbarrier.look_fails
      rw [hlook] at he
      cases he
    · rw [Entry.count_of_isOf (isOf_of_look lib hlook p)]
      rfl

def oneFolder : Disk := ⟨.folder [("p", .folder [("a.metta", .file Readme.areaCode)])], []⟩

def roundabout : Nat → String
  | 0 => "p"
  | n + 1 => Path.join (roundabout n) "."

theorem roundabout_spec (n : Nat) : roundabout n ≠ "" ∧ ¬ Path.endsInSlash (roundabout n) ∧
    (roundabout n).utf8ByteSize = 2 * n + 1 := by
  have hdot : FileTree.isName "." := by decide
  induction n with
  | zero => exact ⟨by decide, by decide, rfl⟩
  | succ n ih =>
    obtain ⟨hempty, hslash, hsize⟩ := ih
    have hjoin : (roundabout (n + 1)).utf8ByteSize = 2 * n + 1 + 1 + 1 := by
      rw [roundabout, Path.utf8ByteSize_join hempty hslash hdot, hsize]
      rfl
    refine ⟨?_, Path.not_endsInSlash_join hdot, hjoin⟩
    intro hnone
    rw [hnone] at hjoin
    cases hjoin

theorem status_roundabout {n : Nat} (h : 2 * n + 1 ≤ Disk.maxPath) :
    oneFolder.status (roundabout n) = .ok (.folder [("a.metta", .file Readme.areaCode)]) := by
  induction n with
  | zero =>
    have hsteps : Disk.steps "p" = ["p"] := by decide +kernel
    have hfollow : Disk.follow oneFolder.root Disk.maxLinks (oneFolder.start "p")
        (Disk.steps "p") = .ok ["p"] := by
      rw [hsteps, Disk.follow, if_neg (by decide), if_neg (by decide)]
      exact Disk.follow.eq_1 _ _ _
    exact Disk.status_of_follow rfl hfollow rfl
  | succ n ih =>
    have hsize := (roundabout_spec (n + 1)).2.2
    exact Disk.status_join_dot (ih (by omega)) (by rw [← roundabout, hsize]; exact h)

theorem unopened_in_folder {n : Nat} (hfits : 2 * n + 1 ≤ Disk.maxPath)
    (hlong : Disk.maxPath < 2 * n + 9) :
    ∃ path, oneFolder.files (roundabout n) = [path] ∧ Path.isMetta path ∧
      (oneFolder.read path).isOk = false := by
  have hname : FileTree.isName "a.metta" := by decide +kernel
  have hshown : FileTree.shownNames [("a.metta", .file Readme.areaCode)] = ["a.metta"] := by
    decide +kernel
  obtain ⟨hempty, hslash, hsize⟩ := roundabout_spec n
  have hstatus : ∀ t, oneFolder.status (Path.join (roundabout n) "a.metta") ≠ .ok t := by
    intro t ht
    have hsmall := Disk.size_of_status ht
    rw [Path.utf8ByteSize_join hempty hslash hname, hsize] at hsmall
    exact absurd hsmall (Nat.not_le.2 hlong)
  refine ⟨Path.join (roundabout n) "a.metta", ?_, ?_, ?_⟩
  · have hfile : ¬ oneFolder.isFolder (Path.join (roundabout n) "a.metta") := by
      intro hfolder
      obtain ⟨entries, heq⟩ := Disk.isFolder_iff.1 hfolder
      exact hstatus _ heq
    rw [Disk.files_folder (status_roundabout hfits), hshown, List.flatMap_singleton,
      Disk.files_file hfile]
  · rw [← Path.isMetta_baseName, Path.baseName_join hname]
    decide +kernel
  · unfold Disk.read
    cases heq : oneFolder.status (Path.join (roundabout n) "a.metta") with
    | ok t => exact absurd heq (hstatus t)
    | error cause => rfl

theorem error_in_folder {n : Nat} (hfits : 2 * n + 1 ≤ Disk.maxPath)
    (hlong : Disk.maxPath < 2 * n + 9) :
    ∃ entry q, walk Readme.unbuilt .all oneFolder (roundabout n) .none = .ok (entry, q) ∧
      ¬ ∀ e ∈ entry.files, Path.isMetta e.name → ¬ e.has "parse_error" := by
  refine ⟨_, _, walk_all Readme.unbuilt oneFolder (roundabout n) .none, fun hnone => ?_⟩
  obtain ⟨path, hfiles, hmetta, hread⟩ := unopened_in_folder hfits hlong
  have hcount := Entry.countP_unopened (files_isOf Readme.unbuilt oneFolder (roundabout n) .none)
  rw [hfiles, List.countP_singleton, hmetta, hread] at hcount
  obtain ⟨e, he, herror⟩ := List.countP_pos_iff.1 (Nat.lt_of_lt_of_eq Nat.one_pos hcount.symm)
  obtain ⟨hname, hhas⟩ := Bool.and_eq_true_iff.1 herror
  exact hnone e he hname hhas

theorem metta_file_not_opened :
    oneFolder.isFolder (roundabout 2046) ∧
      ∃ entry q, walk Readme.unbuilt .all oneFolder (roundabout 2046) .none = .ok (entry, q) ∧
        ¬ ∀ e ∈ entry.files, Path.isMetta e.name → ¬ e.has "parse_error" := by
  have hstatus := @status_roundabout 2046 (by decide)
  exact ⟨Disk.isFolder_iff.2 ⟨_, hstatus⟩, error_in_folder (by decide) (by decide)⟩

end Survey

end CodeAtlas
