import CodeAtlas.Proofs.Disk.Erasing
import CodeAtlas.Proofs.Grammar.Attribution
import CodeAtlas.Proofs.Survey.Mirror
import CodeAtlas.Proofs.Survey.Order

/-! Trees that cannot be described, and how little that matters to others. A Java tree is refused
for a single method with a name, wherever it stands; the file is then noted as failed. With all
grammars at hand the entry of a file depends on nothing but the file, so that all other entries are
what they are without the one that failed. -/

namespace CodeAtlas

namespace Grammar

namespace Tree

def HoldsMethod (t : Tree) : Prop :=
  ∃ a n, t.at? a = some n ∧ (n.kind = "method_declaration" ∨ n.kind = "constructor_declaration") ∧
    (n.field? "name").isSome

def bareClass? (code : List UInt8) (t : Tree) : Option Class :=
  if t.kind = "class_declaration" then
    (t.field? "name").map fun name => ⟨name.text code, t.firstRow + 1, []⟩
  else none

variable {code : List UInt8} {t : Tree}

theorem any_isRefused_java (t : Tree) : t.nodes.any (isRefused .java) = true ↔ t.HoldsMethod := by
  have hrefused (n : Tree) : n.isRefused .java = true ↔
      (n.kind = "method_declaration" ∨ n.kind = "constructor_declaration") ∧
        (n.field? "name").isSome := by
    simp [isRefused, isNamed, Rules.java]
  unfold HoldsMethod
  simp only [List.any_eq_true, mem_nodes, hrefused]
  constructor
  · rintro ⟨n, ⟨a, ha⟩, hn⟩
    exact ⟨a, n, ha, hn⟩
  · rintro ⟨a, n, ha, hn⟩
    exact ⟨n, ⟨a, ha⟩, hn⟩

theorem ownedBy_java (h : t.nodes.any (isRefused .java) = false) (owner : Option Address) :
    t.ownedBy Rules.java.classKinds (function? .java code) owner = [] := by
  refine List.filterMap_eq_nil_iff.2 fun spot hspot => ?_
  have hnode : spot.2 ∈ t.nodes := by
    rw [← map_snd_spots]
    exact List.mem_map_of_mem hspot
  have hnamed : (spot.2.nameAmong? Rules.java.functionKinds code).isSome = false := by
    rw [isSome_nameAmong?]
    exact Bool.eq_false_iff.2 (List.any_eq_false.1 h spot.2 hnode)
  rw [function?, Option.isNone_iff_eq_none.1 (Option.isSome_eq_false_iff.1 hnamed)]
  exact ite_self none

theorem classAt?_java (h : t.nodes.any (isRefused .java) = false) (spot : Address × Tree) :
    t.classAt? Rules.java.classKinds (function? .java code) code spot =
      spot.2.bareClass? code := by
  unfold classAt? bareClass?
  simp only [ownedBy_java h]
  exact if_congr List.mem_singleton rfl rfl

end Tree

theorem ofTree_java (code : List UInt8) (t : Tree) :
    Definitions.ofTree "java" code t =
      if t.nodes.any (Tree.isRefused .java) then .error (.outline .functionRefused)
      else .ok (.outline ⟨t.nodes.filterMap (Tree.bareClass? code), []⟩) := by
  have hapart : Rules.java.Apart := by
    unfold Rules.Apart
    decide
  have hfound := outline_ofTree .java code t
  rw [Definitions.ofTree, show Rules.ofLanguage "java" = .java from rfl]
  cases hrefused : t.nodes.any (Tree.isRefused .java) with
  | true =>
    rw [hfound, hrefused]
    rfl
  | false =>
    rw [hrefused, Tree.filterMap_class? hapart, ← Tree.ownedBy_none hapart,
      Tree.ownedBy_java hrefused, funext (Tree.classAt?_java hrefused)] at hfound
    rw [hfound, ← Tree.map_snd_spots, List.filterMap_map]
    rfl

end Grammar

namespace Survey

def entryOf (lib : Grammar.Library) (d : Disk) (path : String) : Entry :=
  (surveyFile ⟨lib, d.cwd⟩ path (d.read path) .none).1

/-- The files of a survey, each with its entry. -/
def listing (lib : Grammar.Library) (d : Disk) (root : String) (p : Progress) :
    List (String × Entry) :=
  (d.files root).zip (survey lib d root p).1.files

variable {lib : Grammar.Library} {d : Disk} {root path : String} {place : List String}
  {code : List UInt8} {t : Grammar.Tree} {p : Progress}

theorem surveyVisits_of_loadsAll {s : Setting} (h : s.library.LoadsAll) (visits : List Visit)
    (p : Progress) :
    (surveyVisits s p visits).1 =
      visits.map fun visit => (surveyFile s visit.path visit.content .none).1 := by
  induction visits generalizing p with
  | nil => rfl
  | cons visit visits ih =>
    have hfirst : (surveyFile s visit.path visit.content p).1 =
        (surveyFile s visit.path visit.content .none).1 :=
      surveyFile_congr s visit fun _ language _ => by rw [h.need, h.need]
    rw [surveyVisits, List.map_cons, ← hfirst, ← ih]

theorem listing_of_loadsAll (h : lib.LoadsAll) (d : Disk) (root : String) (p : Progress) :
    listing lib d root p = (d.files root).map fun path => (path, entryOf lib d path) := by
  have hentries : (survey lib d root p).1.files = (d.files root).map (entryOf lib d) := by
    rw [files_survey, surveyVisits_of_loadsAll h, Disk.files, List.map_map]
    refine List.map_congr_left fun visit hvisit => ?_
    rw [Disk.content_of_mem_visits hvisit]
    rfl
  have hzip : ((d.files root).map id).zip ((d.files root).map (entryOf lib d)) =
      (d.files root).map fun path => (path, entryOf lib d path) := List.zip_map'
  rw [List.map_id] at hzip
  rw [listing, hentries]
  exact hzip

theorem mem_listing (h : lib.LoadsAll) {e : Entry} :
    (path, e) ∈ listing lib d root p ↔ path ∈ d.files root ∧ e = entryOf lib d path := by
  rw [listing_of_loadsAll h, List.mem_map]
  constructor
  · rintro ⟨path, hpath, heq⟩
    cases heq
    exact ⟨hpath, rfl⟩
  · rintro ⟨hpath, rfl⟩
    exact ⟨path, hpath, rfl⟩

theorem entryOf_without (hfile : d.root.get? place = some (.file code))
    (h : ¬ d.ComesUpon path place) : entryOf lib (d.without place) path = entryOf lib d path := by
  unfold entryOf
  rw [Disk.read_without hfile h]
  rfl

theorem ofPath?_java (h : Path.hasExtension [".java"] path) :
    Language.ofPath? path = some .java := by
  have hextension : (Path.extension path).toLower = ".java" := by simpa [Path.hasExtension] using h
  rw [Language.ofPath?, hextension]
  decide

theorem entryOf_parsed (h : lib.LoadsAll) {language : Language} (hmetta : language ≠ .metta)
    (hlanguage : Language.ofPath? path = some language) (hparse : lib.parse language code = .ok t)
    (hlocate : d.locate path = .ok place) (hfile : d.root.get? place = some (.file code)) :
    entryOf lib d path = .file (Path.baseName path) (Path.absolute d.cwd path)
      (.ofResult language (Definitions.ofTree language.name code t)) := by
  have hread : d.read path = .ok code := by
    have hstatus : d.status path = .ok (.file code) := by
      simp only [Disk.status, hlocate, hfile, bind, Except.bind, pure, Except.pure]
    rw [Disk.read, hstatus]
  have hfinding := (readFile_ok ⟨lib, d.cwd⟩ path language code .none).1
  rw [Definitions.ofSource_eq hmetta, h.need, Definitions.ofLoaded, hparse] at hfinding
  rw [entryOf, surveyFile, hlanguage, hread]
  exact congrArg (Entry.file _ _) hfinding

/-- A Java tree fails exactly if it holds a method with a name, and else gives its classes only. In
a survey with all grammars at hand the file fails with its tree, and any other file has the entry
that it has when the Java file is taken away: an entry that is not there then was come upon by way
of the Java file, and its path leads to nothing else. -/
theorem java_failure_contained (code : List UInt8) (t : Grammar.Tree) :
    ((∃ error, Definitions.ofTree "java" code t = .error error) ↔ t.HoldsMethod) ∧
    (∀ error, Definitions.ofTree "java" code t = .error error →
      error.message = "name 'name_name' is not defined") ∧
    (¬ t.HoldsMethod → Definitions.ofTree "java" code t =
      .ok (.outline ⟨t.nodes.filterMap (Grammar.Tree.bareClass? code), []⟩)) ∧
    ∀ (lib : Grammar.Library) (d : Disk) (root path : String) (place : List String) (p : Progress),
      lib.LoadsAll → lib.parse .java code = .ok t → path ∈ d.files root →
      Path.hasExtension [".java"] path → d.locate path = .ok place →
      d.root.get? place = some (.file code) →
      (∃ e, (∀ e', (path, e') ∈ listing lib d root p ↔ e' = e) ∧
        (e.has "parse_error" ↔ t.HoldsMethod) ∧ (e.has "definitions" ↔ ¬ t.HoldsMethod)) ∧
      ∀ other e, (other, e) ∈ listing lib d root p →
        (∀ p', (other, e) ∈ listing lib (d.without place) root p') ∨
          d.ComesUpon other place ∧ ∀ goal, d.locate other = .ok goal → goal = place := by
  have htree := Grammar.ofTree_java code t
  have hrefused := t.any_isRefused_java
  refine ⟨?_, ?_, ?_, ?_⟩
  · rw [← hrefused, htree]
    split <;> simp_all
  · intro error herror
    rw [htree] at herror
    split at herror
    · cases herror
      rfl
    · cases herror
  · intro hnone
    rw [← hrefused] at hnone
    rw [htree, if_neg hnone]
  · intro lib d root path place p hloads hparse hpath hjava hlocate hfile
    refine ⟨⟨entryOf lib d path, fun e' => ?_, ?_⟩, ?_⟩
    · rw [mem_listing hloads, and_iff_right hpath]
    · rw [entryOf_parsed hloads (by decide) (ofPath?_java hjava) hparse hlocate hfile,
        show Language.java.name = "java" from rfl, htree, ← hrefused]
      split <;> simp_all [Finding.ofResult, Entry.has_file, Finding.members]
    · intro other e he
      obtain ⟨hother, rfl⟩ := (mem_listing hloads).1 he
      by_cases hupon : d.ComesUpon other place
      · exact .inr ⟨hupon, fun goal hgoal => hupon.eq_of_locate hfile hgoal⟩
      · refine .inl fun p' => (mem_listing hloads).2 ⟨Disk.mem_files_without hfile hother hupon, ?_⟩
        rw [entryOf_without hfile hupon]

theorem file_in_root {entries : List (String × FileTree)} {name path : String}
    {bytes : List UInt8} (hjoin : Path.join "/" name = path) (hpath : Disk.checkPath path = .ok ())
    (hsteps : Disk.steps path = [name]) (hname : FileTree.isName name)
    (hhidden : ¬ FileTree.isHidden name)
    (hfile : Disk.lookUp (.folder entries) [] name = .ok (some (.file bytes))) :
    path ∈ Disk.files ⟨.folder entries, []⟩ "/" ∧
      Disk.locate ⟨.folder entries, []⟩ path = .ok [name] := by
  have hlooked := Disk.isLooked_of_not_isHidden hhidden
  have hplace : (FileTree.folder entries).get? [name] = some (.file bytes) :=
    Disk.get?_of_lookUp hfile
  have hfollow : Disk.follow (.folder entries) Disk.maxLinks
      (Disk.start ⟨.folder entries, []⟩ path) (Disk.steps path) = .ok [name] := by
    have hstart : Disk.start ⟨.folder entries, []⟩ path = [] := by simp [Disk.start]
    rw [hstart, hsteps]
    exact (Disk.Leads.file hlooked hfile rfl).follow_eq
  have hstatus := @Disk.status_of_follow ⟨.folder entries, []⟩ path _ _ hpath hfollow hplace
  have hroot : Disk.status ⟨.folder entries, []⟩ "/" = .ok (.folder entries) := by
    refine @Disk.status_of_follow ⟨.folder entries, []⟩ "/" [] _ rfl ?_ rfl
    exact Disk.follow_dots _ _ _ (by decide +kernel)
  have hentry : name ∈ entries.map Prod.fst := by
    obtain ⟨t, ht, -⟩ := Option.bind_eq_some_iff.1 hplace
    exact List.mem_map_of_mem (FileTree.mem_of_lookup ht)
  constructor
  · have hreaches := Disk.Reaches.here.into hroot hentry hname hhidden
    rw [hjoin] at hreaches
    refine Disk.mem_files_iff.2 ⟨hreaches, ?_⟩
    simp [Disk.isFolder, hstatus, FileTree.isFolder]
  · rw [Disk.locate, hpath]
    exact hfollow

def javaMethod : String := "class A \x7b void f() \x7b\x7d \x7d"

def javaMethodTree : Grammar.Tree :=
  ⟨"program", 0, 23, 0, 0,
    [⟨"class_declaration", 0, 23, 0, 0,
        [.leaf 0 "class" 0 5, .leaf 0 "identifier" 6 7,
          ⟨"class_body", 8, 23, 0, 0,
            [.leaf 0 "\x7b" 8 9,
              ⟨"method_declaration", 10, 21, 0, 0,
                [.leaf 0 "void_type" 10 14, .leaf 0 "identifier" 15 16,
                  ⟨"formal_parameters", 16, 18, 0, 0, [.leaf 0 "(" 16 17, .leaf 0 ")" 17 18], []⟩,
                  ⟨"block", 19, 21, 0, 0, [.leaf 0 "\x7b" 19 20, .leaf 0 "\x7d" 20 21], []⟩],
                [("type", 0), ("name", 1), ("parameters", 2), ("body", 3)]⟩,
              .leaf 0 "\x7d" 22 23], []⟩],
        [("name", 1), ("body", 2)]⟩], []⟩

def pythonLine : String := "x = 1\n"

def pythonLineTree : Grammar.Tree :=
  ⟨"module", 0, 6, 0, 1,
    [⟨"expression_statement", 0, 5, 0, 0,
        [⟨"assignment", 0, 5, 0, 0,
            [.leaf 0 "identifier" 0 1, .leaf 0 "=" 2 3, .leaf 0 "integer" 4 5],
            [("left", 0), ("right", 2)]⟩], []⟩], []⟩

def javaBeside : Disk :=
  ⟨.folder [("A.java", .file (Text.Utf8.encode javaMethod)),
    ("b.py", .file (Text.Utf8.encode pythonLine))], []⟩

def readsBoth : Grammar.Library where
  path := "languages.so"
  isBuilt := true
  failures := []
  versions := []
  parse language code :=
    if language = .java ∧ code = Text.Utf8.encode javaMethod then .ok javaMethodTree
    else if language = .python ∧ code = Text.Utf8.encode pythonLine then .ok pythonLineTree
    else .error "no tree"

theorem javaBeside_contained :
    ∃ e e', ("/A.java", e) ∈ listing readsBoth javaBeside "/" .none ∧ e.has "parse_error" ∧
      ("/b.py", e') ∈ listing readsBoth javaBeside "/" .none ∧ e'.has "definitions" ∧
      ("/b.py", e') ∈ listing readsBoth (javaBeside.without ["A.java"]) "/" .none := by
  have hloads : readsBoth.LoadsAll := ⟨rfl, fun _ _ => rfl⟩
  have hjava : "/A.java" ∈ javaBeside.files "/" ∧ javaBeside.locate "/A.java" = .ok ["A.java"] :=
    file_in_root (by decide +kernel) rfl (by decide +kernel) (by decide) (by decide) rfl
  have hpython : "/b.py" ∈ javaBeside.files "/" ∧ javaBeside.locate "/b.py" = .ok ["b.py"] :=
    file_in_root (by decide +kernel) rfl (by decide +kernel) (by decide) (by decide) rfl
  have hparse : readsBoth.parse .java (Text.Utf8.encode javaMethod) = .ok javaMethodTree :=
    if_pos ⟨rfl, rfl⟩
  have hline : readsBoth.parse .python (Text.Utf8.encode pythonLine) = .ok pythonLineTree := by
    dsimp only [readsBoth]
    rw [if_neg fun h => absurd h.1 (by decide), if_pos ⟨rfl, rfl⟩]
  obtain ⟨-, -, -, hsurvey⟩ :=
    java_failure_contained (Text.Utf8.encode javaMethod) javaMethodTree
  obtain ⟨⟨e, hentry, hfails, -⟩, hothers⟩ :=
    hsurvey readsBoth javaBeside "/" "/A.java" ["A.java"] .none hloads hparse hjava.1
      (by decide +kernel) hjava.2 rfl
  have hbeside : ("/b.py", entryOf readsBoth javaBeside "/b.py") ∈
      listing readsBoth javaBeside "/" .none := (mem_listing hloads).2 ⟨hpython.1, rfl⟩
  have hread : (entryOf readsBoth javaBeside "/b.py").has "definitions" := by
    rw [entryOf_parsed hloads (by decide) (by decide +kernel) hline hpython.2 rfl]
    decide +kernel
  refine ⟨e, _, (hentry e).2 rfl, hfails.2 ⟨[0, 2, 1], _, rfl, .inl rfl, rfl⟩, hbeside, hread, ?_⟩
  rcases hothers _ _ hbeside with hsame | ⟨-, hgoal⟩
  · exact hsame .none
  · exact absurd (hgoal _ hpython.2) (by decide)

end Survey

end CodeAtlas
