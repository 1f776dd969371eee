import CodeAtlas.Proofs.Disk.Descent
import CodeAtlas.Proofs.Sorting
import Mathlib.Data.List.Nodup

/-! What is come upon from a path through names that are not hidden: folders and files, each of them
once. -/

namespace CodeAtlas

namespace FileTree

theorem mem_shownNames {entries : List (String × FileTree)} {name : String} :
    name ∈ shownNames entries ↔
      name ∈ entries.map Prod.fst ∧ isName name ∧ ¬ isHidden name := by
  simp only [shownNames, List.mem_filter, Text.mem_sortedUnique, Bool.and_eq_true,
    Bool.not_eq_true']
  rw [Bool.not_eq_true]

theorem shownNames_pairwise (entries : List (String × FileTree)) :
    (shownNames entries).Pairwise (· < ·) := (Text.sortedUnique_pairwise _).filter _

end FileTree

namespace Disk

/-- The paths that are come upon from the root through names that are not hidden. -/
inductive Reaches (d : Disk) (root : String) : String → Prop
  | here : Reaches d root root
  | into {path name : String} {entries : List (String × FileTree)} : Reaches d root path →
      d.status path = .ok (.folder entries) → name ∈ entries.map Prod.fst →
      FileTree.isName name → ¬ FileTree.isHidden name → Reaches d root (Path.join path name)

def files (d : Disk) (path : String) : List String := ((d.view path).visits path).map Visit.path

variable {d : Disk} {path : String}

theorem isFolder_iff : d.isFolder path ↔ ∃ entries, d.status path = .ok (.folder entries) := by
  unfold isFolder
  cases hstatus : d.status path with
  | error cause => simp
  | ok t => cases t <;> simp [FileTree.isFolder]

theorem Reaches.trans {root middle : String} (h : d.Reaches root middle)
    (h' : d.Reaches middle path) : d.Reaches root path := by
  induction h' with
  | here => exact h
  | into _ hstatus hentry hname hhidden ih => exact ih.into hstatus hentry hname hhidden

theorem Reaches.cases_folder {root : String} {entries : List (String × FileTree)}
    (hroot : d.status root = .ok (.folder entries)) (h : d.Reaches root path) :
    path = root ∨ ∃ name ∈ FileTree.shownNames entries, d.Reaches (Path.join root name) path := by
  induction h with
  | here => exact .inl rfl
  | @into middle name inner _ hstatus hentry hname hhidden ih =>
    right
    rcases ih with rfl | ⟨first, hfirst, hreaches⟩
    · rw [hroot] at hstatus
      obtain rfl : entries = inner := by injection Except.ok.inj hstatus
      exact ⟨name, FileTree.mem_shownNames.2 ⟨hentry, hname, hhidden⟩, .here⟩
    · exact ⟨first, hfirst, hreaches.into hstatus hentry hname hhidden⟩

theorem Reaches.eq_of_not_isFolder {root : String} (hroot : ¬ d.isFolder root)
    (h : d.Reaches root path) : path = root := by
  induction h with
  | here => rfl
  | into _ hstatus _ _ _ ih =>
    exact absurd (isFolder_iff.2 ⟨_, ih ▸ hstatus⟩) hroot

theorem reaches_join {name : String} {entries : List (String × FileTree)}
    (h : d.status path = .ok (.folder entries)) (hname : name ∈ FileTree.shownNames entries) :
    d.Reaches path (Path.join path name) := by
  obtain ⟨hentry, hvalid, hhidden⟩ := FileTree.mem_shownNames.1 hname
  exact Reaches.here.into h hentry hvalid hhidden

theorem view_of_not_isFolder (h : ¬ d.isFolder path) : d.view path = .file (d.read path) := by
  apply view_file
  intro entries hstatus
  exact h (isFolder_iff.2 ⟨entries, hstatus⟩)

theorem content_of_mem_visits {root : String} {visit : Visit}
    (h : visit ∈ (d.view root).visits root) : visit.content = d.read visit.path := by
  have hview := d.view_of_mem_visits root h
  by_cases hfolder : d.isFolder visit.path
  · obtain ⟨entries, hstatus⟩ := isFolder_iff.1 hfolder
    rw [view_folder hstatus] at hview
    cases hview
  · rw [view_of_not_isFolder hfolder] at hview
    injection hview with hcontent
    exact hcontent.symm

theorem files_folder {entries : List (String × FileTree)}
    (h : d.status path = .ok (.folder entries)) :
    d.files path =
      (FileTree.shownNames entries).flatMap fun name => d.files (Path.join path name) := by
  rw [files, view_folder h, View.visits, View.visitsEach_eq_flatMap, List.flatMap_map,
    List.map_flatMap]
  rfl

theorem files_file (h : ¬ d.isFolder path) : d.files path = [path] := by
  rw [files, view_of_not_isFolder h]
  rfl

/-- What holds of files and passes from all that is shown in a folder to the folder. -/
theorem files_induction {P : String → Prop}
    (file : ∀ path, ¬ d.isFolder path → P path)
    (folder : ∀ path entries, d.status path = .ok (.folder entries) →
      (∀ name ∈ FileTree.shownNames entries, P (Path.join path name)) → P path) :
    ∀ path, P path := by
  intro path
  induction path using view.induct d with
  | case1 path entries hstatus ih => exact folder path entries hstatus ih
  | case2 path hstatus =>
    refine file path fun hfolder => ?_
    obtain ⟨entries, heq⟩ := isFolder_iff.1 hfolder
    exact hstatus entries heq

theorem reaches_of_mem_files {root file : String} (hpath : Reaches d root path)
    (h : file ∈ d.files path) : Reaches d root file ∧ ¬ d.isFolder file := by
  induction path using files_induction (d := d) with
  | file path hfile =>
    rw [files_file hfile, List.mem_singleton] at h
    exact h ▸ ⟨hpath, hfile⟩
  | folder path entries hstatus ih =>
    rw [files_folder hstatus, List.mem_flatMap] at h
    obtain ⟨name, hname, hmem⟩ := h
    exact ih name hname (hpath.trans (reaches_join hstatus hname)) hmem

theorem files_subset_of_reaches {root : String} (h : Reaches d root path) :
    d.files path ⊆ d.files root := by
  induction h with
  | here => exact List.Subset.refl _
  | into _ hstatus hentry hvalid hhidden ih =>
    have hname := FileTree.mem_shownNames.2 ⟨hentry, hvalid, hhidden⟩
    intro file hfile
    apply ih
    rw [files_folder hstatus]
    exact List.mem_flatMap.2 ⟨_, hname, hfile⟩

theorem mem_files_iff {root file : String} :
    file ∈ d.files root ↔ Reaches d root file ∧ ¬ d.isFolder file := by
  refine ⟨reaches_of_mem_files .here, fun ⟨hreaches, hfile⟩ => ?_⟩
  apply files_subset_of_reaches hreaches
  rw [files_file hfile]
  exact List.mem_singleton_self file

/-- The path is the other one, or it goes on behind it with a slash. -/
def Extends (path file : String) : Prop :=
  ∃ tail : List Char, file.toList = path.toList ++ tail ∧ ∀ c ∈ tail.head?, c = '/'

theorem extends_refl (path : String) : Extends path path :=
  ⟨[], (List.append_nil _).symm, by simp⟩

theorem Extends.of_join {name file : String} (h : Extends (Path.join path name) file)
    (hpath : path ≠ "") (hslash : ¬ Path.endsInSlash path) (hname : FileTree.isName name) :
    Extends path file := by
  obtain ⟨tail, htail, -⟩ := h
  refine ⟨'/' :: (name.toList ++ tail), ?_, by simp⟩
  rw [htail, Path.toList_join hname, Path.stem_of_not_endsInSlash hpath hslash]
  simp

theorem extends_of_mem_files {file : String} (hslash : ¬ Path.endsInSlash path)
    (h : file ∈ d.files path) : Extends path file := by
  induction path using files_induction (d := d) with
  | file path hfile =>
    rw [files_file hfile, List.mem_singleton] at h
    rw [h]
    exact extends_refl path
  | folder path entries hstatus ih =>
    rw [files_folder hstatus, List.mem_flatMap] at h
    obtain ⟨name, hname, hmem⟩ := h
    have hvalid := isName_of_shown hname
    have hempty : path ≠ "" := by
      rintro rfl
      cases hstatus
    exact (ih name hname (Path.not_endsInSlash_join hvalid) hmem).of_join hempty hslash hvalid

theorem name_eq_of_extends {name name' file : String} (hname : FileTree.isName name)
    (hname' : FileTree.isName name') (h : Extends (Path.join path name) file)
    (h' : Extends (Path.join path name') file) : name = name' := by
  have hcut (name tail : List Char) (hslash : '/' ∉ name) (htail : ∀ c ∈ tail.head?, c = '/') :
      (name ++ tail).takeWhile (· ≠ '/') = name := by
    have hall : ∀ c ∈ name, decide (c ≠ '/') = true := by
      intro c hc
      exact decide_eq_true fun heq => hslash (heq ▸ hc)
    rw [List.takeWhile_append_of_pos hall]
    cases tail with
    | nil => simp
    | cons c tail => simp [htail c rfl]
  obtain ⟨tail, htail, hhead⟩ := h
  obtain ⟨tail', htail', hhead'⟩ := h'
  rw [Path.toList_join hname, List.append_assoc] at htail
  rw [Path.toList_join hname', List.append_assoc, htail] at htail'
  have hsame := List.append_cancel_left htail'
  apply String.toList_inj.1
  rw [← hcut _ _ (FileTree.isName_iff.1 hname).2 hhead, hsame,
    hcut _ _ (FileTree.isName_iff.1 hname').2 hhead']

theorem nodup_files (d : Disk) (path : String) : (d.files path).Nodup := by
  induction path using files_induction (d := d) with
  | file path hfile =>
    rw [files_file hfile]
    exact List.nodup_singleton path
  | folder path entries hstatus ih =>
    rw [files_folder hstatus, List.nodup_flatMap]
    refine ⟨ih, (FileTree.shownNames_pairwise entries).imp_of_mem ?_⟩
    -- A file below two names would have a path that goes on from both.
    intro name name' hname hname' hlt file hfile hfile'
    have hvalid := isName_of_shown hname
    have hvalid' := isName_of_shown hname'
    have heq := name_eq_of_extends hvalid hvalid'
      (extends_of_mem_files (Path.not_endsInSlash_join hvalid) hfile)
      (extends_of_mem_files (Path.not_endsInSlash_join hvalid') hfile')
    rw [heq] at hlt
    exact String.lt_irrefl name' hlt

end Disk

namespace FileTree

theorem mem_of_lookup {entries : List (String × FileTree)} {name : String} {t : FileTree}
    (h : entries.lookup name = some t) : (name, t) ∈ entries := by
  obtain ⟨before, after, heq, -⟩ := List.lookup_eq_some_iff.1 h
  simp [heq]

end FileTree

end CodeAtlas
