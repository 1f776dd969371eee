import CodeAtlas.Survey.Walk

/-! A survey visits files one after another. What it says of them, and what it leaves behind, comes
from going through the visits in order; the folders only group the entries. -/

namespace CodeAtlas

structure Visit where
  path : String
  content : Except FileError (List UInt8)

mutual

def View.visits (path : String) : View → List Visit
  | .file content => [⟨path, content⟩]
  | .folder entries => View.visitsEach path entries

def View.visitsEach (path : String) : List (String × View) → List Visit
  | [] => []
  | (name, seen) :: entries => seen.visits (Path.join path name) ++ View.visitsEach path entries

end

mutual

def Entry.files : Entry → List Entry
  | .file name path finding => [.file name path finding]
  | .folder _ _ children => Entry.filesEach children

def Entry.filesEach : List Entry → List Entry
  | [] => []
  | e :: es => e.files ++ Entry.filesEach es

end

theorem View.visitsEach_eq_flatMap (path : String) (entries : List (String × View)) :
    View.visitsEach path entries =
      entries.flatMap fun entry => entry.2.visits (Path.join path entry.1) := by
  induction entries with
  | nil => rfl
  | cons entry entries ih => rw [View.visitsEach, ih, List.flatMap_cons]

namespace Disk

theorem status_of_follow {d : Disk} {path : String} {place : List String} {t : FileTree}
    (hpath : checkPath path = .ok ())
    (hplace : follow d.root maxLinks (d.start path) (steps path) = .ok place)
    (ht : d.root.get? place = some t) : d.status path = .ok t := by
  have hlocate : d.locate path = .ok place := by
    rw [locate, hpath]
    exact hplace
  simp only [status, hlocate, bind, Except.bind, ht, pure, Except.pure]

theorem view_folder {d : Disk} {path : String} {entries : List (String × FileTree)}
    (h : d.status path = .ok (.folder entries)) :
    d.view path = .folder ((FileTree.shownNames entries).map fun name =>
      (name, d.view (Path.join path name))) := by
  rw [view]
  split
  · rename_i entries' h'
    rw [h] at h'
    cases h'
    exact congrArg View.folder
      (List.attach_map_val (f := fun name => (name, d.view (Path.join path name))))
  · rename_i hother
    exact absurd h (hother entries)

theorem view_file {d : Disk} {path : String}
    (h : ∀ entries, d.status path ≠ .ok (.folder entries)) :
    d.view path = .file (d.read path) := by
  rw [view]
  split
  · rename_i entries h'
    exact absurd h' (h entries)
  · rfl

theorem view_root (entries : List (String × FileTree)) :
    view ⟨.folder entries, []⟩ "/" = .folder ((FileTree.shownNames entries).map fun name =>
      (name, view ⟨.folder entries, []⟩ (Path.join "/" name))) := by
  have hsteps : steps "/" = ["."] := by decide +kernel
  refine view_folder (@status_of_follow ⟨.folder entries, []⟩ "/" [] _ rfl ?_ rfl)
  rw [hsteps, follow, if_pos rfl, follow]
  rfl

theorem view_in_root {entries : List (String × FileTree)} {path : String} (name : String)
    {bytes : List UInt8} (hpath : checkPath path = .ok ()) (hsteps : steps path = [name])
    (hdots : name ≠ "." ∧ name ≠ "..")
    (hfile : lookUp (.folder entries) [] name = .ok (some (.file bytes))) :
    view ⟨.folder entries, []⟩ path = .file (.ok bytes) := by
  have hstart : start ⟨.folder entries, []⟩ path = [] := by simp [start]
  have hget : (FileTree.folder entries).get? [name] = some (.file bytes) := by
    unfold lookUp at hfile
    split at hfile
    · cases hfile
    · exact Except.ok.inj hfile
  have hfollow : follow (.folder entries) maxLinks (start ⟨.folder entries, []⟩ path)
      (steps path) = .ok [name] := by
    rw [hstart, hsteps, follow, if_neg hdots.1, if_neg hdots.2, hfile]
    rfl
  have hstatus := @status_of_follow ⟨.folder entries, []⟩ path _ _ hpath hfollow hget
  rw [view_file (by simp [hstatus]), read, hstatus]

theorem view_of_mem_visits (d : Disk) (path : String) {visit : Visit}
    (h : visit ∈ (d.view path).visits path) : d.view visit.path = .file visit.content := by
  induction path using view.induct d with
  | case1 path entries hstatus ih =>
    rw [view_folder hstatus, View.visits, View.visitsEach_eq_flatMap, List.mem_flatMap] at h
    obtain ⟨entry, hentry, hvisit⟩ := h
    obtain ⟨name, hname, rfl⟩ := List.mem_map.1 hentry
    exact ih name hname hvisit
  | case2 path hstatus =>
    have hview := view_file hstatus
    rw [hview, View.visits, List.mem_singleton] at h
    rw [h]
    exact hview

end Disk

namespace Survey

def surveyVisits (s : Setting) (p : Progress) : List Visit → List Entry × Progress
  | [] => ([], p)
  | visit :: visits =>
    let (first, p) := surveyFile s visit.path visit.content p
    let (rest, p) := surveyVisits s p visits
    (first :: rest, p)

theorem surveyVisits_append (s : Setting) (p : Progress) (before after : List Visit) :
    surveyVisits s p (before ++ after) =
      ((surveyVisits s p before).1 ++ (surveyVisits s (surveyVisits s p before).2 after).1,
        (surveyVisits s (surveyVisits s p before).2 after).2) := by
  induction before generalizing p with
  | nil => rfl
  | cons visit before ih => simp [surveyVisits, ih]

theorem length_surveyVisits (s : Setting) (p : Progress) (visits : List Visit) :
    (surveyVisits s p visits).1.length = visits.length := by
  induction visits generalizing p with
  | nil => rfl
  | cons visit visits ih => simp [surveyVisits, ih]

theorem files_surveyFile (s : Setting) (path : String) (content : Except FileError (List UInt8))
    (p : Progress) :
    (surveyFile s path content p).1.files = [(surveyFile s path content p).1] := rfl

mutual

theorem surveyView_visits (s : Setting) (path : String) (p : Progress) (seen : View) :
    ((surveyView s path p seen).1.files, (surveyView s path p seen).2) =
      surveyVisits s p (seen.visits path) := by
  match seen with
  | .file content => simp [surveyView, View.visits, surveyVisits, files_surveyFile]
  | .folder entries =>
    rw [View.visits, ← surveyEach_visits]
    simp [surveyView, Entry.files]

theorem surveyEach_visits (s : Setting) (path : String) (p : Progress)
    (entries : List (String × View)) :
    (Entry.filesEach (surveyEach s path p entries).1, (surveyEach s path p entries).2) =
      surveyVisits s p (View.visitsEach path entries) := by
  match entries with
  | [] => rfl
  | (name, seen) :: entries =>
    have hfirst := surveyView_visits s (Path.join path name) p seen
    have hrest := surveyEach_visits s path (surveyView s (Path.join path name) p seen).2 entries
    rw [View.visitsEach, surveyVisits_append, ← hfirst, ← hrest]
    simp [surveyEach, Entry.filesEach]

end

end Survey

end CodeAtlas
