import CodeAtlas.Proofs.Disk.Reach

/-! Looking at a disk without all rights. A look fails exactly if a folder that is come upon may not
be listed; else it comes upon the same files, some of which may not be opened. -/

namespace CodeAtlas.Disk

theorem mapM_named {ε α : Type} {f : String → Except ε α} {names : List String} :
    (∃ seen, (names.mapM fun name => (f name).map (Prod.mk name)) = .ok seen ∧
      seen.map Prod.fst = names ∧ ∀ entry ∈ seen, f entry.1 = .ok entry.2) ∨
    ∃ name ∈ names, ∃ e, f name = .error e ∧
      (names.mapM fun name => (f name).map (Prod.mk name)) = .error e := by
  induction names with
  | nil => exact .inl ⟨[], rfl, rfl, fun _ h => absurd h List.not_mem_nil⟩
  | cons name names ih =>
    rw [List.mapM_cons]
    cases hname : f name with
    | error e => exact .inr ⟨name, List.mem_cons_self, e, hname, rfl⟩
    | ok a =>
      rcases ih with ⟨seen, hseen, hnames, hentries⟩ | ⟨later, hlater, e, he, hfails⟩
      · refine .inl ⟨(name, a) :: seen, ?_, ?_, ?_⟩
        · rw [hseen]
          rfl
        · rw [List.map_cons, hnames]
        · exact List.forall_mem_cons.2 ⟨hname, hentries⟩
      · refine .inr ⟨later, List.mem_cons_of_mem _ hlater, e, he, ?_⟩
        rw [hfails]
        rfl

variable {r : Rights} {d : Disk} {path : String} {entries : List (String × FileTree)}

theorem readWith_all (d : Disk) : d.readWith .all = d.read := by
  funext path
  unfold readWith
  cases d.read path <;> rfl

theorem look_folder (h : d.status path = .ok (.folder entries)) :
    d.look r path =
      if r.lists path then
        ((FileTree.shownNames entries).mapM fun name =>
          (d.look r (Path.join path name)).map (Prod.mk name)).map View.folder
      else .error ⟨.denied, path⟩ := by
  rw [look]
  split
  · rename_i entries' h'
    rw [h] at h'
    cases h'
    rw [List.mapM_subtype (g := fun name => (d.look r (Path.join path name)).map (Prod.mk name)),
      List.unattach_attach]
    · split
      · cases (FileTree.shownNames entries).mapM fun name =>
          (d.look r (Path.join path name)).map (Prod.mk name) <;> rfl
      · rfl
    · intro name _
      change (do return (name, ← d.look r (Path.join path name))) = _
      cases d.look r (Path.join path name) <;> rfl
  · rename_i hother
    exact absurd h (hother entries)

theorem look_file (h : ¬ d.isFolder path) : d.look r path = .ok (.file (d.readWith r path)) := by
  rw [look]
  split
  · rename_i entries h'
    exact absurd (isFolder_iff.2 ⟨entries, h'⟩) h
  · rfl

theorem look_folder_cases (h : d.status path = .ok (.folder entries)) (hlists : r.lists path) :
    (∃ seen, d.look r path = .ok (.folder seen) ∧
      seen.map Prod.fst = FileTree.shownNames entries ∧
      ∀ entry ∈ seen, d.look r (Path.join path entry.1) = .ok entry.2) ∨
    ∃ name ∈ FileTree.shownNames entries, ∃ e,
      d.look r (Path.join path name) = .error e ∧ d.look r path = .error e := by
  rw [look_folder h, if_pos hlists]
  rcases mapM_named (f := fun name => d.look r (Path.join path name)) with
    ⟨seen, hseen, hentries⟩ | ⟨name, hname, e, he, hfails⟩
  · exact .inl ⟨seen, by rw [hseen]; rfl, hentries⟩
  · exact .inr ⟨name, hname, e, he, by rw [hfails]; rfl⟩

theorem folder_of_look {seen : View} (h : d.status path = .ok (.folder entries))
    (hlook : d.look r path = .ok seen) :
    ∃ shown, seen = .folder shown ∧ shown.map Prod.fst = FileTree.shownNames entries ∧
      ∀ entry ∈ shown, d.look r (Path.join path entry.1) = .ok entry.2 := by
  by_cases hlists : r.lists path
  · rcases look_folder_cases h hlists with ⟨shown, hshown, hentries⟩ | ⟨name, -, e, -, hfails⟩
    · rw [hlook] at hshown
      exact ⟨shown, Except.ok.inj hshown, hentries⟩
    · rw [hlook] at hfails
      cases hfails
  · rw [look_folder h, if_neg hlists] at hlook
    cases hlook

/-- A folder that is come upon and may not be listed. -/
def IsBarrier (d : Disk) (r : Rights) (root path : String) : Prop :=
  d.Reaches root path ∧ d.isFolder path ∧ ¬ r.lists path

theorem isBarrier_of_look {e : FileError} (h : d.look r path = .error e) :
    e.cause = .denied ∧ d.IsBarrier r path e.path := by
  induction path using files_induction (d := d) with
  | file path hfile =>
    rw [look_file hfile] at h
    cases h
  | folder path entries hstatus ih =>
    by_cases hlists : r.lists path
    · rcases look_folder_cases hstatus hlists with
        ⟨seen, hseen, -⟩ | ⟨name, hname, e', he, hfails⟩
      · rw [hseen] at h
        cases h
      · rw [hfails] at h
        cases h
        obtain ⟨hcause, hreaches, hbarrier⟩ := ih name hname he
        exact ⟨hcause, (reaches_join hstatus hname).trans hreaches, hbarrier⟩
    · rw [look_folder hstatus, if_neg hlists] at h
      cases h
      exact ⟨rfl, .here, isFolder_iff.2 ⟨entries, hstatus⟩, hlists⟩

theorem IsBarrier.look_fails {barrier : String} (h : d.IsBarrier r path barrier) :
    ∃ e, d.look r path = .error e := by
  obtain ⟨hreaches, hfolder, hdenied⟩ := h
  -- The barrier is the folder itself, or it stands below a name that the folder shows.
  induction path using files_induction (d := d) with
  | file path hfile => exact absurd (hreaches.eq_of_not_isFolder hfile ▸ hfolder) hfile
  | folder path entries hstatus ih =>
    by_cases hlists : r.lists path
    · rcases hreaches.cases_folder hstatus with rfl | ⟨name, hname, hbelow⟩
      · exact absurd hlists hdenied
      · obtain ⟨e, he⟩ := ih name hname hbelow
        rcases look_folder_cases hstatus hlists with
          ⟨seen, -, hnames, hentries⟩ | ⟨-, -, e, -, hfails⟩
        · rw [← hnames] at hname
          obtain ⟨entry, hentry, rfl⟩ := List.mem_map.1 hname
          rw [hentries entry hentry] at he
          cases he
        · exact ⟨e, hfails⟩
    · exact ⟨_, by rw [look_folder hstatus, if_neg hlists]⟩

theorem visits_look {seen : View} (h : d.look r path = .ok seen) :
    seen.visits path = (d.files path).map fun file => ⟨file, d.readWith r file⟩ := by
  induction path using files_induction (d := d) generalizing seen with
  | file path hfile =>
    rw [look_file hfile] at h
    cases h
    rw [files_file hfile]
    rfl
  | folder path entries hstatus ih =>
    obtain ⟨shown, rfl, hnames, hentries⟩ := folder_of_look hstatus h
    have hbelow : ∀ entry ∈ shown, entry.2.visits (Path.join path entry.1) =
        (d.files (Path.join path entry.1)).map fun file => ⟨file, d.readWith r file⟩ := by
      intro entry hentry
      exact ih entry.1 (hnames ▸ List.mem_map_of_mem hentry) (hentries entry hentry)
    rw [files_folder hstatus, ← hnames, View.visits, View.visitsEach_eq_flatMap, List.flatMap_map,
      List.map_flatMap]
    exact List.flatMap_congr hbelow

theorem look_all (d : Disk) (path : String) : d.look .all path = .ok (d.view path) := by
  induction path using files_induction (d := d) with
  | file path hfile => rw [look_file hfile, view_of_not_isFolder hfile, readWith_all]
  | folder path entries hstatus ih =>
    rcases look_folder_cases (r := .all) hstatus rfl with
      ⟨seen, hseen, hnames, hentries⟩ | ⟨name, hname, e, he, -⟩
    · have hshown : seen = seen.map fun entry => (entry.1, d.view (Path.join path entry.1)) := by
        refine (List.map_id seen).symm.trans (List.map_congr_left fun entry hentry => ?_)
        have hname : entry.1 ∈ FileTree.shownNames entries := hnames ▸ List.mem_map_of_mem hentry
        have hview := (ih entry.1 hname).symm.trans (hentries entry hentry)
        exact Prod.ext rfl (Except.ok.inj hview).symm
      rw [hseen, view_folder hstatus, ← hnames, List.map_map, hshown]
      simp [Function.comp_def]
    · rw [ih name hname] at he
      cases he

end CodeAtlas.Disk
