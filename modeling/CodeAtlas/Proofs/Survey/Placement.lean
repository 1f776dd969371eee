import CodeAtlas.Proofs.Survey.Mirror

/-! Where the entries of a survey stand. Their paths are absolute, but they are made by going down
name by name all the same: what is normalized away stands before the root of the survey. -/

namespace CodeAtlas

theorem Path.absolute_ne_empty (cwd path : String) : absolute cwd path ≠ "" := by
  rw [absolute, normalize, assemble]
  split
  · decide
  · assumption

theorem Disk.isAbsolute_cwd (d : Disk) : Path.isAbsolute d.cwd := by
  simp [cwd, Path.isAbsolute]

namespace Entry

def path : Entry → String
  | file _ path _ => path
  | folder _ path _ => path

mutual

/-- Below a folder, names are told apart, and each path is that of the folder with a name. -/
def Joined : Entry → Prop
  | file _ _ _ => True
  | folder _ path children =>
    path ≠ "" ∧ (children.map Entry.name).Nodup ∧ JoinedEach path children

def JoinedEach (above : String) : List Entry → Prop
  | [] => True
  | e :: es =>
    FileTree.isName e.name ∧ e.path = Path.join above e.name ∧ e.Joined ∧ JoinedEach above es

end

variable {r : Disk.Rights} {d : Disk}

theorem path_of_mirrors {path : String} {e : Entry} (h : e.Mirrors r d path) :
    e.path = Path.absolute d.cwd path := by
  cases e with
  | file name full finding =>
    rw [Mirrors] at h
    exact h.2.1
  | folder name full children =>
    rw [Mirrors] at h
    exact h.2.1

mutual

theorem joined_of_mirrors (e : Entry) {path : String} (h : e.Mirrors r d path) : e.Joined := by
  match e with
  | .file name full finding =>
    rw [Joined]
    trivial
  | .folder name full children =>
    rw [Mirrors] at h
    obtain ⟨-, rfl, ⟨entries, hstatus, hsorted, hshown⟩, hbelow⟩ := h
    have hpath : path ≠ "" := by
      rintro rfl
      cases hstatus
    have hvalid : ∀ e ∈ children, FileTree.isName e.name ∧ ¬ FileTree.isHidden e.name := by
      intro e he
      exact ((hshown e.name).1 (List.mem_map_of_mem he)).2
    have hnodup : (children.map Entry.name).Nodup := by
      refine hsorted.imp fun {a b} hlt heq => ?_
      rw [heq] at hlt
      exact String.lt_irrefl b hlt
    rw [Joined]
    exact ⟨Path.absolute_ne_empty _ _, hnodup, joinedEach_of_mirrors children hpath hvalid hbelow⟩

theorem joinedEach_of_mirrors (es : List Entry) {path : String} (hpath : path ≠ "")
    (hvalid : ∀ e ∈ es, FileTree.isName e.name ∧ ¬ FileTree.isHidden e.name)
    (h : MirrorsEach r d path es) : JoinedEach (Path.absolute d.cwd path) es := by
  match es with
  | [] =>
    rw [JoinedEach]
    trivial
  | e :: es =>
    rw [MirrorsEach] at h
    obtain ⟨⟨hname, hhidden⟩, hvalid⟩ := List.forall_mem_cons.1 hvalid
    have hdots : e.name ≠ "." ∧ e.name ≠ ".." := by
      constructor
      all_goals
        intro heq
        rw [heq] at hhidden
        exact hhidden (by decide)
    have hfull : e.path = Path.join (Path.absolute d.cwd path) e.name := by
      rw [path_of_mirrors h.1, Path.absolute_join d.isAbsolute_cwd hpath hname hdots]
    rw [JoinedEach]
    exact ⟨hname, hfull, joined_of_mirrors e h.1, joinedEach_of_mirrors es hpath hvalid h.2⟩

end

end Entry

namespace Survey

variable (lib : Grammar.Library) (d : Disk) (root : String) (p : Progress)

theorem path_survey : (survey lib d root p).1.path = Path.absolute d.cwd root :=
  Entry.path_of_mirrors (mirrors_survey lib d root p)

theorem joined_survey : (survey lib d root p).1.Joined :=
  Entry.joined_of_mirrors _ (mirrors_survey lib d root p)

end Survey

end CodeAtlas
