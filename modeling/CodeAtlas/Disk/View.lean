import CodeAtlas.Disk.Basic

/-! What is seen from a path when folders are gone through, name by name, down to the files. Links
are followed wherever they lead; since no path has more than so many bytes, the way down ends. -/

namespace CodeAtlas

/-- A folder with what is seen in it, by name, or else a file with its content, which may be
missing. -/
inductive View
  | file (content : Except FileError (List UInt8))
  | folder (entries : List (String × View))

namespace Disk

theorem size_of_status {d : Disk} {path : String} {t : FileTree} (h : d.status path = .ok t) :
    path.utf8ByteSize ≤ maxPath := by
  refine Nat.le_of_not_lt fun hlong => ?_
  have hrefused : ∃ cause, checkPath path = .error cause := by
    rw [checkPath, if_pos hlong]
    split
    · exact ⟨_, rfl⟩
    · split <;> exact ⟨_, rfl⟩
  obtain ⟨cause, hcause⟩ := hrefused
  rw [status, locate, hcause] at h
  cases h

theorem size_join {path name : String} (h : FileTree.isName name) :
    path.utf8ByteSize < (Path.join path name).utf8ByteSize := by
  simp only [FileTree.isName, ne_eq, decide_not, Bool.and_eq_true, Bool.not_eq_true',
    decide_eq_false_iff_not] at h
  obtain ⟨hname, hslash⟩ := h
  have hsize : name.utf8ByteSize ≠ 0 := fun h => hname (String.utf8ByteSize_eq_zero_iff.1 h)
  have hrelative : ¬ Path.isAbsolute name := by
    intro habsolute
    have hhead : name.toList.head? = some '/' := by simpa [Path.isAbsolute] using habsolute
    have hmem := List.mem_of_mem_head? hhead
    simp_all
  rw [Path.join, if_neg hrelative]
  split <;> simp only [String.utf8ByteSize_append] <;> omega

theorem isName_of_shown {entries : List (String × FileTree)} {name : String}
    (h : name ∈ FileTree.shownNames entries) : FileTree.isName name := by
  have hshown := (List.mem_filter.1 h).2
  exact (Bool.and_eq_true_iff.1 hshown).1

/-- What is seen from a path. What leads nowhere counts as a file that is missing. -/
def view (d : Disk) (path : String) : View :=
  match _h : d.status path with
  | .ok (.folder entries) =>
    .folder ((FileTree.shownNames entries).attach.map fun ⟨name, _⟩ =>
      (name, d.view (Path.join path name)))
  | _ => .file (d.read path)
termination_by maxPath + 1 - path.utf8ByteSize
decreasing_by
  have hpath := size_of_status _h
  have hjoin := @size_join path name (isName_of_shown ‹_›)
  omega

structure Rights where
  lists : String → Bool
  opens : String → Bool

def Rights.all : Rights := ⟨fun _ => true, fun _ => true⟩

def readWith (r : Rights) (d : Disk) (path : String) : Except FileError (List UInt8) := do
  let bytes ← d.read path
  if r.opens path then return bytes else throw ⟨.denied, path⟩

/-- What is seen from a path by someone with these rights. A folder that may not be listed ends it
all, a file that may not be opened counts as missing. -/
def look (r : Rights) (d : Disk) (path : String) : Except FileError View :=
  match _h : d.status path with
  | .ok (.folder entries) =>
    if r.lists path then do
      return .folder (← (FileTree.shownNames entries).attach.mapM fun ⟨name, _⟩ => do
        return (name, ← d.look r (Path.join path name)))
    else throw ⟨.denied, path⟩
  | _ => return .file (d.readWith r path)
termination_by maxPath + 1 - path.utf8ByteSize
decreasing_by
  have hpath := size_of_status _h
  have hjoin := @size_join path name (isName_of_shown ‹_›)
  omega

end Disk

end CodeAtlas
