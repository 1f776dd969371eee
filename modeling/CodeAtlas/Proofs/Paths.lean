import CodeAtlas.Disk.FileTree
import CodeAtlas.Path

/-! Paths that are made by going down into folders, name by name. -/

namespace CodeAtlas

namespace FileTree

theorem isName_iff {name : String} : isName name ↔ name ≠ "" ∧ '/' ∉ name.toList := by
  simp [isName]

end FileTree

namespace Path

theorem pieces_ne_nil (cs : List Char) : pieces cs ≠ [] := by
  cases cs with
  | nil => simp [pieces]
  | cons c cs =>
    rw [pieces]
    split
    · simp
    · split <;> simp

theorem pieces_append (a b : List Char) : pieces (a ++ '/' :: b) = pieces a ++ pieces b := by
  induction a with
  | nil => simp [pieces]
  | cons c a ih =>
    rw [List.cons_append, pieces, pieces, ih]
    split
    · rfl
    · match hpieces : pieces a with
      | [] => exact absurd hpieces (pieces_ne_nil a)
      | p :: ps => rfl

theorem pieces_of_not_mem {cs : List Char} (h : '/' ∉ cs) : pieces cs = [cs] := by
  induction cs with
  | nil => rfl
  | cons c cs ih =>
    rw [List.mem_cons, not_or] at h
    rw [pieces, if_neg (Ne.symm h.1), ih h.2]

theorem not_mem_of_mem_pieces {cs piece : List Char} (h : piece ∈ pieces cs) : '/' ∉ piece := by
  induction cs generalizing piece with
  | nil =>
    obtain rfl : piece = [] := by simpa [pieces] using h
    simp
  | cons c cs ih =>
    rw [pieces] at h
    split at h
    · rcases List.mem_cons.1 h with rfl | hmem
      · simp
      · exact ih hmem
    · next hc =>
      match hpieces : pieces cs with
      | [] => exact absurd hpieces (pieces_ne_nil cs)
      | first :: later =>
        rw [hpieces] at h ih
        rcases List.mem_cons.1 h with rfl | hmem
        · rw [List.mem_cons, not_or]
          exact ⟨Ne.symm hc, ih List.mem_cons_self⟩
        · exact ih (List.mem_cons_of_mem _ hmem)

theorem not_mem_baseName (path : String) : '/' ∉ (baseName path).toList := by
  rw [baseName, String.toList_ofList]
  match hpieces : pieces path.toList with
  | [] => exact absurd hpieces (pieces_ne_nil _)
  | p :: ps =>
    have hlast : (p :: ps).getLastD [] ∈ pieces path.toList := by
      rw [hpieces, List.getLastD_cons]
      exact List.getLastD_mem_cons
    exact not_mem_of_mem_pieces hlast

theorem extension_baseName (path : String) : extension (baseName path) = extension path := by
  have hbase : baseName (baseName path) = baseName path := by
    rw [baseName, pieces_of_not_mem (not_mem_baseName path)]
    exact String.ofList_toList
  rw [extension, hbase, extension]

def stem (path : String) : List Char :=
  if path.isEmpty || endsInSlash path then path.toList else path.toList ++ ['/']

variable {path name : String}

theorem toList_join (h : FileTree.isName name) :
    (join path name).toList = stem path ++ name.toList := by
  have hslash := (FileTree.isName_iff.1 h).2
  have hrelative : ¬ isAbsolute name := by
    intro habsolute
    have hhead : name.toList.head? = some '/' := by simpa [isAbsolute] using habsolute
    exact hslash (List.mem_of_mem_head? hhead)
  rw [join, if_neg hrelative, stem]
  split <;> simp

theorem stem_of_not_endsInSlash (hpath : path ≠ "") (h : ¬ endsInSlash path) :
    stem path = path.toList ++ ['/'] := if_neg (by simp [hpath, h])

theorem utf8ByteSize_join (hpath : path ≠ "") (h : ¬ endsInSlash path)
    (hname : FileTree.isName name) :
    (join path name).utf8ByteSize = path.utf8ByteSize + 1 + name.utf8ByteSize := by
  have hjoin : join path name = path ++ "/" ++ name := by
    apply String.toList_inj.1
    rw [toList_join hname, stem_of_not_endsInSlash hpath h]
    simp
  rw [hjoin, String.utf8ByteSize_append, String.utf8ByteSize_append]
  rfl

theorem stem_eq (h : path ≠ "") : ∃ front, stem path = front ++ ['/'] ∧
    (path.toList = front ∨ path.toList = front ++ ['/']) := by
  by_cases hend : endsInSlash path
  · have hlast : path.toList.getLast? = some '/' := by simpa [endsInSlash] using hend
    obtain ⟨front, hfront⟩ := List.getLast?_eq_some_iff.1 hlast
    refine ⟨front, ?_, .inr hfront⟩
    rw [stem, if_pos (by simp [hend]), hfront]
  · exact ⟨path.toList, stem_of_not_endsInSlash h hend, .inl rfl⟩

theorem baseName_join (h : FileTree.isName name) : baseName (join path name) = name := by
  have hpieces := pieces_of_not_mem (FileTree.isName_iff.1 h).2
  rw [baseName, toList_join h]
  by_cases hempty : path = ""
  · have hstem : stem path = [] := by simp [stem, hempty]
    rw [hstem, List.nil_append, hpieces]
    exact String.ofList_toList
  · obtain ⟨front, hstem, -⟩ := stem_eq hempty
    rw [hstem, List.append_assoc, List.singleton_append, pieces_append, hpieces]
    simp

theorem not_endsInSlash_append (hname : FileTree.isName name) (front : String) :
    ¬ endsInSlash (front ++ name) := by
  obtain ⟨hname, hslash⟩ := FileTree.isName_iff.1 hname
  have hne : name.toList ≠ [] := by simpa using hname
  intro hend
  have hlast : (front ++ name).toList.getLast? = some '/' := by simpa [endsInSlash] using hend
  rw [String.toList_append, List.getLast?_append, List.getLast?_eq_some_getLast hne,
    Option.some_or] at hlast
  exact hslash (Option.some.inj hlast ▸ List.getLast_mem hne)

theorem not_endsInSlash_join (h : FileTree.isName name) : ¬ endsInSlash (join path name) := by
  have hjoin : join path name = String.ofList (stem path) ++ name := by
    apply String.toList_inj.1
    rw [toList_join h, String.toList_append, String.toList_ofList]
  rw [hjoin]
  exact not_endsInSlash_append h _

theorem parts_join (hpath : path ≠ "") (hname : FileTree.isName name) (hdot : name ≠ ".") :
    parts (join path name) = parts path ++ [name] := by
  have hpieces := pieces_of_not_mem (FileTree.isName_iff.1 hname).2
  have hne := (FileTree.isName_iff.1 hname).1
  obtain ⟨front, hstem, hfront⟩ := stem_eq hpath
  have hshort : parts path =
      ((pieces front).map String.ofList).filter fun part => part ≠ "" && part ≠ "." := by
    rcases hfront with hfront | hfront
    · rw [parts, hfront]
    · rw [parts, hfront, pieces_append]
      simp [pieces]
  rw [hshort, parts, toList_join hname, hstem, List.append_assoc, List.singleton_append,
    pieces_append, hpieces]
  simp [hne, hdot]

theorem isName_of_mem_parts {part : String} (h : part ∈ parts path) : FileTree.isName part := by
  obtain ⟨hpart, hkept⟩ := List.mem_filter.1 h
  obtain ⟨piece, hpiece, rfl⟩ := List.mem_map.1 hpart
  have hslash := not_mem_of_mem_pieces hpiece
  refine FileTree.isName_iff.2 ⟨?_, by simpa using hslash⟩
  simp_all

theorem settle_concat (rooted : Bool) (hup : name ≠ "..") (done parts : List String) :
    settle rooted done (parts ++ [name]) = settle rooted done parts ++ [name] := by
  induction done, parts using settle.induct rooted with
  | case1 done => simp [settle, hup]
  | case2 rest ih => simpa [settle] using ih
  | case3 rest tail ih => simpa [settle] using ih
  | case4 rest head before hhead ih => simpa [settle, hhead] using ih
  | case5 done part rest hpart ih => simpa [settle, hpart] using ih

theorem forall_mem_settle {rooted : Bool} {P : String → Prop} (done parts : List String)
    (hdone : ∀ part ∈ done, P part) (hparts : ∀ part ∈ parts, P part) :
    ∀ part ∈ settle rooted done parts, P part := by
  induction done, parts using settle.induct rooted with
  | case1 done => simpa [settle] using hdone
  | case2 rest ih =>
    obtain ⟨hup, hrest⟩ := List.forall_mem_cons.1 hparts
    rw [settle, if_pos rfl]
    refine ih ?_ hrest
    split <;> simp [hup]
  | case3 rest tail ih =>
    obtain ⟨hup, hrest⟩ := List.forall_mem_cons.1 hparts
    rw [settle, if_pos rfl]
    exact ih (List.forall_mem_cons.2 ⟨hup, hdone⟩) hrest
  | case4 rest head before hhead ih =>
    simp only [settle, if_true]
    exact ih (List.forall_mem_cons.1 hdone).2 (List.forall_mem_cons.1 hparts).2
  | case5 done part rest hpart ih =>
    obtain ⟨hfirst, hrest⟩ := List.forall_mem_cons.1 hparts
    rw [settle.eq_def]
    simp only [if_neg hpart]
    exact ih (List.forall_mem_cons.2 ⟨hfirst, hdone⟩) hrest

theorem lead_eq (path : String) :
    lead path = if path.toList.head? ≠ some '/' then "" else
      if path.toList[1]? = some '/' ∧ path.toList[2]? ≠ some '/' then "//" else "/" := by
  rw [lead]
  generalize path.toList = front
  rcases front with _ | ⟨a, _ | ⟨b, _ | ⟨e, rest⟩⟩⟩
  · rfl
  · by_cases ha : a = '/' <;> simp [ha]
  · by_cases ha : a = '/' <;> by_cases hb : b = '/' <;> simp [ha, hb]
  · by_cases ha : a = '/' <;> by_cases hb : b = '/' <;> by_cases he : e = '/' <;> simp [ha, hb, he]

theorem lead_join (hpath : path ≠ "") (hname : FileTree.isName name) :
    lead (join path name) = lead path := by
  obtain ⟨hne, hslash⟩ := FileTree.isName_iff.1 hname
  obtain ⟨c, cs, hcs⟩ := List.exists_cons_of_ne_nil (mt String.toList_eq_nil_iff.1 hne)
  have hc : c ≠ '/' := by
    rintro rfl
    exact hslash (by simp [hcs])
  have hlist : path.toList ≠ [] := mt String.toList_eq_nil_iff.1 hpath
  have hstem : stem path = if path.toList.getLast? = some '/' then path.toList
      else path.toList ++ ['/'] := by
    simp [stem, endsInSlash, hpath]
  rw [lead_eq, lead_eq, toList_join hname, hstem, hcs]
  generalize path.toList = front at hlist
  -- A path of one or two characters is followed by the name, which starts with no slash.
  rcases front with _ | ⟨a, _ | ⟨b, _ | ⟨e, rest⟩⟩⟩
  · exact absurd rfl hlist
  · by_cases ha : a = '/' <;> simp [ha, hc]
  · by_cases hb : b = '/' <;> simp [hb, hc]
  · split <;> simp

theorem lead_of_isAbsolute (h : isAbsolute path) : lead path = "/" ∨ lead path = "//" := by
  have hhead : path.toList.head? = some '/' := by simpa [isAbsolute] using h
  rw [lead_eq, if_neg (by simp [hhead])]
  split
  · exact .inr rfl
  · exact .inl rfl

theorem join_of_endsInSlash (hname : FileTree.isName name) (h : endsInSlash path) :
    join path name = path ++ name := by
  apply String.toList_inj.1
  rw [toList_join hname, stem, if_pos (by simp [h]), String.toList_append]

theorem join_of_not_endsInSlash (hname : FileTree.isName name) (hpath : path ≠ "")
    (h : ¬ endsInSlash path) : join path name = path ++ "/" ++ name := by
  apply String.toList_inj.1
  rw [toList_join hname, stem_of_not_endsInSlash hpath h]
  simp

theorem assemble_concat {start : String} {parts : List String}
    (hstart : start = "/" ∨ start = "//") (hparts : ∀ part ∈ parts, FileTree.isName part)
    (hname : FileTree.isName name) :
    assemble start (parts ++ [name]) = join (assemble start parts) name := by
  have hassemble (parts : List String) : assemble start parts = start ++ "/".intercalate parts := by
    rw [assemble, if_neg]
    rcases hstart with rfl | rfl <;> simp [String.append_eq_empty_iff]
  have hslash : endsInSlash start := by
    rcases hstart with rfl | rfl <;> decide
  rw [hassemble, hassemble]
  rcases parts.eq_nil_or_concat with rfl | ⟨before, last, rfl⟩
  · rw [String.intercalate_nil, String.append_empty, join_of_endsInSlash hname hslash]
    simp
  · rw [List.concat_eq_append] at hparts ⊢
    have hlast : FileTree.isName last := hparts last (by simp)
    obtain ⟨front, hfront⟩ : ∃ front, start ++ "/".intercalate (before ++ [last]) =
        front ++ last := by
      rcases before with _ | ⟨first, before⟩
      · exact ⟨start, by simp⟩
      · refine ⟨start ++ ("/".intercalate (first :: before) ++ "/"), ?_⟩
        rw [String.intercalate_append_of_ne_nil (by simp) (by simp), String.intercalate_singleton,
          ← String.append_assoc]
    have hend : ¬ endsInSlash (start ++ "/".intercalate (before ++ [last])) := by
      rw [hfront]
      exact not_endsInSlash_append hlast front
    have hempty : start ++ "/".intercalate (before ++ [last]) ≠ "" := by
      rcases hstart with rfl | rfl <;> simp [String.append_eq_empty_iff]
    rw [join_of_not_endsInSlash hname hempty hend,
      String.intercalate_append_of_ne_nil (by simp) (by simp), String.intercalate_singleton,
      String.append_assoc, String.append_assoc, String.append_assoc]

theorem normalize_join (h : isAbsolute path) (hname : FileTree.isName name)
    (hdots : name ≠ "." ∧ name ≠ "..") :
    normalize (join path name) = join (normalize path) name := by
  have hpath : path ≠ "" := by
    rintro rfl
    cases h
  rw [normalize, lead_join hpath hname, parts_join hpath hname hdots.1,
    settle_concat _ hdots.2, assemble_concat (lead_of_isAbsolute h) _ hname, normalize]
  exact forall_mem_settle _ _ (by simp) fun part => isName_of_mem_parts

theorem stem_append (hpath : path ≠ "") (front : String) :
    stem (front ++ path) = front.toList ++ stem path := by
  have hne : path.toList ≠ [] := by simpa using hpath
  have hlast : (front.toList ++ path.toList).getLast? = path.toList.getLast? := by
    rw [List.getLast?_append, List.getLast?_eq_some_getLast hne, Option.some_or]
  simp only [stem, endsInSlash, String.toList_append, hlast]
  split <;> simp_all

theorem isAbsolute_join_iff (hpath : path ≠ "") (hname : FileTree.isName name) :
    isAbsolute (join path name) ↔ isAbsolute path := by
  obtain ⟨c, cs, hcs⟩ := List.exists_cons_of_ne_nil (mt String.toList_eq_nil_iff.1 hpath)
  rw [isAbsolute, isAbsolute, toList_join hname, stem, hcs]
  split <;> simp

theorem join_of_relative (base : String) :
    ∃ front : String, base.toList <+: front.toList ∧
      ∀ path, ¬ isAbsolute path → join base path = front ++ path := by
  by_cases hbase : base.isEmpty || endsInSlash base
  · refine ⟨base, List.prefix_refl _, fun path h => ?_⟩
    rw [join, if_neg h, if_pos hbase]
  · refine ⟨base ++ "/", by simp, fun path h => ?_⟩
    rw [join, if_neg h, if_neg hbase]

theorem join_join {base : String} (hpath : path ≠ "") (hname : FileTree.isName name) :
    join base (join path name) = join (join base path) name := by
  have hiff := isAbsolute_join_iff hpath hname
  by_cases h : isAbsolute path
  · rw [join, if_pos (hiff.2 h), join.eq_1 base path, if_pos h]
  · obtain ⟨front, -, hfront⟩ := join_of_relative base
    rw [hfront _ (mt hiff.1 h), hfront _ h]
    apply String.toList_inj.1
    rw [String.toList_append, toList_join hname, toList_join hname, stem_append hpath,
      List.append_assoc]

theorem isAbsolute_join {base : String} (h : isAbsolute base) : isAbsolute (join base path) := by
  by_cases hpath : isAbsolute path
  · rw [join, if_pos hpath]
    exact hpath
  · obtain ⟨front, ⟨rest, hrest⟩, hfront⟩ := join_of_relative base
    have hhead : base.toList.head? = some '/' := by simpa [isAbsolute] using h
    rw [hfront _ hpath, isAbsolute, String.toList_append, ← hrest]
    simp [hhead]

theorem absolute_join {cwd : String} (hcwd : isAbsolute cwd) (hpath : path ≠ "")
    (hname : FileTree.isName name) (hdots : name ≠ "." ∧ name ≠ "..") :
    absolute cwd (join path name) = join (absolute cwd path) name := by
  rw [absolute, join_join hpath hname, normalize_join (isAbsolute_join hcwd) hname hdots, absolute]

end Path

end CodeAtlas
