import CodeAtlas.Proofs.Report.Node
import CodeAtlas.Report.Filter
import Mathlib.Data.List.Forall2

/-! What the MeTTa part of a report keeps, whoever wrote the report. All MeTTa files are kept where
they stood and nothing else is, save for the folders around them; and what is kept is its own MeTTa
part. -/

namespace CodeAtlas

open Text (Points)

namespace Json

theorem lookup_put (key other : Points) (value : Json) (members : List (Points × Json)) :
    (put key value members).lookup other =
      if other = key then some value else members.lookup other := by
  have hcons (k : Points) (v : Json) (rest : List (Points × Json)) :
      List.lookup other ((k, v) :: rest) = if other = k then some v else rest.lookup other := by
    by_cases h : other = k
    · simp [h]
    · rw [List.lookup_cons, if_neg h, beq_false_of_ne h]
  induction members with
  | nil => rw [put, hcons]
  | cons member members ih =>
    obtain ⟨k, v⟩ := member
    rw [put]
    by_cases hk : k = key
    · rw [if_pos hk, hcons, hcons, hk]
      split <;> rfl
    · rw [if_neg hk, hcons, hcons, ih]
      by_cases hother : other = k
      · rw [if_pos hother, if_neg (hother ▸ hk), if_pos hother]
      · rw [if_neg hother, if_neg hother]

theorem member?_put (key other : String) (value : Json) (members : List (Points × Json)) :
    member? (put (Points.ofString key) value members) other =
      if other = key then some value else member? members other := by
  rw [member?, lookup_put, member?]
  simp only [Text.Points.ofString_inj]

theorem put_eq_self {key : Points} {value : Json} {members : List (Points × Json)}
    (h : members.lookup key = some value) : put key value members = members := by
  induction members with
  | nil => cases h
  | cons member members ih =>
    obtain ⟨k, v⟩ := member
    rw [put]
    by_cases hk : k = key
    · subst hk
      rw [List.lookup_cons, beq_self_eq_true] at h
      rw [if_pos rfl, Option.some.inj h]
    · rw [List.lookup_cons, beq_false_of_ne (Ne.symm hk)] at h
      rw [if_neg hk, ih h]

end Json

namespace Report

def fields (members : List (Points × Json)) : List (Points × Json) :=
  members.filter fun member => member.1 ≠ Points.ofString "children"

def isMetta (j : Json) : Bool := ((j.find? "language").getD .null).isStr "metta"

inductive IsTree : Json → Prop
  | file {members : List (Points × Json)}
    (htype : Json.member? members "type" = some (.str "file")) : IsTree (.obj members)
  | folder {members : List (Points × Json)} {children : List Json}
    (htype : Json.member? members "type" = some (.str "folder"))
    (hchildren : (Json.member? members "children").getD (.arr []) = .arr children)
    (h : ∀ child ∈ children, IsTree child) : IsTree (.obj members)

inductive IsFilled : Json → Prop
  | file {members : List (Points × Json)}
    (htype : Json.member? members "type" = some (.str "file")) : IsFilled (.obj members)
  | folder {members : List (Points × Json)} {children : List Json}
    (htype : Json.member? members "type" = some (.str "folder"))
    (hchildren : Json.member? members "children" = some (.arr children)) (hne : children ≠ [])
    (h : ∀ child ∈ children, IsFilled child) : IsFilled (.obj members)

/-- What can be left of a tree: of a file all of it, and of a folder all but some of its children,
of which the others may be pruned in turn. -/
inductive Pruned : Json → Json → Prop
  | file {members : List (Points × Json)}
    (htype : Json.member? members "type" = some (.str "file")) :
    Pruned (.obj members) (.obj members)
  | folder {members : List (Points × Json)} {children chosen kept : List Json}
    (htype : Json.member? members "type" = some (.str "folder"))
    (hchildren : (Json.member? members "children").getD (.arr []) = .arr children)
    (hchosen : chosen.Sublist children) (hkept : List.Forall₂ Pruned chosen kept) :
    Pruned (.obj members) (.obj (Json.put (Points.ofString "children") (.arr kept) members))

mutual

/-- The files of a report, each with the folders that it stands in, outermost first. A folder is
given by its fields. -/
def Node.filesIn (above : List (List (Points × Json))) :
    Node → List (List (List (Points × Json)) × Json)
  | .object members children =>
    if ((Json.member? members "type").getD .null).isStr "folder" then
      Node.filesInAll (above ++ [fields members]) children
    else [(above, .obj members)]
  | .value _ => []

def Node.filesInAll (above : List (List (Points × Json))) :
    List Node → List (List (List (Points × Json)) × Json)
  | [] => []
  | node :: nodes => Node.filesIn above node ++ Node.filesInAll above nodes

end

def filesIn (above : List (List (Points × Json))) (j : Json) :
    List (List (List (Points × Json)) × Json) := (Node.ofJson j).filesIn above

def kept? (j : Json) : Option Json :=
  match keepMetta (.ofJson j) with
  | .ok kept => kept
  | .error _ => none

section
variable {members : List (Points × Json)} {children : List Json}
  {above : List (List (Points × Json))} {j r : Json}

theorem fields_put (value : Json) (members : List (Points × Json)) :
    fields (Json.put (Points.ofString "children") value members) = fields members := by
  unfold fields
  induction members with
  | nil => simp [Json.put]
  | cons member members ih =>
    obtain ⟨key, v⟩ := member
    rw [Json.put]
    by_cases hkey : key = Points.ofString "children"
    · simp [hkey]
    · rw [if_neg hkey, List.filter_cons, List.filter_cons, ih]

theorem filesIn_file (htype : Json.member? members "type" = some (.str "file")) :
    filesIn above (.obj members) = [(above, .obj members)] := by
  have hfile : (Json.str "file").isStr "folder" = false := by decide
  rw [filesIn, Node.ofJson, Node.filesIn, htype, Option.getD_some, hfile, if_neg Bool.false_ne_true]

theorem filesInAll_eq (above : List (List (Points × Json))) (children : List Json) :
    Node.filesInAll above (Node.ofJsonAll children) = children.flatMap (filesIn above) := by
  induction children with
  | nil => rfl
  | cons child children ih =>
    rw [Node.ofJsonAll, Node.filesInAll, ih, List.flatMap_cons]
    rfl

theorem filesIn_folder (htype : Json.member? members "type" = some (.str "folder"))
    (hchildren : (Json.member? members "children").getD (.arr []) = .arr children) :
    filesIn above (.obj members) = children.flatMap (filesIn (above ++ [fields members])) := by
  have hfolder : (Json.str "folder").isStr "folder" = true := by decide
  rw [filesIn, (Node.ofJson_of_children hchildren).1, Node.filesIn, htype, Option.getD_some,
    if_pos hfolder, filesInAll_eq]

theorem keepMetta_file (htype : Json.member? members "type" = some (.str "file")) :
    keepMetta (.ofJson (.obj members)) =
      .ok (if isMetta (.obj members) then some (.obj members) else none) := by
  have hfile : (Json.str "file").isStr "file" = true := by decide
  simp only [Node.ofJson, keepMetta, Json.require, htype, bind, Except.bind, hfile, if_true, pure,
    Except.pure]
  rfl

theorem keepMettaAll_eq {f : Json → Option Json}
    (h : ∀ child ∈ children, keepMetta (.ofJson child) = .ok (f child)) :
    keepMettaAll (Node.ofJsonAll children) = .ok (children.filterMap f) := by
  induction children with
  | nil => rfl
  | cons child children ih =>
    obtain ⟨hchild, hrest⟩ := List.forall_mem_cons.1 h
    rw [Node.ofJsonAll, keepMettaAll, hchild, ih hrest, List.filterMap_cons]
    cases f child <;> rfl

theorem keepMetta_folder {f : Json → Option Json}
    (htype : Json.member? members "type" = some (.str "folder"))
    (hchildren : (Json.member? members "children").getD (.arr []) = .arr children)
    (h : ∀ child ∈ children, keepMetta (.ofJson child) = .ok (f child)) :
    keepMetta (.ofJson (.obj members)) =
      .ok (if children.filterMap f = [] then none
        else some (.obj
          (Json.put (Points.ofString "children") (.arr (children.filterMap f)) members))) := by
  obtain ⟨hnode, hcheck⟩ := Node.ofJson_of_children hchildren
  have hfolder : (Json.str "folder").isStr "file" = false ∧
      (Json.str "folder").isStr "folder" = true := by decide
  rw [hnode]
  simp only [keepMetta, Json.require, htype, bind, Except.bind, hfolder, hcheck, keepMettaAll_eq h,
    Bool.false_eq_true, if_false, if_true, List.isEmpty_iff]
  split <;> rfl

theorem keepMetta_eq (h : IsTree j) : keepMetta (.ofJson j) = .ok (kept? j) := by
  induction h with
  | file htype => rw [kept?, keepMetta_file htype]
  | folder htype hchildren _ ih => rw [kept?, keepMetta_folder htype hchildren ih]

theorem kept?_file (htype : Json.member? members "type" = some (.str "file")) :
    kept? (.obj members) = if isMetta (.obj members) then some (.obj members) else none := by
  rw [kept?, keepMetta_file htype]

theorem kept?_folder (htype : Json.member? members "type" = some (.str "folder"))
    (hchildren : (Json.member? members "children").getD (.arr []) = .arr children)
    (h : ∀ child ∈ children, IsTree child) :
    kept? (.obj members) =
      if children.filterMap kept? = [] then none
      else some (.obj
        (Json.put (Points.ofString "children") (.arr (children.filterMap kept?)) members)) := by
  rw [kept?, keepMetta_folder htype hchildren fun child hchild => keepMetta_eq (h child hchild)]

theorem member?_children_put (value : Json) (members : List (Points × Json)) :
    Json.member? (Json.put (Points.ofString "children") value members) "children" =
      some value := by
  rw [Json.member?_put, if_pos rfl]

theorem member?_type_put (value : Json) (members : List (Points × Json)) :
    Json.member? (Json.put (Points.ofString "children") value members) "type" =
      Json.member? members "type" := by
  rw [Json.member?_put, if_neg (by decide)]

theorem files_kept? (h : IsTree j) (above : List (List (Points × Json))) :
    (kept? j).toList.flatMap (filesIn above) =
      (filesIn above j).filter fun file => isMetta file.2 := by
  induction h generalizing above with
  | @file members htype =>
    rw [kept?_file htype, filesIn_file htype]
    cases hmetta : isMetta (.obj members) with
    | false => simp [hmetta]
    | true => simp [hmetta, filesIn_file htype]
  | @folder members children htype hchildren htrees ih =>
    have hbelow (above : List (List (Points × Json))) :
        (children.filterMap kept?).flatMap (filesIn above) =
          (children.flatMap (filesIn above)).filter fun file => isMetta file.2 := by
      rw [List.filterMap_eq_flatMap_toList, List.flatMap_assoc, List.filter_flatMap]
      exact List.flatMap_congr fun child hchild => ih child hchild above
    rw [kept?_folder htype hchildren htrees, filesIn_folder htype hchildren, ← hbelow]
    split
    · next hnone => rw [hnone]; rfl
    · have htype' := (member?_type_put (.arr (children.filterMap kept?)) members).trans htype
      have hchildren' := congrArg (fun found => found.getD (Json.arr []))
        (member?_children_put (.arr (children.filterMap kept?)) members)
      rw [Option.toList_some, List.flatMap_singleton, filesIn_folder htype' hchildren', fields_put]

theorem forall₂_filterMap {f : Json → Option Json} {R : Json → Json → Prop}
    (h : ∀ child ∈ children, ∀ r, f child = some r → R child r) :
    ∃ chosen, chosen.Sublist children ∧ List.Forall₂ R chosen (children.filterMap f) := by
  induction children with
  | nil => exact ⟨[], .slnil, .nil⟩
  | cons child children ih =>
    obtain ⟨hchild, hrest⟩ := List.forall_mem_cons.1 h
    obtain ⟨chosen, hchosen, hall⟩ := ih hrest
    cases hf : f child with
    | none => exact ⟨chosen, hchosen.cons child, by rwa [List.filterMap_cons_none hf]⟩
    | some r =>
      refine ⟨child :: chosen, hchosen.cons_cons child, ?_⟩
      rw [List.filterMap_cons_some hf]
      exact .cons (hchild r hf) hall

theorem pruned_kept? (h : IsTree j) (hr : kept? j = some r) : Pruned j r ∧ IsFilled r := by
  induction h generalizing r with
  | @file members htype =>
    rw [kept?_file htype] at hr
    split at hr
    · cases hr
      exact ⟨.file htype, .file htype⟩
    · cases hr
  | @folder members children htype hchildren htrees ih =>
    rw [kept?_folder htype hchildren htrees] at hr
    split at hr
    · cases hr
    · next hne =>
      cases hr
      obtain ⟨chosen, hchosen, hall⟩ :=
        forall₂_filterMap (R := Pruned) fun child hchild r hr => (ih child hchild hr).1
      refine ⟨.folder htype hchildren hchosen hall,
        .folder ((member?_type_put _ members).trans htype) (member?_children_put _ members) hne ?_⟩
      intro kept hkept
      obtain ⟨child, hchild, hr⟩ := List.mem_filterMap.1 hkept
      exact (ih child hchild hr).2

theorem IsFilled.exists_file (h : IsFilled r) (above : List (List (Points × Json))) :
    filesIn above r ≠ [] := by
  induction h generalizing above with
  | file htype => simp [filesIn_file htype]
  | folder htype hchildren hne _ ih =>
    obtain ⟨child, rest, rfl⟩ := List.exists_cons_of_ne_nil hne
    rw [filesIn_folder htype (congrArg (fun found => found.getD (Json.arr [])) hchildren),
      List.flatMap_cons]
    exact List.append_ne_nil_of_left_ne_nil (ih child List.mem_cons_self _) _

theorem kept?_eq_none_iff (h : IsTree j) :
    kept? j = none ↔ ∀ file ∈ filesIn [] j, ¬ isMetta file.2 := by
  have hfiles := files_kept? h []
  rw [← List.filter_eq_nil_iff, ← hfiles]
  cases hkept : kept? j with
  | none => simp
  | some r => simpa using (pruned_kept? h hkept).2.exists_file []

theorem IsFilled.keepMetta_eq_self (h : IsFilled r) (above : List (List (Points × Json)))
    (hmetta : ∀ file ∈ filesIn above r, isMetta file.2) : keepMetta (.ofJson r) = .ok (some r) := by
  induction h generalizing above with
  | @file members htype =>
    have hself : isMetta (.obj members) :=
      hmetta (above, .obj members) (by simp [filesIn_file htype])
    rw [keepMetta_file htype, if_pos hself]
  | @folder members children htype hchildren hne _ ih =>
    have hgetD := congrArg (fun found => found.getD (Json.arr [])) hchildren
    rw [filesIn_folder htype hgetD] at hmetta
    have hself : ∀ child ∈ children, keepMetta (.ofJson child) = .ok (some child) := by
      intro child hchild
      refine ih child hchild (above ++ [fields members]) fun file hfile => hmetta file ?_
      exact List.mem_flatMap.2 ⟨child, hchild, hfile⟩
    rw [keepMetta_folder htype hgetD hself, List.filterMap_some, if_neg hne,
      Json.put_eq_self hchildren]

theorem mettaOnly_eq (h : IsTree j) : mettaOnly j = .ok ((kept? j).getD .null) := by
  rw [mettaOnly, keepMetta_eq h]
  rfl

end

/-- The second tree has the MeTTa files of the first and no others, where they stand in the first,
and no folder without a child. -/
structure IsMettaPart (j r : Json) : Prop where
  files : filesIn [] r = (filesIn [] j).filter fun file => isMetta file.2
  pruned : Pruned j r
  filled : IsFilled r

/-- There is no MeTTa part of a tree without MeTTa files. Any other tree has one, and it is its own
MeTTa part. -/
theorem mettaOnly_keeps_files {j : Json} (h : IsTree j) :
    (mettaOnly j = .ok .null ↔ ∀ file ∈ filesIn [] j, ¬ isMetta file.2) ∧
    ((∃ file ∈ filesIn [] j, isMetta file.2) →
      ∃ r, mettaOnly j = .ok r ∧ IsMettaPart j r ∧ mettaOnly r = .ok r) := by
  rw [← kept?_eq_none_iff h, mettaOnly_eq h]
  cases hkept : kept? j with
  | none =>
    have hnone := (kept?_eq_none_iff h).1 hkept
    refine ⟨by simp, ?_⟩
    rintro ⟨file, hfile, hmetta⟩
    exact absurd hmetta (hnone file hfile)
  | some r =>
    obtain ⟨hpruned, hfilled⟩ := pruned_kept? h hkept
    have hfiles := files_kept? h []
    rw [hkept, Option.toList_some, List.flatMap_singleton] at hfiles
    have hmetta : ∀ file ∈ filesIn [] r, isMetta file.2 := by
      intro file hfile
      rw [hfiles] at hfile
      exact (List.mem_filter.1 hfile).2
    have hself : mettaOnly r = .ok r := by
      rw [mettaOnly, hfilled.keepMetta_eq_self [] hmetta]
      rfl
    refine ⟨?_, fun _ => ⟨r, rfl, ⟨hfiles, hpruned, hfilled⟩, hself⟩⟩
    cases hfilled <;> simp

def fileNode (name language : String) : Json :=
  .ofMembers [("type", .str "file"), ("name", .str name), ("language", .str language)]

def folderNode (name : String) (children : List Json) : Json :=
  .ofMembers [("type", .str "folder"), ("children", .arr children), ("name", .str name)]

def folderFields (name : String) : List (Points × Json) :=
  [(Points.ofString "type", .str "folder"), (Points.ofString "name", .str name)]

def mixedReport : Json :=
  folderNode "top" [fileNode "a" "python", folderNode "inner" [fileNode "b" "metta"],
    folderNode "bare" []]

theorem mixedReport_keeps_files :
    IsTree mixedReport ∧ ∃ r, mettaOnly mixedReport = .ok r ∧ IsMettaPart mixedReport r ∧
      mettaOnly r = .ok r ∧
      filesIn [] r = [([folderFields "top", folderFields "inner"], fileNode "b" "metta")] := by
  have hfile (name language : String) : IsTree (fileNode name language) := .file rfl
  have hfolder (name : String) (children : List Json) (h : ∀ child ∈ children, IsTree child) :
      IsTree (folderNode name children) := .folder rfl rfl h
  have htree : IsTree mixedReport := by
    refine hfolder _ _ fun child hchild => ?_
    simp only [List.mem_cons, List.not_mem_nil, or_false] at hchild
    rcases hchild with rfl | rfl | rfl
    · exact hfile _ _
    · exact hfolder _ _ (by simp [hfile])
    · exact hfolder _ _ (by simp)
  have hmetta : (filesIn [] mixedReport).any (fun file => isMetta file.2) = true := by
    decide +kernel
  obtain ⟨r, hr, hpart, hself⟩ := (mettaOnly_keeps_files htree).2 (List.any_eq_true.1 hmetta)
  refine ⟨htree, r, hr, hpart, hself, ?_⟩
  rw [hpart.files]
  rfl

end Report

end CodeAtlas
