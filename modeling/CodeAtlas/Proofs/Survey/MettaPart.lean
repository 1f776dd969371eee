import CodeAtlas.Proofs.Survey.Summary
import CodeAtlas.Report.Filter

/-! The MeTTa part of a survey. It has just the MeTTa files, in their order and in the folders that
they stand in, so all that the summary counts in it are MeTTa files. If there are none, there is no
MeTTa part either, and nothing that could be summed up. -/

namespace CodeAtlas

namespace Entry

mutual

def mettaPart : Entry → Option Entry
  | file name path finding =>
    if (file name path finding).isMetta then some (file name path finding) else none
  | folder name path children =>
    if mettaParts children = [] then none else some (folder name path (mettaParts children))

def mettaParts : List Entry → List Entry
  | [] => []
  | e :: es => e.mettaPart.toList ++ mettaParts es

end

theorem filesEach_append (a b : List Entry) : filesEach (a ++ b) = filesEach a ++ filesEach b := by
  induction a with
  | nil => rfl
  | cons e a ih => rw [List.cons_append, filesEach, filesEach, ih, List.append_assoc]

mutual

theorem files_mettaPart (e : Entry) :
    filesEach e.mettaPart.toList = e.files.filter Entry.isMetta := by
  match e with
  | .file name path finding =>
    rw [mettaPart, files, List.filter_cons]
    split <;> rfl
  | .folder name path children =>
    rw [mettaPart, files, ← files_mettaParts children]
    split
    · next hnone => rw [hnone]; rfl
    · rw [Option.toList_some, filesEach, filesEach, files, List.append_nil]

theorem files_mettaParts (es : List Entry) :
    filesEach (mettaParts es) = (filesEach es).filter Entry.isMetta := by
  match es with
  | [] => rfl
  | e :: es =>
    rw [mettaParts, filesEach_append, filesEach, List.filter_append, files_mettaPart e,
      files_mettaParts es]

end

mutual

theorem mettaPart_eq_none_iff (e : Entry) :
    e.mettaPart = none ↔ e.files.filter Entry.isMetta = [] := by
  match e with
  | .file name path finding =>
    rw [mettaPart, files, List.filter_cons]
    split <;> simp
  | .folder name path children =>
    rw [mettaPart, files, ← mettaParts_eq_nil_iff children]
    split <;> simp_all

theorem mettaParts_eq_nil_iff (es : List Entry) :
    mettaParts es = [] ↔ (filesEach es).filter Entry.isMetta = [] := by
  match es with
  | [] => rfl
  | e :: es =>
    rw [mettaParts, filesEach, List.filter_append, List.append_eq_nil_iff, List.append_eq_nil_iff,
      Option.toList_eq_nil_iff, mettaPart_eq_none_iff e, mettaParts_eq_nil_iff es]

end

theorem not_has_error_of_isMetta {e : Entry} (h : e.isMetta) : e.has "parse_error" = false := by
  cases e with
  | file name path finding =>
    cases finding with
    | read language definitions =>
      rw [has_file]
      simp [Finding.members]
    | unknown => cases h
    | failed message => cases h
  | folder name path children => cases h

end Entry

namespace Report

theorem tally_filter (files : List Entry) :
    tally (files.filter Entry.isMetta) =
      ⟨files.countP Entry.isMetta, files.countP Entry.isMetta, 0, 0⟩ := by
  have hmetta : ∀ e ∈ files.filter Entry.isMetta, e.isMetta := fun e he => (List.mem_filter.1 he).2
  have hcount : (files.filter Entry.isMetta).countP Entry.isMetta =
      (files.filter Entry.isMetta).length := List.countP_eq_length.2 hmetta
  have hother : (files.filter Entry.isMetta).countP (fun e => !e.isMetta) = 0 := by
    refine List.countP_eq_zero.2 fun e he => ?_
    simp [hmetta e he]
  have herror : (files.filter Entry.isMetta).countP (fun e => e.has "parse_error") = 0 := by
    refine List.countP_eq_zero.2 fun e he => ?_
    simp [Entry.not_has_error_of_isMetta (hmetta e he)]
  rw [tally, hcount, hother, herror, List.countP_eq_length_filter]

theorem put_children {name path : String} {children : List Entry}
    {members : List (Text.Points × Json)}
    (h : Entry.toJson (.folder name path children) = .obj members) (kept : List Entry) :
    Json.obj (Json.put (Text.Points.ofString "children") (.arr (Entry.toJsonAll kept)) members) =
      Entry.toJson (.folder name path kept) := by
  -- The children are replaced in their place, behind all other members.
  rw [Entry.toJson] at h ⊢
  obtain rfl := Json.obj.inj h
  simp [Json.put, Text.Points.ofString_inj]

mutual

theorem keepMetta_entry (e : Entry) :
    keepMetta (.ofJson e.toJson) = .ok (e.mettaPart.map Entry.toJson) := by
  match e with
  | .file name path finding =>
    obtain ⟨members, hjson, htype, hmetta, -⟩ := counted_members name path finding
    have hfile : (Json.str "file").isStr "file" = true := by decide
    rw [Entry.mettaPart, ← hmetta, hjson, Node.ofJson]
    simp only [keepMetta, Json.require, htype, bind, Except.bind, hfile, if_true, pure, Except.pure]
    split
    · rw [Option.map_some, hjson]
    · rfl
  | .folder name path children =>
    obtain ⟨members, hjson, -, -, htype, hchildren⟩ := Readme.folder_members name path children
    obtain ⟨hnode, hcheck⟩ := Node.ofJson_of_children (congrArg (·.getD (.arr [])) hchildren)
    have hfolder : (Json.str "folder").isStr "file" = false ∧
        (Json.str "folder").isStr "folder" = true := by decide
    rw [hjson, hnode]
    simp only [keepMetta, Json.require, htype, bind, Except.bind, hfolder, hcheck,
      keepMetta_entries children, List.isEmpty_map, List.isEmpty_iff, Bool.false_eq_true, if_false,
      if_true]
    rw [Entry.mettaPart]
    split
    · rfl
    · rw [Option.map_some, ← put_children hjson, Readme.toJsonAll_eq_map]
      rfl

theorem keepMetta_entries (es : List Entry) :
    keepMettaAll (Node.ofJsonAll (Entry.toJsonAll es)) =
      .ok ((Entry.mettaParts es).map Entry.toJson) := by
  match es with
  | [] => rfl
  | e :: es =>
    rw [Entry.toJsonAll, Node.ofJsonAll, keepMettaAll, keepMetta_entry e, keepMetta_entries es,
      Entry.mettaParts, List.map_append]
    cases e.mettaPart <;> rfl

end

theorem mettaOnly_entry (e : Entry) :
    mettaOnly e.toJson = .ok (e.mettaPart.elim .null Entry.toJson) := by
  rw [mettaOnly, keepMetta_entry]
  cases e.mettaPart <;> rfl

theorem count_mettaOnly (e : Entry) :
    (mettaOnly e.toJson).bind count =
      if e.files.countP Entry.isMetta = 0 then .error (.notSubscriptable .null)
      else .ok ⟨e.files.countP Entry.isMetta, e.files.countP Entry.isMetta, 0, 0⟩ := by
  have hnone : e.mettaPart = none ↔ e.files.countP Entry.isMetta = 0 := by
    rw [e.mettaPart_eq_none_iff, List.countP_eq_length_filter, List.length_eq_zero_iff]
  have hfiles := e.files_mettaPart
  rw [mettaOnly_entry]
  cases hpart : e.mettaPart with
  | none =>
    rw [if_pos (hnone.1 hpart)]
    rfl
  | some kept =>
    have hsome : e.files.countP Entry.isMetta ≠ 0 := fun heq => by
      rw [hnone.2 heq] at hpart
      cases hpart
    rw [hpart, Option.toList_some, Entry.filesEach, Entry.filesEach, List.append_nil] at hfiles
    rw [if_neg hsome, ← tally_filter, ← hfiles]
    exact count_entry kept

end Report

end CodeAtlas
