import CodeAtlas.Command.Readme
import CodeAtlas.Graph.Publish
import CodeAtlas.Proofs.Disk.Writing
import CodeAtlas.Proofs.Json.Reading
import CodeAtlas.Proofs.Text.Utf8
import CodeAtlas.Report.Save
import CodeAtlas.Survey.Entry

/-! A saved report is read as it was. What a survey finds is always such a report: its texts come
from characters, and its objects have fixed keys. -/

namespace CodeAtlas

open Json (isPlain isShort isPlain_str isPlain_ofStrings isPlain_arr isPlain_arr_map isPlain_obj)

namespace Metta

theorem Function.isPlain_toJson (f : Function) : f.toJson.everywhere isPlain := by
  refine isPlain_obj ["name", "Start_line", "end_line", "parameters_Name", "param_count"] rfl
    (by decide) ?_
  simp only [List.forall_mem_cons]
  exact ⟨isPlain_str _, rfl, rfl, isPlain_ofStrings _, rfl, nofun⟩

theorem Execution.isPlain_toJson (e : Execution) : e.toJson.everywhere isPlain := by
  refine isPlain_obj ["line", "expression"] rfl (by decide) ?_
  simp only [List.forall_mem_cons]
  exact ⟨rfl, isPlain_str _, nofun⟩

theorem Fact.isPlain_toJson (f : Fact) : f.toJson.everywhere isPlain := by
  refine isPlain_obj ["line", "pattern", "subject"] rfl (by decide) ?_
  simp only [List.forall_mem_cons]
  exact ⟨rfl, isPlain_str _, isPlain_str _, nofun⟩

theorem Definitions.isPlain_toJson (d : Definitions) : d.toJson.everywhere isPlain := by
  refine isPlain_obj ["functions", "executions", "facts", "variables", "atomespaces", "summary"] rfl
    (by decide) ?_
  simp only [List.forall_mem_cons]
  refine ⟨isPlain_arr_map Function.isPlain_toJson _, isPlain_arr_map Execution.isPlain_toJson _,
    isPlain_arr_map Fact.isPlain_toJson _, isPlain_ofStrings _, isPlain_ofStrings _, ?_, nofun⟩
  refine isPlain_obj ["function_count", "expression_count", "execution_count", "fact_count",
    "variable_count", "atomespace_count"] rfl (by decide) ?_
  simp only [List.forall_mem_cons]
  exact ⟨rfl, rfl, rfl, rfl, rfl, rfl, nofun⟩

end Metta

namespace Grammar

theorem Function.isPlain_toJson (f : Function) : f.toJson.everywhere isPlain := by
  refine isPlain_obj ["name", "line", "variables", "num_lines"] rfl (by decide) ?_
  simp only [List.forall_mem_cons]
  exact ⟨isPlain_str _, rfl, isPlain_ofStrings _, rfl, nofun⟩

theorem Class.isPlain_toJson (c : Class) : c.toJson.everywhere isPlain := by
  refine isPlain_obj ["type", "name", "line", "functions"] rfl (by decide) ?_
  simp only [List.forall_mem_cons]
  exact ⟨isPlain_str _, isPlain_str _, rfl, isPlain_arr_map Function.isPlain_toJson _, nofun⟩

theorem Outline.isPlain_toJson (o : Outline) : o.toJson.everywhere isPlain := by
  refine isPlain_obj ["classes", "functions"] rfl (by decide) ?_
  simp only [List.forall_mem_cons]
  exact ⟨isPlain_arr_map Class.isPlain_toJson _, isPlain_arr_map Function.isPlain_toJson _, nofun⟩

end Grammar

theorem Definitions.isPlain_toJson (d : Definitions) : d.toJson.everywhere isPlain := by
  cases d with
  | program definitions => exact definitions.isPlain_toJson
  | outline found => exact found.isPlain_toJson

theorem Finding.isPlain_members (finding : Finding) :
    ∀ member ∈ finding.members, member.2.everywhere isPlain := by
  cases finding with
  | unknown => nofun
  | read language definitions =>
    simp only [members, List.forall_mem_cons]
    exact ⟨isPlain_str _, definitions.isPlain_toJson, isPlain_str _, nofun⟩
  | failed message =>
    simp only [members, List.forall_mem_cons]
    exact ⟨isPlain_str _, nofun⟩

namespace Entry

theorem nodup_keys (finding : Finding) :
    (["name", "path", "type"] ++ finding.members.map Prod.fst).Nodup := by
  cases finding with
  | unknown => decide
  | read language definitions =>
    exact (by decide :
      ["name", "path", "type", "language", "definitions", "parser_type"].Nodup)
  | failed message => exact (by decide : ["name", "path", "type", "parse_error"].Nodup)

theorem isPlain_file (name path : String) (finding : Finding) :
    (file name path finding).toJson.everywhere isPlain := by
  refine isPlain_obj (["name", "path", "type"] ++ finding.members.map Prod.fst) ?_
    (nodup_keys finding) ?_
  · simp [Function.comp_def]
  · rw [List.forall_mem_map, List.forall_mem_append]
    refine ⟨?_, finding.isPlain_members⟩
    simp only [List.forall_mem_cons]
    exact ⟨isPlain_str _, isPlain_str _, isPlain_str _, nofun⟩

mutual

theorem isPlain_toJson (e : Entry) : e.toJson.everywhere isPlain := by
  match e with
  | file name path finding => exact isPlain_file name path finding
  | folder name path children =>
    rw [toJson]
    refine isPlain_obj ["name", "path", "type", "children"] rfl (by decide) ?_
    simp only [List.forall_mem_cons]
    exact ⟨isPlain_str _, isPlain_str _, isPlain_str _, isPlain_arr (isPlain_toJsonAll children),
      nofun⟩

theorem isPlain_toJsonAll (es : List Entry) : ∀ j ∈ toJsonAll es, j.everywhere isPlain := by
  match es with
  | [] => exact fun _ hmem => absurd hmem List.not_mem_nil
  | e :: es => exact List.forall_mem_cons.2 ⟨isPlain_toJson e, isPlain_toJsonAll es⟩

end

end Entry

namespace Report

section
variable {report : Json} {path : String} {d saved : Disk}

theorem firstUnencodable?_eq_none {pieces : List Text.Points}
    (h : ∀ piece ∈ pieces, Json.isText piece) : firstUnencodable? pieces = none := by
  induction pieces with
  | nil => rfl
  | cons piece pieces ih =>
    obtain ⟨hpiece, hpieces⟩ := List.forall_mem_cons.1 h
    rw [firstUnencodable?, Text.Utf8.unencodableFrom?_eq_none (Json.isText_iff.1 hpiece)]
    dsimp only
    rw [ih hpieces]
    rfl

theorem save_eq_ok_iff (hplain : report.everywhere isPlain) :
    save report path d = .ok saved ↔ ∃ ready, prepare path d = .ok ready ∧
      ready.writeText path (savedText report) = .ok saved := by
  have hpieces : firstUnencodable? (report.pieces 0) = none :=
    firstUnencodable?_eq_none fun piece => Json.isText_of_mem_pieces hplain
  rw [save, hpieces]
  cases hprepare : prepare path d with
  | error e => simp [bind, Except.bind]
  | ok ready =>
    cases hwrite : ready.writeText path (savedText report) with
    | error e => simp [bind, Except.bind, Disk.attempt, hwrite]
    | ok d' => simp [bind, Except.bind, Disk.attempt, hwrite]

theorem load_of_writeText {ready : Disk} (hplain : report.everywhere isPlain)
    (hshort : report.everywhere isShort)
    (h : ready.writeText path (savedText report) = .ok saved) : load saved path = .ok report := by
  have hreturn : '\r' ∉ (savedText report).toList := by
    rw [savedText, Json.toText, String.toList_ofList]
    exact Json.carriageReturn_not_mem_write rfl report hplain 0
  have htext : Json.ofText (savedText report) = .ok report := Json.ofText_toText rfl hplain hshort
  rw [load, Disk.read_of_write h]
  dsimp only
  rw [Text.Utf8.readText_encode hreturn]
  dsimp only
  rw [htext]

def CanWrite (path : String) (d : Disk) : Prop :=
  ∃ ready place, prepare path d = .ok ready ∧ ready.placeToWrite path = .ok place

theorem exists_save_iff (hplain : report.everywhere isPlain) :
    (∃ saved, save report path d = .ok saved) ↔ CanWrite path d := by
  simp only [save_eq_ok_iff hplain]
  constructor
  · rintro ⟨saved, ready, hprepare, hwrite⟩
    obtain ⟨place, hplace⟩ := Disk.exists_write_iff.1 ⟨saved, hwrite⟩
    exact ⟨ready, place, hprepare, hplace⟩
  · rintro ⟨ready, place, hprepare, hplace⟩
    obtain ⟨saved, hwrite⟩ := Disk.exists_write_iff.2 ⟨place, hplace⟩
    exact ⟨saved, ready, hprepare, hwrite⟩

end

/-- A report of any depth can be saved wherever a file can be written, and everyone who reads the
file afterwards sees that report. What a survey finds is such a report. -/
theorem readers_see_saved_report :
    (∀ entry : Entry, entry.toJson.everywhere isPlain) ∧
      ∀ report : Json, report.everywhere isPlain → report.everywhere isShort →
        ∀ (path : String) (d : Disk),
          ((∃ saved, save report path d = .ok saved) ↔ CanWrite path d) ∧
            ∀ saved, save report path d = .ok saved →
              load saved path = .ok report ∧
                (∀ output turtlePath hasTurtleWriter,
                  Graph.publish saved path output turtlePath hasTurtleWriter =
                    Graph.publishReport saved report output turtlePath hasTurtleWriter) ∧
                Command.Readme.promptFor saved (some path) = Command.Readme.promptOf report := by
  refine ⟨Entry.isPlain_toJson, fun report hplain hshort path d => ⟨exists_save_iff hplain, ?_⟩⟩
  intro saved hsave
  obtain ⟨ready, -, hwrite⟩ := (save_eq_ok_iff hplain).1 hsave
  have hload : load saved path = .ok report := load_of_writeText hplain hshort hwrite
  refine ⟨hload, ?_, ?_⟩
  · intro output turtlePath hasTurtleWriter
    rw [Graph.publish, hload]
  · rw [Command.Readme.promptFor, hload]

def knottyReport : Json :=
  .obj [("", .arr []), ("\"\\\r\n\x01é😀", .obj []),
    ("n", .arr [.null, .bool true, .int (-10), .str "a\tb\x7f\x00",
      .obj [("x", .arr [.arr [.int 0]])]])]

def linkedDisk : Disk :=
  ⟨.folder [("r", .link "k/o"), ("k", .folder [("o", .file [])])], []⟩

open Disk in
theorem canWrite_linkedDisk : CanWrite "r" linkedDisk := by
  have hcheck : checkPath "r" = .ok () := rfl
  have hslash : Path.endsInSlash "r" = false := by decide +kernel
  have hnames : names "r" = ["r"] := by decide +kernel
  have hsteps : steps "r" = ["r"] ∧ steps "k/o" = ["k", "o"] := by decide +kernel
  have hfolder : follow linkedDisk.root maxLinks (linkedDisk.start "r") ["."] = .ok [] :=
    follow_dots _ _ _ fun step => List.mem_singleton.1
  have hlink : lookUp linkedDisk.root [] "r" = .ok (some (.link "k/o")) := rfl
  have hfile : linkedDisk.root.get? ["k", "o"] = some (.file []) := rfl
  have hleads : Leads linkedDisk.root ["k", "o"] maxLinks (linkedDisk.start "r") ["r"] := by
    refine .link ⟨by decide, by decide⟩ hlink ?_
    rw [hsteps.2]
    exact .folder ⟨by decide, by decide⟩ rfl (.file ⟨by decide, by decide⟩ rfl rfl)
  refine ⟨linkedDisk, ["k", "o"], ?_, ?_⟩
  · rw [prepare]
    exact if_pos (by decide +kernel)
  · simp [placeToWrite, locateEnd, locate, hcheck, hslash, hnames, hsteps.1, hfolder, hlink, hfile,
      hleads.follow_eq, FileTree.isFolder, bind, Except.bind, pure, Except.pure]

theorem knottyReport_is_seen :
    knottyReport.everywhere isPlain ∧ knottyReport.everywhere isShort ∧
      ∃ saved, save knottyReport "r" linkedDisk = .ok saved ∧
        load saved "r" = .ok knottyReport := by
  have hplain : knottyReport.everywhere isPlain := by decide +kernel
  have hshort : knottyReport.everywhere isShort := by decide +kernel
  obtain ⟨hsaves, hsees⟩ := readers_see_saved_report.2 knottyReport hplain hshort "r" linkedDisk
  obtain ⟨saved, hsave⟩ := hsaves.2 canWrite_linkedDisk
  exact ⟨hplain, hshort, saved, hsave, (hsees saved hsave).1⟩

end Report

end CodeAtlas
