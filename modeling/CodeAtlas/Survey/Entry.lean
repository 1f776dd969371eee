import CodeAtlas.Definitions

/-! What a survey says of files and folders. -/

namespace CodeAtlas

inductive Finding
  | unknown
  | read (language : Language) (definitions : Definitions)
  | failed (message : String)
  deriving Repr

inductive Entry
  | file (name path : String) (finding : Finding)
  | folder (name path : String) (children : List Entry)
  deriving Repr

def Language.parserName (language : Language) : String :=
  if language = .metta then "custom_metta" else "tree_sitter"

def Finding.members : Finding → List (String × Json)
  | unknown => []
  | read language definitions =>
    [("language", .str language.name), ("definitions", definitions.toJson),
      ("parser_type", .str language.parserName)]
  | failed message => [("parse_error", .str message)]

mutual

def Entry.toJson : Entry → Json
  | .file name path finding =>
    .ofMembers
      ([("name", .str name), ("path", .str path), ("type", .str "file")] ++ finding.members)
  | .folder name path children =>
    .obj [("name", .str name), ("path", .str path), ("type", .str "folder"),
      ("children", .arr (Entry.toJsonAll children))]

def Entry.toJsonAll : List Entry → List Json
  | [] => []
  | e :: es => e.toJson :: Entry.toJsonAll es

end

end CodeAtlas
