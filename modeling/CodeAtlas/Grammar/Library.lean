import CodeAtlas.Grammar.Tree
import CodeAtlas.Json.Display
import CodeAtlas.Language

/-! The library of grammars, which is built once and loaded on demand. Loading goes through the
languages in a fixed order and stops at the first that fails; what was loaded before stays. -/

namespace CodeAtlas.Grammar

structure Library where
  path : String
  isBuilt : Bool
  failures : List (String × String)
  versions : List (String × Int)
  parse : Language → List UInt8 → Except String Tree

inductive LibraryError
  | notBuilt (path : String)
  | loadFailed (language : Language) (reason : String)
  | unknownLanguage (asked : Json)
  | notAName (kind : Json.Kind)
  deriving Repr

def LibraryError.message : LibraryError → String
  | .notBuilt path =>
    s!"Tree-sitter language library not found at: {path}\nPlease build it by running:\n" ++
      "  python -m galaxy_ast_docs.build_parsers\n"
  | .loadFailed language reason => s!"Failed to load language '{language.name}': {reason}"
  | .unknownLanguage asked => asked.shown
  | .notAName kind => s!"unhashable type: '{kind.name}'"

namespace Library

def loadEach (lib : Library) : List Language → List Language →
    Except LibraryError Unit × List Language
  | [], loaded => (.ok (), loaded)
  | language :: rest, loaded =>
    if loaded.contains language then lib.loadEach rest loaded
    else
      match lib.failures.lookup language.name with
      | some reason => (.error (.loadFailed language reason), loaded)
      | none => lib.loadEach rest (loaded ++ [language])

def load (lib : Library) (loaded : List Language) : Except LibraryError Unit × List Language :=
  if lib.isBuilt then lib.loadEach Language.withGrammar loaded
  else (.error (.notBuilt lib.path), loaded)

def need (lib : Library) (language : Language) (loaded : List Language) :
    Except LibraryError Unit × List Language :=
  if loaded.contains language then (.ok (), loaded) else lib.load loaded

/-- The version of a loaded language; grammars that do not say are of version 14. -/
def version (lib : Library) (language : Language) : Int :=
  (lib.versions.lookup language.name).getD 14

end Library

def named? (asked : Json) (loaded : List Language) : Option Language :=
  match asked with
  | .str name => loaded.find? fun language => Text.Points.ofString language.name = name
  | _ => none

def checkName (asked : Json) : Except LibraryError Unit :=
  if asked.isHashable then .ok () else .error (.notAName asked.kind)

namespace Library

/-- The parser that is asked for by name. MeTTa has one of its own, so there is none here. -/
def parser (lib : Library) (asked : Json) (loaded : List Language) :
    Except LibraryError (Option Language) × List Language :=
  if asked.isStr "metta" then (.ok none, loaded)
  else
    match checkName asked with
    | .error e => (.error e, loaded)
    | .ok () =>
      match named? asked loaded with
      | some language => (.ok (some language), loaded)
      | none =>
        match lib.load loaded with
        | (.error e, loaded) => (.error e, loaded)
        | (.ok (), loaded) =>
          match named? asked loaded with
          | some language => (.ok (some language), loaded)
          | none => (.error (.unknownLanguage asked), loaded)

def versionOf (lib : Library) (asked : Json) (loaded : List Language) :
    Except LibraryError Json × List Language :=
  if asked.isStr "metta" then (.ok (.str "custom-1.0"), loaded)
  else
    match lib.load loaded with
    | (.error e, loaded) => (.error e, loaded)
    | (.ok (), loaded) =>
      match checkName asked with
      | .error e => (.error e, loaded)
      | .ok () =>
        match named? asked loaded with
        | some language => (.ok (.int (lib.version language)), loaded)
        | none => (.ok .null, loaded)

end Library

end CodeAtlas.Grammar
