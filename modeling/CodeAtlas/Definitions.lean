import CodeAtlas.Grammar.Library
import CodeAtlas.Grammar.Outline
import CodeAtlas.Metta.Definitions
import CodeAtlas.Metta.Parser

/-! What a source file defines, whatever its language. -/

namespace CodeAtlas

inductive Definitions
  | program (definitions : Metta.Definitions)
  | outline (found : Grammar.Outline)
  deriving DecidableEq, Repr

def Definitions.toJson : Definitions → Json
  | .program definitions => definitions.toJson
  | .outline found => found.toJson

inductive SourceError
  | library (error : Grammar.LibraryError)
  | unparsed (reason : String)
  | outline (error : Grammar.OutlineError)
  deriving Repr

def SourceError.message : SourceError → String
  | .library error => error.message
  | .unparsed reason => reason
  | .outline error => error.message

def Definitions.ofTree (language : String) (code : List UInt8) (t : Grammar.Tree) :
    Except SourceError Definitions :=
  match Grammar.Outline.ofTree (Grammar.Rules.ofLanguage language) code t with
  | .ok o => .ok (.outline o)
  | .error e => .error (.outline e)

/-- The definitions of a source, and the languages that are loaded afterwards. MeTTa is read here;
all other languages need their grammar. -/
def Definitions.ofSource (lib : Grammar.Library) (language : Language) (code : List UInt8)
    (loaded : List Language) : Except SourceError Definitions × List Language :=
  if language = .metta then (.ok (.program (Metta.Node.ofBytes code).definitions), loaded)
  else
    match lib.need language loaded with
    | (.error e, loaded) => (.error (.library e), loaded)
    | (.ok (), loaded) =>
      match lib.parse language code with
      | .error reason => (.error (.unparsed reason), loaded)
      | .ok t => (Definitions.ofTree language.name code t, loaded)

end CodeAtlas
