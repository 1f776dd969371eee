import CodeAtlas.Path
import CodeAtlas.Text.CodePoint

/-! Languages and the files they are kept in. -/

namespace CodeAtlas

inductive Language
  | python
  | javascript
  | java
  | metta
  deriving DecidableEq, Repr

namespace Language

def all : List Language := [python, javascript, java, metta]

def name : Language → String
  | python => "python"
  | javascript => "javascript"
  | java => "java"
  | metta => "metta"

def withGrammar : List Language := [python, javascript, java]

def byExtension : List (String × Language) :=
  [(".py", python), (".js", javascript), (".java", java), (".metta", metta), (".mta", metta)]

/-- The language of a file. Extensions are compared without regard to case; all of them are ASCII,
and no other character has an ASCII letter of theirs as its small form. -/
def ofPath? (path : String) : Option Language := byExtension.lookup (Path.extension path).toLower

def sortedNames : List String := Text.sortedUnique (all.map name)

end Language

end CodeAtlas
