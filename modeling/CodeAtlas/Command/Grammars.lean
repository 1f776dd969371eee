import CodeAtlas.Disk.Basic
import CodeAtlas.Language

/-! The command that builds the grammar library from the grammars' sources. -/

namespace CodeAtlas.Command.Grammars

structure Toolkit where
  isInstalled : Bool
  canBuild : Bool
  failure : Option String

structure Outcome where
  disk : Disk
  printed : List String
  build : Option (String × List String)
  succeeded : Bool

def buildFolder (base : String) : String := base ++ "/build"

def libraryPath (base : String) : String := buildFolder base ++ "/my-languages.so"

def sourceFolder (base : String) (language : Language) : String :=
  base ++ "/parsers/tree-sitter-" ++ language.name

def heading : String := "=== Building Tree-sitter languages ==="

def notInstalled : List String :=
  ["ERROR: tree_sitter module not installed",
    "Please run: pip install tree_sitter==0.22.1 #you can change version"]

def cannotBuild : List String :=
  ["ERROR: Language.build_library method missing!",
    "This usually means an incompatible tree-sitter version is installed",
    "Try reinstalling with: pip install --force-reinstall tree_sitter"]

def missingSources (base : String) (languages : List Language) : List String :=
  ["\nERROR: Missing parser directories:"]
    ++ languages.map (fun l => "  - " ++ l.name ++ ": " ++ sourceFolder base l)
    ++ ["\nPlease clone the repositories with:", "cd galaxy_ast_docs/parsers"]
    ++ languages.map fun l => "git clone https://github.com/tree-sitter/tree-sitter-" ++ l.name

def buildFailed (reason : String) : List String :=
  [s!"\n❌ Build failed: {reason}", "\nTroubleshooting steps:",
    "1. Ensure you have build tools installed:",
    "   Ubuntu: sudo apt install build-essential python3-dev",
    "   macOS: xcode-select --install",
    "2. Try clean reinstall: pip install --force-reinstall tree_sitter",
    "3. Check parser repos are complete"]

/-- Builds the library below `base`. All grammars have to be there. -/
def run (base : String) (tools : Toolkit) (d : Disk) : Except FileError Outcome := do
  if !tools.isInstalled then return ⟨d, heading :: notInstalled, none, false⟩
  if !tools.canBuild then return ⟨d, heading :: cannotBuild, none, false⟩
  let d ← d.needFolder (buildFolder base)
  let missing := Language.withGrammar.filter fun l => !d.contains (sourceFolder base l)
  if !missing.isEmpty then return ⟨d, heading :: missingSources base missing, none, false⟩
  let path := libraryPath base
  let build := some (path, Language.withGrammar.map (sourceFolder base))
  let started := [heading, s!"Building library: {path}"]
  match tools.failure with
  | some reason => return ⟨d, started ++ buildFailed reason, build, false⟩
  | none => return ⟨d, started ++ [s!"✅ Build complete: {path}"], build, true⟩

end CodeAtlas.Command.Grammars
