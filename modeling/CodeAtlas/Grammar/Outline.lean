import CodeAtlas.Grammar.Tree
import CodeAtlas.Json.Value

/-! The outline of a source file: its classes with their functions, and the functions that stand in
no class. Which nodes count as classes, functions and variables is for the language to say. -/

namespace CodeAtlas.Grammar

structure Function where
  name : String
  line : Int
  variableNames : List String
  lineCount : Int
  deriving DecidableEq, Repr

structure Class where
  name : String
  line : Int
  functions : List Function
  deriving DecidableEq, Repr

structure Outline where
  classes : List Class
  functions : List Function
  deriving DecidableEq, Repr

inductive VariablePlace
  | nowhere
  | firstChild (kind : String)
  | nameField (kind : String)
  deriving DecidableEq, Repr

structure Rules where
  classKinds : List String
  functionKinds : List String
  variablePlace : VariablePlace
  /-- Whether a function can be told of once it has been found. -/
  describesFunctions : Bool

namespace Rules

def none : Rules := ⟨[], [], .nowhere, true⟩

def python : Rules :=
  ⟨["class_definition"], ["function_definition"], .firstChild "assignment", true⟩

def script : Rules :=
  ⟨["class_declaration", "class_definition"], ["function_declaration", "method_definition"],
    .nameField "variable_declarator", true⟩

def java : Rules :=
  ⟨["class_declaration"], ["method_declaration", "constructor_declaration"],
    .nameField "variable_declarator", false⟩

def ofLanguage (name : String) : Rules :=
  if name = "python" then python
  else if name = "javascript" || name = "typescript" then script
  else if name = "java" then java
  else none

end Rules

inductive OutlineError
  | functionRefused
  deriving DecidableEq, Repr

def OutlineError.message : OutlineError → String
  | .functionRefused => "name 'name_name' is not defined"

namespace Outline

def addClass (name : String) (line : Int) (found : Outline) : Outline :=
  { found with classes := found.classes ++ [⟨name, line, []⟩] }

/-- The owner of a function is a class that was found before, known by its place among them. -/
def addFunction (owner : Option Nat) (f : Function) (found : Outline) : Outline :=
  match owner with
  | some i =>
    { found with
      classes := found.classes.modify i fun c => { c with functions := c.functions ++ [f] } }
  | none => { found with functions := found.functions ++ [f] }

end Outline

namespace Tree

def variableText? (place : VariablePlace) (code : List UInt8) (t : Tree) : Option String :=
  match place with
  | .nowhere => none
  | .firstChild kind => if t.kind = kind then t.children.head?.map (text code) else none
  | .nameField kind => if t.kind = kind then t.name? code else none

mutual

def collectVariables (place : VariablePlace) (code : List UInt8) (found : List String) :
    Tree → List String
  | t@⟨_, _, _, _, _, children, _⟩ =>
    collectEach place code (found ++ (t.variableText? place code).toList) children

def collectEach (place : VariablePlace) (code : List UInt8) (found : List String) :
    List Tree → List String
  | [] => found
  | t :: ts => collectEach place code (collectVariables place code found t) ts

end

def nameAmong? (kinds : List String) (code : List UInt8) (t : Tree) : Option String :=
  if kinds.contains t.kind then t.name? code else none

def describe (rules : Rules) (code : List UInt8) (name : String) (t : Tree) : Function where
  name
  line := t.firstRow + 1
  variableNames := t.collectVariables rules.variablePlace code []
  lineCount := t.lastRow - t.firstRow + 1

/-- A class with a name owns what stands below it; below any other node the owner stays. -/
def enterClass (rules : Rules) (code : List UInt8) (owner : Option Nat) (found : Outline)
    (t : Tree) : Option Nat × Outline :=
  match t.nameAmong? rules.classKinds code with
  | some name => (some found.classes.length, found.addClass name (t.firstRow + 1))
  | none => (owner, found)

def noteFunction (rules : Rules) (code : List UInt8) (owner : Option Nat) (found : Outline)
    (t : Tree) : Except OutlineError Outline :=
  match t.nameAmong? rules.functionKinds code with
  | some name =>
    if rules.describesFunctions then .ok (found.addFunction owner (t.describe rules code name))
    else .error .functionRefused
  | none => .ok found

mutual

/-- Goes through a tree once, each node before its children, and stops at the first function that
cannot be told of. -/
def walk (rules : Rules) (code : List UInt8) (owner : Option Nat) (found : Outline) :
    Tree → Except OutlineError Outline
  | t@⟨_, _, _, _, _, children, _⟩ =>
    let entered := t.enterClass rules code owner found
    match t.noteFunction rules code entered.1 entered.2 with
    | .ok found => walkEach rules code entered.1 found children
    | .error e => .error e

def walkEach (rules : Rules) (code : List UInt8) (owner : Option Nat) (found : Outline) :
    List Tree → Except OutlineError Outline
  | [] => .ok found
  | t :: ts =>
    match walk rules code owner found t with
    | .ok found => walkEach rules code owner found ts
    | .error e => .error e

end

end Tree

def Outline.ofTree (rules : Rules) (code : List UInt8) (t : Tree) : Except OutlineError Outline :=
  t.walk rules code .none ⟨[], []⟩

def Function.toJson (f : Function) : Json :=
  .obj [("name", .str f.name), ("line", .int f.line), ("variables", .ofStrings f.variableNames),
    ("num_lines", .int f.lineCount)]

def Class.toJson (c : Class) : Json :=
  .obj [("type", .str "class"), ("name", .str c.name), ("line", .int c.line),
    ("functions", .arr (c.functions.map Function.toJson))]

def Outline.toJson (o : Outline) : Json :=
  .obj [("classes", .arr (o.classes.map Class.toJson)),
    ("functions", .arr (o.functions.map Function.toJson))]

end CodeAtlas.Grammar
