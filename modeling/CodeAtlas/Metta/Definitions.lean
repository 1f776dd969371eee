import CodeAtlas.Json.Value
import CodeAtlas.Metta.Node
import CodeAtlas.Text.CodePoint

/-! What a MeTTa program defines: its functions, the forms it runs, its facts, and the variables and
spaces it speaks of. All of it is read off the nodes of the tree in preorder. -/

namespace CodeAtlas.Metta

structure Function where
  name : String
  firstLine : Int
  lastLine : Int
  parameters : List String
  deriving DecidableEq, Repr

structure Execution where
  line : Int
  expression : String
  deriving DecidableEq, Repr

structure Fact where
  line : Int
  pattern : String
  subject : String
  deriving DecidableEq, Repr

structure Definitions where
  functions : List Function
  executions : List Execution
  facts : List Fact
  expressionCount : Nat
  variableNames : List String
  spaces : List String
  deriving DecidableEq, Repr

namespace Node

def brief (node : Node) : String :=
  match node.children with
  | [] => if node.value = "" then "empty" else node.value
  | [head] => head.value
  | head :: arguments => s!"{head.value}({arguments.length} args)"

/-- The function of a definition that has a signature. Its parameters are the variables that stand
directly in the signature. -/
def function? (node : Node) : Option Function :=
  if node.kind = .definition then
    (node.children.find? fun child => child.kind = .signature).map fun signature =>
      { name := signature.value
        firstLine := node.line
        lastLine := node.lastLine
        parameters :=
          (signature.children.filter fun child => child.kind = .variable).map Node.value }
  else none

def execution? (node : Node) : Option Execution :=
  if node.kind = .execution then
    node.children.head?.map fun body => ⟨node.line, body.brief⟩
  else none

def fact? (node : Node) : Option Fact :=
  match node.kind, node.children with
  | .expression, [subject, _, _] =>
    if subject.kind = .atom then some ⟨node.line, node.brief, subject.value⟩ else none
  | _, _ => none

def isPlainExpression (node : Node) : Bool :=
  node.kind = .expression && node.fact?.isNone

def nodes (root : Node) : List Node := (root.preorder 0).map Prod.snd

def valuesOf (kind : NodeKind) (nodes : List Node) : List String :=
  (nodes.filter fun node => node.kind = kind).map Node.value

def definitions (root : Node) : Definitions :=
  let nodes := root.nodes
  { functions := nodes.filterMap function?
    executions := nodes.filterMap execution?
    facts := nodes.filterMap fact?
    expressionCount := nodes.countP isPlainExpression
    variableNames := Text.sortedUnique (valuesOf .variable nodes)
    spaces := Text.sortedUnique (valuesOf .space nodes) }

end Node

def Function.toJson (f : Function) : Json :=
  .obj [("name", .str f.name), ("Start_line", .int f.firstLine), ("end_line", .int f.lastLine),
    ("parameters_Name", .ofStrings f.parameters), ("param_count", .ofNat f.parameters.length)]

def Execution.toJson (e : Execution) : Json :=
  .obj [("line", .int e.line), ("expression", .str e.expression)]

def Fact.toJson (f : Fact) : Json :=
  .obj [("line", .int f.line), ("pattern", .str f.pattern), ("subject", .str f.subject)]

def Definitions.toJson (d : Definitions) : Json :=
  .obj [("functions", .arr (d.functions.map Function.toJson)),
    ("executions", .arr (d.executions.map Execution.toJson)),
    ("facts", .arr (d.facts.map Fact.toJson)),
    ("variables", .ofStrings d.variableNames),
    ("atomespaces", .ofStrings d.spaces),
    ("summary", .obj [("function_count", .ofNat d.functions.length),
      ("expression_count", .ofNat d.expressionCount),
      ("execution_count", .ofNat d.executions.length),
      ("fact_count", .ofNat d.facts.length),
      ("variable_count", .ofNat d.variableNames.length),
      ("atomespace_count", .ofNat d.spaces.length)])]

end CodeAtlas.Metta
