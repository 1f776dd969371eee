/-! Trees of MeTTa programs. A node covers the lines from `line` to `lastLine`; its rows are the
same lines counted from zero, kept apart because a signature moves its last line only. -/

namespace CodeAtlas.Metta

inductive NodeKind
  | program
  | comment
  | execution
  | emptyExpression
  | definition
  | signature
  | expression
  | variable
  | space
  | string
  | number
  | operator
  | atom
  | unknown
  | other (name : String)
  deriving DecidableEq, Inhabited, Repr

def NodeKind.named : List (String × NodeKind) :=
  [("program", .program), ("comment", .comment), ("execution", .execution),
    ("empty_expression", .emptyExpression), ("function_definition", .definition),
    ("function_signature", .signature), ("expression", .expression), ("variable", .variable),
    ("atomespace", .space), ("string", .string), ("number", .number), ("operator", .operator),
    ("atom", .atom), ("unknown", .unknown)]

def NodeKind.name : NodeKind → String
  | .other name => name
  | kind => ((named.find? fun entry => entry.2 = kind).map Prod.fst).getD ""

def NodeKind.ofName (name : String) : NodeKind := (named.lookup name).getD (.other name)

structure Node where
  kind : NodeKind
  value : String
  line : Int
  lastLine : Int
  firstRow : Int
  lastRow : Int
  children : List Node
  deriving Inhabited, Repr

namespace Node

def span (kind : NodeKind) (value : String) (line lastLine : Int) : Node :=
  ⟨kind, value, line, lastLine, line - 1, lastLine - 1, []⟩

def leaf (kind : NodeKind) (value : String) (line : Int) : Node := span kind value line line

/-- A node without children whose last line may be left open. A last line of zero counts as left
open, and then the node covers its first line only. -/
def make (kind : NodeKind) (value : String) (line : Int) (lastLine : Option Int) : Node :=
  match lastLine with
  | some n => if n = 0 then leaf kind value line else span kind value line n
  | none => leaf kind value line

def addChild (node child : Node) : Node :=
  let children := node.children ++ [child]
  if child.lastLine > node.lastLine then
    { node with children, lastLine := child.lastLine, lastRow := child.lastLine - 1 }
  else { node with children }

def addChildren (node : Node) (children : List Node) : Node := children.foldl addChild node

def startPoint (node : Node) : Int × Int := (node.firstRow, 0)

def endPoint (node : Node) : Int × Int := (node.lastRow, 0)

def describe (node : Node) : String :=
  s!"MeTTaNode({node.kind.name}, '{node.value}', {node.line}-{node.lastLine})"

mutual

def preorder (depth : Nat) : Node → List (Nat × Node)
  | node@⟨_, _, _, _, _, _, children⟩ => (depth, node) :: preorderAll (depth + 1) children

def preorderAll (depth : Nat) : List Node → List (Nat × Node)
  | [] => []
  | node :: nodes => preorder depth node ++ preorderAll depth nodes

end

end Node

end CodeAtlas.Metta
