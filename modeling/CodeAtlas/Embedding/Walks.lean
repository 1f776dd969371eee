/-! Directed graphs, and random walks over them. Chance is a parameter: it shuffles lists and
chooses among things, and has a state of its own. -/

namespace CodeAtlas.Graph

structure Directed where
  nodes : List String
  edges : List (String × String)
  deriving Repr

namespace Directed

def empty : Directed := ⟨[], []⟩

def addNode (g : Directed) (node : String) : Directed :=
  if g.nodes.contains node then g else { g with nodes := g.nodes ++ [node] }

def addEdge (g : Directed) (source target : String) : Directed :=
  let g := (g.addNode source).addNode target
  if g.edges.contains (source, target) then g
  else { g with edges := g.edges ++ [(source, target)] }

def successors (g : Directed) (node : String) : List String :=
  (g.edges.filter fun edge => edge.1 = node).map Prod.snd

end Directed

end CodeAtlas.Graph

namespace CodeAtlas.Embedding

structure Chance (σ : Type) where
  shuffle : σ → List String → List String × σ
  choose : σ → String → List String → String × σ

variable {σ : Type}

/-- The steps of a walk after its start: as many as asked for, or fewer if there is no way on. -/
def stroll (chance : Chance σ) (g : Graph.Directed) : Nat → String → σ → List String × σ
  | 0, _, s => ([], s)
  | n + 1, node, s =>
    match g.successors node with
    | [] => ([], s)
    | first :: others =>
      let (next, s) := chance.choose s first others
      let (rest, s) := stroll chance g n next s
      (next :: rest, s)

def walkEach (chance : Chance σ) (g : Graph.Directed) (steps : Nat) :
    List String → σ → List (List String) × σ
  | [], s => ([], s)
  | node :: nodes, s =>
    let (rest, s) := stroll chance g steps node s
    let (walks, s) := walkEach chance g steps nodes s
    ((node :: rest) :: walks, s)

/-- Rounds of walks. Each round starts with the order that the round before left. -/
def rounds (chance : Chance σ) (g : Graph.Directed) (steps : Nat) :
    Nat → List String → σ → List (List String) × σ
  | 0, _, s => ([], s)
  | n + 1, nodes, s =>
    let (nodes, s) := chance.shuffle s nodes
    let (walks, s) := walkEach chance g steps nodes s
    let (later, s) := rounds chance g steps n nodes s
    (walks ++ later, s)

def walks (chance : Chance σ) (g : Graph.Directed) (length count : Int) (s : σ) :
    List (List String) :=
  (rounds chance g (length - 1).toNat count.toNat g.nodes s).1

end CodeAtlas.Embedding
