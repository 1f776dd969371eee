import CodeAtlas.Embedding.Walks
import CodeAtlas.Json.Value

/-! Models that give vectors to the nodes of a graph, and what they are trained with. -/

namespace CodeAtlas.Embedding

/-- A trained model. The vector may depend on how many were looked up before. -/
structure Model where
  knows : String → Bool
  vector : Nat → String → Json

def Model.embed (m : Model) (nodes : List String) : List (String × Json) :=
  ((nodes.filter m.knows).zipIdx 1).map fun (node, n) => (node, m.vector n node)

structure Options where
  dimensions : Int
  walkLength : Int
  walkCount : Int
  window : Int
  workers : Int
  path : String
  deriving DecidableEq, Repr

def Options.standard : Options := ⟨64, 10, 20, 5, 2, "graph2vec.model"⟩

def Options.parameters (o : Options) : List (String × Json) :=
  [("vector_size", .int o.dimensions), ("window", .int o.window), ("min_count", .int 0),
    ("sg", .int 1), ("workers", .int o.workers)]

def savedMessage (o : Options) : String := s!"✅ Embedding model saved: {o.path}"

structure Learned where
  walks : List (List String)
  parameters : List (String × Json)
  saved : String
  printed : List String
  vectors : List (String × Json)

def learn {σ : Type} (chance : Chance σ) (train : List (List String) → Options → Model)
    (g : Graph.Directed) (o : Options) (s : σ) : Learned :=
  let found := walks chance g o.walkLength o.walkCount s
  ⟨found, o.parameters, o.path, [savedMessage o], (train found o).embed g.nodes⟩

end CodeAtlas.Embedding
