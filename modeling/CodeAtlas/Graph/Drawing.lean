import CodeAtlas.Json.Access

/-! Drawing a graph. A drawing is what has been added to the graph so far, in order, and the fault
that ended it, if one did. -/

namespace CodeAtlas.Graph

open Json (Fault)

inductive Edit
  | node (id : Json) (attributes : List (String × Json))
  | edge (source target : Json) (relation : String)
  deriving Repr

structure Drawing where
  edits : List Edit
  fault : Option Fault
  deriving Repr

namespace Drawing

def empty : Drawing := ⟨[], none⟩

def ofEdits (edits : List Edit) : Drawing := ⟨edits, none⟩

def append (a b : Drawing) : Drawing :=
  match a.fault with
  | some fault => ⟨a.edits, some fault⟩
  | none => ⟨a.edits ++ b.edits, b.fault⟩

instance : Append Drawing := ⟨append⟩

def node (id : Json) (attributes : List (String × Json)) : Drawing :=
  ⟨[.node id attributes], if id.isHashable then none else some (.notHashable id.kind)⟩

/-- The edge from what holds a node. An id that counts as absent holds nothing. -/
def contained (parent id : Json) : Drawing :=
  ofEdits (if parent.isPresent then [.edge parent id "contains"] else [])

def after {α : Type} (value : Except Fault α) (draw : α → Drawing) : Drawing :=
  match value with
  | .ok a => draw a
  | .error fault => ⟨[], some fault⟩

def each {α : Type} (draw : α → Drawing) : List α → Drawing
  | [] => empty
  | a :: as => draw a ++ each draw as

def eachAt (j : Json) (key : String) (draw : Json → Drawing) : Drawing :=
  after (j.getD key (.arr [])) fun value => after value.parts (each draw)

end Drawing

/-- The ids of a drawing's nodes that are strings, each once, in the order in which they first
came. -/
def nodeIds (edits : List Edit) : List String :=
  (edits.filterMap fun
    | .node (.str id) _ => id.toString?
    | _ => none).eraseDups

end CodeAtlas.Graph
