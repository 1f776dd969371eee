import CodeAtlas.Proofs.Metta.Nodes

/-! Trees whose lines and rows are changed all in the same way. Nothing else of a tree is touched,
and its report changes in its lines only. -/

namespace CodeAtlas.Metta

mutual

def Node.mapPlaces (onLine onRow : Int → Int) : Node → Node
  | ⟨kind, value, line, lastLine, firstRow, lastRow, children⟩ =>
    ⟨kind, value, onLine line, onLine lastLine, onRow firstRow, onRow lastRow,
      Node.mapPlacesAll onLine onRow children⟩

def Node.mapPlacesAll (onLine onRow : Int → Int) : List Node → List Node
  | [] => []
  | node :: nodes => node.mapPlaces onLine onRow :: Node.mapPlacesAll onLine onRow nodes

end

def Function.mapLines (onLine : Int → Int) (f : Function) : Function :=
  { f with firstLine := onLine f.firstLine, lastLine := onLine f.lastLine }

def Execution.mapLine (onLine : Int → Int) (e : Execution) : Execution :=
  { e with line := onLine e.line }

def Fact.mapLine (onLine : Int → Int) (f : Fact) : Fact := { f with line := onLine f.line }

def Definitions.mapLines (onLine : Int → Int) (d : Definitions) : Definitions :=
  { d with
    functions := d.functions.map (Function.mapLines onLine)
    executions := d.executions.map (Execution.mapLine onLine)
    facts := d.facts.map (Fact.mapLine onLine) }

namespace Node

variable (onLine onRow : Int → Int) (node : Node)

theorem mapPlacesAll_eq_map (nodes : List Node) :
    mapPlacesAll onLine onRow nodes = nodes.map (mapPlaces onLine onRow) := by
  induction nodes with
  | nil => rfl
  | cons node nodes ih => rw [mapPlacesAll, ih, List.map_cons]

theorem mapPlaces_eq : node.mapPlaces onLine onRow =
    ⟨node.kind, node.value, onLine node.line, onLine node.lastLine, onRow node.firstRow,
      onRow node.lastRow, node.children.map (mapPlaces onLine onRow)⟩ := by
  obtain ⟨kind, value, line, lastLine, firstRow, lastRow, children⟩ := node
  rw [mapPlaces, mapPlacesAll_eq_map]

@[simp] theorem kind_mapPlaces : (node.mapPlaces onLine onRow).kind = node.kind := by
  rw [mapPlaces_eq]

@[simp] theorem value_mapPlaces : (node.mapPlaces onLine onRow).value = node.value := by
  rw [mapPlaces_eq]

@[simp] theorem line_mapPlaces : (node.mapPlaces onLine onRow).line = onLine node.line := by
  rw [mapPlaces_eq]

@[simp] theorem lastLine_mapPlaces :
    (node.mapPlaces onLine onRow).lastLine = onLine node.lastLine := by
  rw [mapPlaces_eq]

@[simp] theorem children_mapPlaces :
    (node.mapPlaces onLine onRow).children = node.children.map (mapPlaces onLine onRow) := by
  rw [mapPlaces_eq]

mutual

theorem nodes_mapPlaces : ∀ node : Node,
    (node.mapPlaces onLine onRow).nodes = node.nodes.map (mapPlaces onLine onRow)
  | ⟨kind, value, line, lastLine, firstRow, lastRow, children⟩ => by
    have ih := flatMap_nodes_mapPlaces children
    rw [nodes_eq, nodes_eq, children_mapPlaces, List.map_cons, ih]

theorem flatMap_nodes_mapPlaces : ∀ all : List Node,
    (all.map (mapPlaces onLine onRow)).flatMap nodes =
      (all.flatMap nodes).map (mapPlaces onLine onRow)
  | [] => rfl
  | node :: all => by
    rw [List.map_cons, List.flatMap_cons, List.flatMap_cons, List.map_append,
      nodes_mapPlaces node, flatMap_nodes_mapPlaces all]

end

theorem brief_mapPlaces : (node.mapPlaces onLine onRow).brief = node.brief := by
  rw [brief, brief, children_mapPlaces, value_mapPlaces]
  match node.children with
  | [] => rfl
  | [head] => simp
  | head :: argument :: arguments => simp

theorem function?_mapPlaces : (node.mapPlaces onLine onRow).function? =
    node.function?.map (Function.mapLines onLine) := by
  rw [function?, function?, kind_mapPlaces, children_mapPlaces]
  split
  · rw [List.find?_map, Option.map_map, Option.map_map]
    have hkinds : (fun child : Node => decide (child.kind = .signature)) ∘
        mapPlaces onLine onRow = fun child => decide (child.kind = .signature) := by
      funext child
      simp
    rw [hkinds]
    refine Option.map_congr fun signature _ => ?_
    simp [Function.mapLines, List.filter_map, Function.comp_def]
  · rfl

theorem execution?_mapPlaces : (node.mapPlaces onLine onRow).execution? =
    node.execution?.map (Execution.mapLine onLine) := by
  rw [execution?, execution?, kind_mapPlaces, children_mapPlaces]
  split
  · cases node.children with
    | nil => rfl
    | cons body _ => simp [Execution.mapLine, brief_mapPlaces]
  · rfl

theorem fact?_mapPlaces : (node.mapPlaces onLine onRow).fact? =
    node.fact?.map (Fact.mapLine onLine) := by
  have hbrief := brief_mapPlaces onLine onRow node
  unfold fact?
  rw [kind_mapPlaces, children_mapPlaces, hbrief, line_mapPlaces]
  cases node.kind with
  | expression =>
    match node.children with
    | [subject, _, _] => by_cases h : subject.kind = .atom <;> simp [h, Fact.mapLine]
    | [] | [_] | [_, _] | _ :: _ :: _ :: _ :: _ => rfl
  | _ => rfl

theorem isPlainExpression_mapPlaces :
    (node.mapPlaces onLine onRow).isPlainExpression = node.isPlainExpression := by
  rw [isPlainExpression, isPlainExpression, fact?_mapPlaces, kind_mapPlaces, Option.isNone_map]

theorem valuesOf_mapPlaces (kind : NodeKind) (nodes : List Node) :
    valuesOf kind (nodes.map (mapPlaces onLine onRow)) = valuesOf kind nodes := by
  simp [valuesOf, List.filter_map, Function.comp_def]

theorem definitions_mapPlaces :
    (node.mapPlaces onLine onRow).definitions = node.definitions.mapLines onLine := by
  rw [definitions, definitions, nodes_mapPlaces, valuesOf_mapPlaces, valuesOf_mapPlaces,
    List.filterMap_map, List.filterMap_map, List.filterMap_map, List.countP_map]
  simp [Definitions.mapLines, Function.comp_def, function?_mapPlaces, execution?_mapPlaces,
    fact?_mapPlaces, isPlainExpression_mapPlaces, List.map_filterMap]

end Node

end CodeAtlas.Metta
