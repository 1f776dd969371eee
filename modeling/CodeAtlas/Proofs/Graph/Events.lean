import CodeAtlas.Definitions
import CodeAtlas.Graph.Knowledge
import CodeAtlas.Graph.Outline
import CodeAtlas.Proofs.Report.Node

/-! Both graphs of a report tell the same story. Going through the report gives one row of events,
and each graph is a rendering of that row in a scheme of its own for ids, relations and
attributes. -/

namespace CodeAtlas

open Text (Points)

namespace Graph

inductive Kind
  | cls
  | function
  | variable
  deriving DecidableEq, Repr

def Kind.type : Kind → String
  | .cls => "class"
  | .function => "function"
  | .variable => "variable"

def Kind.tag : Kind → String
  | .cls => "class"
  | .function => "func"
  | .variable => "var"

inductive Entity
  | place (path : Points)
  | inside (holder : Entity) (kind : Kind) (name : Points)
  deriving DecidableEq, Repr

def Entity.kind? : Entity → Option Kind
  | place _ => none
  | inside _ kind _ => some kind

inductive Event
  | place (path name type : Points) (language : Json)
  | contains (holder path : Points)
  | definition (holder : Entity) (kind : Kind) (name : Points)
  deriving Repr

def Event.isVariable : Event → Bool
  | definition _ .variable _ => true
  | _ => false

structure Scheme where
  idBelow : Points → Kind → Points → Points
  relation : Option Kind → Kind → String
  attributes : (name type : Points) → (language : Json) → List (String × Json)

namespace Scheme

def id (s : Scheme) : Entity → Points
  | .place path => path
  | .inside holder kind name => s.idBelow (s.id holder) kind name

def edits (s : Scheme) : Event → List Edit
  | .place path name type language => [.node (.str path) (s.attributes name type language)]
  | .contains holder path => [.edge (.str holder) (.str path) "contains"]
  | .definition holder kind name =>
    [.node (.str (s.id (.inside holder kind name))) [("type", .str kind.type), ("name", .str name)],
      .edge (.str (s.id holder)) (.str (s.id (.inside holder kind name)))
        (s.relation holder.kind? kind)]

def render (s : Scheme) (events : List Event) : List Edit := events.flatMap s.edits

def knowledge : Scheme where
  idBelow id kind name := id ++ Points.ofString ("::" ++ kind.tag ++ "::") ++ name
  relation _ kind := if kind = .variable then "uses" else "defines"
  attributes name type language :=
    [("name", .str name), ("type", .str type), ("language", language)]

def outline : Scheme where
  idBelow id _ name := id ++ Points.ofString ":" ++ name
  relation holder kind :=
    if kind = .function ∧ holder = some .cls then "hasMethod" else "defines"
  attributes name type _ := [("type", .str type), ("name", .str name)]

end Scheme

def functionEvents (holder : Entity) (name : String) (variableNames : List String) : List Event :=
  .definition holder .function name ::
    variableNames.map fun v => .definition (.inside holder .function name) .variable (v : String)

def classEvents (file : Entity) (c : Grammar.Class) : List Event :=
  .definition file .cls c.name ::
    c.functions.flatMap fun f => functionEvents (.inside file .cls c.name) f.name f.variableNames

def definitionEvents (file : Entity) : Definitions → List Event
  | .program found => found.functions.flatMap fun f => functionEvents file f.name []
  | .outline found =>
    found.classes.flatMap (classEvents file) ++
      found.functions.flatMap fun f => functionEvents file f.name f.variableNames

end Graph

namespace Report

open CodeAtlas.Graph (Event)

structure Place where
  name : Points
  path : Points
  type : Points
  language : Json
  definitions : Option Definitions

inductive Tree
  | node (place : Place) (children : List Tree)

structure Place.Has (p : Place) (members : List (Points × Json)) : Prop where
  name : Json.member? members "name" = some (.str p.name)
  path : Json.member? members "path" = some (.str p.path)
  type : Json.member? members "type" = some (.str p.type)
  language : (Json.member? members "language").getD (.str "") = p.language
  definitions : Json.member? members "definitions" = p.definitions.map Definitions.toJson

namespace Place

def selfEvents (holder : Option Points) (p : Place) : List Event :=
  .place p.path p.name p.type p.language ::
    (holder.toList.filter (· ≠ [])).map (.contains · p.path)

def definitionEvents (p : Place) : List Event :=
  if p.type = Points.ofString "file" then
    p.definitions.toList.flatMap (Graph.definitionEvents (.place p.path))
  else []

def events (holder : Option Points) (p : Place) : List Event :=
  p.selfEvents holder ++ p.definitionEvents

end Place

namespace Tree

mutual

def IsOf (j : Json) : Tree → Prop
  | node place children =>
    ∃ members js, j = .obj members ∧ place.Has members ∧
      (Json.member? members "children").getD (.arr []) = .arr js ∧ AreOf js children

def AreOf (js : List Json) : List Tree → Prop
  | [] => js = []
  | t :: ts => ∃ first rest, js = first :: rest ∧ t.IsOf first ∧ AreOf rest ts

end

mutual

def eventsBelow (holder : Option Points) : Tree → List Event
  | node place children => place.events holder ++ eventsEach place.path children

def eventsEach (holder : Points) : List Tree → List Event
  | [] => []
  | t :: ts => t.eventsBelow (some holder) ++ eventsEach holder ts

end

def events (t : Tree) : List Event := t.eventsBelow none

end Tree

end Report

namespace Graph

namespace Drawing

@[simp] theorem after_ok {α : Type} (a : α) (draw : α → Drawing) :
    after (.ok a) draw = draw a := rfl

@[simp] theorem ofEdits_append (a b : List Edit) : ofEdits a ++ ofEdits b = ofEdits (a ++ b) := rfl

theorem each_ofEdits {α : Type} {draw : Json → Drawing} {toJson : α → Json} {edits : α → List Edit}
    (h : ∀ a, draw (toJson a) = ofEdits (edits a)) (as : List α) :
    each draw (as.map toJson) = ofEdits (as.flatMap edits) := by
  induction as with
  | nil => rfl
  | cons a as ih => rw [List.map_cons, each, h, ih, ofEdits_append, List.flatMap_cons]

theorem eachAt_ofEdits {α : Type} {members : List (Points × Json)} {key : String}
    {draw : Json → Drawing} {toJson : α → Json} {edits : α → List Edit} (as : List α)
    (hitems : (Json.member? members key).getD (.arr []) = .arr (as.map toJson))
    (h : ∀ a, draw (toJson a) = ofEdits (edits a)) :
    eachAt (.obj members) key draw = ofEdits (as.flatMap edits) := by
  have hget : (Json.obj members).getD key (.arr []) = .ok (.arr (as.map toJson)) := by
    rw [← hitems]
    rfl
  rw [eachAt, hget, after_ok, Json.parts, after_ok, each_ofEdits h]

theorem contained_eq (holder : Option Points) (path : Points) :
    contained (holder.elim .null .str) (.str path) =
      ofEdits ((holder.toList.filter (· ≠ [])).map fun above => .edge (.str above) (.str path)
        "contains") := by
  rcases holder with _ | above
  · rfl
  · rcases above with _ | ⟨p, ps⟩ <;> rfl

end Drawing

open Drawing

structure HasFunction (members : List (Points × Json)) (name : String)
    (variableNames : List String) : Prop where
  name : Json.member? members "name" = some (.str name)
  uses : (Json.member? members "variables").getD (.arr []) = .ofStrings variableNames

section

variable {file : Entity} {edits : Event → List Edit} {drawClass drawFunction : Json → Drawing}

theorem definitions_ofEdits
    (hclass : ∀ c : Grammar.Class,
      drawClass c.toJson = ofEdits ((classEvents file c).flatMap edits))
    (hfunction : ∀ members name variableNames, HasFunction members name variableNames →
      drawFunction (.obj members) =
        ofEdits ((functionEvents file name variableNames).flatMap edits))
    (definitions : Definitions) :
    eachAt definitions.toJson "classes" drawClass ++
        eachAt definitions.toJson "functions" drawFunction =
      ofEdits ((definitionEvents file definitions).flatMap edits) := by
  cases definitions with
  -- A program has no classes, and nothing is told of the variables of its functions.
  | program found =>
    have hmetta (f : Metta.Function) : drawFunction f.toJson =
        ofEdits ((functionEvents file f.name []).flatMap edits) :=
      hfunction _ _ _ ⟨by simp, by simp [Json.ofStrings]⟩
    have hclasses : eachAt found.toJson "classes" drawClass = ofEdits [] :=
      eachAt_ofEdits [] (by simp) hclass
    have hfunctions : eachAt found.toJson "functions" drawFunction = _ :=
      eachAt_ofEdits found.functions (by simp) hmetta
    rw [Definitions.toJson, hclasses, hfunctions, definitionEvents, List.flatMap_assoc]
    rfl
  | outline found =>
    have hgrammar (f : Grammar.Function) : drawFunction f.toJson =
        ofEdits ((functionEvents file f.name f.variableNames).flatMap edits) :=
      hfunction _ _ _ ⟨by simp, by simp⟩
    have hclasses : eachAt found.toJson "classes" drawClass = _ :=
      eachAt_ofEdits found.classes (by simp) hclass
    have hfunctions : eachAt found.toJson "functions" drawFunction = _ :=
      eachAt_ofEdits found.functions (by simp) hgrammar
    rw [Definitions.toJson, hclasses, hfunctions, ofEdits_append, definitionEvents,
      List.flatMap_append, List.flatMap_assoc, List.flatMap_assoc]

end

theorem definitions_of_place {place : Report.Place} {members : List (Points × Json)}
    (hplace : place.Has members) {draw : Json → Drawing} {edits : Event → List Edit}
    (hdraw : ∀ definitions : Definitions, draw definitions.toJson =
      ofEdits ((definitionEvents (.place place.path) definitions).flatMap edits)) :
    (if (Json.str place.type).isStr "file" then
        (Json.member? members "definitions").elim empty draw
      else empty) =
      ofEdits (place.definitionEvents.flatMap edits) := by
  have hfile : (Json.str place.type).isStr "file" ↔ place.type = Points.ofString "file" :=
    beq_iff_eq
  rw [hplace.definitions, Report.Place.definitionEvents]
  by_cases htype : place.type = Points.ofString "file"
  · rw [if_pos (hfile.2 htype), if_pos htype]
    cases place.definitions with
    | none => rfl
    | some definitions =>
      rw [Option.map_some, Option.elim_some, hdraw, Option.toList_some, List.flatMap_singleton]
  · rw [if_neg (mt hfile.1 htype), if_neg htype]
    rfl

structure Draws (edits : Event → List Edit) (drawNode : Json → Report.Node → Drawing)
    (drawNodes : Json → List Report.Node → Drawing) : Prop where
  node : ∀ (holder : Option Points) {place : Report.Place} {members : List (Points × Json)}
    {children : List Report.Node}, place.Has members → Report.checkChildren members = .ok () →
      drawNode (holder.elim .null .str) (.object members children) =
        ofEdits ((place.events holder).flatMap edits) ++ drawNodes (.str place.path) children
  nil : ∀ parent, drawNodes parent [] = ofEdits []
  cons : ∀ parent first rest,
    drawNodes parent (first :: rest) = drawNode parent first ++ drawNodes parent rest

section

variable {edits : Event → List Edit} {drawNode : Json → Report.Node → Drawing}
  {drawNodes : Json → List Report.Node → Drawing}

mutual

theorem Draws.tree (h : Draws edits drawNode drawNodes) (holder : Option Points)
    (t : Report.Tree) {j : Json} (hj : t.IsOf j) :
    drawNode (holder.elim .null .str) (.ofJson j) =
      ofEdits ((t.eventsBelow holder).flatMap edits) := by
  match t with
  | .node place children =>
    rw [Report.Tree.IsOf] at hj
    obtain ⟨members, js, rfl, hplace, hchildren, hbelow⟩ := hj
    obtain ⟨hnode, hcheck⟩ := Report.Node.ofJson_of_children hchildren
    -- Whatever is below the place has its path for a holder.
    rw [hnode, h.node holder hplace hcheck, h.trees place.path children hbelow, ofEdits_append,
      Report.Tree.eventsBelow, List.flatMap_append]

theorem Draws.trees (h : Draws edits drawNode drawNodes) (holder : Points)
    (ts : List Report.Tree) {js : List Json} (hjs : Report.Tree.AreOf js ts) :
    drawNodes (.str holder) (Report.Node.ofJsonAll js) =
      ofEdits ((Report.Tree.eventsEach holder ts).flatMap edits) := by
  match ts with
  | [] =>
    rw [Report.Tree.AreOf] at hjs
    rw [hjs, Report.Node.ofJsonAll, h.nil]
    rfl
  | t :: ts =>
    rw [Report.Tree.AreOf] at hjs
    obtain ⟨first, rest, rfl, hfirst, hrest⟩ := hjs
    have htree := h.tree (some holder) t hfirst
    rw [Option.elim] at htree
    rw [Report.Node.ofJsonAll, h.cons, htree, h.trees holder ts hrest, ofEdits_append,
      Report.Tree.eventsEach, List.flatMap_append]

end

end

namespace Knowledge

theorem idBelow_eq (holder : Entity) (kind : Kind) (name : Points) :
    idBelow (.str (Scheme.knowledge.id holder)) kind.tag (.str name) =
      .str (Scheme.knowledge.id (.inside holder kind name)) := rfl

theorem drawFunction_eq {members : List (Points × Json)} {name : String}
    {variableNames : List String} (holder : Entity) (h : HasFunction members name variableNames) :
    drawFunction (.str (Scheme.knowledge.id holder)) (.obj members) =
      ofEdits ((functionEvents holder name variableNames).flatMap Scheme.knowledge.edits) := by
  have hvariable (v : String) :
      drawVariable (.str (Scheme.knowledge.id (.inside holder .function name))) (.str v) =
        ofEdits (Scheme.knowledge.edits
          (.definition (.inside holder .function name) .variable v)) := rfl
  have hrequire : (Json.obj members).require "name" = .ok (.str name) := by
    rw [Json.require, h.name]
  have hid := idBelow_eq holder .function name
  rw [Kind.tag] at hid
  rw [drawFunction, hrequire, after_ok]
  dsimp only
  rw [hid, eachAt_ofEdits variableNames h.uses hvariable, ofEdits_append, functionEvents,
    List.flatMap_cons, List.flatMap_map]
  rfl

theorem drawClass_eq (file : Entity) (c : Grammar.Class) :
    drawClass (.str (Scheme.knowledge.id file)) c.toJson =
      ofEdits ((classEvents file c).flatMap Scheme.knowledge.edits) := by
  have hmethod (f : Grammar.Function) :
      drawFunction (.str (Scheme.knowledge.id (.inside file .cls c.name))) f.toJson =
        ofEdits ((functionEvents (.inside file .cls c.name) f.name f.variableNames).flatMap
          Scheme.knowledge.edits) :=
    drawFunction_eq _ ⟨by simp, by simp⟩
  have hrequire : c.toJson.require "name" = .ok (.str c.name) := by
    simp [Grammar.Class.toJson, Json.require]
  have hid := idBelow_eq file .cls c.name
  rw [Kind.tag] at hid
  rw [drawClass, hrequire, after_ok]
  dsimp only
  rw [hid, Grammar.Class.toJson, eachAt_ofEdits c.functions (by simp) hmethod, ofEdits_append,
    classEvents, List.flatMap_cons, List.flatMap_assoc]
  rfl

theorem drawDefinitions_eq (file : Entity) (definitions : Definitions) :
    drawDefinitions (.str (Scheme.knowledge.id file)) definitions.toJson =
      ofEdits ((definitionEvents file definitions).flatMap Scheme.knowledge.edits) :=
  definitions_ofEdits (drawClass_eq file) (fun _ _ _ => drawFunction_eq file) definitions

theorem drawSelf_eq (holder : Option Points) (place : Report.Place) :
    drawSelf (holder.elim .null .str) (.str place.path) (.str place.name) (.str place.type)
        place.language =
      ofEdits ((place.selfEvents holder).flatMap Scheme.knowledge.edits) := by
  rw [drawSelf, contained_eq, Report.Place.selfEvents, List.flatMap_cons, List.flatMap_map,
    List.map_eq_flatMap]
  rfl

theorem draws : Draws Scheme.knowledge.edits drawNode drawNodes where
  node := by
    intro holder place members children hplace hcheck
    have hcontains : (Json.obj members).contains "path" = .ok true := by
      rw [Json.contains, Json.hasKey, hplace.path]
      rfl
    have hid : nodeId (.obj members) = .ok (.str place.path) := by
      simp only [nodeId, hcontains, Json.require, hplace.path, bind, Except.bind, if_true]
    have hname : (Json.obj members).require "name" = .ok (.str place.name) := by
      rw [Json.require, hplace.name]
    have htype : (Json.obj members).require "type" = .ok (.str place.type) := by
      rw [Json.require, hplace.type]
    have hdefinitions := definitions_of_place hplace (drawDefinitions_eq (.place place.path))
    rw [drawNode, hid, after_ok, hname, after_ok, htype, after_ok, hcheck, after_ok,
      hplace.language, drawSelf_eq]
    rw [Report.Place.events, List.flatMap_append, ← ofEdits_append, ← hdefinitions]
    cases Json.member? members "definitions" <;> rfl
  nil _ := by rw [drawNodes]; rfl
  cons _ _ _ := by rw [drawNodes]

end Knowledge

namespace Outline

def edits (e : Event) : List Edit := if e.isVariable then [] else Scheme.outline.edits e

theorem edits_variables (function : Entity) (names : List String) :
    (names.map fun v => Event.definition function .variable (v : String)).flatMap edits = [] := by
  rw [List.flatMap_map, List.flatMap_eq_nil_iff]
  intro v _
  rfl

theorem idBelow_eq (holder : Entity) (kind : Kind) (name : Points) :
    idBelow (.str (Scheme.outline.id holder)) (.str name) =
      .str (Scheme.outline.id (.inside holder kind name)) := rfl

theorem drawFunction_eq {members : List (Points × Json)} {name : String}
    {variableNames : List String} (holder : Entity) (h : HasFunction members name variableNames) :
    drawFunction (.str (Scheme.outline.id holder)) (Scheme.outline.relation holder.kind? .function)
        (.obj members) =
      ofEdits ((functionEvents holder name variableNames).flatMap edits) := by
  have hrequire : (Json.obj members).require "name" = .ok (.str name) := by
    rw [Json.require, h.name]
  rw [drawFunction, hrequire, after_ok, functionEvents, List.flatMap_cons, edits_variables]
  rfl

theorem drawClass_eq (file : Entity) (c : Grammar.Class) :
    drawClass (.str (Scheme.outline.id file)) c.toJson =
      ofEdits ((classEvents file c).flatMap edits) := by
  have hmethod (f : Grammar.Function) :
      drawFunction (.str (Scheme.outline.id (.inside file .cls c.name))) "hasMethod" f.toJson =
        ofEdits ((functionEvents (.inside file .cls c.name) f.name f.variableNames).flatMap
          edits) :=
    drawFunction_eq (.inside file .cls c.name) ⟨by simp, by simp⟩
  have hrequire : c.toJson.require "name" = .ok (.str c.name) := by
    simp [Grammar.Class.toJson, Json.require]
  rw [drawClass, hrequire, after_ok]
  dsimp only
  rw [idBelow_eq file .cls, Grammar.Class.toJson, eachAt_ofEdits c.functions (by simp) hmethod,
    ofEdits_append, classEvents, List.flatMap_cons, List.flatMap_assoc]
  rfl

theorem drawDefinitions_eq (path : Points) (definitions : Definitions) :
    drawDefinitions (.str path) definitions.toJson =
      ofEdits ((definitionEvents (.place path) definitions).flatMap edits) :=
  definitions_ofEdits (drawClass_eq (.place path)) (fun _ _ _ => drawFunction_eq (.place path))
    definitions

theorem drawSelf_eq (holder : Option Points) (place : Report.Place) :
    drawSelf (holder.elim .null .str) (.str place.path) (.str place.type) (.str place.name) =
      ofEdits ((place.selfEvents holder).flatMap edits) := by
  rw [drawSelf, contained_eq, Report.Place.selfEvents, List.flatMap_cons, List.flatMap_map,
    List.map_eq_flatMap]
  rfl

theorem draws : Draws edits drawNode drawNodes where
  node := by
    intro holder place members children hplace hcheck
    have hid : nodeId members = .str place.path := by rw [nodeId, hplace.path, Option.getD_some]
    have htype : (Json.obj members).require "type" = .ok (.str place.type) := by
      rw [Json.require, hplace.type]
    have hname : (Json.obj members).require "name" = .ok (.str place.name) := by
      rw [Json.require, hplace.name]
    have hdefinitions := definitions_of_place hplace (drawDefinitions_eq place.path)
    rw [drawNode, hid, htype, after_ok, hname, after_ok, hcheck, after_ok, drawSelf_eq]
    rw [Report.Place.events, List.flatMap_append, ← ofEdits_append, ← hdefinitions]
    cases Json.member? members "definitions" <;> rfl
  nil _ := by rw [drawNodes]; rfl
  cons _ _ _ := by rw [drawNodes]

theorem flatMap_edits (events : List Event) :
    events.flatMap edits = Scheme.outline.render (events.filter fun e => !e.isVariable) := by
  induction events with
  | nil => rfl
  | cons e events ih =>
    rw [List.flatMap_cons, ih, List.filter_cons]
    cases hvariable : e.isVariable <;> simp [edits, hvariable, Scheme.render]

end Outline

def Edit.entity? : Edit → Option (Option Json × Option Json)
  | .node _ attributes =>
    if (attributes.lookup "type").any (Json.isStr "variable") then none
    else some (attributes.lookup "type", attributes.lookup "name")
  | .edge .. => none

theorem entity?_edits (e : Event) :
    (Outline.edits e).filterMap Edit.entity? =
      (Scheme.knowledge.edits e).filterMap Edit.entity? := by
  cases e with
  | place path name type language => rfl
  | contains holder path => rfl
  | definition holder kind name => cases kind <;> rfl

/-- One row of events makes both graphs: the knowledge graph is the rendering of all of it, the
outline that of all but the variables. So both have the same entities in the same order. -/
theorem drawings_render_events (t : Report.Tree) (j : Json) (h : t.IsOf j) :
    Knowledge.draw j = ofEdits (Scheme.knowledge.render t.events) ∧
      Outline.draw j =
        ofEdits (Scheme.outline.render (t.events.filter fun e => !e.isVariable)) ∧
      (Outline.draw j).edits.filterMap Edit.entity? =
        (Knowledge.draw j).edits.filterMap Edit.entity? := by
  have hknowledge := Knowledge.draws.tree none t h
  have houtline := Outline.draws.tree none t h
  refine ⟨hknowledge, ?_, ?_⟩
  · rw [← Outline.flatMap_edits]
    exact houtline
  · calc (Outline.draw j).edits.filterMap Edit.entity?
        = (t.events.flatMap Outline.edits).filterMap Edit.entity? :=
          congrArg (fun drawing => drawing.edits.filterMap Edit.entity?) houtline
      _ = (t.events.flatMap Scheme.knowledge.edits).filterMap Edit.entity? := by
          rw [List.filterMap_flatMap, List.filterMap_flatMap]
          exact congrArg t.events.flatMap (funext entity?_edits)
      _ = (Knowledge.draw j).edits.filterMap Edit.entity? :=
          congrArg (fun drawing => drawing.edits.filterMap Edit.entity?) hknowledge.symm

def shapes : Definitions :=
  .outline ⟨[⟨"Shape", 1, [⟨"area", 2, ["w"], 3⟩]⟩], [⟨"main", 6, [], 1⟩]⟩

def shapesReport : Json :=
  .obj [("name", .str "p"), ("path", .str "/p"), ("type", .str "folder"),
    ("children", .arr [.obj [("name", .str "a.py"), ("path", .str "/p/a.py"), ("type", .str "file"),
      ("language", .str "python"), ("definitions", shapes.toJson),
      ("parser_type", .str "tree_sitter")]])]

def shapesTree : Report.Tree :=
  .node ⟨"p", "/p", "folder", .str "", none⟩
    [.node ⟨"a.py", "/p/a.py", "file", .str "python", some shapes⟩ []]

theorem drawings_of_shapes :
    shapesTree.IsOf shapesReport ∧
      Outline.draw shapesReport = ofEdits
        [.node (.str "/p") [("type", .str "folder"), ("name", .str "p")],
          .node (.str "/p/a.py") [("type", .str "file"), ("name", .str "a.py")],
          .edge (.str "/p") (.str "/p/a.py") "contains",
          .node (.str "/p/a.py:Shape") [("type", .str "class"), ("name", .str "Shape")],
          .edge (.str "/p/a.py") (.str "/p/a.py:Shape") "defines",
          .node (.str "/p/a.py:Shape:area") [("type", .str "function"), ("name", .str "area")],
          .edge (.str "/p/a.py:Shape") (.str "/p/a.py:Shape:area") "hasMethod",
          .node (.str "/p/a.py:main") [("type", .str "function"), ("name", .str "main")],
          .edge (.str "/p/a.py") (.str "/p/a.py:main") "defines"] ∧
      Knowledge.draw shapesReport = ofEdits
        [.node (.str "/p") [("name", .str "p"), ("type", .str "folder"), ("language", .str "")],
          .node (.str "/p/a.py")
            [("name", .str "a.py"), ("type", .str "file"), ("language", .str "python")],
          .edge (.str "/p") (.str "/p/a.py") "contains",
          .node (.str "/p/a.py::class::Shape") [("type", .str "class"), ("name", .str "Shape")],
          .edge (.str "/p/a.py") (.str "/p/a.py::class::Shape") "defines",
          .node (.str "/p/a.py::class::Shape::func::area")
            [("type", .str "function"), ("name", .str "area")],
          .edge (.str "/p/a.py::class::Shape") (.str "/p/a.py::class::Shape::func::area") "defines",
          .node (.str "/p/a.py::class::Shape::func::area::var::w")
            [("type", .str "variable"), ("name", .str "w")],
          .edge (.str "/p/a.py::class::Shape::func::area")
            (.str "/p/a.py::class::Shape::func::area::var::w") "uses",
          .node (.str "/p/a.py::func::main") [("type", .str "function"), ("name", .str "main")],
          .edge (.str "/p/a.py") (.str "/p/a.py::func::main") "defines"] := by
  have hfile : Report.Tree.IsOf
      (.obj [("name", .str "a.py"), ("path", .str "/p/a.py"), ("type", .str "file"),
        ("language", .str "python"), ("definitions", shapes.toJson),
        ("parser_type", .str "tree_sitter")])
      (.node ⟨"a.py", "/p/a.py", "file", .str "python", some shapes⟩ []) :=
    ⟨_, [], rfl, ⟨by simp, by simp, by simp, by simp, by simp⟩, by simp, rfl⟩
  have hshapes : shapesTree.IsOf shapesReport :=
    ⟨_, _, rfl, ⟨by simp, by simp, by simp, by simp, by simp⟩, by simp, _, [], rfl, hfile, rfl⟩
  obtain ⟨hknowledge, houtline, -⟩ := drawings_render_events shapesTree shapesReport hshapes
  rw [hknowledge, houtline]
  exact ⟨hshapes, rfl, rfl⟩

end Graph

end CodeAtlas
