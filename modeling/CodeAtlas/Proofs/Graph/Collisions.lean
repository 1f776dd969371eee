import CodeAtlas.Proofs.Graph.Homes

/-! When the outline of a survey has a node of its own for everything. A node that is added under an
id that is taken replaces the type and the name of the older one, so where ids meet, a class can end
up as a function. -/

namespace CodeAtlas

open Text (Points)

theorem Text.Points.ofString_append (a b : String) :
    Points.ofString (a ++ b) = Points.ofString a ++ Points.ofString b := by
  rw [ofString, String.toList_append]
  exact List.map_append

namespace Graph

def Edit.added? : Edit → Option Points
  | .node (.str id) _ => some id
  | _ => none

def Edit.set (id : Points) (key : String) (value : Option Json) : Edit → Option Json
  | .node (.str other) attributes =>
    if other = id then (attributes.lookup key).or value else value
  | _ => value

def finalAttribute (edits : List Edit) (id : Points) (key : String) : Option Json :=
  edits.foldl (Edit.set id key) none

theorem Edit.set_of_added?_ne {edit : Edit} {id : Points} (h : edit.added? ≠ some id) (key : String)
    (value : Option Json) : edit.set id key value = value := by
  unfold set
  split
  · next other attributes => exact if_neg fun heq => h (congrArg some heq)
  · rfl

theorem foldl_set {edits : List Edit} {id : Points} (h : id ∉ edits.filterMap Edit.added?)
    (key : String) (value : Option Json) : edits.foldl (Edit.set id key) value = value := by
  induction edits with
  | nil => rfl
  | cons edit edits ih =>
    rw [List.mem_filterMap] at h
    have hfirst : edit.added? ≠ some id := fun heq => h ⟨edit, List.mem_cons_self, heq⟩
    have hrest : id ∉ edits.filterMap Edit.added? := by
      rw [List.mem_filterMap]
      rintro ⟨other, hother, heq⟩
      exact h ⟨other, List.mem_cons_of_mem _ hother, heq⟩
    rw [List.foldl_cons, Edit.set_of_added?_ne hfirst, ih hrest]

theorem finalAttribute_of_nodup {edits : List Edit} (h : (edits.filterMap Edit.added?).Nodup)
    {id : Points} {attributes : List (String × Json)}
    (hmem : Edit.node (.str id) attributes ∈ edits) (key : String) :
    finalAttribute edits id key = attributes.lookup key := by
  obtain ⟨before, later, rfl⟩ := List.append_of_mem hmem
  have hadded : (Edit.node (.str id) attributes).added? = some id := rfl
  rw [List.filterMap_append, List.filterMap_cons_some hadded, List.nodup_middle, List.nodup_cons,
    List.mem_append, not_or] at h
  obtain ⟨⟨hbefore, hlater⟩, -⟩ := h
  -- No other edit sets anything for this id, neither before nor after.
  rw [finalAttribute, List.foldl_append, List.foldl_cons, foldl_set hbefore, foldl_set hlater,
    Edit.set, if_pos rfl, Option.or_none]

namespace Outline

def idsOf (events : List Event) : List Points := (events.flatMap edits).filterMap Edit.added?

theorem idsOf_append (events later : List Event) :
    idsOf (events ++ later) = idsOf events ++ idsOf later := by
  rw [idsOf, List.flatMap_append, List.filterMap_append]
  rfl

theorem idsOf_flatMap {α : Type} (as : List α) (f : α → List Event) :
    idsOf (as.flatMap f) = as.flatMap fun a => idsOf (f a) := by
  rw [idsOf, List.flatMap_assoc, List.filterMap_flatMap]
  rfl

theorem idsOf_function (holder : Entity) (name : String) (variableNames : List String) :
    idsOf (functionEvents holder name variableNames) =
      [Scheme.outline.id (.inside holder .function name)] := by
  rw [idsOf, functionEvents, List.flatMap_cons, edits_variables]
  rfl

theorem id_inside {holder : Entity} {text : String}
    (h : Scheme.outline.id holder = Points.ofString text) (kind : Kind) (name : String) :
    Scheme.outline.id (.inside holder kind name) = Points.ofString (text ++ ":" ++ name) := by
  rw [Points.ofString_append, Points.ofString_append, ← h]
  rfl

theorem idsOf_functions {α : Type} {holder : Entity} {text : String}
    (h : Scheme.outline.id holder = Points.ofString text) (name : α → String)
    (variableNames : α → List String) (fs : List α) :
    idsOf (fs.flatMap fun f => functionEvents holder (name f) (variableNames f)) =
      (fs.map name).map fun name => Points.ofString (text ++ ":" ++ name) := by
  rw [idsOf_flatMap, List.map_map, List.map_eq_flatMap]
  refine List.flatMap_congr fun f _ => ?_
  rw [idsOf_function, id_inside h]
  rfl

theorem idsOf_class (path : String) (c : Grammar.Class) :
    idsOf (classEvents (.place path) c) =
      c.home.ids.map fun name => Points.ofString (path ++ ":" ++ name) := by
  have hclass : Scheme.outline.id (.inside (.place path) .cls c.name) =
      Points.ofString (path ++ ":" ++ c.name) := id_inside rfl .cls c.name
  have hmethods := idsOf_functions hclass Grammar.Function.name Grammar.Function.variableNames
    c.functions
  have hcons (events : List Event) : idsOf (.definition (.place path) .cls c.name :: events) =
      Scheme.outline.id (.inside (.place path) .cls c.name) :: idsOf events := rfl
  rw [classEvents, hcons, hclass, hmethods, Grammar.Class.home, Home.ids]
  simp only [List.map_cons, List.map_map, Function.comp_def, String.append_assoc]

theorem idsOf_definitions (path : String) (definitions : Definitions) :
    idsOf (definitionEvents (.place path) definitions) =
      definitions.localNames.map fun name => Points.ofString (path ++ ":" ++ name) := by
  have hplace : Scheme.outline.id (.place path) = Points.ofString path := rfl
  cases definitions with
  | program found =>
    rw [definitionEvents, Definitions.localNames]
    exact idsOf_functions hplace Metta.Function.name (fun _ => []) found.functions
  | outline found =>
    rw [definitionEvents, idsOf_append, idsOf_flatMap, Definitions.localNames, List.map_append,
      List.map_flatMap, List.flatMap_map]
    simp only [idsOf_class]
    rw [idsOf_functions hplace]

theorem idsOf_selfEvents (holder : Option Points) (place : Report.Place) :
    idsOf (place.selfEvents holder) = [place.path] := by
  have hcontains : ((holder.toList.filter (· ≠ [])).map fun above =>
      Event.contains above place.path).flatMap (fun e => (edits e).filterMap Edit.added?) = [] := by
    rw [List.flatMap_map, List.flatMap_eq_nil_iff]
    intro above _
    rfl
  rw [idsOf, Report.Place.selfEvents, List.filterMap_flatMap, List.flatMap_cons, hcontains]
  rfl

end Outline

end Graph

namespace Entry

open Graph.Outline (idsOf idsOf_append idsOf_selfEvents idsOf_flatMap idsOf_definitions)

mutual

theorem idsOf_tree (holder : Option Points) (e : Entry) :
    idsOf (e.tree.eventsBelow holder) = (e.homes.flatMap Home.ids).map Points.ofString := by
  match e with
  | .file name path finding =>
    rw [tree, Report.Tree.eventsBelow, Report.Tree.eventsEach, List.append_nil,
      Report.Place.events, idsOf_append, idsOf_selfEvents, homes,
      List.flatMap_singleton, Home.ids, List.map_cons, Report.Place.definitionEvents, if_pos rfl,
      idsOf_flatMap, List.map_map, List.map_flatMap]
    simp only [idsOf_definitions]
    rfl
  | .folder name path children =>
    rw [tree, Report.Tree.eventsBelow, idsOf_append, Report.Place.events,
      idsOf_append, idsOf_selfEvents, idsOf_trees, homes, List.flatMap_cons,
      List.map_append]
    rfl

theorem idsOf_trees (holder : Points) (es : List Entry) :
    idsOf (Report.Tree.eventsEach holder (trees es)) =
      ((homesEach es).flatMap Home.ids).map Points.ofString := by
  match es with
  | [] =>
    rw [trees, homesEach, Report.Tree.eventsEach]
    rfl
  | e :: es =>
    rw [trees, homesEach, Report.Tree.eventsEach, idsOf_append,
      idsOf_tree (some holder) e, idsOf_trees holder es, List.flatMap_append, List.map_append]

end

end Entry

namespace Graph

def ClassesTold (events : List Event) : Prop :=
  ∀ file name kind inner, Event.definition (.inside file .cls name) kind inner ∈ events →
    Event.definition file .cls name ∈ events

theorem ClassesTold.append {events later : List Event} (h : ClassesTold events)
    (hlater : ClassesTold later) : ClassesTold (events ++ later) := by
  intro file name kind inner hmem
  rcases List.mem_append.1 hmem with hmem | hmem
  · exact List.mem_append_left _ (h _ _ _ _ hmem)
  · exact List.mem_append_right _ (hlater _ _ _ _ hmem)

theorem classesTold_flatMap {α : Type} {as : List α} {f : α → List Event}
    (h : ∀ a ∈ as, ClassesTold (f a)) : ClassesTold (as.flatMap f) := by
  intro file name kind inner hmem
  obtain ⟨a, ha, hmem⟩ := List.mem_flatMap.1 hmem
  exact List.mem_flatMap.2 ⟨a, ha, h a ha _ _ _ _ hmem⟩

theorem classesTold_function (path : Points) (name : String) (variableNames : List String) :
    ClassesTold (functionEvents (.place path) name variableNames) := by
  intro file cls kind inner hmem
  rw [functionEvents, List.mem_cons, List.mem_map] at hmem
  rcases hmem with heq | ⟨v, -, heq⟩ <;> cases heq

theorem classesTold_class (path : Points) (c : Grammar.Class) :
    ClassesTold (classEvents (.place path) c) := by
  intro file cls kind inner hmem
  rw [classEvents, List.mem_cons, List.mem_flatMap] at hmem
  rcases hmem with heq | ⟨f, -, hmem⟩
  · cases heq
  · rw [functionEvents, List.mem_cons, List.mem_map] at hmem
    rcases hmem with heq | ⟨v, -, heq⟩
    · cases heq
      exact List.mem_cons_self
    · cases heq

theorem classesTold_definitions (path : Points) (definitions : Definitions) :
    ClassesTold (definitionEvents (.place path) definitions) := by
  cases definitions with
  | program found => exact classesTold_flatMap fun f _ => classesTold_function path f.name []
  | outline found =>
    exact (classesTold_flatMap fun c _ => classesTold_class path c).append
      (classesTold_flatMap fun f _ => classesTold_function path f.name f.variableNames)

theorem classesTold_place (holder : Option Points) (place : Report.Place) :
    ClassesTold (place.events holder) := by
  have hself : ClassesTold (place.selfEvents holder) := by
    intro file cls kind inner hmem
    rw [Report.Place.selfEvents, List.mem_cons, List.mem_map] at hmem
    rcases hmem with heq | ⟨above, -, heq⟩ <;> cases heq
  refine hself.append ?_
  rw [Report.Place.definitionEvents]
  split
  · exact classesTold_flatMap fun definitions _ => classesTold_definitions place.path definitions
  · exact fun _ _ _ _ hmem => absurd hmem List.not_mem_nil

mutual

theorem classesTold_tree (holder : Option Points) (t : Report.Tree) :
    ClassesTold (t.eventsBelow holder) := by
  match t with
  | .node place children =>
    rw [Report.Tree.eventsBelow]
    exact (classesTold_place holder place).append (classesTold_trees place.path children)

theorem classesTold_trees (holder : Points) (ts : List Report.Tree) :
    ClassesTold (Report.Tree.eventsEach holder ts) := by
  match ts with
  | [] =>
    rw [Report.Tree.eventsEach]
    exact fun _ _ _ _ hmem => absurd hmem List.not_mem_nil
  | t :: ts =>
    rw [Report.Tree.eventsEach]
    exact (classesTold_tree (some holder) t).append (classesTold_trees holder ts)

end

namespace Outline

theorem holder_of_hasMethod {events : List Event} {source target : Json}
    (h : Edit.edge source target "hasMethod" ∈ events.flatMap edits) :
    ∃ file name inner, source = .str (Scheme.outline.id (.inside file .cls name)) ∧
      Event.definition (.inside file .cls name) .function inner ∈ events := by
  obtain ⟨e, he, hedge⟩ := List.mem_flatMap.1 h
  unfold edits at hedge
  split at hedge
  · cases hedge
  · cases e with
    | place path name type language => simp [Scheme.edits] at hedge
    | contains holder path => simp [Scheme.edits] at hedge
    | definition holder kind name =>
      obtain ⟨rfl, -, hrelation⟩ : source = .str (Scheme.outline.id holder) ∧ _ ∧
          "hasMethod" = Scheme.outline.relation holder.kind? kind := by
        simpa [Scheme.edits] using hedge
      have hmethod : kind = .function ∧ holder.kind? = some .cls := by
        by_contra hother
        rw [show Scheme.outline.relation holder.kind? kind = "defines" from if_neg hother]
          at hrelation
        exact absurd hrelation (by decide)
      obtain ⟨rfl, hholder⟩ := hmethod
      cases holder with
      | place path => cases hholder
      | inside file outer cls =>
        obtain rfl : outer = .cls := Option.some.inj hholder
        exact ⟨file, cls, name, rfl, he⟩

theorem type_of_class {events : List Event} (h : (idsOf events).Nodup) {file : Entity}
    {name : Points} (hclass : Event.definition file .cls name ∈ events) :
    finalAttribute (events.flatMap edits) (Scheme.outline.id (.inside file .cls name)) "type" =
      some (.str "class") := by
  have hnode : Edit.node (.str (Scheme.outline.id (.inside file .cls name)))
      [("type", .str "class"), ("name", .str name)] ∈ events.flatMap edits :=
    List.mem_flatMap.2 ⟨_, hclass, List.mem_cons_self⟩
  rw [finalAttribute_of_nodup h hnode]
  rfl

end Outline

/-- Every folder, file, class and function of a survey has a node of its own just if the definitions
of each file are not mixed up and no name leads to another place. Then nodes keep the attributes
that they were added with, and methods are held by classes. -/
theorem nodes_apart_iff (lib : Grammar.Library) (d : Disk) (root : String) (p : Survey.Progress)
    (h : ∀ file ∈ (Survey.survey lib d root p).1.files, ∀ definitions ∈ file.definitions?,
      definitions.NamedApart) :
    let e := (Survey.survey lib d root p).1
    let edits := (Outline.draw e.toJson).edits
    let ids := edits.filterMap Edit.added?
    ids = (e.homes.flatMap Home.ids).map Points.ofString ∧
      (ids.Nodup ↔
        (∀ file ∈ e.files, ∀ definitions ∈ file.definitions?, definitions.Unmixed) ∧
          ∀ a ∈ e.homes, ∀ b ∈ e.homes, ¬ a.Strays b) ∧
      (ids.Nodup →
        (∀ id attributes key, Edit.node (.str id) attributes ∈ edits →
          finalAttribute edits id key = attributes.lookup key) ∧
        ∀ source target, Edit.edge source target "hasMethod" ∈ edits →
          ∃ id, source = .str id ∧ finalAttribute edits id "type" = some (.str "class")) := by
  have hjoined := Survey.joined_survey lib d root p
  generalize (Survey.survey lib d root p).1 = e at h hjoined
  have hdraw : Outline.draw e.toJson = .ofEdits (e.tree.events.flatMap Outline.edits) :=
    Outline.draws.tree none _ e.isOf_toJson
  have hids : Outline.idsOf e.tree.events = (e.homes.flatMap Home.ids).map Points.ofString :=
    e.idsOf_tree none
  have hinj : Function.Injective Points.ofString := fun _ _ => Points.ofString_inj.1
  have hnames : (∀ home ∈ e.homes, home.names.Nodup) ↔
      ∀ file ∈ e.files, ∀ definitions ∈ file.definitions?, definitions.Unmixed := by
    rw [e.forall_names_homes List.nodup_nil]
    exact forall₄_congr fun file hfile definitions hdefinitions =>
      Definitions.nodup_localNames (h file hfile definitions hdefinitions)
  dsimp only
  rw [hdraw]
  refine ⟨hids, ?_, fun hnodup => ⟨?_, ?_⟩⟩
  · rw [← hnames, ← Home.nodup_flatMap_ids (e.nodup_paths_homes hjoined),
      ← List.nodup_map_iff hinj, ← hids]
    rfl
  · intro id attributes key hnode
    exact finalAttribute_of_nodup hnodup hnode key
  · intro source target hedge
    obtain ⟨file, name, inner, rfl, hmethod⟩ := Outline.holder_of_hasMethod hedge
    -- The edge is that of a method, and the class it leaves has been told of.
    have hclass := classesTold_tree none e.tree file name .function inner hmethod
    exact ⟨_, rfl, Outline.type_of_class hnodup hclass⟩

def twoShapes : String := "class Shape:\n  def area(self): 1\ndef Shape(): 2\n"

def twoShapesDisk : Disk := ⟨.folder [("a.py", .file (Text.Utf8.encode twoShapes))], []⟩

def twoShapesTree : Grammar.Tree :=
  ⟨"module", 0, 48, 0, 3,
    [⟨"class_definition", 0, 32, 0, 1,
        [⟨"identifier", 6, 11, 0, 0, [], []⟩,
          ⟨"function_definition", 15, 32, 1, 1, [⟨"identifier", 19, 23, 1, 1, [], []⟩],
            [("name", 0)]⟩],
        [("name", 0)]⟩,
      ⟨"function_definition", 33, 47, 2, 2, [⟨"identifier", 37, 42, 2, 2, [], []⟩],
        [("name", 0)]⟩], []⟩

def twoShapesLibrary : Grammar.Library :=
  ⟨"languages.so", true, [], [], fun _ _ => .ok twoShapesTree⟩

def twoShapesOutline : Grammar.Outline :=
  ⟨[⟨"Shape", 1, [⟨"area", 2, [], 1⟩]⟩], [⟨"Shape", 3, [], 1⟩]⟩

theorem survey_twoShapes :
    (Survey.survey twoShapesLibrary twoShapesDisk "/" .none).1 =
      .folder "" "/" [.file "a.py" "/a.py" (.read .python (.outline twoShapesOutline))] := by
  have hview : twoShapesDisk.view "/" =
      .folder [("a.py", .file (.ok (Text.Utf8.encode twoShapes)))] := by
    have hnames : FileTree.shownNames [("a.py", .file (Text.Utf8.encode twoShapes))] =
        ["a.py"] := by decide +kernel
    have hjoin : Path.join "/" "a.py" = "/a.py" := by decide +kernel
    have hfile : twoShapesDisk.view "/a.py" = .file (.ok (Text.Utf8.encode twoShapes)) :=
      Disk.view_in_root "a.py" rfl (by decide +kernel) (by decide) rfl
    rw [twoShapesDisk] at *
    rw [Disk.view_root, hnames, List.map_singleton, hjoin, hfile]
  have hlanguage : Language.ofPath? (Path.join "/" "a.py") = some .python := by decide +kernel
  have hnames : Path.baseName "/" = "" ∧ Path.baseName (Path.join "/" "a.py") = "a.py" ∧
      Path.absolute twoShapesDisk.cwd "/" = "/" ∧
      Path.absolute twoShapesDisk.cwd (Path.join "/" "a.py") = "/a.py" := by decide +kernel
  have hneed : twoShapesLibrary.need .python [] = (.ok (), Language.withGrammar) := rfl
  have houtline : Grammar.Outline.ofTree .python (Text.Utf8.encode twoShapes) twoShapesTree =
      .ok twoShapesOutline := by decide +kernel
  have hsource : Definitions.ofSource twoShapesLibrary .python (Text.Utf8.encode twoShapes) [] =
      (.ok (.outline twoShapesOutline), Language.withGrammar) := by
    have htree : Definitions.ofTree Language.python.name (Text.Utf8.encode twoShapes)
        twoShapesTree = .ok (.outline twoShapesOutline) := by
      rw [Definitions.ofTree, show Grammar.Rules.ofLanguage Language.python.name = .python from rfl,
        houtline]
    rw [Definitions.ofSource, if_neg (by decide), hneed]
    dsimp only [twoShapesLibrary]
    rw [htree]
  rw [Survey.survey, hview]
  simp only [Survey.surveyView, Survey.surveyEach, Survey.surveyFile, Survey.readFile, hlanguage,
    Survey.Progress.none, hsource, hnames]

theorem class_ends_as_function :
    let e := (Survey.survey twoShapesLibrary twoShapesDisk "/" .none).1
    let edits := (Outline.draw e.toJson).edits
    (∀ file ∈ e.files, ∀ definitions ∈ file.definitions?, definitions.NamedApart) ∧
      ¬ (edits.filterMap Edit.added?).Nodup ∧
      Edit.node (.str "/a.py:Shape") [("type", .str "class"), ("name", .str "Shape")] ∈ edits ∧
      Edit.edge (.str "/a.py:Shape") (.str "/a.py:Shape:area") "hasMethod" ∈ edits ∧
      finalAttribute edits "/a.py:Shape" "type" = some (.str "function") := by
  have hnamed : ∀ file ∈ (Survey.survey twoShapesLibrary twoShapesDisk "/" .none).1.files,
      ∀ definitions ∈ file.definitions?, definitions.NamedApart := by
    have hapart : Definitions.NamedApart (.outline twoShapesOutline) := by
      simp [Definitions.NamedApart, twoShapesOutline]
    rw [survey_twoShapes, Entry.files, Entry.filesEach, Entry.filesEach, List.append_nil,
      Entry.files, List.forall_mem_singleton]
    intro definitions hdefinitions
    exact Option.some.inj hdefinitions ▸ hapart
  have hmixed : ¬ Definitions.Unmixed (.outline twoShapesOutline) := fun hunmixed =>
    hunmixed.functions _ List.mem_cons_self _ List.mem_cons_self List.mem_cons_self
  have hiff := (nodes_apart_iff twoShapesLibrary twoShapesDisk "/" .none hnamed).2.1
  have hdraw : Outline.draw (Survey.survey twoShapesLibrary twoShapesDisk "/" .none).1.toJson =
      .ofEdits
        [.node (.str "/") [("type", .str "folder"), ("name", .str "")],
          .node (.str "/a.py") [("type", .str "file"), ("name", .str "a.py")],
          .edge (.str "/") (.str "/a.py") "contains",
          .node (.str "/a.py:Shape") [("type", .str "class"), ("name", .str "Shape")],
          .edge (.str "/a.py") (.str "/a.py:Shape") "defines",
          .node (.str "/a.py:Shape:area") [("type", .str "function"), ("name", .str "area")],
          .edge (.str "/a.py:Shape") (.str "/a.py:Shape:area") "hasMethod",
          .node (.str "/a.py:Shape") [("type", .str "function"), ("name", .str "Shape")],
          .edge (.str "/a.py") (.str "/a.py:Shape") "defines"] := by
    rw [survey_twoShapes]
    exact Outline.draws.tree none _ (Entry.isOf_toJson _)
  dsimp only at hiff ⊢
  refine ⟨hnamed, fun hnodup => hmixed ?_, ?_, ?_, ?_⟩
  · refine (hiff.1 hnodup).1 (.file "a.py" "/a.py" (.read .python (.outline twoShapesOutline)))
      ?_ _ rfl
    rw [survey_twoShapes, Entry.files, Entry.filesEach, Entry.files]
    exact List.mem_cons_self
  · rw [hdraw]
    simp [Drawing.ofEdits]
  · rw [hdraw]
    simp [Drawing.ofEdits]
  · rw [hdraw]
    rfl

end Graph

end CodeAtlas
