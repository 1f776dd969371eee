import CodeAtlas.Proofs.Graph.Collisions
import CodeAtlas.Proofs.Graph.Identity

/-! What the ids of a survey stand for. The paths of a survey are told apart, so where neither paths
nor names have colons, whatever is added to the knowledge graph under one id is the same thing every
time, and it hangs from one holder. -/

namespace CodeAtlas

open Text (Points)

def Grammar.Function.usedNames (f : Grammar.Function) : List String := f.name :: f.variableNames

def Grammar.Class.usedNames (c : Grammar.Class) : List String :=
  c.name :: c.functions.flatMap Grammar.Function.usedNames

def Definitions.usedNames : Definitions → List String
  | program found => found.functions.map Metta.Function.name
  | outline found =>
    found.classes.flatMap Grammar.Class.usedNames ++
      found.functions.flatMap Grammar.Function.usedNames

namespace Graph

def IsPlainDefinition (e : Event) : Prop :=
  ∃ holder kind name, e = .definition holder kind name ∧ holder.Holds ∧
    (Entity.inside holder kind name).Plain

theorem colon_not_mem_ofString {s : String} (h : ':' ∉ s.toList) : colon ∉ Points.ofString s := by
  simpa [colon, Points.ofString, Points.ofChars] using h

theorem plain_functionEvents {holder : Entity} (hplain : holder.Plain) (hholder : holder.Holds)
    (hinner : ∀ name, (Entity.inside holder .function name).Holds) {name : String}
    {variableNames : List String} (hnames : ∀ n ∈ name :: variableNames, ':' ∉ n.toList) :
    ∀ e ∈ functionEvents holder name variableNames, IsPlainDefinition e := by
  obtain ⟨hname, hvariables⟩ := List.forall_mem_cons.1 hnames
  have hfunction : (Entity.inside holder .function name).Plain :=
    ⟨hplain, colon_not_mem_ofString hname⟩
  refine List.forall_mem_cons.2 ⟨⟨holder, _, _, rfl, hholder, hfunction⟩, fun e he => ?_⟩
  obtain ⟨v, hv, rfl⟩ := List.mem_map.1 he
  exact ⟨_, _, _, rfl, hinner name, hfunction, colon_not_mem_ofString (hvariables v hv)⟩

theorem plain_definitionEvents {path : String} (hpath : ':' ∉ path.toList)
    {definitions : Definitions} (hnames : ∀ name ∈ definitions.usedNames, ':' ∉ name.toList) :
    ∀ e ∈ definitionEvents (.place path) definitions, IsPlainDefinition e := by
  have hplace : (Entity.place path).Plain := colon_not_mem_ofString hpath
  intro e he
  cases definitions with
  | program found =>
    obtain ⟨f, hf, he⟩ := List.mem_flatMap.1 he
    refine plain_functionEvents hplace (.place _) (.function _) (fun n hn => ?_) e he
    rw [List.mem_singleton.1 hn]
    exact hnames _ (List.mem_map_of_mem hf)
  | outline found =>
    obtain ⟨hclasses, hfunctions⟩ := List.forall_mem_append.1 hnames
    rcases List.mem_append.1 he with he | he
    · obtain ⟨c, hc, he⟩ := List.mem_flatMap.1 he
      have hclass : ∀ name ∈ c.usedNames, ':' ∉ name.toList :=
        fun name hname => hclasses name (List.mem_flatMap.2 ⟨c, hc, hname⟩)
      obtain ⟨hname, hmethods⟩ := List.forall_mem_cons.1 hclass
      have hplain : (Entity.inside (.place path) .cls c.name).Plain :=
        ⟨hplace, colon_not_mem_ofString hname⟩
      rcases List.mem_cons.1 he with rfl | he
      · exact ⟨_, _, _, rfl, .place _, hplain⟩
      · obtain ⟨f, hf, he⟩ := List.mem_flatMap.1 he
        exact plain_functionEvents hplain (.cls _ _) (.method _ _)
          (fun n hn => hmethods n (List.mem_flatMap.2 ⟨f, hf, hn⟩)) e he
    · obtain ⟨f, hf, he⟩ := List.mem_flatMap.1 he
      exact plain_functionEvents hplace (.place _) (.function _)
        (fun n hn => hfunctions n (List.mem_flatMap.2 ⟨f, hf, hn⟩)) e he

end Graph

namespace Entry

open CodeAtlas.Graph (Event)

mutual

def held (holder : Option String) : Entry → List (Option String × Entry)
  | file name path finding => [(holder, file name path finding)]
  | folder name path children => (holder, folder name path children) :: heldEach path children

def heldEach (holder : String) : List Entry → List (Option String × Entry)
  | [] => []
  | e :: es => e.held (some holder) ++ heldEach holder es

end

def place : Entry → Report.Place
  | file name path finding => ⟨name, path, "file", finding.language, finding.definitions?⟩
  | folder name path _ => ⟨name, path, "folder", .str "", none⟩

mutual

theorem eventsBelow_held (holder : Option String) (e : Entry) :
    e.tree.eventsBelow (holder.map Points.ofString) =
      (e.held holder).flatMap fun p => p.2.place.events (p.1.map Points.ofString) := by
  match e with
  | .file name path finding =>
    rw [tree, Report.Tree.eventsBelow, Report.Tree.eventsEach, List.append_nil, held,
      List.flatMap_singleton, place]
  | .folder name path children =>
    rw [tree, Report.Tree.eventsBelow, held, List.flatMap_cons, eventsEach_held path children,
      place]

theorem eventsEach_held (holder : String) (es : List Entry) :
    Report.Tree.eventsEach (Points.ofString holder) (trees es) =
      (heldEach holder es).flatMap fun p => p.2.place.events (p.1.map Points.ofString) := by
  match es with
  | [] =>
    rw [trees, Report.Tree.eventsEach, heldEach]
    rfl
  | e :: es =>
    have hfirst := eventsBelow_held (some holder) e
    rw [Option.map_some] at hfirst
    rw [trees, Report.Tree.eventsEach, heldEach, List.flatMap_append, hfirst,
      eventsEach_held holder es]

end

mutual

theorem paths_held (holder : Option String) (e : Entry) :
    ((e.held holder).map fun p => p.2.path) = e.homes.map Home.path := by
  match e with
  | .file name path finding =>
    rw [held, homes]
    rfl
  | .folder name path children =>
    rw [held, homes, List.map_cons, List.map_cons, paths_heldEach path children]
    rfl

theorem paths_heldEach (holder : String) (es : List Entry) :
    ((heldEach holder es).map fun p => p.2.path) = (homesEach es).map Home.path := by
  match es with
  | [] =>
    rw [heldEach, homesEach]
    rfl
  | e :: es =>
    rw [heldEach, homesEach, List.map_append, List.map_append, paths_held (some holder) e,
      paths_heldEach holder es]

end

structure ColonFree (e : Entry) : Prop where
  path : ':' ∉ e.path.toList
  names : ∀ definitions ∈ e.definitions?, ∀ name ∈ definitions.usedNames, ':' ∉ name.toList

theorem path_place (e : Entry) : e.place.path = Points.ofString e.path := by
  cases e <;> rfl

theorem definitions_place (e : Entry) : e.place.definitions = e.definitions? := by
  cases e <;> rfl

theorem type_place_ne (e : Entry) (kind : Graph.Kind) :
    e.place.type ≠ Points.ofString kind.type := by
  have hfile : Points.ofString "file" ≠ Points.ofString kind.type := by
    cases kind <;> decide +kernel
  have hfolder : Points.ofString "folder" ≠ Points.ofString kind.type := by
    cases kind <;> decide +kernel
  cases e with
  | file name path finding => exact hfile
  | folder name path children => exact hfolder

theorem cases_of_mem_events {e : Entry} (h : e.ColonFree) {holder : Option String} {event : Event}
    (hevent : event ∈ e.place.events (holder.map Points.ofString)) :
    event = .place (Points.ofString e.path) e.place.name e.place.type e.place.language ∨
      (∃ above, holder = some above ∧
        event = .contains (Points.ofString above) (Points.ofString e.path)) ∨
      Graph.IsPlainDefinition event := by
  rcases List.mem_append.1 hevent with hself | hdefinition
  · rw [Report.Place.selfEvents, path_place, List.mem_cons, List.mem_map] at hself
    rcases hself with rfl | ⟨above, habove, rfl⟩
    · exact .inl rfl
    · obtain ⟨text, rfl, rfl⟩ :=
        Option.map_eq_some_iff.1 (Option.mem_toList.1 (List.mem_filter.1 habove).1)
      exact .inr (.inl ⟨text, rfl, rfl⟩)
  · rw [Report.Place.definitionEvents, path_place, definitions_place] at hdefinition
    split at hdefinition
    · obtain ⟨definitions, hmem, hdefinition⟩ := List.mem_flatMap.1 hdefinition
      have hnames := h.names definitions (Option.mem_toList.1 hmem)
      exact .inr (.inr (Graph.plain_definitionEvents h.path hnames event hdefinition))
    · cases hdefinition

section

variable {e : Entry} (h : ∀ p ∈ e.held none, p.2.ColonFree)

include h

theorem exists_of_mem_events {event : Event} (hevent : event ∈ e.tree.events) :
    ∃ p ∈ e.held none,
      event = .place (Points.ofString p.2.path) p.2.place.name p.2.place.type p.2.place.language ∨
        (∃ above, p.1 = some above ∧
          event = .contains (Points.ofString above) (Points.ofString p.2.path)) ∨
        Graph.IsPlainDefinition event := by
  rw [Report.Tree.events, ← Option.map_none, eventsBelow_held none e, List.mem_flatMap] at hevent
  obtain ⟨p, hp, hevent⟩ := hevent
  exact ⟨p, hp, cases_of_mem_events (h p hp) hevent⟩

theorem sound_of_mem_events {event : Event} (hevent : event ∈ e.tree.events) : event.Sound := by
  obtain ⟨p, hp, rfl | ⟨above, -, rfl⟩ | ⟨holder, kind, name, rfl, hholds, hplain⟩⟩ :=
    exists_of_mem_events h hevent
  · exact ⟨Graph.colon_not_mem_ofString (h p hp).path, p.2.type_place_ne⟩
  · exact Graph.colon_not_mem_ofString (h p hp).path
  · exact ⟨hholds, hplain⟩

theorem entry_of_place {path name type : Points} {language : Json}
    (hplace : Event.place path name type language ∈ e.tree.events) :
    ∃ p ∈ e.held none, path = Points.ofString p.2.path ∧ name = p.2.place.name ∧
      type = p.2.place.type := by
  obtain ⟨p, hp, heq | ⟨above, -, heq⟩ | ⟨holder, kind, name, heq, -⟩⟩ :=
    exists_of_mem_events h hplace
  · obtain ⟨hpath, hname, htype, -⟩ := Event.place.inj heq
    exact ⟨p, hp, hpath, hname, htype⟩
  · cases heq
  · cases heq

theorem entry_of_contains {holder path : Points}
    (hcontains : Event.contains holder path ∈ e.tree.events) :
    ∃ p ∈ e.held none, path = Points.ofString p.2.path ∧
      p.1.map Points.ofString = some holder := by
  obtain ⟨p, hp, heq | ⟨above, habove, heq⟩ | ⟨holder, kind, name, heq, -⟩⟩ :=
    exists_of_mem_events h hcontains
  · cases heq
  · obtain ⟨rfl, hpath⟩ := Event.contains.inj heq
    exact ⟨p, hp, hpath, congrArg (Option.map Points.ofString) habove⟩
  · cases heq

/-- An entry is known by its path, so what is told of one path is told of one entry. -/
theorem clear_events (hjoined : e.Joined) : Graph.Clear e.tree.events := by
  have hsame {p q : Option String × Entry} (hp : p ∈ e.held none) (hq : q ∈ e.held none)
      (hpath : Points.ofString p.2.path = Points.ofString q.2.path) : p = q := by
    have hnodup : ((e.held none).map fun p => p.2.path).Nodup :=
      paths_held none e ▸ e.nodup_paths_homes hjoined
    exact List.inj_on_of_nodup_map hnodup hp hq (Points.ofString_inj.1 hpath)
  refine ⟨fun event => sound_of_mem_events h, fun hplace hplace' => ?_,
    fun hcontains hcontains' => ?_⟩
  · obtain ⟨p, hp, rfl, rfl, rfl⟩ := entry_of_place h hplace
    obtain ⟨q, hq, hpath, rfl, rfl⟩ := entry_of_place h hplace'
    obtain rfl := hsame hp hq hpath
    exact ⟨rfl, rfl⟩
  · obtain ⟨p, hp, rfl, hholder⟩ := entry_of_contains h hcontains
    obtain ⟨q, hq, hpath, hholder'⟩ := entry_of_contains h hcontains'
    obtain rfl := hsame hp hq hpath
    exact Option.some.inj (hholder.symm.trans hholder')

end

end Entry

namespace Graph

def Occurs (edits : List Edit) (id : Json) : Prop :=
  (∃ attributes, Edit.node id attributes ∈ edits) ∨
    ∃ other relation, Edit.edge id other relation ∈ edits ∨ Edit.edge other id relation ∈ edits

theorem Rooted.exists_source {root : Points} {edits : List Edit} (h : Rooted root edits) {id : Json}
    (hid : Occurs edits id) (hne : id ≠ .str root) :
    ∃ source relation, Edit.edge source id relation ∈ edits := by
  obtain ⟨text, rfl, hnamed⟩ : ∃ text, id = .str text ∧ Named edits text := by
    rcases hid with ⟨attributes, hnode⟩ | ⟨other, relation, hedge | hedge⟩
    · obtain ⟨text, rfl, hnamed, -⟩ := h.node _ _ hnode
      exact ⟨text, rfl, hnamed⟩
    · obtain ⟨s, t, rfl, -, -, hnamed, -⟩ := h.edge _ _ _ hedge
      exact ⟨s, rfl, hnamed⟩
    · obtain ⟨s, t, -, rfl, -, -, hnamed⟩ := h.edge _ _ _ hedge
      exact ⟨t, rfl, hnamed⟩
  rcases (h.reaches hnamed).cases_tail with heq | ⟨source, -, relation, hedge⟩
  · exact absurd (congrArg Json.str heq) hne
  · exact ⟨.str source, relation, hedge⟩

/-- Where no path and no name has a colon, ids of the knowledge graph of a survey have one reading:
nodes are added under one id just if they stand for the same thing. So the type of a node stays what
it is, and every node but the root hangs from one other. -/
theorem ids_have_one_reading (lib : Grammar.Library) (d : Disk) (root : String)
    (p : Survey.Progress)
    (h : ∀ entry ∈ (Survey.survey lib d root p).1.held none, entry.2.ColonFree) :
    let e := (Survey.survey lib d root p).1
    let edits := (Knowledge.draw e.toJson).edits
    (∃ calls : List (Points × Identity),
      edits.filterMap Edit.call? = calls.map Identity.told ∧
        calls.map Prod.snd = e.tree.events.filterMap Event.identity? ∧
        ∀ a ∈ calls, ∀ b ∈ calls, a.1 = b.1 ↔ a.2 = b.2) ∧
      (∀ id attributes other, Edit.node id attributes ∈ edits → Edit.node id other ∈ edits →
        attributes.lookup "type" = other.lookup "type") ∧
      ∀ id, Occurs edits id → id ≠ .str (Path.absolute d.cwd root) →
        ∃! source, ∃ relation, Edit.edge source id relation ∈ edits := by
  have hjoined := Survey.joined_survey lib d root p
  have hpath := Survey.path_survey lib d root p
  generalize (Survey.survey lib d root p).1 = e at h hjoined hpath
  have hclear := Entry.clear_events h hjoined
  have hrooted := rooted_tree Scheme.regular_knowledge renders_knowledge e.tree
    (e.nested_tree hjoined)
  have hdraw : Knowledge.draw e.toJson = .ofEdits (Scheme.knowledge.render e.tree.events) :=
    Knowledge.draws.tree none _ e.isOf_toJson
  dsimp only
  rw [hdraw, ← hpath, ← e.path_tree]
  refine ⟨⟨_, calls_render _, ?_, fun a ha b hb => hclear.id_eq_iff ha hb⟩, ?_, ?_⟩
  · rw [List.map_filterMap]
    exact congrArg (fun f => e.tree.events.filterMap f) (funext Event.map_snd_call?)
  · exact fun id attributes other => hclear.type_eq
  · intro id hid hne
    obtain ⟨source, relation, hedge⟩ := hrooted.exists_source hid hne
    refine ⟨source, ⟨relation, hedge⟩, ?_⟩
    rintro other ⟨relation', hedge'⟩
    exact hclear.source_eq hedge' hedge

theorem twoShapes_read :
    let e := (Survey.survey twoShapesLibrary twoShapesDisk "/" .none).1
    let edits := (Knowledge.draw e.toJson).edits
    (∀ entry ∈ e.held none, entry.2.ColonFree) ∧
      Edit.node (.str "/a.py::class::Shape") [("type", .str "class"), ("name", .str "Shape")] ∈
        edits ∧
      Edit.node (.str "/a.py::func::Shape") [("type", .str "function"), ("name", .str "Shape")] ∈
        edits ∧
      ∃! source, ∃ relation,
        Edit.edge source (.str "/a.py::class::Shape::func::area") relation ∈ edits := by
  have hfree : ∀ entry ∈ (Survey.survey twoShapesLibrary twoShapesDisk "/" .none).1.held none,
      entry.2.ColonFree := by
    rw [survey_twoShapes, Entry.held, Entry.heldEach, Entry.heldEach, Entry.held]
    simp only [List.append_nil, List.forall_mem_cons]
    refine ⟨⟨by decide +kernel, fun _ hnone => absurd hnone (Option.not_mem_none _)⟩,
      ⟨by decide +kernel, ?_⟩, fun _ hnil => absurd hnil List.not_mem_nil⟩
    intro definitions hdefinitions
    obtain rfl := Option.some.inj hdefinitions
    decide +kernel
  have hdraw : (Knowledge.draw
      (Survey.survey twoShapesLibrary twoShapesDisk "/" .none).1.toJson).edits =
        [.node (.str "/") [("name", .str ""), ("type", .str "folder"), ("language", .str "")],
          .node (.str "/a.py")
            [("name", .str "a.py"), ("type", .str "file"), ("language", .str "python")],
          .edge (.str "/") (.str "/a.py") "contains",
          .node (.str "/a.py::class::Shape") [("type", .str "class"), ("name", .str "Shape")],
          .edge (.str "/a.py") (.str "/a.py::class::Shape") "defines",
          .node (.str "/a.py::class::Shape::func::area")
            [("type", .str "function"), ("name", .str "area")],
          .edge (.str "/a.py::class::Shape") (.str "/a.py::class::Shape::func::area") "defines",
          .node (.str "/a.py::func::Shape") [("type", .str "function"), ("name", .str "Shape")],
          .edge (.str "/a.py") (.str "/a.py::func::Shape") "defines"] := by
    rw [survey_twoShapes]
    exact congrArg Drawing.edits (Knowledge.draws.tree none _ (Entry.isOf_toJson _))
  obtain ⟨-, -, honly⟩ := ids_have_one_reading twoShapesLibrary twoShapesDisk "/" .none hfree
  have hroot : Points.ofString "/a.py::class::Shape::func::area" ≠
      Points.ofString (Path.absolute twoShapesDisk.cwd "/") := by decide +kernel
  refine ⟨hfree, ?_, ?_, honly _ (.inl ⟨[("type", .str "function"), ("name", .str "area")], ?_⟩)
    fun heq => hroot (Json.str.inj heq)⟩
  all_goals
    rw [hdraw]
    simp

end Graph

end CodeAtlas
