import CodeAtlas.Proofs.Graph.Events
import CodeAtlas.Proofs.Survey.Placement
import Mathlib.Logic.Relation

/-! The graphs of a survey hang together. Whatever is added comes with an edge from a node that is
there already, and its id goes on where that of the other node ends. So every partial graph has all
its nodes below the root, and no way leads back. -/

namespace CodeAtlas

open Text (Points)

namespace Graph

def Named (edits : List Edit) (id : Points) : Prop :=
  ∃ attributes, Edit.node (.str id) attributes ∈ edits ∧
    (attributes.lookup "type").isSome ∧ (attributes.lookup "name").isSome

def Joins (edits : List Edit) (source target : Points) : Prop :=
  ∃ relation, Edit.edge (.str source) (.str target) relation ∈ edits

def Lengthens (text more : Points) : Prop := text <+: more ∧ text ≠ more

structure Rooted (root : Points) (edits : List Edit) : Prop where
  named : Named edits root
  node : ∀ id attributes, Edit.node id attributes ∈ edits →
    ∃ text, id = .str text ∧ Named edits text ∧ Relation.ReflTransGen (Joins edits) root text
  edge : ∀ source target relation, Edit.edge source target relation ∈ edits →
    ∃ s t, source = .str s ∧ target = .str t ∧ Lengthens s t ∧ Named edits s ∧ Named edits t

theorem Lengthens.length_lt {text more : Points} (h : Lengthens text more) :
    text.length < more.length := by
  obtain ⟨⟨rest, rfl⟩, hne⟩ := h
  rcases rest with _ | ⟨p, rest⟩
  · exact absurd (List.append_nil text).symm hne
  · rw [List.length_append, List.length_cons]
    exact Nat.lt_add_of_pos_right (Nat.succ_pos _)

theorem lengthens_append {text more : Points} (h : more ≠ []) : Lengthens text (text ++ more) :=
  ⟨List.prefix_append text more, fun heq => h (List.self_eq_append_right.1 heq)⟩

variable {root holder id : Points} {edits more : List Edit}

theorem Named.mono (h : Named edits id) (hsub : edits ⊆ more) : Named more id := by
  obtain ⟨attributes, hmem, hattributes⟩ := h
  exact ⟨attributes, hsub hmem, hattributes⟩

theorem joins_mono (hsub : edits ⊆ more) {source target : Points} (h : Joins edits source target) :
    Joins more source target := by
  obtain ⟨relation, hmem⟩ := h
  exact ⟨relation, hsub hmem⟩

theorem Rooted.reaches (h : Rooted root edits) (hid : Named edits id) :
    Relation.ReflTransGen (Joins edits) root id := by
  obtain ⟨attributes, hmem, -⟩ := hid
  obtain ⟨text, htext, -, hreaches⟩ := h.node _ _ hmem
  exact Json.str.inj htext ▸ hreaches

theorem Rooted.acyclic (h : Rooted root edits) (id : Points) :
    ¬ Relation.TransGen (Joins edits) id id := by
  -- Ids get longer along every edge, so no way comes back to where it started.
  have hstep {a b : Points} (hjoins : Joins edits a b) : a.length < b.length := by
    obtain ⟨relation, hmem⟩ := hjoins
    obtain ⟨s, t, hs, ht, hlength, -⟩ := h.edge _ _ _ hmem
    obtain rfl := Json.str.inj hs
    obtain rfl := Json.str.inj ht
    exact hlength.length_lt
  have hway {a b : Points} (hjoins : Relation.TransGen (Joins edits) a b) :
      a.length < b.length := by
    induction hjoins with
    | single hjoins => exact hstep hjoins
    | tail _ hjoins ih => exact Nat.lt_trans ih (hstep hjoins)
  intro hcycle
  exact Nat.lt_irrefl _ (hway hcycle)

theorem rooted_singleton {attributes : List (String × Json)}
    (htype : (attributes.lookup "type").isSome) (hname : (attributes.lookup "name").isSome) :
    Rooted root [.node (.str root) attributes] := by
  have hroot : Named [.node (.str root) attributes] root :=
    ⟨attributes, List.mem_singleton_self _, htype, hname⟩
  refine ⟨hroot, ?_, by simp⟩
  intro id found hmem
  obtain ⟨rfl, rfl⟩ : id = .str root ∧ found = attributes := by simpa using hmem
  exact ⟨root, rfl, hroot, .refl⟩

theorem Rooted.add (h : Rooted root edits) (hholder : Named edits holder)
    (hid : Lengthens holder id) {attributes : List (String × Json)}
    (htype : (attributes.lookup "type").isSome) (hname : (attributes.lookup "name").isSome)
    (relation : String) :
    Rooted root
      (edits ++ [.node (.str id) attributes, .edge (.str holder) (.str id) relation]) := by
  have hsub := List.subset_append_left edits
    [.node (.str id) attributes, .edge (.str holder) (.str id) relation]
  have hnew : Named (edits ++ [.node (.str id) attributes,
      .edge (.str holder) (.str id) relation]) id := ⟨attributes, by simp, htype, hname⟩
  have hold {text : Points} (hreaches : Relation.ReflTransGen (Joins edits) root text) :=
    Relation.ReflTransGen.mono (fun _ _ => joins_mono hsub) _ _ hreaches
  refine ⟨h.named.mono hsub, ?_, ?_⟩
  · intro node found hmem
    rcases List.mem_append.1 hmem with hmem | hmem
    · obtain ⟨text, rfl, hnamed, hreaches⟩ := h.node node found hmem
      exact ⟨text, rfl, hnamed.mono hsub, hold hreaches⟩
    · obtain ⟨rfl, rfl⟩ : node = .str id ∧ found = attributes := by simpa using hmem
      -- The new node is reached by way of its holder.
      exact ⟨id, rfl, hnew, (hold (h.reaches hholder)).tail ⟨relation, by simp⟩⟩
  · intro source target found hmem
    rcases List.mem_append.1 hmem with hmem | hmem
    · obtain ⟨s, t, rfl, rfl, hlength, hs, ht⟩ := h.edge source target found hmem
      exact ⟨s, t, rfl, rfl, hlength, hs.mono hsub, ht.mono hsub⟩
    · obtain ⟨rfl, rfl, rfl⟩ : source = .str holder ∧ target = .str id ∧ found = relation := by
        simpa using hmem
      exact ⟨holder, id, rfl, rfl, hid, hholder.mono hsub, hnew⟩

structure Scheme.Regular (s : Scheme) : Prop where
  below : ∀ id kind name, Lengthens id (s.idBelow id kind name)
  type : ∀ name type language, ((s.attributes name type language).lookup "type").isSome
  name : ∀ name type language, ((s.attributes name type language).lookup "name").isSome

theorem Scheme.regular_knowledge : knowledge.Regular where
  below id kind name := by
    have htag : Points.ofString ("::" ++ kind.tag ++ "::") ++ name ≠ [] := by
      cases kind <;> exact List.cons_ne_nil _ _
    have hid : knowledge.idBelow id kind name = id ++ (_ ++ name) := List.append_assoc _ _ _
    rw [hid]
    exact lengthens_append htag
  type _ _ _ := rfl
  name _ _ _ := rfl

theorem Scheme.regular_outline : outline.Regular where
  below id kind name := by
    have hid : outline.idBelow id kind name = id ++ (Points.ofString ":" ++ name) :=
      List.append_assoc _ _ _
    rw [hid]
    exact lengthens_append (List.cons_ne_nil _ _)
  type _ _ _ := rfl
  name _ _ _ := rfl

def Renders (s : Scheme) (draw : Event → List Edit) : Prop :=
  ∀ e, draw e = s.edits e ∨ e.isVariable ∧ draw e = []

def Keeps (draw : Event → List Edit) (root holder : Points) (events : List Event) : Prop :=
  ∀ before, Rooted root before → Named before holder → Rooted root (before ++ events.flatMap draw)

section

variable {draw : Event → List Edit} {events later : List Event}

theorem keeps_nil : Keeps draw root holder [] := by
  intro before hbefore _
  rw [List.flatMap_nil, List.append_nil]
  exact hbefore

theorem Keeps.append (h : Keeps draw root holder events) (hlater : Keeps draw root holder later) :
    Keeps draw root holder (events ++ later) := by
  intro before hbefore hholder
  rw [List.flatMap_append, ← List.append_assoc]
  exact hlater _ (h before hbefore hholder) (hholder.mono (List.subset_append_left _ _))

theorem keeps_flatMap {α : Type} {f : α → List Event} {as : List α}
    (h : ∀ a ∈ as, Keeps draw root holder (f a)) : Keeps draw root holder (as.flatMap f) := by
  induction as with
  | nil => exact keeps_nil
  | cons a as ih =>
    obtain ⟨hfirst, hrest⟩ := List.forall_mem_cons.1 h
    rw [List.flatMap_cons]
    exact hfirst.append (ih hrest)

theorem keeps_added {attributes : List (String × Json)} {relation : String}
    (hevents : events.flatMap draw =
      [.node (.str id) attributes, .edge (.str holder) (.str id) relation])
    (htype : (attributes.lookup "type").isSome) (hname : (attributes.lookup "name").isSome)
    (hid : Lengthens holder id) (hlater : Keeps draw root id later) :
    Keeps draw root holder (events ++ later) := by
  intro before hbefore hholder
  have hadd := hbefore.add hholder hid htype hname relation
  have hnamed : Named (before ++ [.node (.str id) attributes,
      .edge (.str holder) (.str id) relation]) id := ⟨attributes, by simp, htype, hname⟩
  rw [List.flatMap_append, hevents, ← List.append_assoc]
  exact hlater _ hadd hnamed

end

section

variable {s : Scheme} {draw : Event → List Edit} (hs : s.Regular) (hdraw : Renders s draw)
  {events : List Event}

include hs hdraw

theorem keeps_definition (holder : Entity) {kind : Kind} (name : Points) (hkind : kind ≠ .variable)
    (h : Keeps draw root (s.id (.inside holder kind name)) events) :
    Keeps draw root (s.id holder) (.definition holder kind name :: events) := by
  have hrender : draw (.definition holder kind name) = s.edits (.definition holder kind name) := by
    rcases hdraw (.definition holder kind name) with heq | ⟨hvariable, -⟩
    · exact heq
    · cases kind with
      | cls => cases hvariable
      | function => cases hvariable
      | «variable» => exact absurd rfl hkind
  have hevents : [Event.definition holder kind name].flatMap draw =
      [.node (.str (s.id (.inside holder kind name)))
          [("type", .str kind.type), ("name", .str name)],
        .edge (.str (s.id holder)) (.str (s.id (.inside holder kind name)))
          (s.relation holder.kind? kind)] := by
    rw [List.flatMap_singleton, hrender, Scheme.edits]
  exact keeps_added hevents rfl rfl (hs.below (s.id holder) kind name) h

theorem keeps_variable (holder : Entity) (name : Points) :
    Keeps draw root (s.id holder) [.definition holder .variable name] := by
  intro before hbefore hholder
  rw [List.flatMap_singleton]
  rcases hdraw (.definition holder .variable name) with heq | ⟨-, heq⟩
  · rw [heq]
    exact hbefore.add hholder (hs.below (s.id holder) .variable name) rfl rfl _
  · rw [heq, List.append_nil]
    exact hbefore

theorem keeps_function (holder : Entity) (name : String) (variableNames : List String) :
    Keeps draw root (s.id holder) (functionEvents holder name variableNames) := by
  refine keeps_definition hs hdraw holder _ (by decide) ?_
  rw [List.map_eq_flatMap]
  exact keeps_flatMap fun v _ => keeps_variable hs hdraw _ _

theorem keeps_definitions (file : Entity) (definitions : Definitions) :
    Keeps draw root (s.id file) (definitionEvents file definitions) := by
  cases definitions with
  | program found => exact keeps_flatMap fun f _ => keeps_function hs hdraw file f.name []
  | outline found =>
    refine Keeps.append (keeps_flatMap fun c _ => ?_)
      (keeps_flatMap fun f _ => keeps_function hs hdraw file f.name f.variableNames)
    refine keeps_definition hs hdraw file _ (by decide) ?_
    exact keeps_flatMap fun f _ => keeps_function hs hdraw _ f.name f.variableNames

theorem keeps_place (place : Report.Place) : Keeps draw root place.path place.definitionEvents := by
  rw [Report.Place.definitionEvents]
  split
  · exact keeps_flatMap fun definitions _ =>
      keeps_definitions hs hdraw (.place place.path) definitions
  · exact keeps_nil

end

end Graph

namespace Report.Tree

def path : Tree → Points
  | node place _ => place.path

mutual

def Nested : Tree → Prop
  | node place children => NestedEach place.path children

def NestedEach (above : Points) : List Tree → Prop
  | [] => True
  | t :: ts => above ≠ [] ∧ Graph.Lengthens above t.path ∧ t.Nested ∧ NestedEach above ts

end

end Report.Tree

namespace Graph

open Report (Tree)

section

variable {s : Scheme} {draw : Event → List Edit}

theorem draw_selfEvents (hdraw : Renders s draw) (holder : Option Points) (place : Report.Place) :
    (place.selfEvents holder).flatMap draw = (place.selfEvents holder).flatMap s.edits := by
  refine List.flatMap_congr fun e he => ?_
  rcases hdraw e with heq | ⟨hvariable, -⟩
  · exact heq
  · rw [Report.Place.selfEvents, List.mem_cons, List.mem_map] at he
    rcases he with rfl | ⟨above, -, rfl⟩ <;> cases hvariable

mutual

theorem keeps_tree (hs : s.Regular) (hdraw : Renders s draw) {root above : Points} (t : Tree)
    (habove : above ≠ []) (hpath : Lengthens above t.path) (h : t.Nested) :
    Keeps draw root above (t.eventsBelow (some above)) := by
  match t with
  | .node place children =>
    rw [Tree.Nested] at h
    have hself : (place.selfEvents (some above)).flatMap draw =
        [.node (.str place.path) (s.attributes place.name place.type place.language),
          .edge (.str above) (.str place.path) "contains"] := by
      rw [draw_selfEvents hdraw, Report.Place.selfEvents, Option.toList_some,
        List.filter_cons_of_pos (by simpa using habove)]
      rfl
    -- The node of the place comes first, so it can hold all that is told after it.
    rw [Tree.eventsBelow, Report.Place.events, List.append_assoc]
    exact keeps_added hself (hs.type _ _ _) (hs.name _ _ _) hpath
      ((keeps_place hs hdraw place).append (keeps_trees hs hdraw children h))

theorem keeps_trees (hs : s.Regular) (hdraw : Renders s draw) {root above : Points}
    (ts : List Tree) (h : Tree.NestedEach above ts) :
    Keeps draw root above (Tree.eventsEach above ts) := by
  match ts with
  | [] => exact keeps_nil
  | t :: ts =>
    rw [Tree.NestedEach] at h
    obtain ⟨habove, hpath, hnested, hrest⟩ := h
    rw [Tree.eventsEach]
    exact (keeps_tree hs hdraw t habove hpath hnested).append (keeps_trees hs hdraw ts hrest)

end

theorem rooted_tree (hs : s.Regular) (hdraw : Renders s draw) (t : Tree) (h : t.Nested) :
    Rooted t.path (t.events.flatMap draw) := by
  rcases t with ⟨place, children⟩
  rw [Tree.Nested] at h
  have hself : (place.selfEvents none).flatMap draw =
      [.node (.str place.path) (s.attributes place.name place.type place.language)] :=
    draw_selfEvents hdraw none place
  have htop : Rooted place.path
      [.node (.str place.path) (s.attributes place.name place.type place.language)] :=
    rooted_singleton (hs.type _ _ _) (hs.name _ _ _)
  have hbelow : Keeps draw place.path place.path
      (place.definitionEvents ++ Tree.eventsEach place.path children) :=
    (keeps_place hs hdraw place).append (keeps_trees hs hdraw children h)
  rw [Tree.events, Tree.eventsBelow, Report.Place.events, List.append_assoc, List.flatMap_append,
    hself]
  exact hbelow _ htop htop.named

end

end Graph

def Finding.language : Finding → Json
  | read language _ => .str language.name
  | _ => .str ""

def Finding.definitions? : Finding → Option Definitions
  | read _ definitions => some definitions
  | _ => none

namespace Entry

mutual

def tree : Entry → Report.Tree
  | file name path finding =>
    .node ⟨name, path, "file", finding.language, finding.definitions?⟩ []
  | folder name path children => .node ⟨name, path, "folder", .str "", none⟩ (trees children)

def trees : List Entry → List Report.Tree
  | [] => []
  | e :: es => e.tree :: trees es

end

theorem path_tree (e : Entry) : e.tree.path = Points.ofString e.path := by
  cases e with
  | file name path finding =>
    rw [tree]
    rfl
  | folder name path children =>
    rw [tree]
    rfl

mutual

theorem isOf_toJson (e : Entry) : e.tree.IsOf e.toJson := by
  match e with
  | .file name path finding =>
    rw [tree, Report.Tree.IsOf, toJson]
    refine ⟨_, [], rfl, ?_, ?_, ?_⟩
    · constructor <;> cases finding <;>
        simp [Finding.members, Finding.language, Finding.definitions?]
    · cases finding <;> simp [Finding.members]
    · rw [Report.Tree.AreOf]
  | .folder name path children =>
    rw [tree, Report.Tree.IsOf, toJson]
    refine ⟨_, toJsonAll children, rfl, ?_, by simp, areOf_toJsonAll children⟩
    constructor <;> simp

theorem areOf_toJsonAll (es : List Entry) : Report.Tree.AreOf (toJsonAll es) (trees es) := by
  match es with
  | [] => rw [trees, Report.Tree.AreOf, toJsonAll]
  | e :: es =>
    rw [trees, Report.Tree.AreOf, toJsonAll]
    exact ⟨e.toJson, toJsonAll es, rfl, isOf_toJson e, areOf_toJsonAll es⟩

end

theorem lengthens_join {above name : String} (h : FileTree.isName name) :
    Graph.Lengthens (Points.ofString above) (Points.ofString (Path.join above name)) := by
  have hne : name.toList ≠ [] := by simpa using (FileTree.isName_iff.1 h).1
  obtain ⟨rest, hrest⟩ : above.toList <+: Path.stem above := by
    unfold Path.stem
    split
    · exact List.prefix_refl _
    · exact List.prefix_append _ _
  have hjoin : Points.ofString (Path.join above name) =
      Points.ofString above ++ Points.ofChars (rest ++ name.toList) := by
    rw [Points.ofString, Path.toList_join h, ← hrest, List.append_assoc]
    exact List.map_append
  rw [hjoin]
  apply Graph.lengthens_append
  simpa [Points.ofChars] using fun _ => (FileTree.isName_iff.1 h).1

mutual

theorem nested_tree (e : Entry) (h : e.Joined) : e.tree.Nested := by
  match e with
  | .file name path finding =>
    rw [tree, Report.Tree.Nested, Report.Tree.NestedEach]
    trivial
  | .folder name path children =>
    rw [Joined] at h
    rw [tree, Report.Tree.Nested]
    exact nestedEach_trees children h.1 h.2.2

theorem nestedEach_trees (es : List Entry) {above : String} (habove : above ≠ "")
    (h : JoinedEach above es) : Report.Tree.NestedEach (Points.ofString above) (trees es) := by
  match es with
  | [] =>
    rw [trees, Report.Tree.NestedEach]
    trivial
  | e :: es =>
    rw [JoinedEach] at h
    obtain ⟨hname, hpath, hjoined, hrest⟩ := h
    have hpoints : Points.ofString above ≠ [] := by
      simpa [Points.ofString, Points.ofChars] using habove
    rw [trees, Report.Tree.NestedEach, path_tree, hpath]
    exact ⟨hpoints, lengthens_join hname, nested_tree e hjoined,
      nestedEach_trees es habove hrest⟩

end

end Entry

namespace Graph

theorem renders_knowledge : Renders Scheme.knowledge Scheme.knowledge.edits := fun _ => .inl rfl

theorem renders_outline : Renders Scheme.outline Outline.edits := by
  intro e
  rw [Outline.edits]
  split
  · next hvariable => exact .inr ⟨hvariable, rfl⟩
  · exact .inl rfl

def Drawing.HangsFrom (top : Points) (drawing : Drawing) : Prop :=
  drawing.fault = none ∧ Rooted top drawing.edits ∧
    ∀ id, ¬ Relation.TransGen (Joins drawing.edits) id id

theorem hangsFrom_tree {s : Scheme} {draw : Event → List Edit} (hs : s.Regular)
    (hdraw : Renders s draw) {t : Report.Tree} (h : t.Nested) {drawing : Drawing}
    (hdrawing : drawing = .ofEdits (t.events.flatMap draw)) : drawing.HangsFrom t.path := by
  have hrooted := rooted_tree hs hdraw t h
  rw [hdrawing]
  exact ⟨rfl, hrooted, hrooted.acyclic⟩

/-- Both graphs of a survey hang from the node of its root. Every edge leads from an id to a longer
one that starts with it, and joins nodes that have a type and a name. -/
theorem graphs_of_survey_rooted (lib : Grammar.Library) (d : Disk) (root : String)
    (p : Survey.Progress) :
    let report := (Survey.survey lib d root p).1.toJson
    let top := Points.ofString (Path.absolute d.cwd root)
    (Outline.draw report).HangsFrom top ∧ (Knowledge.draw report).HangsFrom top := by
  have htree := Entry.isOf_toJson (Survey.survey lib d root p).1
  have hnested := Entry.nested_tree _ (Survey.joined_survey lib d root p)
  have hpath : (Survey.survey lib d root p).1.tree.path =
      Points.ofString (Path.absolute d.cwd root) := by
    rw [Entry.path_tree, Survey.path_survey]
  dsimp only
  rw [← hpath]
  constructor
  · exact hangsFrom_tree Scheme.regular_outline renders_outline hnested
      (Outline.draws.tree none _ htree)
  · exact hangsFrom_tree Scheme.regular_knowledge renders_knowledge hnested
      (Knowledge.draws.tree none _ htree)

end Graph

end CodeAtlas
