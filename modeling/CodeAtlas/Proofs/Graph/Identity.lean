import CodeAtlas.Proofs.Graph.Rooted

/-! Reading off an id of the knowledge graph what it stands for. An id is made of parts that are set
apart by two colons and the kind of the next part, so where the parts hold no colons themselves, an
id has one reading only. -/

namespace CodeAtlas

open Text (Points CodePoint)

theorem append_cons_inj_of_not_mem {α : Type} {c : α} {a b n m : List α} (hn : c ∉ n) (hm : c ∉ m)
    (h : a ++ c :: n = b ++ c :: m) : a = b ∧ n = m := by
  rcases List.append_eq_append_iff.1 h with ⟨rest, hb, hrest⟩ | ⟨rest, ha, hrest⟩
  · rcases rest with _ | ⟨x, rest⟩
    · exact ⟨by simp [hb], (List.cons.inj hrest).2⟩
    · exact absurd (by simp [(List.cons.inj hrest).2]) hn
  · rcases rest with _ | ⟨x, rest⟩
    · exact ⟨by simp [ha], (List.cons.inj hrest).2.symm⟩
    · exact absurd (by simp [(List.cons.inj hrest).2]) hm

namespace Graph

def colon : CodePoint := .char ':'

theorem Kind.colon_not_mem_tag (kind : Kind) : colon ∉ Points.ofString kind.tag := by
  cases kind <;> decide +kernel

theorem Kind.tag_inj {kind other : Kind}
    (h : Points.ofString kind.tag = Points.ofString other.tag) : kind = other := by
  revert h
  cases kind <;> cases other <;> decide +kernel

theorem Kind.type_inj {kind other : Kind}
    (h : Points.ofString kind.type = Points.ofString other.type) : kind = other := by
  revert h
  cases kind <;> cases other <;> decide +kernel

namespace Entity

def Plain : Entity → Prop
  | place path => colon ∉ path
  | inside holder _ name => holder.Plain ∧ colon ∉ name

def path : Entity → Points
  | place path => path
  | inside holder _ _ => holder.path

def nearest (kind : Kind) : Entity → Option Points
  | place _ => none
  | inside holder other name => if other = kind then some name else holder.nearest kind

inductive Holds : Entity → Prop
  | place (path : Points) : Holds (place path)
  | cls (path name : Points) : Holds (inside (.place path) .cls name)
  | function (path name : Points) : Holds (inside (.place path) .function name)
  | method (path cls name : Points) :
    Holds (inside (.inside (.place path) .cls cls) .function name)

theorem Holds.eq {a b : Entity} (ha : a.Holds) (hb : b.Holds) (hpath : a.path = b.path)
    (hcls : a.nearest .cls = b.nearest .cls)
    (hfunction : a.nearest .function = b.nearest .function) : a = b := by
  cases ha <;> cases hb <;> simp_all [Entity.path, nearest]

theorem id_inside (holder : Entity) (kind : Kind) (name : Points) :
    Scheme.knowledge.id (.inside holder kind name) =
      (((Scheme.knowledge.id holder ++ [colon]) ++ colon :: Points.ofString kind.tag) ++ [colon]) ++
        colon :: name := by
  have htag : Points.ofString ("::" ++ kind.tag ++ "::") =
      colon :: colon :: Points.ofString kind.tag ++ [colon, colon] := by
    cases kind <;> decide +kernel
  have hid : Scheme.knowledge.id (.inside holder kind name) =
      Scheme.knowledge.id holder ++ Points.ofString ("::" ++ kind.tag ++ "::") ++ name := rfl
  rw [hid, htag]
  simp

theorem colon_mem_id (holder : Entity) (kind : Kind) (name : Points) :
    colon ∈ Scheme.knowledge.id (.inside holder kind name) := by
  rw [id_inside]
  simp

/-- An id has one reading. What follows the last colon is the name, what stands before that the
kind, and the rest is the id of the holder. -/
theorem id_inj {a b : Entity} (ha : a.Plain) (hb : b.Plain)
    (h : Scheme.knowledge.id a = Scheme.knowledge.id b) : a = b := by
  induction a generalizing b with
  | place path =>
    cases b with
    | place other => exact congrArg place h
    | inside holder kind name =>
      have hcolon := colon_mem_id holder kind name
      rw [← h] at hcolon
      exact absurd hcolon ha
  | inside holder kind name ih =>
    cases b with
    | place path =>
      have hcolon := colon_mem_id holder kind name
      rw [h] at hcolon
      exact absurd hcolon hb
    | inside other otherKind otherName =>
      rw [id_inside, id_inside] at h
      obtain ⟨hfront, rfl⟩ := append_cons_inj_of_not_mem ha.2 hb.2 h
      obtain ⟨hholder, htag⟩ := append_cons_inj_of_not_mem kind.colon_not_mem_tag
        otherKind.colon_not_mem_tag (List.append_cancel_right hfront)
      rw [Kind.tag_inj htag, ih ha.1 hb.1 (List.append_cancel_right hholder)]

end Entity

structure Identity where
  type : Points
  path : Points
  cls : Option Points
  function : Option Points
  name : Points
  deriving DecidableEq

namespace Event

def identity? : Event → Option Identity
  | place path name type _ => some ⟨type, path, none, none, name⟩
  | contains _ _ => none
  | definition holder kind name =>
    some ⟨kind.type, holder.path, holder.nearest .cls, holder.nearest .function, name⟩

def id : Event → Points
  | place path _ _ _ => path
  | contains _ path => path
  | definition holder kind name => Scheme.knowledge.id (.inside holder kind name)

def call? (e : Event) : Option (Points × Identity) := e.identity?.map fun known => (e.id, known)

theorem map_snd_call? (e : Event) : e.call?.map Prod.snd = e.identity? := by
  cases e <;> rfl

def Sound : Event → Prop
  | place path _ type _ =>
    colon ∉ path ∧ ∀ kind : Kind, type ≠ Points.ofString kind.type
  | contains _ path => colon ∉ path
  | definition holder kind name => holder.Holds ∧ (Entity.inside holder kind name).Plain

end Event

def Edit.call? : Edit → Option (Json × Option Json × Option Json)
  | .node id attributes => some (id, attributes.lookup "type", attributes.lookup "name")
  | .edge .. => none

def Identity.told (call : Points × Identity) : Json × Option Json × Option Json :=
  (.str call.1, some (.str call.2.type), some (.str call.2.name))

theorem call?_edits (e : Event) :
    (Scheme.knowledge.edits e).filterMap Edit.call? = e.call?.toList.map Identity.told := by
  cases e <;> rfl

theorem calls_render (events : List Event) :
    (Scheme.knowledge.render events).filterMap Edit.call? =
      (events.filterMap Event.call?).map Identity.told := by
  rw [Scheme.render, List.filterMap_flatMap, List.filterMap_eq_flatMap_toList, List.map_flatMap]
  exact List.flatMap_congr fun e _ => call?_edits e

/-- A row of events in which every place is told of once, and held once. -/
structure Clear (events : List Event) : Prop where
  sound : ∀ e ∈ events, e.Sound
  place : ∀ {path name name' type type' language language'},
    Event.place path name type language ∈ events → Event.place path name' type' language' ∈ events →
      name = name' ∧ type = type'
  holder : ∀ {holder holder' path},
    Event.contains holder path ∈ events → Event.contains holder' path ∈ events → holder = holder'

namespace Clear

variable {events : List Event} (h : Clear events)

include h

theorem definition_eq {holder holder' : Entity} {kind kind' : Kind} {name name' : Points}
    (he : Event.definition holder kind name ∈ events)
    (he' : Event.definition holder' kind' name' ∈ events)
    (hid : Scheme.knowledge.id (.inside holder kind name) =
      Scheme.knowledge.id (.inside holder' kind' name')) :
    holder = holder' ∧ kind = kind' ∧ name = name' := by
  have heq := Entity.id_inj (h.sound _ he).2 (h.sound _ he').2 hid
  exact Entity.inside.inj heq

theorem place_ne_definition {path name type inner : Points} {language : Json} {holder : Entity}
    {kind : Kind} (he : Event.place path name type language ∈ events) :
    path ≠ Scheme.knowledge.id (.inside holder kind inner) ∧ type ≠ Points.ofString kind.type := by
  obtain ⟨hcolon, htype⟩ := h.sound _ he
  exact ⟨fun heq => hcolon (heq ▸ holder.colon_mem_id kind inner), htype kind⟩

theorem id_eq_iff {a b : Points × Identity} (ha : a ∈ events.filterMap Event.call?)
    (hb : b ∈ events.filterMap Event.call?) : a.1 = b.1 ↔ a.2 = b.2 := by
  obtain ⟨e, he, hcall⟩ := List.mem_filterMap.1 ha
  obtain ⟨e', he', hcall'⟩ := List.mem_filterMap.1 hb
  cases e with
  | contains holder path => cases hcall
  | place path name type language =>
    obtain rfl := Option.some.inj hcall
    cases e' with
    | contains holder path => cases hcall'
    | place path' name' type' language' =>
      obtain rfl := Option.some.inj hcall'
      constructor
      · rintro rfl
        obtain ⟨rfl, rfl⟩ := h.place he he'
        rfl
      · exact congrArg Identity.path
    | definition holder kind name' =>
      obtain rfl := Option.some.inj hcall'
      obtain ⟨hid, htype⟩ := h.place_ne_definition he
      exact iff_of_false hid fun hsame => htype (congrArg Identity.type hsame)
  | definition holder kind name =>
    obtain rfl := Option.some.inj hcall
    cases e' with
    | contains holder path => cases hcall'
    | place path' name' type' language' =>
      obtain rfl := Option.some.inj hcall'
      obtain ⟨hid, htype⟩ := h.place_ne_definition he'
      exact iff_of_false (Ne.symm hid) fun hsame => htype (congrArg Identity.type hsame).symm
    | definition holder' kind' name' =>
      obtain rfl := Option.some.inj hcall'
      constructor
      · intro hid
        obtain ⟨rfl, rfl, rfl⟩ := h.definition_eq he he' hid
        rfl
      · intro hsame
        obtain ⟨htype, hpath, hcls, hfunction, rfl⟩ := Identity.mk.inj hsame
        obtain rfl := Kind.type_inj htype
        rw [(h.sound _ he).1.eq (h.sound _ he').1 hpath hcls hfunction]

theorem type_eq {id : Json} {attributes other : List (String × Json)}
    (hnode : Edit.node id attributes ∈ Scheme.knowledge.render events)
    (hother : Edit.node id other ∈ Scheme.knowledge.render events) :
    attributes.lookup "type" = other.lookup "type" := by
  have hcall {found : List (String × Json)}
      (hmem : Edit.node id found ∈ Scheme.knowledge.render events) :
      ∃ call ∈ events.filterMap Event.call?,
        Identity.told call = (id, found.lookup "type", found.lookup "name") := by
    rw [← List.mem_map, ← calls_render]
    exact List.mem_filterMap.2 ⟨_, hmem, rfl⟩
  obtain ⟨a, ha, htold⟩ := hcall hnode
  obtain ⟨b, hb, htold'⟩ := hcall hother
  simp only [Identity.told, Prod.mk.injEq] at htold htold'
  have hid : a.1 = b.1 := Json.str.inj (htold.1.trans htold'.1.symm)
  rw [← htold.2.1, ← htold'.2.1, (h.id_eq_iff ha hb).1 hid]

omit h in
theorem event_of_edge {source target : Json} {relation : String}
    (hedge : Edit.edge source target relation ∈ Scheme.knowledge.render events) :
    (∃ holder path, Event.contains holder path ∈ events ∧ source = .str holder ∧
        target = .str path) ∨
      ∃ holder kind name, Event.definition holder kind name ∈ events ∧
        source = .str (Scheme.knowledge.id holder) ∧
        target = .str (Scheme.knowledge.id (.inside holder kind name)) := by
  obtain ⟨e, he, hmem⟩ := List.mem_flatMap.1 hedge
  cases e with
  | place path name type language => simp [Scheme.edits] at hmem
  | contains holder path =>
    obtain ⟨rfl, rfl, -⟩ : source = .str holder ∧ target = .str path ∧ _ := by
      simpa [Scheme.edits] using hmem
    exact .inl ⟨holder, path, he, rfl, rfl⟩
  | definition holder kind name =>
    obtain ⟨rfl, rfl, -⟩ : source = .str (Scheme.knowledge.id holder) ∧
        target = .str (Scheme.knowledge.id (.inside holder kind name)) ∧ _ := by
      simpa [Scheme.edits] using hmem
    exact .inr ⟨holder, kind, name, he, rfl, rfl⟩

theorem source_eq {source source' target : Json} {relation relation' : String}
    (hedge : Edit.edge source target relation ∈ Scheme.knowledge.render events)
    (hedge' : Edit.edge source' target relation' ∈ Scheme.knowledge.render events) :
    source = source' := by
  rcases event_of_edge hedge with ⟨holder, path, he, rfl, rfl⟩ | ⟨holder, kind, name, he, rfl, rfl⟩
  · rcases event_of_edge hedge' with ⟨holder', path', he', rfl, heq⟩ |
      ⟨holder', kind', name', he', rfl, heq⟩
    · obtain rfl := Json.str.inj heq
      rw [h.holder he he']
    · have hcolon := holder'.colon_mem_id kind' name'
      rw [← Json.str.inj heq] at hcolon
      exact absurd hcolon (h.sound _ he)
  · rcases event_of_edge hedge' with ⟨holder', path', he', rfl, heq⟩ |
      ⟨holder', kind', name', he', rfl, heq⟩
    · have hcolon := holder.colon_mem_id kind name
      rw [Json.str.inj heq] at hcolon
      exact absurd hcolon (h.sound _ he')
    · rw [(h.definition_eq he he' (Json.str.inj heq)).1]

end Clear

end Graph

end CodeAtlas
