import CodeAtlas.Proofs.Disk.Reach
import CodeAtlas.Proofs.Graph.Rooted
import Mathlib.Data.List.Lattice
import Mathlib.Data.List.Nodup
import Mathlib.Data.List.Pairwise

/-! Names that are joined by colons. What is defined in a place is known by the path of the place, a
colon and a name, and a name can hold colons too. So two ids can be the same: in one place if the
names are, and in two places if the path of one goes on from that of the other with a colon. -/

namespace CodeAtlas

open Text (Points)

theorem nodup_flatMap_iff {α β : Type} {f : α → List β} {l : List α} (h : l.Nodup) :
    (l.flatMap f).Nodup ↔
      (∀ a ∈ l, (f a).Nodup) ∧ ∀ a ∈ l, ∀ b ∈ l, a ≠ b → List.Disjoint (f a) (f b) := by
  rw [List.nodup_flatMap]
  refine and_congr_right fun _ => ⟨fun hpairwise => ?_, h.pairwise_of_forall_ne⟩
  intro a ha b hb hne
  have hsymm : Std.Symm (Function.onFun List.Disjoint f) := ⟨fun _ _ => List.Disjoint.symm⟩
  exact hpairwise.forall ha hb hne

section Colons

variable {a b c d : String}

theorem toList_colon (a b : String) : (a ++ ":" ++ b).toList = a.toList ++ ':' :: b.toList := by
  simp

theorem ne_colon (a b : String) : a ≠ a ++ ":" ++ b := by
  intro h
  have hlist := congrArg String.toList h
  rw [toList_colon] at hlist
  exact List.cons_ne_nil _ _ (List.self_eq_append_right.1 hlist)

theorem colon_inj (h : c ++ ":" ++ a = c ++ ":" ++ b) : a = b := by
  have hlist := congrArg String.toList h
  rw [toList_colon, toList_colon] at hlist
  exact String.toList_inj.1 (List.cons.inj (List.append_cancel_left hlist)).2

theorem exists_colon {rest : List Char} (hc : c.toList = a.toList ++ ':' :: rest)
    (hb : b.toList = rest ++ ':' :: d.toList) :
    ∃ rest, c = a ++ ":" ++ rest ∧ b = rest ++ ":" ++ d := by
  refine ⟨String.ofList rest, ?_, ?_⟩
  · apply String.toList_inj.1
    rw [toList_colon, hc, String.toList_ofList]
  · apply String.toList_inj.1
    rw [toList_colon, hb, String.toList_ofList]

/-- Two texts that are the same with their colons are so part by part, or one of them has the colon
of the other within a part. -/
theorem colon_eq (h : a ++ ":" ++ b = c ++ ":" ++ d) :
    a = c ∨ (∃ rest, c = a ++ ":" ++ rest ∧ b = rest ++ ":" ++ d) ∨
      ∃ rest, a = c ++ ":" ++ rest ∧ d = rest ++ ":" ++ b := by
  have hlist := congrArg String.toList h
  rw [toList_colon, toList_colon] at hlist
  -- The shorter of the two first parts ends at a colon that the longer one holds.
  rcases List.append_eq_append_iff.1 hlist with ⟨rest, hc, hb⟩ | ⟨rest, ha, hd⟩
  · rcases rest with _ | ⟨p, rest⟩
    · rw [List.append_nil] at hc
      exact .inl (String.toList_inj.1 hc.symm)
    · obtain ⟨rfl, htail⟩ := List.cons.inj hb
      exact .inr (.inl (exists_colon hc htail))
  · rcases rest with _ | ⟨p, rest⟩
    · rw [List.append_nil] at ha
      exact .inl (String.toList_inj.1 ha)
    · obtain ⟨rfl, htail⟩ := List.cons.inj hd
      exact .inr (.inr (exists_colon ha htail))

end Colons

structure Home where
  path : String
  names : List String

namespace Home

def ids (home : Home) : List String :=
  home.path :: home.names.map fun name => home.path ++ ":" ++ name

/-- A name leads to the path of another place, or to a name in it. -/
def Strays (home other : Home) : Prop :=
  ∃ rest, other.path = home.path ++ ":" ++ rest ∧
    (rest ∈ home.names ∨ ∃ name ∈ other.names, rest ++ ":" ++ name ∈ home.names)

theorem nodup_ids {home : Home} : home.ids.Nodup ↔ home.names.Nodup := by
  have hinj : Function.Injective fun name => home.path ++ ":" ++ name := fun _ _ => colon_inj
  rw [ids, List.nodup_cons, List.nodup_map_iff hinj]
  refine and_iff_right fun hmem => ?_
  obtain ⟨name, -, heq⟩ := List.mem_map.1 hmem
  exact ne_colon home.path name heq.symm

theorem not_disjoint_of_strays {a b : Home} (h : a.Strays b) : ¬ List.Disjoint a.ids b.ids := by
  obtain ⟨rest, hpath, hname⟩ := h
  intro hdisjoint
  rcases hname with hrest | ⟨name, hname, hrest⟩
  · refine hdisjoint (List.mem_cons_of_mem _ (List.mem_map.2 ⟨rest, hrest, rfl⟩)) ?_
    rw [ids, ← hpath]
    exact List.mem_cons_self
  · refine hdisjoint (List.mem_cons_of_mem _ (List.mem_map.2 ⟨_, hrest, rfl⟩)) ?_
    refine List.mem_cons_of_mem _ (List.mem_map.2 ⟨name, hname, ?_⟩)
    rw [hpath]
    simp only [String.append_assoc]

theorem strays_of_common {a b : Home} (h : a.path ≠ b.path) {id : String} (ha : id ∈ a.ids)
    (hb : id ∈ b.ids) : a.Strays b ∨ b.Strays a := by
  rw [ids, List.mem_cons, List.mem_map] at ha hb
  rcases ha with rfl | ⟨m, hm, rfl⟩
  · rcases hb with hb | ⟨n, hn, hb⟩
    · exact absurd hb h
    · exact .inr ⟨n, hb.symm, .inl hn⟩
  · rcases hb with hb | ⟨n, hn, hb⟩
    · exact .inl ⟨m, hb.symm, .inl hm⟩
    · rcases colon_eq hb with hpath | ⟨rest, hpath, rfl⟩ | ⟨rest, hpath, rfl⟩
      · exact absurd hpath.symm h
      · exact .inr ⟨rest, hpath, .inr ⟨m, hm, hn⟩⟩
      · exact .inl ⟨rest, hpath, .inr ⟨n, hn, hm⟩⟩

theorem nodup_flatMap_ids {homes : List Home} (h : (homes.map Home.path).Nodup) :
    (homes.flatMap ids).Nodup ↔
      (∀ home ∈ homes, home.names.Nodup) ∧ ∀ a ∈ homes, ∀ b ∈ homes, ¬ a.Strays b := by
  rw [nodup_flatMap_iff (List.Nodup.of_map _ h)]
  refine and_congr (forall₂_congr fun home _ => nodup_ids) ⟨?_, ?_⟩
  · intro hdisjoint a ha b hb hstrays
    by_cases heq : a = b
    · subst heq
      obtain ⟨rest, hpath, -⟩ := hstrays
      exact ne_colon _ _ hpath
    · exact not_disjoint_of_strays hstrays (hdisjoint a ha b hb heq)
  · intro hstrays a ha b hb hne id hid hid'
    have hpath : a.path ≠ b.path := fun heq => hne (List.inj_on_of_nodup_map h ha hb heq)
    rcases strays_of_common hpath hid hid' with hab | hba
    · exact hstrays a ha b hb hab
    · exact hstrays b hb a ha hba

end Home

def Grammar.Class.home (c : Grammar.Class) : Home := ⟨c.name, c.functions.map Grammar.Function.name⟩

/-- No class leads to another, and no function is named like a class or a method behind one. -/
structure Grammar.Outline.Unmixed (o : Grammar.Outline) : Prop where
  classes : ∀ c ∈ o.classes, ∀ other ∈ o.classes, ¬ c.home.Strays other.home
  functions : ∀ c ∈ o.classes, ∀ f ∈ o.functions, f.name ∉ c.home.ids

namespace Definitions

def localNames : Definitions → List String
  | program found => found.functions.map Metta.Function.name
  | outline found =>
    (found.classes.map Grammar.Class.home).flatMap Home.ids ++
      found.functions.map Grammar.Function.name

def NamedApart : Definitions → Prop
  | program found => (found.functions.map Metta.Function.name).Nodup
  | outline found =>
    (found.classes.map Grammar.Class.name).Nodup ∧
      (found.functions.map Grammar.Function.name).Nodup ∧
      ∀ c ∈ found.classes, (c.functions.map Grammar.Function.name).Nodup

def Unmixed : Definitions → Prop
  | program _ => True
  | outline found => found.Unmixed

theorem nodup_localNames {definitions : Definitions} (h : definitions.NamedApart) :
    definitions.localNames.Nodup ↔ definitions.Unmixed := by
  cases definitions with
  | program found => exact iff_of_true h trivial
  | outline found =>
    obtain ⟨hclasses, hfunctions, hmethods⟩ := h
    have hpaths : ((found.classes.map Grammar.Class.home).map Home.path).Nodup := by
      rw [List.map_map]
      exact hclasses
    have hnames : ∀ home ∈ found.classes.map Grammar.Class.home, home.names.Nodup := by
      intro home hhome
      obtain ⟨c, hc, rfl⟩ := List.mem_map.1 hhome
      exact hmethods c hc
    rw [localNames, List.nodup_append, Home.nodup_flatMap_ids hpaths]
    constructor
    · rintro ⟨⟨-, hstrays⟩, -, hapart⟩
      refine ⟨fun c hc other hother => ?_, fun c hc f hf hid => ?_⟩
      · exact hstrays _ (List.mem_map_of_mem hc) _ (List.mem_map_of_mem hother)
      · exact hapart _ (List.mem_flatMap.2 ⟨_, List.mem_map_of_mem hc, hid⟩) _
          (List.mem_map_of_mem hf) rfl
    · rintro ⟨hstrays, hapart⟩
      refine ⟨⟨hnames, ?_⟩, hfunctions, ?_⟩
      · simpa only [List.forall_mem_map] using hstrays
      · rintro id hid name hname rfl
        obtain ⟨home, hhome, hid⟩ := List.mem_flatMap.1 hid
        obtain ⟨c, hc, rfl⟩ := List.mem_map.1 hhome
        obtain ⟨f, hf, rfl⟩ := List.mem_map.1 hname
        exact hapart c hc f hf hid

end Definitions

namespace Entry

def definitions? : Entry → Option Definitions
  | file _ _ finding => finding.definitions?
  | folder _ _ _ => none

mutual

def homes : Entry → List Home
  | file _ path finding => [⟨path, finding.definitions?.toList.flatMap Definitions.localNames⟩]
  | folder _ path children => ⟨path, []⟩ :: homesEach children

def homesEach : List Entry → List Home
  | [] => []
  | e :: es => e.homes ++ homesEach es

end

mutual

theorem forall_names_homes {P : List String → Prop} (hnil : P []) (e : Entry) :
    (∀ home ∈ e.homes, P home.names) ↔
      ∀ file ∈ e.files, ∀ definitions ∈ file.definitions?, P definitions.localNames := by
  match e with
  | .file name path finding =>
    rw [homes, files, List.forall_mem_singleton, List.forall_mem_singleton, definitions?]
    cases finding.definitions? with
    | none => simpa using hnil
    | some definitions => simp
  | .folder name path children =>
    rw [homes, files, List.forall_mem_cons, forall_names_homesEach hnil children]
    exact and_iff_right hnil

theorem forall_names_homesEach {P : List String → Prop} (hnil : P []) (es : List Entry) :
    (∀ home ∈ homesEach es, P home.names) ↔
      ∀ file ∈ filesEach es, ∀ definitions ∈ file.definitions?, P definitions.localNames := by
  match es with
  | [] => simp [homesEach, filesEach]
  | e :: es =>
    rw [homesEach, filesEach, List.forall_mem_append, List.forall_mem_append,
      forall_names_homes hnil e, forall_names_homesEach hnil es]

end

mutual

theorem extends_of_mem_homes (e : Entry) {above : String} (hname : FileTree.isName e.name)
    (hpath : e.path = Path.join above e.name) (h : e.Joined) {home : Home}
    (hhome : home ∈ e.homes) : Disk.Extends e.path home.path := by
  match e with
  | .file name path finding =>
    rw [homes, List.mem_singleton] at hhome
    rw [hhome]
    exact Disk.extends_refl path
  | .folder name path children =>
    rw [Joined] at h
    rw [homes, List.mem_cons] at hhome
    rcases hhome with rfl | hhome
    · exact Disk.extends_refl path
    · have hslash : ¬ Path.endsInSlash path := by
        rw [show path = _ from hpath]
        exact Path.not_endsInSlash_join hname
      obtain ⟨e, -, hname, hextends⟩ := extends_of_mem_homesEach children h.2.2 hhome
      exact hextends.of_join h.1 hslash hname

theorem extends_of_mem_homesEach (es : List Entry) {above : String} (h : JoinedEach above es)
    {home : Home} (hhome : home ∈ homesEach es) :
    ∃ e ∈ es, FileTree.isName e.name ∧ Disk.Extends (Path.join above e.name) home.path := by
  match es with
  | [] =>
    rw [homesEach] at hhome
    cases hhome
  | e :: es =>
    rw [JoinedEach] at h
    obtain ⟨hname, hpath, hjoined, hrest⟩ := h
    rw [homesEach, List.mem_append] at hhome
    rcases hhome with hhome | hhome
    · have hextends := extends_of_mem_homes e hname hpath hjoined hhome
      rw [hpath] at hextends
      exact ⟨e, List.mem_cons_self, hname, hextends⟩
    · obtain ⟨e, he, hfound⟩ := extends_of_mem_homesEach es hrest hhome
      exact ⟨e, List.mem_cons_of_mem _ he, hfound⟩

end

mutual

theorem nodup_paths_homes (e : Entry) (h : e.Joined) : (e.homes.map Home.path).Nodup := by
  match e with
  | .file name path finding =>
    rw [homes]
    exact List.nodup_singleton _
  | .folder name path children =>
    rw [Joined] at h
    obtain ⟨-, hnames, hbelow⟩ := h
    rw [homes, List.map_cons, List.nodup_cons]
    refine ⟨fun hmem => ?_, nodup_paths_homesEach children hnames hbelow⟩
    -- What is below the folder has a longer path.
    obtain ⟨home, hhome, rfl⟩ := List.mem_map.1 hmem
    obtain ⟨e, -, hname, tail, htail, -⟩ := extends_of_mem_homesEach children hbelow hhome
    have hlonger : home.path.toList.length < (Path.join home.path e.name).toList.length := by
      simpa only [Points.ofString, Points.ofChars, List.length_map] using
        (lengthens_join hname).length_lt
    have hlength := congrArg List.length htail
    rw [List.length_append] at hlength
    omega

theorem nodup_paths_homesEach (es : List Entry) {above : String}
    (hnames : (es.map Entry.name).Nodup) (h : JoinedEach above es) :
    ((homesEach es).map Home.path).Nodup := by
  match es with
  | [] =>
    rw [homesEach]
    exact List.nodup_nil
  | e :: es =>
    rw [JoinedEach] at h
    obtain ⟨hname, hfull, hjoined, hrest⟩ := h
    rw [List.map_cons, List.nodup_cons] at hnames
    rw [homesEach, List.map_append, List.nodup_append]
    refine ⟨nodup_paths_homes e hjoined, nodup_paths_homesEach es hnames.2 hrest, ?_⟩
    -- A path below two names would go on from both.
    rintro path hpath path' hpath' rfl
    obtain ⟨home, hhome, rfl⟩ := List.mem_map.1 hpath
    obtain ⟨home', hhome', heq⟩ := List.mem_map.1 hpath'
    have hfirst := extends_of_mem_homes e hname hfull hjoined hhome
    obtain ⟨other, hother, hname', hsecond⟩ := extends_of_mem_homesEach es hrest hhome'
    rw [hfull] at hfirst
    rw [heq] at hsecond
    have hsame := Disk.name_eq_of_extends hname hname' hfirst hsecond
    exact hnames.1 (hsame ▸ List.mem_map_of_mem hother)

end

end Entry

end CodeAtlas
