import CodeAtlas.Grammar.Outline
import CodeAtlas.Proofs.Addresses

/-! Nodes of a tree by their addresses, so that two nodes that look alike are still told apart. An
address says which child to go to at each step down from the root; preorder is the lexical order of
addresses, and the nodes around a node stand at the beginnings of its address. -/

namespace CodeAtlas.Grammar

abbrev Address := List Nat

namespace Tree

def at? : Tree → Address → Option Tree
  | t, [] => some t
  | t, i :: rest => t.children[i]?.bind fun child => child.at? rest

mutual

def spots : Tree → List (Address × Tree)
  | t@⟨_, _, _, _, _, children, _⟩ => ([], t) :: spotsEach 0 children

def spotsEach (i : Nat) : List Tree → List (Address × Tree)
  | [] => []
  | t :: ts => (spots t).map (fun spot => (i :: spot.1, spot.2)) ++ spotsEach (i + 1) ts

end

mutual

def nodes : Tree → List Tree
  | t@⟨_, _, _, _, _, children, _⟩ => t :: nodesAll children

def nodesAll : List Tree → List Tree
  | [] => []
  | t :: ts => nodes t ++ nodesAll ts

end

/-- The address of the nearest node around an address that is of some sort. -/
def nearest? (p : Tree → Bool) : Tree → Address → Option Address
  | _, [] => none
  | t, i :: rest =>
    ((t.children[i]?.bind fun child => child.nearest? p rest).map (i :: ·)).or
      (if p t then some [] else none)

theorem sizeOf_lt_of_mem_children {t child : Tree} (h : child ∈ t.children) :
    sizeOf child < sizeOf t := by
  obtain ⟨kind, firstByte, endByte, firstRow, lastRow, children, fields⟩ := t
  have hlt : sizeOf child < sizeOf children := List.sizeOf_lt_of_mem h
  rw [mk.sizeOf_spec]
  omega

theorem induction {P : Tree → Prop}
    (step : ∀ t : Tree, (∀ child ∈ t.children, P child) → P t) (t : Tree) : P t := by
  apply step
  intro child hchild
  exact induction step child
termination_by sizeOf t
decreasing_by exact sizeOf_lt_of_mem_children hchild

theorem spotsEach_eq (i : Nat) (ts : List Tree) :
    spotsEach i ts = (ts.zipIdx i).flatMap fun p =>
      p.1.spots.map fun spot => (p.2 :: spot.1, spot.2) := by
  induction ts generalizing i with
  | nil => rfl
  | cons t ts ih => rw [spotsEach, ih, List.zipIdx_cons, List.flatMap_cons]

theorem spots_eq (t : Tree) :
    t.spots = ([], t) :: t.children.zipIdx.flatMap fun p =>
      p.1.spots.map fun spot => (p.2 :: spot.1, spot.2) := by
  obtain ⟨kind, firstByte, endByte, firstRow, lastRow, children, fields⟩ := t
  rw [spots, spotsEach_eq]

theorem nodesAll_eq (ts : List Tree) : nodesAll ts = ts.flatMap nodes := by
  induction ts with
  | nil => rfl
  | cons t ts ih => rw [nodesAll, ih, List.flatMap_cons]

theorem nodes_eq (t : Tree) : t.nodes = t :: t.children.flatMap nodes := by
  obtain ⟨kind, firstByte, endByte, firstRow, lastRow, children, fields⟩ := t
  rw [nodes, nodesAll_eq]

theorem map_snd_spots (t : Tree) : t.spots.map Prod.snd = t.nodes := by
  induction t using induction with
  | step t ih =>
    have hchildren : t.children.zipIdx.flatMap (fun p => p.1.spots.map Prod.snd) =
        t.children.zipIdx.flatMap fun p => p.1.nodes := by
      refine List.flatMap_congr fun p hp => ih p.1 ?_
      exact List.mem_of_getElem? (List.mem_zipIdx_iff_getElem?.1 hp)
    rw [spots_eq, nodes_eq, List.map_cons, List.map_flatMap]
    simp only [List.map_map, Function.comp_def]
    rw [hchildren, ← List.flatMap_map Prod.fst nodes, List.zipIdx_map_fst]

@[simp] theorem at?_nil (t : Tree) : t.at? [] = some t := rfl

theorem at?_cons (t : Tree) (i : Nat) (rest : Address) :
    t.at? (i :: rest) = t.children[i]?.bind fun child => child.at? rest := rfl

theorem mem_spots {t n : Tree} {a : Address} : (a, n) ∈ t.spots ↔ t.at? a = some n :=
  ListsSpots.mem_iff spots_eq fun t => ⟨at?_nil t, at?_cons t⟩

theorem mem_nodes {t n : Tree} : n ∈ t.nodes ↔ ∃ a, t.at? a = some n := by
  rw [← map_snd_spots, List.mem_map]
  constructor
  · rintro ⟨spot, hspot, rfl⟩
    exact ⟨spot.1, mem_spots.1 hspot⟩
  · rintro ⟨a, ha⟩
    exact ⟨(a, n), mem_spots.2 ha, rfl⟩

theorem pairwise_spots (t : Tree) : t.spots.Pairwise fun s s' => s.1 < s'.1 :=
  ListsSpots.pairwise spots_eq (fun _ _ => sizeOf_lt_of_mem_children) t

theorem filterMap_spots {β : Type} (f : Address × Tree → Option β) (t : Tree) :
    t.spots.filterMap f = (f ([], t)).toList ++ t.children.zipIdx.flatMap fun p =>
      p.1.spots.filterMap fun spot => f (p.2 :: spot.1, spot.2) := by
  rw [spots_eq, List.filterMap_cons, List.filterMap_flatMap]
  simp only [List.filterMap_map, Function.comp_def]
  cases f ([], t) <;> rfl

theorem nodes_infix {t n : Tree} {a : Address} (h : t.at? a = some n) : n.nodes <:+: t.nodes := by
  induction a generalizing t with
  | nil =>
    obtain rfl := Option.some.inj h
    exact ⟨[], [], by simp⟩
  | cons i rest ih =>
    rw [at?_cons] at h
    obtain ⟨child, hchild, hrest⟩ := Option.bind_eq_some_iff.1 h
    obtain ⟨before, after, hchildren⟩ := List.append_of_mem (List.mem_of_getElem? hchild)
    refine (ih hrest).trans ⟨t :: before.flatMap nodes, after.flatMap nodes, ?_⟩
    rw [nodes_eq t, hchildren]
    simp

theorem at?_append (t : Tree) (a b : Address) :
    t.at? (a ++ b) = (t.at? a).bind fun n => n.at? b := by
  induction a generalizing t with
  | nil => rfl
  | cons i rest ih =>
    rw [List.cons_append, at?_cons, at?_cons, Option.bind_assoc]
    congr 1
    funext child
    exact ih child

/-- At `b` stands a node of some sort that is around `a`, and no other such node is in between. -/
structure IsNearest (p : Tree → Bool) (t : Tree) (a b : Address) : Prop where
  above : b <+: a
  ne : b ≠ a
  stands : (t.at? b).any p
  free : ∀ c, b <+: c → c <+: a → c ≠ b → c ≠ a → ¬ (t.at? c).any p

section
variable {p : Tree → Bool} {t : Tree} {a b : Address}

theorem nearest?_below_eq_none_iff {i : Nat} {rest : Address}
    (h : ∀ child : Tree, child.nearest? p rest = none ↔
      ∀ c, c <+: rest → c ≠ rest → ¬ (child.at? c).any p) :
    (t.children[i]?.bind fun child => child.nearest? p rest) = none ↔
      ∀ c, c <+: rest → c ≠ rest → ¬ (t.at? (i :: c)).any p := by
  simp only [at?_cons]
  cases t.children[i]? with
  | none => simp
  | some child => exact h child

theorem nearest?_eq_none_iff :
    t.nearest? p a = none ↔ ∀ c, c <+: a → c ≠ a → ¬ (t.at? c).any p := by
  induction a generalizing t with
  | nil => simp [nearest?]
  | cons i rest ih =>
    rw [nearest?, Option.or_eq_none_iff, Option.map_eq_none_iff,
      nearest?_below_eq_none_iff fun child => ih]
    constructor
    · rintro ⟨hbelow, hroot⟩ c hc hne
      rcases List.prefix_cons_iff.1 hc with rfl | ⟨c, rfl, hrest⟩
      · simpa using hroot
      · exact hbelow c hrest fun heq => hne (heq ▸ rfl)
    · intro h
      refine ⟨fun c hc hne => h (i :: c) ((List.prefix_cons_inj i).2 hc) (by simpa using hne), ?_⟩
      have hroot := h [] List.nil_prefix (by simp)
      simpa using hroot

theorem isNearest_cons {child : Tree} {i : Nat} {rest : Address}
    (hchild : t.children[i]? = some child) :
    IsNearest p t (i :: rest) (i :: b) ↔ IsNearest p child rest b := by
  have hat (c : Address) : t.at? (i :: c) = child.at? c := by
    rw [at?_cons, hchild, Option.bind_some]
  constructor
  · rintro ⟨habove, hne, hstands, hfree⟩
    refine ⟨(List.prefix_cons_inj i).1 habove, by simpa using hne, hat b ▸ hstands, ?_⟩
    intro c hbc hcrest hcb hca
    rw [← hat c]
    exact hfree (i :: c) ((List.prefix_cons_inj i).2 hbc) ((List.prefix_cons_inj i).2 hcrest)
      (by simpa using hcb) (by simpa using hca)
  · rintro ⟨habove, hne, hstands, hfree⟩
    refine ⟨(List.prefix_cons_inj i).2 habove, by simpa using hne, hat b ▸ hstands, ?_⟩
    intro c hbc hcrest hcb hca
    rcases List.prefix_cons_iff.1 hcrest with rfl | ⟨c, rfl, hrest⟩
    · simp at hbc
    · rw [hat c]
      exact hfree c ((List.prefix_cons_inj i).1 hbc) hrest (by simpa using hcb) (by simpa using hca)

theorem isNearest_root {i : Nat} {rest : Address} :
    IsNearest p t (i :: rest) [] ↔
      p t ∧ (t.children[i]?.bind fun child => child.nearest? p rest) = none := by
  rw [nearest?_below_eq_none_iff fun child => nearest?_eq_none_iff]
  constructor
  · rintro ⟨-, -, hstands, hfree⟩
    refine ⟨by simpa using hstands, fun c hc hne => ?_⟩
    exact hfree (i :: c) List.nil_prefix ((List.prefix_cons_inj i).2 hc) (by simp)
      (by simpa using hne)
  · rintro ⟨hroot, hbelow⟩
    refine ⟨List.nil_prefix, by simp, by simpa using hroot, fun c _ hc hne hca => ?_⟩
    rcases List.prefix_cons_iff.1 hc with rfl | ⟨c, rfl, hrest⟩
    · exact absurd rfl hne
    · exact hbelow c hrest fun heq => hca (heq ▸ rfl)

theorem nearest?_eq_some_iff : t.nearest? p a = some b ↔ IsNearest p t a b := by
  induction a generalizing t b with
  | nil =>
    refine ⟨nofun, fun h => ?_⟩
    exact absurd (List.prefix_nil.1 h.above) h.ne
  | cons i rest ih =>
    rw [nearest?, Option.or_eq_some_iff]
    constructor
    · rintro (hbelow | ⟨hbelow, hroot⟩)
      · obtain ⟨b, hchild, rfl⟩ := Option.map_eq_some_iff.1 hbelow
        obtain ⟨child, hchild, hb⟩ := Option.bind_eq_some_iff.1 hchild
        exact (isNearest_cons hchild).2 (ih.1 hb)
      · obtain ⟨hp, rfl⟩ : p t ∧ [] = b := by simpa using hroot
        exact isNearest_root.2 ⟨hp, Option.map_eq_none_iff.1 hbelow⟩
    · intro h
      rcases List.prefix_cons_iff.1 h.above with rfl | ⟨b, rfl, -⟩
      · obtain ⟨hp, hbelow⟩ := isNearest_root.1 h
        exact .inr ⟨Option.map_eq_none_iff.2 hbelow, by simp [hp]⟩
      · have hstands := h.stands
        rw [at?_cons] at hstands
        cases hchild : t.children[i]? with
        | none => simp [hchild] at hstands
        | some child =>
          have hb := ih.2 ((isNearest_cons hchild).1 h)
          exact .inl (by simp [hb])

end

end Tree

end CodeAtlas.Grammar
