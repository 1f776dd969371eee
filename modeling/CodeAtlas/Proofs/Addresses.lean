import Mathlib.Data.List.Basic

/-! Addresses in whatever has parts that have parts again. An address says which part to go to at
each step down. All that is below something is listed in preorder if it is listed with its addresses
in their lexical order. -/

namespace CodeAtlas

theorem pairwise_zipIdx {α : Type} (as : List α) :
    as.zipIdx.Pairwise fun p q => p.2 < q.2 := by
  rw [← List.pairwise_map, List.zipIdx_map_snd]
  exact List.pairwise_lt_range' 1

section

variable {α : Type} {parts : α → List α} {at? : α → List Nat → Option α}
  {spots : α → List (List Nat × α)}

/-- Something is listed first, then each of its parts with all below it. -/
def ListsSpots (parts : α → List α) (spots : α → List (List Nat × α)) : Prop :=
  ∀ a, spots a = ([], a) :: (parts a).zipIdx.flatMap fun p =>
    (spots p.1).map fun spot => (p.2 :: spot.1, spot.2)

def FollowsAddresses (parts : α → List α) (at? : α → List Nat → Option α) : Prop :=
  ∀ a, at? a [] = some a ∧
    ∀ i rest, at? a (i :: rest) = (parts a)[i]?.bind fun part => at? part rest

theorem ListsSpots.mem_iff (h : ListsSpots parts spots) (hat : FollowsAddresses parts at?)
    {a n : α} {address : List Nat} : (address, n) ∈ spots a ↔ at? a address = some n := by
  induction address generalizing a with
  | nil => simp [h a, (hat a).1, eq_comm]
  | cons i rest ih =>
    rw [h a, List.mem_cons, List.mem_flatMap, (hat a).2, Option.bind_eq_some_iff]
    constructor
    · rintro (htop | ⟨p, hp, hmem⟩)
      · cases htop
      · obtain ⟨spot, hspot, heq⟩ := List.mem_map.1 hmem
        obtain ⟨haddress, rfl⟩ := Prod.mk.inj heq
        obtain ⟨rfl, rfl⟩ := List.cons.inj haddress
        exact ⟨p.1, List.mem_zipIdx_iff_getElem?.1 hp, ih.1 hspot⟩
    · rintro ⟨part, hpart, hrest⟩
      refine .inr ⟨(part, i), List.mem_zipIdx_iff_getElem?.2 hpart, ?_⟩
      exact List.mem_map.2 ⟨(rest, n), ih.2 hrest, rfl⟩

theorem ListsSpots.pairwise [SizeOf α] (h : ListsSpots parts spots)
    (hsize : ∀ a, ∀ part ∈ parts a, sizeOf part < sizeOf a) (a : α) :
    (spots a).Pairwise fun s s' => s.1 < s'.1 := by
  rw [h a, List.pairwise_cons, List.pairwise_flatMap]
  refine ⟨?_, ?_, ?_⟩
  · intro spot hspot
    obtain ⟨p, -, hp⟩ := List.mem_flatMap.1 hspot
    obtain ⟨below, -, rfl⟩ := List.mem_map.1 hp
    exact List.nil_lt_cons p.2 below.1
  · intro p hp
    have hpart : p.1 ∈ parts a := List.mem_of_getElem? (List.mem_zipIdx_iff_getElem?.1 hp)
    have hsmaller := hsize a p.1 hpart
    refine List.pairwise_map.2 ((h.pairwise hsize p.1).imp fun {s s'} hlt => ?_)
    exact List.cons_lt_cons_iff.2 (.inr ⟨rfl, hlt⟩)
  · refine (pairwise_zipIdx (parts a)).imp fun {p q} hlt spot hspot spot' hspot' => ?_
    obtain ⟨below, -, rfl⟩ := List.mem_map.1 hspot
    obtain ⟨below', -, rfl⟩ := List.mem_map.1 hspot'
    exact List.cons_lt_cons_iff.2 (.inl hlt)
termination_by sizeOf a

end

end CodeAtlas
