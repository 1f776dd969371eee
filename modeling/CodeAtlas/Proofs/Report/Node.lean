import CodeAtlas.Proofs.Json.Members
import CodeAtlas.Report.Node

/-! The nodes below an object are read off its member `children`. -/

namespace CodeAtlas.Report.Node

open Text (Points)

theorem childrenOf_eq (members : List (Points × Json)) :
    childrenOf members = ((Json.member? members "children").map partsOf).getD [] := by
  induction members with
  | nil => rfl
  | cons member members ih =>
    obtain ⟨key, j⟩ := member
    by_cases h : key = Points.ofString "children"
    · simp [childrenOf, Json.member?, h]
    · have hbeq : (Points.ofString "children" == key) = false := beq_false_of_ne (Ne.symm h)
      rw [childrenOf, if_neg h, ih, Json.member?, Json.member?, List.lookup_cons, hbeq]

theorem ofJson_of_children {members : List (Points × Json)} {js : List Json}
    (h : (Json.member? members "children").getD (.arr []) = .arr js) :
    Node.ofJson (.obj members) = .object members (Node.ofJsonAll js) ∧
      checkChildren members = .ok () := by
  rw [ofJson, childrenOf_eq, checkChildren]
  cases hchildren : Json.member? members "children" with
  | none =>
    rw [hchildren] at h
    obtain rfl := Json.arr.inj h
    exact ⟨rfl, rfl⟩
  | some j =>
    rw [hchildren] at h
    obtain rfl : j = .arr js := h
    simp [partsOf, Json.parts]

end CodeAtlas.Report.Node
