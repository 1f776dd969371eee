import CodeAtlas.Json.Access

/-! Members of objects whose keys are known, and values without the members of certain keys. -/

namespace CodeAtlas

open Text (Points)

namespace Text.Points

theorem ofString_inj {s t : String} : ofString s = ofString t ↔ s = t := by
  constructor
  · intro h
    have hlist := List.map_inj_right (fun _ _ h => CodePoint.char.inj h) |>.1 h
    exact String.toList_inj.1 hlist
  · exact congrArg ofString

@[simp] theorem replaced_ofString (s : String) : (ofString s).replaced = s := by
  simp [replaced, ofString, ofChars, Function.comp_def, CodePoint.char?]

end Text.Points

namespace Json

@[simp] theorem member?_nil (key : String) : member? [] key = none := rfl

@[simp] theorem member?_cons (key k : String) (value : Json) (members : List (Points × Json)) :
    member? ((Points.ofString k, value) :: members) key =
      if key = k then some value else member? members key := by
  by_cases h : key = k
  · simp [member?, h]
  · have hne : Points.ofString key ≠ Points.ofString k :=
      fun hkey => h (Text.Points.ofString_inj.1 hkey)
    have hbeq : (Points.ofString key == Points.ofString k) = false := beq_false_of_ne hne
    simp [member?, List.lookup_cons, h, hbeq]

mutual

def without (keys : List String) : Json → Json
  | arr items => arr (withoutEach keys items)
  | obj members => obj (withoutMembers keys members)
  | j => j

def withoutEach (keys : List String) : List Json → List Json
  | [] => []
  | j :: js => j.without keys :: withoutEach keys js

def withoutMembers (keys : List String) : List (Points × Json) → List (Points × Json)
  | [] => []
  | (key, j) :: members =>
    if key ∈ keys.map Points.ofString then withoutMembers keys members
    else (key, j.without keys) :: withoutMembers keys members

end

theorem withoutEach_eq_map (keys : List String) (js : List Json) :
    withoutEach keys js = js.map (without keys) := by
  induction js with
  | nil => rfl
  | cons j js ih => rw [withoutEach, ih, List.map_cons]

@[simp] theorem withoutMembers_nil (keys : List String) : withoutMembers keys [] = [] := rfl

@[simp] theorem withoutMembers_cons (keys : List String) (k : String) (value : Json)
    (members : List (Points × Json)) :
    withoutMembers keys ((Points.ofString k, value) :: members) =
      if k ∈ keys then withoutMembers keys members
      else (Points.ofString k, value.without keys) :: withoutMembers keys members := by
  have hmem : Points.ofString k ∈ keys.map Points.ofString ↔ k ∈ keys := by
    simp [Text.Points.ofString_inj]
  by_cases h : k ∈ keys
  · rw [withoutMembers, if_pos (hmem.2 h), if_pos h]
  · rw [withoutMembers, if_neg fun hkey => h (hmem.1 hkey), if_neg h]

end Json

end CodeAtlas
