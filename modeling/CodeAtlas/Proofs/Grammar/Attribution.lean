import CodeAtlas.Definitions
import CodeAtlas.Proofs.Grammar.Walk
import Mathlib.Data.List.Perm.Basic

/-! Whose functions are whose. A function belongs to the nearest class around it that has a name,
however deep it is nested and whatever stands in between; if there is none, it stands alone. -/

namespace CodeAtlas.Grammar

def Rules.Apart (rules : Rules) : Prop :=
  ∀ kind ∈ rules.classKinds, kind ∉ rules.functionKinds

theorem flatMap_eq_of_nodup {α β : Type} {as : List α} (hnodup : as.Nodup) {x : α} (hx : x ∈ as)
    {f : α → List β} (h : ∀ y ∈ as, y ≠ x → f y = []) : as.flatMap f = f x := by
  obtain ⟨before, after, rfl⟩ := List.append_of_mem hx
  obtain ⟨-, hafter, hbefore⟩ := List.nodup_append.1 hnodup
  have hleft : before.flatMap f = [] :=
    List.flatMap_eq_nil_iff.2 fun y hy => h y (by simp [hy]) (hbefore y hy x (by simp))
  have hright : after.flatMap f = [] := by
    refine List.flatMap_eq_nil_iff.2 fun y hy => h y (by simp [hy]) ?_
    rintro rfl
    exact (List.nodup_cons.1 hafter).1 hy
  rw [List.flatMap_append, List.flatMap_cons, hleft, hright, List.append_nil, List.nil_append]

theorem perm_flatMap_key {α κ β : Type} [DecidableEq κ] {keys : List κ} (hkeys : keys.Nodup)
    (key : α → κ) (f : α → Option β) (items : List α) (h : ∀ x ∈ items, key x ∈ keys) :
    (keys.flatMap fun k => items.filterMap fun x => if key x = k then f x else none).Perm
      (items.filterMap f) := by
  induction items with
  | nil => simp
  | cons x items ih =>
    obtain ⟨hx, hitems⟩ := List.forall_mem_cons.1 h
    have hcons (g : α → Option β) :
        (x :: items).filterMap g = (g x).toList ++ items.filterMap g := by
      rw [List.filterMap_cons]
      cases g x <;> rfl
    have hone : (keys.flatMap fun k => (if key x = k then f x else none).toList) =
        (f x).toList := by
      have honly := flatMap_eq_of_nodup hkeys hx
        (f := fun k => (if key x = k then f x else none).toList)
        (fun k _ hne => by rw [if_neg (Ne.symm hne)]; rfl)
      rw [honly, if_pos rfl]
    simp only [hcons]
    refine (List.flatMap_append_perm keys _ _).symm.trans ?_
    rw [hone]
    exact (ih hitems).append_left _

namespace Tree

/-- The functions whose nearest named class stands at `owner`, in preorder. -/
def ownedBy (classKinds : List String) (told : Tree → Option Function) (t : Tree)
    (owner : Option Address) : List Function :=
  t.spots.filterMap fun spot =>
    if t.nearest? (isNamed classKinds) spot.1 = owner then told spot.2 else none

section
variable {kinds : List String} {told : Tree → Option Function} {rules : Rules} {code : List UInt8}
  {t child : Tree} {i : Nat} {a : Address}

theorem nearest?_child {p : Tree → Bool} (h : t.children[i]? = some child) :
    t.nearest? p (i :: a) =
      ((child.nearest? p a).map (i :: ·)).or (if p t then some [] else none) := by
  rw [nearest?, h, Option.bind_some]

theorem ownedBy_eq (t : Tree) (owner : Option Address) :
    t.ownedBy kinds told owner =
      (if none = owner then told t else none).toList ++
        t.children.zipIdx.flatMap fun p => p.1.spots.filterMap fun spot =>
          if t.nearest? (isNamed kinds) (p.2 :: spot.1) = owner then
            told spot.2
          else none :=
  filterMap_spots _ t

theorem ownedBy_root (t : Tree) :
    t.ownedBy kinds told (if t.isNamed kinds then some [] else none) =
      (if t.isNamed kinds then none else told t).toList ++
        t.children.flatMap fun child => child.ownedBy kinds told none := by
  have hbelow : ∀ p ∈ t.children.zipIdx, (p.1.spots.filterMap fun spot =>
      if t.nearest? (isNamed kinds) (p.2 :: spot.1) =
        (if t.isNamed kinds then some [] else none) then told spot.2
      else none) = p.1.ownedBy kinds told none := by
    intro p hp
    unfold ownedBy
    congr 1
    funext spot
    rw [nearest?_child (List.mem_zipIdx_iff_getElem?.1 hp)]
    cases p.1.nearest? (isNamed kinds) spot.1 <;> cases t.isNamed kinds <;> simp
  rw [ownedBy_eq, List.flatMap_congr hbelow,
    ← List.flatMap_map Prod.fst fun child => ownedBy kinds told child none, List.zipIdx_map_fst]
  cases t.isNamed kinds <;> rfl

theorem function?_of_isNamed (hrules : rules.Apart) (h : t.isNamed rules.classKinds) :
    t.function? rules code = none := by
  have hclass : t.kind ∈ rules.classKinds := by
    simpa using (Bool.and_eq_true_iff.1 h).1
  have hkind : rules.functionKinds.contains t.kind = false := by
    simpa using hrules t.kind hclass
  rw [function?, nameAmong?, hkind]
  rfl

theorem ownedBy_none (hrules : rules.Apart) (t : Tree) :
    t.ownedBy rules.classKinds (function? rules code) none = t.freeFunctions rules code := by
  induction t using induction with
  | step t ih =>
    rw [freeFunctions_eq]
    by_cases hclass : t.isNamed rules.classKinds
    · have hnone : ∀ p ∈ t.children.zipIdx, (p.1.spots.filterMap fun spot =>
          if t.nearest? (isNamed rules.classKinds) (p.2 :: spot.1) = none then
            spot.2.function? rules code
          else none) = [] := by
        intro p hp
        refine List.filterMap_eq_nil_iff.2 fun spot _ => if_neg ?_
        rw [nearest?_child (List.mem_zipIdx_iff_getElem?.1 hp), if_pos hclass]
        simp
      rw [ownedBy_eq, function?_of_isNamed hrules hclass, List.flatMap_eq_nil_iff.2 hnone,
        if_pos hclass]
      rfl
    · have hroot := @ownedBy_root rules.classKinds (function? rules code) t
      rw [if_neg hclass, if_neg hclass, List.flatMap_congr ih] at hroot
      rw [hroot, if_neg hclass]

theorem ownedBy_below (h : t.children[i]? = some child) (b : Address) :
    t.ownedBy kinds told (some (i :: b)) = child.ownedBy kinds told (some b) := by
  have hmem : (child, i) ∈ t.children.zipIdx := List.mem_zipIdx_iff_getElem?.2 h
  have hnodup : t.children.zipIdx.Nodup := by
    refine List.Pairwise.imp ?_ (pairwise_zipIdx t.children)
    intro p q hlt heq
    exact Nat.lt_irrefl _ (heq ▸ hlt)
  have hother : ∀ p ∈ t.children.zipIdx, p ≠ (child, i) → (p.1.spots.filterMap fun spot =>
      if t.nearest? (isNamed kinds) (p.2 :: spot.1) = some (i :: b) then
        told spot.2
      else none) = [] := by
    intro p hp hne
    refine List.filterMap_eq_nil_iff.2 fun spot _ => if_neg fun hnearest => hne ?_
    have habove := (nearest?_eq_some_iff.1 hnearest).above
    have hindex : i = p.2 := (List.cons_prefix_cons.1 habove).1
    have hget := List.mem_zipIdx_iff_getElem?.1 hp
    rw [← hindex, h] at hget
    exact Prod.ext (Option.some.inj hget).symm hindex.symm
  rw [ownedBy_eq, flatMap_eq_of_nodup hnodup hmem hother, ownedBy]
  simp only [nearest?_child h, reduceCtorEq, if_false, Option.toList_none, List.nil_append]
  congr 1
  funext spot
  cases child.nearest? (isNamed kinds) spot.1 <;> cases t.isNamed kinds <;> simp

theorem ownedBy_class (hrules : rules.Apart) {n : Tree} {b : Address} (hat : t.at? b = some n)
    (hclass : n.isNamed rules.classKinds) :
    t.ownedBy rules.classKinds (function? rules code) (some b) =
      n.children.flatMap (freeFunctions rules code) := by
  induction b generalizing t with
  | nil =>
    obtain rfl := Option.some.inj hat
    have hroot := @ownedBy_root rules.classKinds (function? rules code) t
    rw [if_pos hclass, if_pos hclass] at hroot
    rw [hroot, Option.toList_none, List.nil_append]
    exact List.flatMap_congr fun child _ => ownedBy_none hrules child
  | cons i rest ih =>
    rw [at?_cons] at hat
    obtain ⟨child, hchild, hrest⟩ := Option.bind_eq_some_iff.1 hat
    rw [ownedBy_below hchild, ih hrest]

def classAt? (classKinds : List String) (told : Tree → Option Function) (code : List UInt8)
    (t : Tree) (spot : Address × Tree) : Option Class :=
  if spot.2.kind ∈ classKinds then
    (spot.2.field? "name").map fun name =>
      ⟨name.text code, spot.2.firstRow + 1, t.ownedBy classKinds told (some spot.1)⟩
  else none

theorem classAt?_eq (t : Tree) (spot : Address × Tree) :
    t.classAt? kinds told code spot = (spot.2.nameAmong? kinds code).map fun name =>
      ⟨name, spot.2.firstRow + 1, t.ownedBy kinds told (some spot.1)⟩ := by
  rw [classAt?, nameAmong?, name?, List.contains_eq_mem]
  by_cases hkind : spot.2.kind ∈ kinds
  · rw [if_pos hkind, if_pos (decide_eq_true hkind), Option.map_map]
    rfl
  · rw [if_neg hkind, decide_eq_false hkind]
    rfl

theorem filterMap_class? (hrules : rules.Apart) (t : Tree) :
    t.nodes.filterMap (class? rules code) =
      t.spots.filterMap (t.classAt? rules.classKinds (function? rules code) code) := by
  rw [← map_snd_spots, List.filterMap_map]
  refine List.filterMap_congr fun spot hspot => ?_
  rw [Function.comp_apply, class?, classAt?_eq]
  cases hname : spot.2.nameAmong? rules.classKinds code with
  | none => rfl
  | some name =>
    have hclass : spot.2.isNamed rules.classKinds := by
      rw [← isSome_nameAmong? rules.classKinds code, hname]
      rfl
    rw [ownedBy_class hrules (mem_spots.1 hspot) hclass, function?_of_isNamed hrules hclass]
    rfl

def owners (kinds : List String) (t : Tree) : List (Option Address) :=
  none :: (t.spots.filter fun spot => spot.2.isNamed kinds).map fun spot => some spot.1

theorem nodup_owners (kinds : List String) (t : Tree) : (t.owners kinds).Nodup := by
  refine List.nodup_cons.2 ⟨by simp, List.pairwise_map.2 ?_⟩
  refine List.Pairwise.imp ?_ (t.pairwise_spots.filter _)
  intro s s' hlt heq
  rw [Option.some.inj heq] at hlt
  exact List.lt_irrefl s'.1 hlt

theorem nearest?_mem_owners (kinds : List String) (t : Tree) (a : Address) :
    t.nearest? (isNamed kinds) a ∈ t.owners kinds := by
  cases hnearest : t.nearest? (isNamed kinds) a with
  | none => exact List.mem_cons_self
  | some b =>
    have hstands := (nearest?_eq_some_iff.1 hnearest).stands
    cases hat : t.at? b with
    | none => simp [hat] at hstands
    | some n =>
      rw [hat, Option.any_some] at hstands
      refine List.mem_cons_of_mem _ (List.mem_map.2 ⟨(b, n), ?_, rfl⟩)
      exact List.mem_filter.2 ⟨mem_spots.2 hat, hstands⟩

theorem flatMap_classAt? (t : Tree) (spots : List (Address × Tree)) :
    (spots.filterMap (t.classAt? kinds told code)).flatMap Class.functions =
      ((spots.filter fun spot => spot.2.isNamed kinds).map fun spot => some spot.1).flatMap
        (t.ownedBy kinds told) := by
  induction spots with
  | nil => rfl
  | cons spot spots ih =>
    have hclass := isSome_nameAmong? kinds code spot.2
    rw [List.filterMap_cons, List.filter_cons, classAt?_eq, ← hclass]
    cases spot.2.nameAmong? kinds code with
    | none => exact ih
    | some name => exact congrArg (t.ownedBy kinds told (some spot.1) ++ ·) ih

theorem perm_functions (t : Tree) :
    (t.ownedBy kinds told none ++
      (t.spots.filterMap (t.classAt? kinds told code)).flatMap Class.functions).Perm
      (t.nodes.filterMap told) := by
  have hperm := perm_flatMap_key (nodup_owners kinds t)
    (fun spot : Address × Tree => t.nearest? (isNamed kinds) spot.1)
    (fun spot => told spot.2) t.spots fun spot _ => nearest?_mem_owners kinds t spot.1
  rw [owners, List.flatMap_cons] at hperm
  rw [flatMap_classAt?, ← map_snd_spots, List.filterMap_map]
  exact hperm

end

end Tree

def classKinds (language : String) : List String :=
  if language = "python" then ["class_definition"] else ["class_declaration", "class_definition"]

def functionKinds (language : String) : List String :=
  if language = "python" then ["function_definition"]
  else ["function_declaration", "method_definition"]

def introduced? (language : String) (code : List UInt8) (t : Tree) : Option String :=
  if language = "python" then
    if t.kind = "assignment" then t.children.head?.map (Tree.text code) else none
  else if t.kind = "variable_declarator" then (t.field? "name").map (Tree.text code)
  else none

def introducedIn (language : String) (code : List UInt8) (t : Tree) : List String :=
  t.nodes.filterMap (introduced? language code)

def toldOf? (language : String) (code : List UInt8) (t : Tree) : Option Function :=
  if t.kind ∈ functionKinds language then
    (t.field? "name").map fun name =>
      ⟨name.text code, t.firstRow + 1, introducedIn language code t, t.lastRow - t.firstRow + 1⟩
  else none

/-- What an outline has to tell of a tree. -/
structure IsOutline (language : String) (code : List UInt8) (t : Tree) (found : Outline) :
    Prop where
  classes : found.classes =
    t.spots.filterMap (t.classAt? (classKinds language) (toldOf? language code) code)
  functions : found.functions = t.ownedBy (classKinds language) (toldOf? language code) none
  /-- Nothing is left out or told twice, and nothing else is told. -/
  once : (found.functions ++ found.classes.flatMap Class.functions).Perm
    (t.nodes.filterMap (toldOf? language code))
  /-- What a node introduces stands together in what a node around it introduces. -/
  nested : ∀ a b m n, t.at? a = some m → t.at? b = some n → a <+: b →
    introducedIn language code n <:+: introducedIn language code m

section
variable {language : String} {code : List UInt8} {t : Tree}

theorem ofLanguage_cases (h : language ∈ ["python", "javascript", "typescript"]) :
    language = "python" ∧ Rules.ofLanguage language = .python ∨
      language ≠ "python" ∧ Rules.ofLanguage language = .script := by
  simp only [List.mem_cons, List.not_mem_nil, or_false] at h
  rcases h with rfl | rfl | rfl
  · exact .inl ⟨rfl, rfl⟩
  · exact .inr ⟨by decide, rfl⟩
  · exact .inr ⟨by decide, rfl⟩

theorem classKinds_ofLanguage (h : language ∈ ["python", "javascript", "typescript"]) :
    (Rules.ofLanguage language).classKinds = classKinds language := by
  unfold classKinds
  rcases ofLanguage_cases h with ⟨hlanguage, hrules⟩ | ⟨hlanguage, hrules⟩
  · rw [hrules, if_pos hlanguage]
    rfl
  · rw [hrules, if_neg hlanguage]
    rfl

theorem function?_ofLanguage (h : language ∈ ["python", "javascript", "typescript"]) :
    Tree.function? (.ofLanguage language) code = toldOf? language code := by
  have hkinds : (Rules.ofLanguage language).functionKinds = functionKinds language ∧
      Tree.variableText? (Rules.ofLanguage language).variablePlace code =
        introduced? language code := by
    unfold functionKinds introduced?
    rcases ofLanguage_cases h with ⟨hlanguage, hrules⟩ | ⟨hlanguage, hrules⟩
    · simp only [hrules, if_pos hlanguage]
      exact ⟨rfl, rfl⟩
    · simp only [hrules, if_neg hlanguage]
      exact ⟨rfl, rfl⟩
  funext t
  rw [Tree.function?, toldOf?, Tree.nameAmong?, hkinds.1, List.contains_eq_mem, Tree.name?]
  by_cases hkind : t.kind ∈ functionKinds language
  · rw [if_pos hkind, if_pos (decide_eq_true hkind), Option.map_map]
    refine congrArg (fun tell => (t.field? "name").map tell) (funext fun name => ?_)
    rw [Function.comp_apply, Tree.describe, Tree.collectVariables_eq, hkinds.2, List.nil_append]
    rfl
  · rw [if_neg hkind, decide_eq_false hkind]
    rfl

theorem apart_ofLanguage (h : language ∈ ["python", "javascript", "typescript"]) :
    (Rules.ofLanguage language).Apart := by
  unfold Rules.Apart
  rcases ofLanguage_cases h with ⟨-, hrules⟩ | ⟨-, hrules⟩ <;> rw [hrules] <;> decide

theorem any_isRefused_ofLanguage (h : language ∈ ["python", "javascript", "typescript"])
    (t : Tree) : t.nodes.any (Tree.isRefused (.ofLanguage language)) = false := by
  have hdescribes : (Rules.ofLanguage language).describesFunctions = true := by
    rcases ofLanguage_cases h with ⟨-, hrules⟩ | ⟨-, hrules⟩ <;> rw [hrules] <;> rfl
  simp [Tree.isRefused, hdescribes]

end

/-- Every class and every function with a name is told of once, a function in the nearest class
around it that has a name. The nodes come in the order of their addresses. -/
theorem functions_attributed (language : String)
    (h : language ∈ ["python", "javascript", "typescript"]) (code : List UInt8) (t : Tree) :
    (∃ found, Definitions.ofTree language code t = .ok (.outline found) ∧
      IsOutline language code t found) ∧
    (t.spots.Pairwise fun spot spot' => spot.1 < spot'.1) ∧
    (∀ a n, (a, n) ∈ t.spots ↔ t.at? a = some n) ∧
    ∀ a b, t.nearest? (Tree.isNamed (classKinds language)) a = some b ↔
      Tree.IsNearest (Tree.isNamed (classKinds language)) t a b := by
  have hrules := apart_ofLanguage h
  have hfound := outline_ofTree (.ofLanguage language) code t
  rw [any_isRefused_ofLanguage h, Tree.filterMap_class? hrules, ← Tree.ownedBy_none hrules,
    classKinds_ofLanguage h, function?_ofLanguage h] at hfound
  refine ⟨⟨⟨t.spots.filterMap (t.classAt? (classKinds language) (toldOf? language code) code),
      t.ownedBy (classKinds language) (toldOf? language code) none⟩, ?_, rfl, rfl,
      t.perm_functions, ?_⟩,
    t.pairwise_spots, fun _ _ => Tree.mem_spots, fun _ _ => Tree.nearest?_eq_some_iff⟩
  · rw [Definitions.ofTree, hfound]
    rfl
  · rintro a b m n hm hn ⟨c, rfl⟩
    rw [Tree.at?_append, hm, Option.bind_some] at hn
    exact (Tree.nodes_infix hn).filterMap _

def namedAt (kind : String) (byte : Nat) (children : List Tree) : Tree :=
  ⟨kind, 0, 0, 0, 0, ⟨"identifier", byte, byte + 1, 0, 0, [], []⟩ :: children, [("name", 0)]⟩

def nestedCode : List UInt8 := [0x41, 0x41, 0x66, 0x67, 0x68, 0x6b, 0x78]

def nestedClasses : Tree :=
  ⟨"module", 0, 7, 0, 0,
    [namedAt "class_definition" 0
      [namedAt "function_definition" 2
        [⟨"class_definition", 0, 0, 0, 0,
            [namedAt "function_definition" 3
              [⟨"assignment", 0, 0, 0, 0, [⟨"identifier", 6, 7, 0, 0, [], []⟩], []⟩]], []⟩,
          namedAt "class_definition" 1 [namedAt "function_definition" 4 []]]],
      namedAt "function_definition" 5 []], []⟩

def Tree.leaf (row : Int) (kind : String) (firstByte endByte : Nat) : Tree :=
  ⟨kind, firstByte, endByte, row, row, [], []⟩

def methodAndFunction : String :=
  "class A \x7b m() \x7b let x = 1; \x7d \x7d\nfunction f() \x7b\x7d\n"

def methodAndFunctionTree : Tree :=
  ⟨"program", 0, 47, 0, 2,
    [⟨"class_declaration", 0, 30, 0, 0,
        [.leaf 0 "class" 0 5, .leaf 0 "identifier" 6 7,
          ⟨"class_body", 8, 30, 0, 0,
            [.leaf 0 "\x7b" 8 9,
              ⟨"method_definition", 10, 28, 0, 0,
                [.leaf 0 "property_identifier" 10 11,
                  ⟨"formal_parameters", 11, 13, 0, 0, [.leaf 0 "(" 11 12, .leaf 0 ")" 12 13], []⟩,
                  ⟨"statement_block", 14, 28, 0, 0,
                    [.leaf 0 "\x7b" 14 15,
                      ⟨"lexical_declaration", 16, 26, 0, 0,
                        [.leaf 0 "let" 16 19,
                          ⟨"variable_declarator", 20, 25, 0, 0,
                            [.leaf 0 "identifier" 20 21, .leaf 0 "=" 22 23, .leaf 0 "number" 24 25],
                            [("name", 0), ("value", 2)]⟩,
                          .leaf 0 ";" 25 26], [("kind", 0)]⟩,
                      .leaf 0 "\x7d" 27 28], []⟩],
                [("name", 0), ("parameters", 1), ("body", 2)]⟩,
              .leaf 0 "\x7d" 29 30], []⟩],
        [("name", 1), ("body", 2)]⟩,
      ⟨"function_declaration", 31, 46, 1, 1,
        [.leaf 1 "function" 31 39, .leaf 1 "identifier" 40 41,
          ⟨"formal_parameters", 41, 43, 1, 1, [.leaf 1 "(" 41 42, .leaf 1 ")" 42 43], []⟩,
          ⟨"statement_block", 44, 46, 1, 1, [.leaf 1 "\x7b" 44 45, .leaf 1 "\x7d" 45 46], []⟩],
        [("name", 1), ("parameters", 2), ("body", 3)]⟩], []⟩

theorem nestedClasses_attributed :
    (∃ found, Definitions.ofTree "python" nestedCode nestedClasses = .ok (.outline found) ∧
      IsOutline "python" nestedCode nestedClasses found ∧
      found.classes.map (fun c => (c.name, c.functions.map Function.name)) =
        [("A", ["f", "g"]), ("A", ["h"])] ∧
      found.functions.map Function.name = ["k"] ∧
      found.classes.flatMap (fun c => c.functions.map Function.variableNames) =
        [["x"], ["x"], []]) ∧
    ∃ found, Definitions.ofTree "javascript" (Text.Utf8.encode methodAndFunction)
        methodAndFunctionTree = .ok (.outline found) ∧
      IsOutline "javascript" (Text.Utf8.encode methodAndFunction) methodAndFunctionTree found ∧
      found = ⟨[⟨"A", 1, [⟨"m", 1, ["x"], 1⟩]⟩], [⟨"f", 2, [], 1⟩]⟩ := by
  constructor
  · obtain ⟨⟨found, hfound, h⟩, -⟩ :=
      functions_attributed "python" (by decide) nestedCode nestedClasses
    refine ⟨found, hfound, h, ?_, ?_, ?_⟩
    · rw [h.classes]
      decide +kernel
    · rw [h.functions]
      decide +kernel
    · rw [h.classes]
      decide +kernel
  · obtain ⟨⟨found, hfound, h⟩, -⟩ := functions_attributed "javascript" (by decide)
      (Text.Utf8.encode methodAndFunction) methodAndFunctionTree
    refine ⟨found, hfound, h, ?_⟩
    have hclasses := h.classes
    have hfunctions := h.functions
    obtain ⟨classes, functions⟩ := found
    dsimp only at hclasses hfunctions
    rw [hclasses, hfunctions]
    decide +kernel

end CodeAtlas.Grammar
