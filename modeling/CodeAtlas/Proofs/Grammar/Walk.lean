import CodeAtlas.Proofs.Grammar.Addresses

/-! What one walk through a tree adds up to. Below a node the walk adds functions to one owner, and
the classes that it meets come in preorder after those that were there before. It fails exactly if
it meets a function that cannot be told of, wherever that stands and whatever was found before it.
-/

namespace CodeAtlas.Grammar

namespace Outline

def give (owner : Option Nat) (fs : List Function) (found : Outline) : Outline :=
  match owner with
  | some i =>
    { found with
      classes := found.classes.modify i fun c => { c with functions := c.functions ++ fs } }
  | none => { found with functions := found.functions ++ fs }

def addClasses (cs : List Class) (found : Outline) : Outline :=
  { found with classes := found.classes ++ cs }

def Holds (found : Outline) (owner : Option Nat) : Prop := ∀ i ∈ owner, i < found.classes.length

section
variable {owner : Option Nat} {fs gs : List Function} {cs ds : List Class} {found : Outline}

theorem give_nil : found.give owner [] = found := by
  cases owner with
  | none => simp [give]
  | some i =>
    have hsame : (fun c : Class => { c with functions := c.functions ++ [] }) = id := by
      funext c
      simp
    rw [give, hsame, List.modify_id]

theorem give_give : (found.give owner fs).give owner gs = found.give owner (fs ++ gs) := by
  cases owner with
  | none => simp [give]
  | some i =>
    simp only [give, List.modify_modify_eq]
    congr 2
    funext c
    simp

theorem addFunction_eq (f : Function) : found.addFunction owner f = found.give owner [f] := by
  cases owner <;> rfl

theorem addClasses_addClasses :
    (found.addClasses cs).addClasses ds = found.addClasses (cs ++ ds) := by
  simp [addClasses]

theorem give_addClasses (h : found.Holds owner) :
    (found.addClasses cs).give owner fs = (found.give owner fs).addClasses cs := by
  cases owner with
  | none => rfl
  | some i =>
    have hi : i < found.classes.length := h i rfl
    have hmodify (f : Class → Class) :
        (found.classes ++ cs).modify i f = found.classes.modify i f ++ cs := by
      refine List.ext_getElem? fun j => ?_
      grind
    rw [give, addClasses, hmodify]
    rfl

theorem give_addClass (name : String) (line : Int) :
    (found.addClass name line).give (some found.classes.length) fs =
      found.addClasses [⟨name, line, fs⟩] := by
  have hmodify (f : Class → Class) (c : Class) :
      (found.classes ++ [c]).modify found.classes.length f = found.classes ++ [f c] := by
    refine List.ext_getElem? fun j => ?_
    grind
  rw [give, addClass, hmodify]
  rfl

theorem Holds.give (h : found.Holds owner) : (found.give owner fs).Holds owner := by
  rintro i rfl
  simpa [Outline.give] using h i rfl

theorem Holds.addClasses (h : found.Holds owner) : (found.addClasses cs).Holds owner := by
  intro i hi
  have := h i hi
  simp only [Outline.addClasses, List.length_append]
  omega

theorem holds_addClass (name : String) (line : Int) :
    (found.addClass name line).Holds (some found.classes.length) := by
  rintro i ⟨⟩
  simp [addClass]

end

end Outline

namespace Tree

def isNamed (kinds : List String) (t : Tree) : Bool :=
  kinds.contains t.kind && (t.field? "name").isSome

def function? (rules : Rules) (code : List UInt8) (t : Tree) : Option Function :=
  (t.nameAmong? rules.functionKinds code).map fun name => t.describe rules code name

mutual

def freeFunctions (rules : Rules) (code : List UInt8) : Tree → List Function
  | t@⟨_, _, _, _, _, children, _⟩ =>
    if t.isNamed rules.classKinds then []
    else (t.function? rules code).toList ++ freeFunctionsAll rules code children

def freeFunctionsAll (rules : Rules) (code : List UInt8) : List Tree → List Function
  | [] => []
  | t :: ts => freeFunctions rules code t ++ freeFunctionsAll rules code ts

end

/-- The class that a node is. It holds the functions below it that no class in between holds. -/
def class? (rules : Rules) (code : List UInt8) (t : Tree) : Option Class :=
  (t.nameAmong? rules.classKinds code).map fun name =>
    ⟨name, t.firstRow + 1,
      (t.function? rules code).toList ++ t.children.flatMap (freeFunctions rules code)⟩

def isRefused (rules : Rules) (t : Tree) : Bool :=
  !rules.describesFunctions && t.isNamed rules.functionKinds

section
variable {rules : Rules} {code : List UInt8}

theorem isSome_nameAmong? (kinds : List String) (code : List UInt8) (t : Tree) :
    (t.nameAmong? kinds code).isSome = t.isNamed kinds := by
  unfold nameAmong? isNamed name?
  split <;> simp_all

theorem freeFunctions_eq (t : Tree) :
    t.freeFunctions rules code =
      if t.isNamed rules.classKinds then []
      else (t.function? rules code).toList ++ t.children.flatMap (freeFunctions rules code) := by
  have hall (ts : List Tree) :
      freeFunctionsAll rules code ts = ts.flatMap (freeFunctions rules code) := by
    induction ts with
    | nil => rfl
    | cons t ts ih => rw [freeFunctionsAll, ih, List.flatMap_cons]
  obtain ⟨kind, firstByte, endByte, firstRow, lastRow, children, fields⟩ := t
  rw [freeFunctions, hall]

theorem collectEach_eq (place : VariablePlace) (code : List UInt8) (found : List String)
    (ts : List Tree) :
    collectEach place code found ts = ts.foldl (collectVariables place code) found := by
  induction ts generalizing found with
  | nil => rfl
  | cons t ts ih => rw [collectEach, ih, List.foldl_cons]

theorem collectVariables_eq (place : VariablePlace) (code : List UInt8) (found : List String)
    (t : Tree) :
    t.collectVariables place code found =
      found ++ t.nodes.filterMap (variableText? place code) := by
  induction t using induction generalizing found with
  | step t ih =>
    have hbelow (ts : List Tree) (hts : ∀ child ∈ ts, child ∈ t.children) (found : List String) :
        ts.foldl (collectVariables place code) found =
          found ++ (ts.flatMap nodes).filterMap (variableText? place code) := by
      induction ts generalizing found with
      | nil => simp
      | cons child ts ihs =>
        rw [List.foldl_cons, ih child (hts child List.mem_cons_self),
          ihs fun child hchild => hts child (List.mem_cons_of_mem _ hchild)]
        simp
    have hroot : t.collectVariables place code found =
        t.children.foldl (collectVariables place code)
          (found ++ (t.variableText? place code).toList) := by
      obtain ⟨kind, firstByte, endByte, firstRow, lastRow, children, fields⟩ := t
      rw [collectVariables, collectEach_eq]
    rw [hroot, hbelow t.children (fun _ h => h), nodes_eq, List.filterMap_cons]
    cases t.variableText? place code <;> simp

theorem noteFunction_eq (owner : Option Nat) (found : Outline) (t : Tree) :
    t.noteFunction rules code owner found =
      if t.isRefused rules then .error .functionRefused
      else .ok (found.give owner (t.function? rules code).toList) := by
  have hnamed := isSome_nameAmong? rules.functionKinds code t
  unfold noteFunction isRefused function?
  rw [← hnamed]
  cases t.nameAmong? rules.functionKinds code with
  | none => simp [Outline.give_nil]
  | some name => cases rules.describesFunctions <;> simp [Outline.addFunction_eq]

/-- What stands at the given nodes, told after what was found before. -/
def tell (rules : Rules) (code : List UInt8) (owner : Option Nat) (found : Outline)
    (nodes : List Tree) (free : List Function) : Except OutlineError Outline :=
  if nodes.any (isRefused rules) then .error .functionRefused
  else .ok ((found.give owner free).addClasses (nodes.filterMap (class? rules code)))

theorem tell_bind {owner : Option Nat} {found : Outline} (h : found.Holds owner)
    (nodes nodes' : List Tree) (free free' : List Function) :
    ((tell rules code owner found nodes free).bind fun found =>
        tell rules code owner found nodes' free') =
      tell rules code owner found (nodes ++ nodes') (free ++ free') := by
  unfold tell
  rw [List.any_append, List.filterMap_append]
  cases nodes.any (isRefused rules) with
  | true => rfl
  | false =>
    simp only [Bool.false_eq_true, if_false, Bool.false_or, Except.bind]
    rw [Outline.give_addClasses h.give, Outline.give_give, Outline.addClasses_addClasses]

theorem walkEach_eq {ts : List Tree}
    (hts : ∀ t ∈ ts, ∀ (owner : Option Nat) (found : Outline), found.Holds owner →
      t.walk rules code owner found =
        tell rules code owner found t.nodes (t.freeFunctions rules code))
    {owner : Option Nat} {found : Outline} (h : found.Holds owner) :
    walkEach rules code owner found ts =
      tell rules code owner found (ts.flatMap nodes) (ts.flatMap (freeFunctions rules code)) := by
  induction ts generalizing found with
  | nil => simp [walkEach, tell, Outline.give_nil, Outline.addClasses]
  | cons t ts ih =>
    obtain ⟨ht, hts⟩ := List.forall_mem_cons.1 hts
    rw [walkEach, ht owner found h, List.flatMap_cons, List.flatMap_cons, ← tell_bind h]
    rw [tell]
    cases t.nodes.any (isRefused rules) with
    | true => rfl
    | false => exact ih hts h.give.addClasses

/-- At each node there is one step into a class and one function to note; the rest is the walk
through the children. -/
theorem walk_cons (owner : Option Nat) (found : Outline) (t : Tree) :
    t.walk rules code owner found =
      (t.noteFunction rules code (t.enterClass rules code owner found).1
        (t.enterClass rules code owner found).2).bind fun noted =>
          walkEach rules code (t.enterClass rules code owner found).1 noted t.children := by
  obtain ⟨kind, firstByte, endByte, firstRow, lastRow, children, fields⟩ := t
  rw [walk]
  split <;> next heq => rw [heq]; rfl

theorem walk_eq (t : Tree) (owner : Option Nat) (found : Outline) (h : found.Holds owner) :
    t.walk rules code owner found =
      tell rules code owner found t.nodes (t.freeFunctions rules code) := by
  induction t using induction generalizing owner found with
  | step t ih =>
    have hnamed := isSome_nameAmong? rules.classKinds code t
    have hbelow {owner : Option Nat} {found : Outline} (h : found.Holds owner) :=
      walkEach_eq ih h
    rw [walk_cons, noteFunction_eq, freeFunctions_eq, nodes_eq, tell, List.any_cons,
      List.filterMap_cons, class?, ← hnamed, enterClass]
    cases t.isRefused rules with
    | true => rfl
    | false =>
      -- a class that has a name takes what is below it, any other node leaves it to the owner
      cases t.nameAmong? rules.classKinds code with
      | none =>
        simp only [Bool.false_eq_true, if_false, Except.bind, Bool.false_or]
        rw [hbelow h.give, tell, Outline.give_give]
        rfl
      | some name =>
        simp only [Bool.false_eq_true, if_false, Except.bind, Bool.false_or]
        rw [hbelow (Outline.holds_addClass name _).give, tell, Outline.give_give,
          Outline.give_addClass, Outline.addClasses_addClasses]
        simp [Outline.give_nil]

end

end Tree

theorem outline_ofTree (rules : Rules) (code : List UInt8) (t : Tree) :
    Outline.ofTree rules code t =
      if t.nodes.any (Tree.isRefused rules) then .error .functionRefused
      else .ok ⟨t.nodes.filterMap (Tree.class? rules code), t.freeFunctions rules code⟩ := by
  rw [Outline.ofTree, Tree.walk_eq t none ⟨[], []⟩ fun _ h => absurd h (Option.not_mem_none _)]
  rfl

end CodeAtlas.Grammar
