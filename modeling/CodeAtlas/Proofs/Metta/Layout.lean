import CodeAtlas.Proofs.Json.Members
import CodeAtlas.Proofs.Metta.Likeness
import CodeAtlas.Proofs.Metta.Places

/-! Where the tokens of a program stand has no influence on what it says: programs with the same
words have the same tree but for its places, and the same report but for its lines. -/

namespace CodeAtlas.Metta

open List (Forall₂)

def Token.word (t : Token) : TokenKind × String := (t.kind, t.text)

def tokensOf (source : List UInt8) : List Token :=
  tokenize (String.ofList (Text.Utf8.decodeLenient source))

def Node.unplaced (node : Node) : Node := node.mapPlaces (fun _ => 0) fun _ => 0

def Definitions.unplaced (d : Definitions) : Definitions := d.mapLines fun _ => 0

def lineKeys : List String := ["line", "Start_line", "end_line"]

namespace Node

theorem unplaced_eq (node : Node) : node.unplaced =
    ⟨node.kind, node.value, 0, 0, 0, 0, node.children.map unplaced⟩ := mapPlaces_eq _ _ node

theorem unplaced_congr {node node' : Node} (hkind : node.kind = node'.kind)
    (hvalue : node.value = node'.value)
    (hchildren : node.children.map unplaced = node'.children.map unplaced) :
    node.unplaced = node'.unplaced := by
  rw [unplaced_eq, unplaced_eq, hkind, hvalue, hchildren]

theorem unplaced_fields {node node' : Node} (h : node.unplaced = node'.unplaced) :
    node.kind = node'.kind ∧ node.value = node'.value ∧
      node.children.map unplaced = node'.children.map unplaced := by
  rw [unplaced_eq, unplaced_eq] at h
  injection h with hkind hvalue _ _ _ _ hchildren
  exact ⟨hkind, hvalue, hchildren⟩

end Node

theorem likeness_unplaced :
    Likeness (fun t u => t.word = u.word) fun node node' => node.unplaced = node'.unplaced where
  kind h := congrArg Prod.fst h
  text h := congrArg Prod.snd h
  leaf _ _ _ := Node.unplaced_congr rfl rfl rfl
  addChild {node node' child child'} hnode hchild := by
    obtain ⟨hkind, hvalue, hchildren⟩ := Node.unplaced_fields hnode
    refine Node.unplaced_congr (by simpa using hkind) (by simpa using hvalue) ?_
    simp only [Node.children_addChild, List.map_append, List.map_singleton, hchildren, hchild]
  closedAt {node node' t u} hnode _ := by
    obtain ⟨hkind, hvalue, hchildren⟩ := Node.unplaced_fields hnode
    exact Node.unplaced_congr hkind hvalue hchildren
  signatureClosedAt {node node' t u} hnode _ := by
    obtain ⟨hkind, hvalue, hchildren⟩ := Node.unplaced_fields hnode
    exact Node.unplaced_congr hkind hvalue hchildren
  run {body body' t u} _ hbody := by
    exact Node.unplaced_congr (by simp) (by simp) (by simpa using hbody)

theorem Function.toJson_without (f : Function) :
    f.toJson.without lineKeys = (f.mapLines fun _ => 0).toJson.without lineKeys := by
  simp [Function.toJson, Function.mapLines, Json.without, lineKeys]

theorem Execution.toJson_without (e : Execution) :
    e.toJson.without lineKeys = (e.mapLine fun _ => 0).toJson.without lineKeys := by
  simp [Execution.toJson, Execution.mapLine, Json.without, lineKeys]

theorem Fact.toJson_without (f : Fact) :
    f.toJson.without lineKeys = (f.mapLine fun _ => 0).toJson.without lineKeys := by
  simp [Fact.toJson, Fact.mapLine, Json.without, lineKeys]

theorem Definitions.toJson_without (d : Definitions) :
    d.toJson.without lineKeys = d.unplaced.toJson.without lineKeys := by
  have hfunctions : ∀ f ∈ d.functions, _ := fun f _ => f.toJson_without
  have hexecutions : ∀ e ∈ d.executions, _ := fun e _ => e.toJson_without
  have hfacts : ∀ f ∈ d.facts, _ := fun f _ => f.toJson_without
  simpa [Definitions.toJson, unplaced, mapLines, Json.without, Json.withoutEach_eq_map, lineKeys]
    using ⟨hfunctions, hexecutions, hfacts⟩

/-- Programs that say the same, token by token, differ in nothing but lines and rows: neither in
their trees nor in their reports. -/
theorem layout_irrelevant (a b : List UInt8)
    (h : (tokensOf a).map Token.word = (tokensOf b).map Token.word) :
    (Node.ofBytes a).unplaced = (Node.ofBytes b).unplaced ∧
      (Node.ofBytes a).definitions.toJson.without lineKeys =
        (Node.ofBytes b).definitions.toJson.without lineKeys := by
  have hwords : Forall₂ (fun t u : Token => t.word = u.word) (tokensOf a) (tokensOf b) := by
    rw [← List.forall₂_eq_eq_eq, List.forall₂_map_left_iff, List.forall₂_map_right_iff] at h
    exact h
  have htree : (Node.ofBytes a).unplaced = (Node.ofBytes b).unplaced :=
    likeness_unplaced.ofTokens rfl hwords
  have hreport : (Node.ofBytes a).definitions.unplaced = (Node.ofBytes b).definitions.unplaced := by
    rw [Definitions.unplaced, Definitions.unplaced, ← Node.definitions_mapPlaces _ fun _ => 0,
      ← Node.definitions_mapPlaces _ fun _ => 0]
    exact congrArg Node.definitions htree
  refine ⟨htree, ?_⟩
  rw [Definitions.toJson_without, hreport, ← Definitions.toJson_without]

def oneLine : List UInt8 := Text.Utf8.encode "(= (f $x) (g $x)) !(f (A b C))"

def fiveLines : List UInt8 := Text.Utf8.encode "(= (f\n $x)\n(g $x) )\n!\n (f (A b C))"

theorem oneLine_fiveLines :
    (tokensOf oneLine).map Token.word = (tokensOf fiveLines).map Token.word ∧
      (Node.ofBytes oneLine).unplaced = (Node.ofBytes fiveLines).unplaced ∧
      (Node.ofBytes oneLine).definitions.toJson.without lineKeys =
        (Node.ofBytes fiveLines).definitions.toJson.without lineKeys ∧
      (Node.ofBytes oneLine).definitions.functions = [⟨"f", 1, 1, ["$x"]⟩] ∧
      (Node.ofBytes fiveLines).definitions.functions = [⟨"f", 1, 3, ["$x"]⟩] := by
  have hwords : (tokensOf oneLine).map Token.word = (tokensOf fiveLines).map Token.word := by
    decide +kernel
  obtain ⟨htree, hreport⟩ := layout_irrelevant oneLine fiveLines hwords
  refine ⟨hwords, htree, hreport, ?_, ?_⟩
  · decide +kernel
  · decide +kernel

end CodeAtlas.Metta
