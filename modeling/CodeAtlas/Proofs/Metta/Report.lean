import CodeAtlas.Proofs.Metta.Forms
import CodeAtlas.Proofs.Sorting

/-! What is reported of a program, told by its grammar alone. The parts of a program are its items,
its forms with their signatures, and the words in them, in preorder; each part of the report speaks
of the parts of one sort. -/

namespace CodeAtlas.Metta

inductive Part
  | comment (t : TokenOf .comment)
  | mark (t : TokenOf .execute)
  | run (t : TokenOf .execute) (f : Form)
  | form (f : Form)
  | signature {kind : Option TokenKind} (name : Word) (parameters : Elements kind)
      (r : TokenOf .closeParen)
  | word (w : Word)

mutual

def Form.parts : Form → List Part
  | .empty l r => [.form (.empty l r)]
  | .list l elements r h => .form (.list l elements r h) :: elements.parts
  | .equation l e body r h => .form (.equation l e body r h) :: body.parts
  | .function l e l' name parameters r' body r =>
    .form (.function l e l' name parameters r' body r) ::
      .signature name parameters r' :: (parameters.parts ++ body.parts)

def Elements.parts {kind : Option TokenKind} : Elements kind → List Part
  | .nil => []
  | .word w later => .word w :: later.parts
  | .form f later => f.parts ++ later.parts

end

def Program.parts {kind : Option TokenKind} : Program kind → List Part
  | .nil => []
  | .comment t later => .comment t :: later.parts
  | .run t f later => .run t f :: (f.parts ++ later.parts)
  | .mark t later _ => .mark t :: later.parts
  | .form f later => f.parts ++ later.parts
  | .other _ later _ _ => later.parts

def Elements.length {kind : Option TokenKind} : Elements kind → Nat
  | .nil => 0
  | .word _ later => later.length + 1
  | .form _ later => later.length + 1

def Elements.headText {kind : Option TokenKind} : Elements kind → String
  | .word w _ => w.1.text
  | _ => ""

def Elements.subject? {kind : Option TokenKind} : Elements kind → Option String
  | .word w _ => if w.1.kind = .atom then some w.1.text else none
  | _ => none

def Elements.variableTexts {kind : Option TokenKind} : Elements kind → List String
  | .nil => []
  | .word w later =>
    if w.1.kind = .variable then w.1.text :: later.variableTexts else later.variableTexts
  | .form _ later => later.variableTexts

def phrase (head : String) (arguments : Nat) : String :=
  if arguments = 0 then head else s!"{head}({arguments} args)"

def Form.phrase : Form → String
  | .empty _ _ => "empty"
  | .list _ elements _ _ => Metta.phrase elements.headText (elements.length - 1)
  | .equation _ _ body _ _ =>
    if body.length = 0 then "empty" else Metta.phrase body.headText (body.length - 1)
  | .function _ _ _ name _ _ body _ => Metta.phrase name.1.text body.length

namespace Part

def function? : Part → Option Function
  | .form (.function l _ _ name parameters _ _ r) =>
    some ⟨name.1.text, l.1.line, r.1.line, parameters.variableTexts⟩
  | _ => none

def execution? : Part → Option Execution
  | .run t f => some ⟨t.1.line, f.phrase⟩
  | _ => none

def fact? : Part → Option Fact
  | .form (.list l elements _ _) =>
    if elements.length = 3 then
      elements.subject?.map fun subject => ⟨l.1.line, phrase subject 2, subject⟩
    else none
  | _ => none

def isPlainList : Part → Bool
  | .form (.list l elements r h) => (fact? (.form (.list l elements r h))).isNone
  | _ => false

def text? (kind : TokenKind) : Part → Option String
  | .word w => if w.1.kind = kind then some w.1.text else none
  | _ => none

def node : Part → Node
  | .comment t => Parser.comment t.1
  | .mark t => .leaf .execution "!" t.1.line
  | .run t f => runNode t f.node
  | .form f => f.node
  | .signature name parameters r => signatureNode name parameters.nodes r
  | .word w => Parser.atom w.1

end Part

/-- The report that a program deserves. -/
structure Program.IsReport {kind : Option TokenKind} (program : Program kind) (d : Definitions) :
    Prop where
  functions : d.functions = program.parts.filterMap Part.function?
  executions : d.executions = program.parts.filterMap Part.execution?
  facts : d.facts = program.parts.filterMap Part.fact?
  expressionCount : d.expressionCount = program.parts.countP Part.isPlainList
  variables_sorted : d.variableNames.Pairwise (· < ·)
  mem_variables : ∀ v, v ∈ d.variableNames ↔ v ∈ program.parts.filterMap (Part.text? .variable)
  spaces_sorted : d.spaces.Pairwise (· < ·)
  mem_spaces : ∀ v, v ∈ d.spaces ↔ v ∈ program.parts.filterMap (Part.text? .space)

mutual

theorem Form.nodes_node : ∀ f : Form, f.node.nodes = f.parts.map Part.node
  | .empty l r => by rw [Node.nodes_eq]; rfl
  | .list l elements r h => by
    rw [Node.nodes_eq, Form.parts, List.map_cons, ← elements.flatMap_nodes]
    simp [Form.node, Part.node]
  | .equation l e body r h => by
    rw [Node.nodes_eq, Form.parts, List.map_cons, ← body.flatMap_nodes]
    simp [Form.node, Part.node]
  | .function l e l' name parameters r' body r => by
    rw [Node.nodes_eq, Form.parts, List.map_cons, List.map_cons, List.map_append,
      ← parameters.flatMap_nodes, ← body.flatMap_nodes]
    have hsignature := Node.nodes_eq (signatureNode name parameters.nodes r')
    have hchildren : (signatureNode name parameters.nodes r').children = parameters.nodes := by
      simp [signatureNode]
    rw [hchildren] at hsignature
    simp [Form.node, Part.node, hsignature]

theorem Elements.flatMap_nodes {kind : Option TokenKind} : ∀ elements : Elements kind,
    elements.nodes.flatMap Node.nodes = elements.parts.map Part.node
  | .nil => rfl
  | .word w later => by
    rw [Elements.nodes, Elements.parts, List.flatMap_cons, later.flatMap_nodes, Node.nodes_eq]
    rfl
  | .form f later => by
    rw [Elements.nodes, Elements.parts, List.flatMap_cons, later.flatMap_nodes, f.nodes_node,
      List.map_append]

end

theorem nodes_runNode (t : TokenOf .execute) (body : Node) :
    (runNode t body).nodes = runNode t body :: body.nodes := by
  rw [Node.nodes_eq]
  simp [runNode]

theorem Program.flatMap_nodes {kind : Option TokenKind} (program : Program kind) :
    program.nodes.flatMap Node.nodes = program.parts.map Part.node := by
  induction program with
  | nil => rfl
  | comment t later ih =>
    rw [Program.nodes, Program.parts, List.flatMap_cons, ih, Node.nodes_eq]
    rfl
  | run t f later ih =>
    rw [Program.nodes, Program.parts, List.flatMap_cons, ih, nodes_runNode, f.nodes_node,
      List.map_cons, List.map_append]
    rfl
  | mark t later not_open ih =>
    rw [Program.nodes, Program.parts, List.flatMap_cons, ih, Node.nodes_eq]
    rfl
  | form f later ih =>
    rw [Program.nodes, Program.parts, List.flatMap_cons, ih, f.nodes_node, List.map_append]
  | other w later not_comment not_execute ih => exact ih

theorem Elements.length_nodes {kind : Option TokenKind} : ∀ elements : Elements kind,
    elements.nodes.length = elements.length
  | .nil => rfl
  | .word _ later => congrArg (· + 1) later.length_nodes
  | .form _ later => congrArg (· + 1) later.length_nodes

theorem Form.value_node (f : Form) : f.node.value = "" := by
  cases f <;> simp [Form.node]

theorem Form.kind_node (f : Form) :
    f.node.kind = .emptyExpression ∨ f.node.kind = .expression ∨ f.node.kind = .definition := by
  cases f <;> simp [Form.node]

@[simp] theorem Parser.kind_atom (t : Token) : (atom t).kind = atomKind t.kind := rfl
@[simp] theorem Parser.value_atom (t : Token) : (atom t).value = t.text := rfl
@[simp] theorem Parser.children_atom (t : Token) : (atom t).children = [] := rfl

theorem Parser.atomKind_ne_signature (kind : TokenKind) : atomKind kind ≠ .signature := by
  cases kind <;> simp [atomKind]

theorem Parser.atomKind_eq_variable {kind : TokenKind} :
    atomKind kind = .variable ↔ kind = .variable := by
  cases kind <;> simp [atomKind]

theorem Parser.atomKind_eq_space {kind : TokenKind} :
    atomKind kind = .space ↔ kind = .space := by
  cases kind <;> simp [atomKind]

theorem Parser.atomKind_eq_atom {kind : TokenKind} : atomKind kind = .atom ↔ kind = .atom := by
  cases kind <;> simp [atomKind]

theorem Elements.kind_ne_signature {kind : Option TokenKind} : ∀ (elements : Elements kind),
    ∀ node ∈ elements.nodes, node.kind ≠ .signature
  | .nil, node, h => by simp [Elements.nodes] at h
  | .word w later, node, h => by
    obtain rfl | h := List.mem_cons.1 h
    · exact Parser.atomKind_ne_signature w.1.kind
    · exact later.kind_ne_signature node h
  | .form f later, node, h => by
    obtain rfl | h := List.mem_cons.1 h
    · obtain hk | hk | hk := f.kind_node <;> simp [hk]
    · exact later.kind_ne_signature node h

theorem Elements.filter_variable {kind : Option TokenKind} : ∀ elements : Elements kind,
    (elements.nodes.filter fun node => node.kind = .variable).map Node.value =
      elements.variableTexts
  | .nil => rfl
  | .word w later => by
    have ih := later.filter_variable
    rw [Elements.nodes, Elements.variableTexts, List.filter_cons]
    by_cases h : w.1.kind = .variable
    · simpa [Parser.atomKind_eq_variable, h] using ih
    · simpa [Parser.atomKind_eq_variable, h] using ih
  | .form f later => by
    have ih := later.filter_variable
    have hkind : f.node.kind ≠ .variable := by
      obtain hk | hk | hk := f.kind_node <;> simp [hk]
    simpa [Elements.nodes, Elements.variableTexts, hkind] using ih

theorem Node.brief_nil {node : Node} (h : node.children = []) (hv : node.value = "") :
    node.brief = "empty" := by
  simp [Node.brief, h, hv]

theorem Node.brief_cons {node head : Node} {arguments : List Node}
    (h : node.children = head :: arguments) :
    node.brief = phrase head.value arguments.length := by
  cases arguments with
  | nil => simp [Node.brief, h, phrase]
  | cons first later => simp [Node.brief, h, phrase]

theorem Elements.brief_of_children {kind : Option TokenKind} (elements : Elements kind)
    {node : Node} (h : node.children = elements.nodes) (hl : elements.length ≠ 0) :
    node.brief = phrase elements.headText (elements.length - 1) := by
  cases elements with
  | nil => exact absurd rfl hl
  | word w later =>
    rw [Node.brief_cons h, later.length_nodes]
    rfl
  | form f later =>
    rw [Node.brief_cons h, later.length_nodes, f.value_node]
    rfl

theorem Form.brief_node (f : Form) : f.node.brief = f.phrase := by
  cases f with
  | empty l r => exact Node.brief_nil rfl rfl
  | list l elements r h =>
    have hlength : elements.length ≠ 0 := by cases elements <;> simp [Elements.length]
    exact elements.brief_of_children (by simp [Form.node]) hlength
  | equation l e body r h =>
    rw [Form.phrase]
    split
    · next hlength =>
      have hnil : body.nodes = [] := List.eq_nil_of_length_eq_zero (body.length_nodes.trans hlength)
      exact Node.brief_nil (by simp [Form.node, hnil]) (by simp [Form.node])
    · next hlength => exact body.brief_of_children (by simp [Form.node]) hlength
  | function l e l' name parameters r' body r =>
    have hchildren : (Form.function l e l' name parameters r' body r).node.children =
        signatureNode name parameters.nodes r' :: body.nodes := by simp [Form.node]
    rw [Node.brief_cons hchildren, body.length_nodes, Form.phrase]
    simp [signatureNode]

theorem Node.function?_of_ne {node : Node} (h : node.kind ≠ .definition) :
    node.function? = none := if_neg h

theorem Node.execution?_of_ne {node : Node} (h : node.kind ≠ .execution) :
    node.execution? = none := if_neg h

theorem Node.fact?_of_ne {node : Node} (h : node.kind ≠ .expression) : node.fact? = none := by
  unfold Node.fact?
  split
  · contradiction
  · rfl

theorem Node.fact?_of_length {node : Node} (h : node.children.length ≠ 3) :
    node.fact? = none := by
  unfold Node.fact?
  split
  · next hchildren => simp [hchildren] at h
  · rfl

theorem Node.fact?_of_three {node subject : Node} {later : List Node}
    (hkind : node.kind = .expression) (hchildren : node.children = subject :: later)
    (hlength : later.length = 2) :
    node.fact? = if subject.kind = .atom then
      some ⟨node.line, phrase subject.value 2, subject.value⟩ else none := by
  have hbrief := Node.brief_cons hchildren
  rw [hlength] at hbrief
  match later, hlength with
  | [a, b], _ =>
    unfold Node.fact?
    simp only [hkind, hchildren, hbrief]

namespace Part

theorem kind_word (w : Word) : (word w).node.kind ≠ .definition ∧
    (word w).node.kind ≠ .execution ∧ (word w).node.kind ≠ .expression := by
  rw [node, Parser.kind_atom]
  cases w.1.kind <;> simp [Parser.atomKind]

theorem function?_node (p : Part) : p.node.function? = p.function? := by
  cases p with
  | comment t => rfl
  | mark t => rfl
  | run t f => exact Node.function?_of_ne (by simp [node, runNode])
  | signature name parameters r => exact Node.function?_of_ne (by simp [node, signatureNode])
  | word w => exact Node.function?_of_ne (kind_word w).1
  | form f =>
    cases f with
    | empty l r => rfl
    | list l elements r h => exact Node.function?_of_ne (by simp [node, Form.node])
    | equation l e body r h =>
      have hnone : body.nodes.find? (fun child => child.kind = .signature) = none := by
        simpa using body.kind_ne_signature
      simp [node, Form.node, Node.function?, function?, hnone]
    | function l e l' name parameters r' body r =>
      have hfilter := parameters.filter_variable
      simp [node, Form.node, signatureNode, Node.function?, function?, hfilter]

theorem execution?_node (p : Part) : p.node.execution? = p.execution? := by
  cases p with
  | comment t => rfl
  | mark t => rfl
  | run t f => simp [node, runNode, Node.execution?, execution?, f.brief_node]
  | signature name parameters r => exact Node.execution?_of_ne (by simp [node, signatureNode])
  | word w => exact Node.execution?_of_ne (kind_word w).2.1
  | form f =>
    refine Node.execution?_of_ne ?_
    obtain hk | hk | hk := f.kind_node <;> simp [node, hk]

theorem fact?_list {kind : TokenKind} (l : TokenOf .openParen) (elements : Elements (some kind))
    (r : TokenOf .closeParen) (h : kind ≠ .equals) :
    (form (.list l elements r h)).node.fact? = (form (.list l elements r h)).fact? := by
  have hkind : (form (.list l elements r h)).node.kind = .expression := by simp [node, Form.node]
  have hline : (form (.list l elements r h)).node.line = l.1.line := by simp [node, Form.node]
  have hchildren : (form (.list l elements r h)).node.children = elements.nodes := by
    simp [node, Form.node]
  by_cases hlength : elements.length = 3
  · rw [fact?, if_pos hlength]
    cases elements with
    | word w later =>
      have hlater : later.nodes.length = 2 := by
        rw [later.length_nodes]
        exact Nat.succ.inj hlength
      rw [Node.fact?_of_three hkind hchildren hlater, hline]
      by_cases hatom : w.1.kind = .atom
      · simp [Parser.atomKind_eq_atom, Elements.subject?, hatom]
      · simp [Parser.atomKind_eq_atom, Elements.subject?, hatom]
    | form f later =>
      have hlater : later.nodes.length = 2 := by
        rw [later.length_nodes]
        exact Nat.succ.inj hlength
      have hf : f.node.kind ≠ .atom := by
        obtain hk | hk | hk := f.kind_node <;> simp [hk]
      rw [Node.fact?_of_three hkind hchildren hlater, if_neg hf]
      rfl
  · rw [Node.fact?_of_length (by rw [hchildren, elements.length_nodes]; exact hlength), fact?,
      if_neg hlength]

theorem fact?_node (p : Part) : p.node.fact? = p.fact? := by
  cases p with
  | comment t => rfl
  | mark t => rfl
  | run t f => exact Node.fact?_of_ne (by simp [node, runNode])
  | signature name parameters r => exact Node.fact?_of_ne (by simp [node, signatureNode])
  | word w => exact Node.fact?_of_ne (kind_word w).2.2
  | form f =>
    cases f with
    | empty l r => rfl
    | list l elements r h => exact fact?_list l elements r h
    | equation l e body r h => exact Node.fact?_of_ne (by simp [node, Form.node])
    | function l e l' name parameters r' body r =>
      exact Node.fact?_of_ne (by simp [node, Form.node])

theorem isPlainExpression_node (p : Part) : p.node.isPlainExpression = p.isPlainList := by
  have hfact := p.fact?_node
  unfold Node.isPlainExpression
  rw [hfact]
  cases p with
  | comment t => rfl
  | mark t => rfl
  | run t f => simp [node, runNode, isPlainList]
  | signature name parameters r => simp [node, signatureNode, isPlainList]
  | word w => simp [isPlainList, (kind_word w).2.2]
  | form f => cases f <;> simp [node, Form.node, isPlainList]

def otherKinds : List NodeKind :=
  [.comment, .execution, .emptyExpression, .expression, .definition, .signature]

theorem text?_node {kind : NodeKind} {tokenKind : TokenKind} (hother : kind ∉ otherKinds)
    (hatom : ∀ k, Parser.atomKind k = kind ↔ k = tokenKind) (p : Part) :
    p.text? tokenKind = if p.node.kind = kind then some p.node.value else none := by
  have hne {q : Part} (h : q.node.kind ∈ otherKinds) : q.node.kind ≠ kind :=
    fun heq => hother (heq ▸ h)
  cases p with
  | comment t => exact (if_neg (hne (by simp [node, Parser.comment, otherKinds]))).symm
  | mark t => exact (if_neg (hne (by simp [node, otherKinds]))).symm
  | run t f => exact (if_neg (hne (by simp [node, runNode, otherKinds]))).symm
  | signature name parameters r =>
    exact (if_neg (hne (by simp [node, signatureNode, otherKinds]))).symm
  | form f =>
    refine (if_neg (hne ?_)).symm
    obtain hk | hk | hk := f.kind_node <;> simp [node, hk, otherKinds]
  | word w => simp [text?, node, hatom]

theorem valuesOf_map_node {kind : NodeKind} {tokenKind : TokenKind} (hother : kind ∉ otherKinds)
    (hatom : ∀ k, Parser.atomKind k = kind ↔ k = tokenKind) (parts : List Part) :
    Node.valuesOf kind (parts.map node) = parts.filterMap (text? tokenKind) := by
  induction parts with
  | nil => rfl
  | cons p parts ih =>
    rw [List.filterMap_cons, text?_node hother hatom p, ← ih]
    by_cases h : p.node.kind = kind
    · simp [Node.valuesOf, h]
    · simp [Node.valuesOf, h]

end Part

theorem Part.filterMap_map_node {α : Type} {ofNode : Node → Option α} {ofPart : Part → Option α}
    (h : ∀ p : Part, ofNode p.node = ofPart p) {root : Node} (hroot : ofNode root = none)
    (parts : List Part) :
    (root :: parts.map node).filterMap ofNode = parts.filterMap ofPart := by
  rw [List.filterMap_cons, hroot, List.filterMap_map]
  exact congrArg (List.filterMap · parts) (funext h)

theorem Program.nodes_ofTokens {kind : Option TokenKind} (program : Program kind) :
    ∃ root : Node, root.kind = .program ∧
      (Node.ofTokens program.tokens).nodes = root :: program.parts.map Part.node := by
  refine ⟨Node.ofTokens program.tokens, by simp [Node.ofTokens], ?_⟩
  rw [Node.nodes_eq, ← program.flatMap_nodes]
  simp [Node.ofTokens, program.topLevels_tokens]

/-- Whatever the layout of a program, its report is the one that its grammar gives. -/
theorem definitions_of_program {kind : Option TokenKind} (program : Program kind)
    (source : List UInt8)
    (h : tokenize (String.ofList (Text.Utf8.decodeLenient source)) = program.tokens) :
    program.IsReport (Node.ofBytes source).definitions := by
  obtain ⟨root, hroot, hnodes⟩ := program.nodes_ofTokens
  have hvalues (k : NodeKind) (hk : k ≠ .program) :
      Node.valuesOf k (root :: program.parts.map Part.node) =
        Node.valuesOf k (program.parts.map Part.node) := by
    simp [Node.valuesOf, hroot, hk.symm]
  have hvariables := (hvalues .variable (by simp)).trans
    (Part.valuesOf_map_node (by decide) (@Parser.atomKind_eq_variable) program.parts)
  have hspaces := (hvalues .space (by simp)).trans
    (Part.valuesOf_map_node (by decide) (@Parser.atomKind_eq_space) program.parts)
  rw [Node.ofBytes, h, Node.definitions, hnodes]
  refine ⟨?_, ?_, ?_, ?_, ?_, ?_, ?_, ?_⟩
  · exact Part.filterMap_map_node Part.function?_node
      (Node.function?_of_ne (by simp [hroot])) program.parts
  · exact Part.filterMap_map_node Part.execution?_node
      (Node.execution?_of_ne (by simp [hroot])) program.parts
  · exact Part.filterMap_map_node Part.fact?_node
      (Node.fact?_of_ne (by simp [hroot])) program.parts
  · have hplain : Node.isPlainExpression root = false := by simp [Node.isPlainExpression, hroot]
    simp only [List.countP_cons, hplain, List.countP_map]
    exact congrArg (List.countP · program.parts) (funext Part.isPlainExpression_node)
  · exact Text.sortedUnique_pairwise _
  · intro v
    rw [Text.mem_sortedUnique, hvariables]
  · exact Text.sortedUnique_pairwise _
  · intro v
    rw [Text.mem_sortedUnique, hspaces]

def sampleSource : List UInt8 :=
  Text.Utf8.encode "; doc\n(= (f $x (g $y))\n  $x)\n!(f (A b C))"

def sampleProgram : Program (some .comment) :=
  .comment ⟨⟨.comment, "; doc", 1, 0⟩, rfl⟩ <|
  .form
    (.function ⟨⟨.openParen, "(", 2, 0⟩, rfl⟩ ⟨⟨.equals, "=", 2, 1⟩, rfl⟩
      ⟨⟨.openParen, "(", 2, 3⟩, rfl⟩ ⟨⟨.atom, "f", 2, 4⟩, by decide⟩
      (.word ⟨⟨.variable, "$x", 2, 6⟩, by decide⟩ <| .form
        (.list ⟨⟨.openParen, "(", 2, 9⟩, rfl⟩
          (.word ⟨⟨.atom, "g", 2, 10⟩, by decide⟩ <|
            .word ⟨⟨.variable, "$y", 2, 12⟩, by decide⟩ .nil)
          ⟨⟨.closeParen, ")", 2, 14⟩, rfl⟩ (by decide)) .nil)
      ⟨⟨.closeParen, ")", 2, 15⟩, rfl⟩
      (.word ⟨⟨.variable, "$x", 3, 2⟩, by decide⟩ .nil) ⟨⟨.closeParen, ")", 3, 4⟩, rfl⟩) <|
  .run ⟨⟨.execute, "!", 4, 0⟩, rfl⟩
    (.list ⟨⟨.openParen, "(", 4, 1⟩, rfl⟩
      (.word ⟨⟨.atom, "f", 4, 2⟩, by decide⟩ <| .form
        (.list ⟨⟨.openParen, "(", 4, 4⟩, rfl⟩
          (.word ⟨⟨.atom, "A", 4, 5⟩, by decide⟩ <| .word ⟨⟨.atom, "b", 4, 7⟩, by decide⟩ <|
            .word ⟨⟨.atom, "C", 4, 9⟩, by decide⟩ .nil)
          ⟨⟨.closeParen, ")", 4, 10⟩, rfl⟩ (by decide)) .nil)
      ⟨⟨.closeParen, ")", 4, 11⟩, rfl⟩ (by decide))
  .nil

theorem definitions_of_sampleProgram :
    tokenize (String.ofList (Text.Utf8.decodeLenient sampleSource)) = sampleProgram.tokens ∧
      sampleProgram.IsReport (Node.ofBytes sampleSource).definitions ∧
      (Node.ofBytes sampleSource).definitions.functions = [⟨"f", 2, 3, ["$x"]⟩] ∧
      (Node.ofBytes sampleSource).definitions.executions = [⟨4, "f(1 args)"⟩] ∧
      (Node.ofBytes sampleSource).definitions.facts = [⟨4, "A(2 args)", "A"⟩] := by
  have htokens : tokenize (String.ofList (Text.Utf8.decodeLenient sampleSource)) =
      sampleProgram.tokens := by decide +kernel
  have hreport := definitions_of_program sampleProgram sampleSource htokens
  refine ⟨htokens, hreport, ?_, ?_, ?_⟩
  · rw [hreport.functions]
    decide +kernel
  · rw [hreport.executions]
    decide +kernel
  · rw [hreport.facts]
    decide +kernel

end CodeAtlas.Metta
