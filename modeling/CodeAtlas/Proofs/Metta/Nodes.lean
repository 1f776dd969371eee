import CodeAtlas.Metta.Definitions
import CodeAtlas.Metta.Token

/-! Nodes with children added to them, and the nodes of a tree in preorder. -/

namespace CodeAtlas.Metta.Node

def closedAt (node : Node) : Option Token → Node
  | some t => { node with lastLine := t.line, lastRow := t.line - 1 }
  | none => node

def signatureClosedAt (node : Node) : Option Token → Node
  | some t => { node with lastLine := t.line }
  | none => node

section
variable (node child : Node) (children : List Node)

@[simp] theorem kind_addChild : (node.addChild child).kind = node.kind := by
  unfold addChild
  split <;> rfl

@[simp] theorem value_addChild : (node.addChild child).value = node.value := by
  unfold addChild
  split <;> rfl

@[simp] theorem line_addChild : (node.addChild child).line = node.line := by
  unfold addChild
  split <;> rfl

@[simp] theorem children_addChild :
    (node.addChild child).children = node.children ++ [child] := by
  unfold addChild
  split <;> rfl

theorem addChildren_keeps {α : Type} {field : Node → α}
    (h : ∀ node child : Node, field (node.addChild child) = field node) :
    field (node.addChildren children) = field node := by
  induction children generalizing node with
  | nil => rfl
  | cons child children ih => exact (ih (node.addChild child)).trans (h node child)

@[simp] theorem kind_addChildren : (node.addChildren children).kind = node.kind :=
  addChildren_keeps node children kind_addChild

@[simp] theorem value_addChildren : (node.addChildren children).value = node.value :=
  addChildren_keeps node children value_addChild

@[simp] theorem line_addChildren : (node.addChildren children).line = node.line :=
  addChildren_keeps node children line_addChild

@[simp] theorem children_addChildren :
    (node.addChildren children).children = node.children ++ children := by
  induction children generalizing node with
  | nil => exact (List.append_nil _).symm
  | cons child children ih =>
    have hstep := ih (node.addChild child)
    rw [children_addChild, List.append_assoc] at hstep
    exact hstep

end

section
variable (kind : NodeKind) (value : String) (line : Int)

@[simp] theorem kind_leaf : (leaf kind value line).kind = kind := rfl
@[simp] theorem value_leaf : (leaf kind value line).value = value := rfl
@[simp] theorem line_leaf : (leaf kind value line).line = line := rfl
@[simp] theorem children_leaf : (leaf kind value line).children = [] := rfl

variable (lastLine : Option Int)

@[simp] theorem kind_make : (make kind value line lastLine).kind = kind := by
  unfold make
  split
  · split <;> rfl
  · rfl

@[simp] theorem value_make : (make kind value line lastLine).value = value := by
  unfold make
  split
  · split <;> rfl
  · rfl

@[simp] theorem line_make : (make kind value line lastLine).line = line := by
  unfold make
  split
  · split <;> rfl
  · rfl

@[simp] theorem children_make : (make kind value line lastLine).children = [] := by
  unfold make
  split
  · split <;> rfl
  · rfl

end

section
variable (node : Node) (t : Token) (t? : Option Token)

@[simp] theorem kind_closedAt : (node.closedAt t?).kind = node.kind := by
  cases t? <;> rfl

@[simp] theorem value_closedAt : (node.closedAt t?).value = node.value := by
  cases t? <;> rfl

@[simp] theorem line_closedAt : (node.closedAt t?).line = node.line := by
  cases t? <;> rfl

@[simp] theorem children_closedAt : (node.closedAt t?).children = node.children := by
  cases t? <;> rfl

@[simp] theorem lastLine_closedAt : (node.closedAt (some t)).lastLine = t.line := rfl

@[simp] theorem kind_signatureClosedAt : (node.signatureClosedAt t?).kind = node.kind := by
  cases t? <;> rfl

@[simp] theorem value_signatureClosedAt : (node.signatureClosedAt t?).value = node.value := by
  cases t? <;> rfl

@[simp] theorem line_signatureClosedAt : (node.signatureClosedAt t?).line = node.line := by
  cases t? <;> rfl

@[simp] theorem children_signatureClosedAt :
    (node.signatureClosedAt t?).children = node.children := by
  cases t? <;> rfl

end

mutual

theorem preorder_snd (depth : Nat) :
    ∀ node : Node, (node.preorder depth).map Prod.snd = node.nodes
  | ⟨_, _, _, _, _, _, children⟩ => by
    simp only [nodes, preorder, List.map_cons, preorderAll_snd]

theorem preorderAll_snd (depth : Nat) :
    ∀ all : List Node, (preorderAll depth all).map Prod.snd = all.flatMap nodes
  | [] => rfl
  | node :: all => by
    rw [preorderAll, List.map_append, preorder_snd depth node, preorderAll_snd depth all,
      List.flatMap_cons]

end

theorem nodes_eq (node : Node) : node.nodes = node :: node.children.flatMap nodes := by
  obtain ⟨kind, value, line, lastLine, firstRow, lastRow, children⟩ := node
  rw [nodes, preorder, List.map_cons, preorderAll_snd]

end CodeAtlas.Metta.Node
