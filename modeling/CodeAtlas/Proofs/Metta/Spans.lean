import CodeAtlas.Proofs.Metta.Joining

/-! The lines that nodes cover. Tokens come in the order of their lines, and so a node covers the
lines of its children, which lie below each other, and a preorder goes down the text. The last row
of a node goes with its last line, except that a signature is closed without moving its last row. -/

namespace CodeAtlas.Metta

def LinesFrom (line : Int) : List Token → Prop
  | [] => True
  | t :: rest => line ≤ t.line ∧ LinesFrom t.line rest

theorem LinesFrom.mono {line line' : Int} {tokens : List Token} (hle : line ≤ line')
    (h : LinesFrom line' tokens) : LinesFrom line tokens := by
  cases tokens with
  | nil => trivial
  | cons t rest => exact ⟨Int.le_trans hle h.1, h.2⟩

theorem Lexer.linesFrom_tokensAt (place : Place) (pieces : List (Lexeme × List Char)) :
    LinesFrom place.line (tokensAt place pieces) := by
  induction pieces generalizing place with
  | nil => trivial
  | cons piece pieces ih =>
    obtain ⟨lexeme, text⟩ := piece
    have hrest := ih (place.after lexeme text.length)
    cases lexeme with
    | token kind => exact ⟨Int.le_refl _, hrest⟩
    | newline =>
      apply hrest.mono
      simp only [Place.after]
      omega
    | padding | stray => exact hrest

theorem linesFrom_tokenize (s : String) : LinesFrom 1 (tokenize s) := by
  rw [tokenize, Lexer.tokensFrom_eq]
  exact Lexer.linesFrom_tokensAt .start _

namespace Node

def lowest (line : Int) : List Node → Int
  | [] => line
  | node :: nodes => lowest node.lastLine nodes

/-- How a node lies in the text, and its children in the node. -/
structure IsLaid (node : Node) : Prop where
  startPoint : node.startPoint = (node.line - 1, 0)
  line_le : node.line ≤ node.lastLine
  inside : ∀ child ∈ node.children, node.line ≤ child.line ∧ child.lastLine ≤ node.lastLine
  ordered : node.children.Pairwise fun child next => child.lastLine ≤ next.line
  lowest_le : lowest node.line node.children ≤ node.lastLine
  endPoint : node.endPoint =
    ((if node.kind = .signature then lowest node.line node.children else node.lastLine) - 1, 0)

def Stacked (line : Int) : List Node → Prop
  | [] => True
  | node :: nodes =>
    line ≤ node.line ∧ (∀ below ∈ node.nodes, below.IsLaid) ∧ Stacked node.lastLine nodes

theorem mem_nodes_self (node : Node) : node ∈ node.nodes := by
  rw [nodes_eq]
  exact List.mem_cons_self

section
variable {line : Int} {nodes : List Node}

theorem Stacked.le_lowest (h : Stacked line nodes) : line ≤ lowest line nodes := by
  induction nodes generalizing line with
  | nil => exact Int.le_refl line
  | cons node nodes ih =>
    obtain ⟨hline, hlaid, hrest⟩ := h
    have hspan := (hlaid node node.mem_nodes_self).line_le
    have hlow := ih hrest
    rw [lowest]
    omega

theorem Stacked.inside (h : Stacked line nodes) :
    ∀ node ∈ nodes, line ≤ node.line ∧ node.lastLine ≤ lowest line nodes := by
  induction nodes generalizing line with
  | nil => simp
  | cons node nodes ih =>
    obtain ⟨hline, hlaid, hrest⟩ := h
    have hspan := (hlaid node node.mem_nodes_self).line_le
    rw [lowest]
    intro other hother
    rcases List.mem_cons.1 hother with rfl | hother
    · exact ⟨hline, hrest.le_lowest⟩
    · have hlater := ih hrest other hother
      omega

theorem Stacked.ordered (h : Stacked line nodes) :
    nodes.Pairwise fun child next => child.lastLine ≤ next.line := by
  induction nodes generalizing line with
  | nil => exact .nil
  | cons node nodes ih =>
    obtain ⟨-, -, hrest⟩ := h
    exact .cons (fun next hnext => (hrest.inside next hnext).1) (ih hrest)

theorem Stacked.isLaid (h : Stacked line nodes) :
    ∀ node ∈ nodes, ∀ below ∈ node.nodes, below.IsLaid := by
  induction nodes generalizing line with
  | nil => simp
  | cons node nodes ih => exact List.forall_mem_cons.2 ⟨h.2.1, ih h.2.2⟩

end

/-- What a reader leaves behind it: a node that starts on `line` and is laid out all through, and
tokens that do not stand above its last line. -/
structure Covers (line : Int) (node : Node) (left : List Token) : Prop where
  line_eq : node.line = line
  isLaid : ∀ below ∈ node.nodes, below.IsLaid
  linesFrom : LinesFrom node.lastLine left

section
variable {node : Node} {children : List Node} {left : List Token} {line : Int} {kind : NodeKind}
  {value : String}

theorem covers_of_stacked (hline : node.line = line) (hchildren : Stacked line node.children)
    (hlow : lowest line node.children ≤ node.lastLine) (hfirst : node.firstRow = line - 1)
    (hlast : node.lastRow =
      (if node.kind = .signature then lowest line node.children else node.lastLine) - 1)
    (hleft : LinesFrom node.lastLine left) : Covers line node left := by
  subst hline
  refine ⟨rfl, ?_, hleft⟩
  have hself : node.IsLaid := by
    refine ⟨?_, Int.le_trans hchildren.le_lowest hlow, ?_, hchildren.ordered, hlow, ?_⟩
    · rw [startPoint, hfirst]
    · intro child hchild
      obtain ⟨hline, hend⟩ := hchildren.inside child hchild
      exact ⟨hline, Int.le_trans hend hlow⟩
    · rw [endPoint, hlast]
  intro below hbelow
  rw [nodes_eq] at hbelow
  rcases List.mem_cons.1 hbelow with rfl | hbelow
  · exact hself
  · obtain ⟨child, hchild, hbelow⟩ := List.mem_flatMap.1 hbelow
    exact hchildren.isLaid child hchild below hbelow

theorem firstRow_addChildren : (node.addChildren children).firstRow = node.firstRow := by
  apply addChildren_keeps
  intro node child
  unfold addChild
  split <;> rfl

theorem lastRow_addChildren (h : node.lastRow = node.lastLine - 1) :
    (node.addChildren children).lastRow = (node.addChildren children).lastLine - 1 := by
  induction children generalizing node with
  | nil => exact h
  | cons child children ih =>
    apply ih
    unfold addChild
    split
    · rfl
    · exact h

theorem lastLine_addChildren (hline : line ≤ node.lastLine) (h : Stacked line children) :
    (node.addChildren children).lastLine = max node.lastLine (lowest line children) := by
  induction children generalizing node line with
  | nil => exact (Int.max_eq_left hline).symm
  | cons child children ih =>
    obtain ⟨-, -, hrest⟩ := h
    have hlow := hrest.le_lowest
    have hlast := lastLine_addChild node child
    calc ((node.addChild child).addChildren children).lastLine
        = max (node.addChild child).lastLine (lowest child.lastLine children) :=
          ih (by omega) hrest
      _ = max node.lastLine (lowest line (child :: children)) := by
          rw [hlast, lowest]
          omega

theorem lastLine_grown (kind : NodeKind) (value : String) (h : Stacked line children) :
    ((leaf kind value line).addChildren children).lastLine = lowest line children :=
  (lastLine_addChildren (Int.le_refl line) h).trans (Int.max_eq_right h.le_lowest)

theorem lastRow_grown (kind : NodeKind) (value : String) (h : Stacked line children) :
    ((leaf kind value line).addChildren children).lastRow = lowest line children - 1 := by
  rw [lastRow_addChildren rfl, lastLine_grown kind value h]

theorem covers_closedAt (hkind : kind ≠ .signature) (value : String) (h : Stacked line children)
    (hleft : LinesFrom (lowest line children) left) :
    Covers line (((leaf kind value line).addChildren children).closedAt left.head?) left.tail := by
  have hlast := lastLine_grown kind value h
  cases left with
  | nil =>
    refine covers_of_stacked (by simp) (by simpa using h) ?_ firstRow_addChildren ?_ trivial
    · simp [closedAt, hlast]
    · simp [closedAt, hkind, hlast, lastRow_grown kind value h]
  | cons r left =>
    refine covers_of_stacked (by simp) (by simpa using h) ?_ firstRow_addChildren ?_ hleft.2
    · simpa using hleft.1
    · simp [closedAt, hkind]

theorem covers_signatureClosedAt (value : String) (h : Stacked line children)
    (hleft : LinesFrom (lowest line children) left) :
    Covers line (((leaf .signature value line).addChildren children).signatureClosedAt left.head?)
      left.tail := by
  have hrow := lastRow_grown .signature value h
  cases left with
  | nil =>
    refine covers_of_stacked (by simp) (by simpa using h) ?_ firstRow_addChildren ?_ trivial
    · simp [signatureClosedAt, lastLine_grown .signature value h]
    · simp [signatureClosedAt, hrow]
  | cons r left =>
    refine covers_of_stacked (by simp) (by simpa using h) ?_ firstRow_addChildren ?_ hleft.2
    · simpa [signatureClosedAt] using hleft.1
    · simp [signatureClosedAt, hrow]

theorem covers_leaf (hkind : kind ≠ .signature) (value : String) (hleft : LinesFrom line left) :
    Covers line (leaf kind value line) left := by
  refine covers_of_stacked rfl trivial (Int.le_refl line) rfl ?_ hleft
  rw [kind_leaf, if_neg hkind]
  rfl

end

end Node

namespace Parser

open CodeAtlas.Metta.Node

variable {t : Token} {rest tokens : List Token}

def ItemsLaid (tokens : List Token) : Prop :=
  ∀ line, LinesFrom line tokens → Stacked line (items tokens).value ∧
    LinesFrom (lowest line (items tokens).value) (items tokens).rest

def FormLaid (tokens : List Token) : Prop :=
  ∀ line, LinesFrom line tokens → Covers line (form line tokens).value (form line tokens).rest

theorem itemsLaid_stop (h : AtEnd tokens) : ItemsLaid tokens := by
  intro line hlines
  rw [(items_atEnd h).1, (items_atEnd h).2]
  exact ⟨trivial, hlines⟩

theorem stacked_cons {line : Int} {node : Node} {nodes : List Node} {left : List Token}
    (hle : line ≤ t.line) (hnode : Covers t.line node left) (h : Stacked node.lastLine nodes) :
    Stacked line (node :: nodes) := by
  refine ⟨?_, hnode.isLaid, h⟩
  rw [hnode.line_eq]
  exact hle

theorem itemsLaid_atom (ht : ¬ t.IsParen) (ih : ItemsLaid rest) : ItemsLaid (t :: rest) := by
  rintro line ⟨hle, hlines⟩
  have hkind : atomKind t.kind ≠ .signature := by cases t.kind <;> simp [atomKind]
  have hatom : Covers t.line (atom t) rest := covers_leaf hkind t.text hlines
  obtain ⟨hstacked, hleft⟩ := ih _ hatom.linesFrom
  rw [(items_atom ht).1, (items_atom ht).2]
  exact ⟨stacked_cons hle hatom hstacked, hleft⟩

theorem itemsLaid_open (ht : t.kind = .openParen) (hform : FormLaid rest)
    (ih : ItemsLaid (form t.line rest).rest) : ItemsLaid (t :: rest) := by
  rintro line ⟨hle, hlines⟩
  have hnode := hform t.line hlines
  obtain ⟨hstacked, hleft⟩ := ih _ hnode.linesFrom
  rw [(items_open ht).1, (items_open ht).2]
  exact ⟨stacked_cons hle hnode hstacked, hleft⟩

theorem formLaid_empty (h : AtEnd tokens) : FormLaid tokens := by
  intro line hlines
  cases tokens with
  | nil =>
    rw [form_nil.1, form_nil.2]
    exact covers_leaf (by simp) "" trivial
  | cons r rest =>
    have hr := atEnd_cons.1 h
    rw [(form_close hr).1, (form_close hr).2]
    exact covers_leaf (by simp) "" (hlines.2.mono hlines.1)

theorem formLaid_call (hc : t.kind ≠ .closeParen) (he : t.kind ≠ .equals)
    (ih : ItemsLaid (t :: rest)) : FormLaid (t :: rest) := by
  intro line hlines
  obtain ⟨hstacked, hleft⟩ := ih line hlines
  rw [(form_call hc he).1, (form_call hc he).2]
  exact covers_closedAt (by simp) "" hstacked hleft

theorem formLaid_plain (he : t.kind = .equals) (h : ∀ u ∈ rest.head?, u.kind ≠ .openParen)
    (ih : ItemsLaid rest) : FormLaid (t :: rest) := by
  rintro line ⟨hle, hlines⟩
  obtain ⟨hstacked, hleft⟩ := ih line (hlines.mono hle)
  rw [(form_plain he h).1, (form_plain he h).2]
  exact covers_closedAt (by simp) "" hstacked hleft

theorem formLaid_nameless {o : Token} (he : t.kind = .equals) (ho : o.kind = .openParen)
    (h : AtEnd rest) : FormLaid (t :: o :: rest) := by
  rintro line ⟨hle, hle', hlines⟩
  rw [(form_nameless he ho h).1, (form_nameless he ho h).2]
  have hline : LinesFrom line rest := hlines.mono (Int.le_trans hle hle')
  exact @covers_closedAt [] rest line .definition (by simp) "" trivial hline

theorem formLaid_named {o name : Token} (he : t.kind = .equals) (ho : o.kind = .openParen)
    (hn : name.kind ≠ .closeParen) (hparameters : ItemsLaid rest)
    (hbody : ItemsLaid (items rest).rest.tail) : FormLaid (t :: o :: name :: rest) := by
  rintro line ⟨hle, hle', hle'', hlines⟩
  have hname : line ≤ name.line := Int.le_trans hle (Int.le_trans hle' hle'')
  obtain ⟨hstacked, hleft⟩ := hparameters name.line hlines
  have hsignature := covers_signatureClosedAt name.text hstacked hleft
  obtain ⟨hstacked', hleft'⟩ := hbody _ hsignature.linesFrom
  rw [(form_named he ho hn).1, (form_named he ho hn).2]
  exact covers_closedAt (by simp) "" (stacked_cons hname hsignature hstacked') hleft'

theorem laid_all : (∀ tokens, ItemsLaid tokens) ∧ ∀ tokens, FormLaid tokens :=
  Parser.induction (fun _ => itemsLaid_stop) (fun _ _ => itemsLaid_atom)
    (fun _ _ => itemsLaid_open) (fun _ => formLaid_empty) (fun _ _ => formLaid_call)
    (fun _ _ => formLaid_plain) (fun _ _ _ => formLaid_nameless)
    (fun _ _ _ _ => formLaid_named)

theorem covers_execution (ht : (1 : Int) ≤ t.line) (h : LinesFrom t.line rest) :
    Covers t.line (execution t rest).value (execution t rest).rest := by
  rcases open_or_not rest with halone | ⟨u, later, rfl, hu⟩
  · rw [(execution_alone halone).1, (execution_alone halone).2]
    exact covers_leaf (by simp) "!" h
  · obtain ⟨hle, hlines⟩ := h
    have hbody := laid_all.2 later u.line hlines
    rw [(execution_open hu).1, (execution_open hu).2]
    generalize (form u.line later).value = body at hbody ⊢
    have hstart := hbody.line_eq
    have hspan := (hbody.isLaid body body.mem_nodes_self).line_le
    have hmake : make .execution "!" t.line (some body.lastLine) =
        span .execution "!" t.line body.lastLine := if_neg (by omega)
    have hlast : ((span .execution "!" t.line body.lastLine).addChild body).lastLine =
        body.lastLine := (lastLine_addChild _ _).trans (Int.max_self _)
    rw [hmake]
    apply covers_of_stacked
    · exact line_addChild _ _
    · rw [children_addChild]
      exact stacked_cons hle hbody trivial
    · rw [children_addChild, hlast]
      exact Int.le_refl _
    · exact @firstRow_addChildren _ [body]
    · rw [kind_addChild, if_neg (by simp [span])]
      exact @lastRow_addChildren _ [body] rfl
    · rw [hlast]
      exact hbody.linesFrom

theorem covers_topLevel (ht : (1 : Int) ≤ t.line) (h : LinesFrom t.line rest) :
    (∃ node, (topLevel t rest).value = some node ∧ Covers t.line node (topLevel t rest).rest) ∨
      (topLevel t rest).value = none ∧ (topLevel t rest).rest = rest := by
  by_cases hc : t.kind = .comment
  · rw [(topLevel_comment hc).1, (topLevel_comment hc).2]
    exact .inl ⟨_, rfl, covers_leaf (by simp) _ h⟩
  by_cases he : t.kind = .execute
  · rw [(topLevel_execute he).1, (topLevel_execute he).2]
    exact .inl ⟨_, rfl, covers_execution ht h⟩
  by_cases ho : t.kind = .openParen
  · rw [(topLevel_open ho).1, (topLevel_open ho).2]
    exact .inl ⟨_, rfl, laid_all.2 rest t.line h⟩
  · exact .inr (topLevel_other hc he ho)

theorem stacked_topLevels {line : Int} (hline : 1 ≤ line) (h : LinesFrom line tokens) :
    Stacked line (topLevels tokens) := by
  induction tokens using topLevels_induction generalizing line with
  | nil =>
    rw [topLevels]
    trivial
  | step t rest ih =>
    obtain ⟨hle, hlines⟩ := h
    have ht := Int.le_trans hline hle
    rw [topLevels_cons]
    rcases covers_topLevel ht hlines with ⟨node, hvalue, hnode⟩ | ⟨hvalue, hrest⟩
    · have hstart := hnode.line_eq
      have hspan := (hnode.isLaid node node.mem_nodes_self).line_le
      rw [hvalue]
      exact stacked_cons hle hnode (ih (by omega) hnode.linesFrom)
    · rw [hvalue]
      refine ih hline ?_
      rw [hrest]
      exact hlines.mono hle

end Parser

namespace Node

theorem isLaid_ofBytes (bytes : List UInt8) : ∀ node ∈ (ofBytes bytes).nodes, node.IsLaid := by
  have hlines := linesFrom_tokenize (String.ofList (Text.Utf8.decodeLenient bytes))
  have hchildren := Parser.stacked_topLevels (Int.le_refl 1) hlines
  exact (@covers_closedAt _ [] 1 .program (by simp) "" hchildren trivial).isLaid

theorem sizeOf_lt_of_mem_children {node child : Node} (h : child ∈ node.children) :
    sizeOf child < sizeOf node := by
  obtain ⟨kind, value, line, lastLine, firstRow, lastRow, children⟩ := node
  have hlt : sizeOf child < sizeOf children := List.sizeOf_lt_of_mem h
  rw [mk.sizeOf_spec]
  omega

theorem induction {P : Node → Prop}
    (step : ∀ node : Node, (∀ child ∈ node.children, P child) → P node) (node : Node) : P node := by
  apply step
  intro child hchild
  exact induction step child
termination_by sizeOf node
decreasing_by exact sizeOf_lt_of_mem_children hchild

theorem preorder_of_isLaid (node : Node) : (∀ below ∈ node.nodes, below.IsLaid) →
    (∀ below ∈ node.nodes, node.line ≤ below.line ∧ below.lastLine ≤ node.lastLine) ∧
      node.nodes.Pairwise fun a b => a.line ≤ b.line := by
  induction node using induction with
  | step node ih =>
    intro h
    have hself := h node node.mem_nodes_self
    rw [nodes_eq] at h ⊢
    have hbelow (child : Node) (hchild : child ∈ node.children) :
        ∀ below ∈ child.nodes, below.IsLaid := fun below hmem =>
      h below (List.mem_cons_of_mem _ (List.mem_flatMap.2 ⟨child, hchild, hmem⟩))
    have hcover : ∀ below ∈ node.children.flatMap nodes,
        node.line ≤ below.line ∧ below.lastLine ≤ node.lastLine := by
      intro below hmem
      obtain ⟨child, hchild, hmem⟩ := List.mem_flatMap.1 hmem
      have hchild' := hself.inside child hchild
      have hmem' := (ih child hchild (hbelow child hchild)).1 below hmem
      omega
    constructor
    · exact List.forall_mem_cons.2 ⟨⟨Int.le_refl _, Int.le_refl _⟩, hcover⟩
    · refine .cons (fun below hmem => (hcover below hmem).1) (List.pairwise_flatMap.2 ⟨?_, ?_⟩)
      · exact fun child hchild => (ih child hchild (hbelow child hchild)).2
      · apply hself.ordered.imp_of_mem
        intro child next hchild hnext hle a ha b hb
        have hspan := (hbelow child hchild a ha).line_le
        have hupper := (ih child hchild (hbelow child hchild)).1 a ha
        have hlower := (ih next hnext (hbelow next hnext)).1 b hb
        omega

theorem line_of_function? {node : Node} {f : Function} (h : node.function? = some f) :
    f.firstLine = node.line ∧ f.lastLine = node.lastLine := by
  unfold function? at h
  split at h
  · obtain ⟨signature, -, rfl⟩ := Option.map_eq_some_iff.1 h
    exact ⟨rfl, rfl⟩
  · cases h

theorem line_of_execution? {node : Node} {e : Execution} (h : node.execution? = some e) :
    e.line = node.line := by
  unfold execution? at h
  split at h
  · obtain ⟨body, -, rfl⟩ := Option.map_eq_some_iff.1 h
    rfl
  · cases h

theorem line_of_fact? {node : Node} {f : Fact} (h : node.fact? = some f) :
    f.line = node.line := by
  unfold fact? at h
  split at h
  · split at h
    · cases h
      rfl
    · cases h
  · cases h

theorem pairwise_filterMap_line {α : Type} {nodes : List Node} {read? : Node → Option α}
    {line : α → Int} (hread : ∀ node a, read? node = some a → line a = node.line)
    (h : nodes.Pairwise fun a b => a.line ≤ b.line) :
    (nodes.filterMap read?).Pairwise fun a b => line a ≤ line b := by
  refine h.filterMap read? ?_
  intro node node' hle a ha b hb
  rw [hread node a ha, hread node' b hb]
  exact hle

end Node

open CodeAtlas.Metta.Node

/-- Lines nest as nodes do: a node starts in the row of its line, its children lie inside of it and
below each other, and a report lists functions, executions and facts as they come in the text. -/
theorem lines_nest (bytes : List UInt8) :
    (∀ node ∈ (Node.ofBytes bytes).nodes,
      1 ≤ node.line ∧ node.line ≤ node.lastLine ∧ node.startPoint = (node.line - 1, 0) ∧
      (∀ child ∈ node.children, node.line ≤ child.line ∧ child.lastLine ≤ node.lastLine) ∧
      node.children.IsChain fun child next => child.lastLine ≤ next.line) ∧
    (Node.ofBytes bytes).definitions.functions.Pairwise (fun f g => f.firstLine ≤ g.firstLine) ∧
    (Node.ofBytes bytes).definitions.executions.Pairwise (fun e e' => e.line ≤ e'.line) ∧
    (Node.ofBytes bytes).definitions.facts.Pairwise (fun f g => f.line ≤ g.line) ∧
    ∀ f ∈ (Node.ofBytes bytes).definitions.functions, f.firstLine ≤ f.lastLine := by
  have hlaid := isLaid_ofBytes bytes
  obtain ⟨hbelow, hdown⟩ := preorder_of_isLaid _ hlaid
  have hroot : (Node.ofBytes bytes).line = 1 := line_addChildren _ _
  refine ⟨?_, ?_, ?_, ?_, ?_⟩
  · intro node hnode
    obtain ⟨hstart, hspan, hinside, hordered, -, -⟩ := hlaid node hnode
    have hline := (hbelow node hnode).1
    rw [hroot] at hline
    exact ⟨hline, hspan, hstart, hinside, hordered.isChain⟩
  · exact pairwise_filterMap_line (fun _ _ h => (line_of_function? h).1) hdown
  · exact pairwise_filterMap_line (fun _ _ => line_of_execution?) hdown
  · exact pairwise_filterMap_line (fun _ _ => line_of_fact?) hdown
  · intro f hf
    obtain ⟨node, hnode, hread⟩ := List.mem_filterMap.1 hf
    rw [(line_of_function? hread).1, (line_of_function? hread).2]
    exact (hlaid node hnode).line_le

def spreadForms : List UInt8 := Text.Utf8.encode "(= (f\n$x)\n(A $x\nC)) !(f ()\n(A b C"

theorem spreadForms_nest :
    (Node.ofBytes spreadForms).children.map (fun c => (c.line, c.lastLine)) = [(1, 4), (4, 5)] ∧
      ((Node.ofBytes spreadForms).children.IsChain fun child next => child.lastLine ≤ next.line) ∧
      (Node.ofBytes spreadForms).definitions.facts.map Fact.line = [3, 4, 5] ∧
      (Node.ofBytes spreadForms).definitions.facts.Pairwise (fun f g => f.line ≤ g.line) := by
  obtain ⟨hnodes, -, -, hfacts, -⟩ := lines_nest spreadForms
  obtain ⟨-, -, -, -, hchain⟩ := hnodes _ (mem_nodes_self _)
  refine ⟨?_, hchain, ?_, hfacts⟩
  · decide +kernel
  · decide +kernel

/-- A node ends in the row of its last line, unless it is a signature that is closed below its last
parameter, or below its name if it has none. -/
theorem end_point_iff (bytes : List UInt8) :
    ∀ node ∈ (Node.ofBytes bytes).nodes, node.endPoint = (node.lastLine - 1, 0) ↔
      (node.kind = .signature → node.lastLine = lowest node.line node.children) := by
  intro node hnode
  have hlaid := isLaid_ofBytes bytes node hnode
  rw [hlaid.endPoint]
  by_cases hkind : node.kind = .signature
  · rw [if_pos hkind, Prod.mk.injEq]
    constructor
    · intro hrow _
      omega
    · intro hlast
      exact ⟨by rw [hlast hkind], rfl⟩
  · rw [if_neg hkind]
    exact ⟨fun _ hsignature => absurd hsignature hkind, fun _ => rfl⟩

def closedBelow : List UInt8 := Text.Utf8.encode "(= (f\n) x)"

theorem closedBelow_signature : ∃ node ∈ (Node.ofBytes closedBelow).nodes,
    node.kind = .signature ∧ node.lastLine = 2 ∧ node.endPoint = (0, 0) ∧
      node.endPoint ≠ (node.lastLine - 1, 0) := by
  have hany : (Node.ofBytes closedBelow).nodes.any fun node => node.kind = .signature ∧
      node.lastLine = 2 ∧ node.endPoint = (0, 0) ∧ lowest node.line node.children = 1 := by
    decide +kernel
  obtain ⟨node, hnode, htest⟩ := List.any_eq_true.1 hany
  obtain ⟨hkind, hlast, hend, hlow⟩ := of_decide_eq_true htest
  refine ⟨node, hnode, hkind, hlast, hend, ?_⟩
  intro hpoint
  have hlowest := (end_point_iff closedBelow node hnode).1 hpoint hkind
  omega

end CodeAtlas.Metta
